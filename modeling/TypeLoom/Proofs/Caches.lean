import TypeLoom.Assembly.Request
import TypeLoom.Proofs.Attempts

/-!
# Cached types

A pipeline caches the type that it made for an identifier. What a request was answered stays in the
cache and is answered from then on, whatever commands follow, at whatever depth, until a request for
the same identifier ends that was under way before.
-/

namespace TypeLoom

open Attempt

/-! ### Plans -/

theorem Plan.maintains_run {Action : Type} {Answer : Action → Type} {α σ : Type} {P : σ → Prop}
    {handle : (action : Action) → Attempt σ (Answer action)}
    (h : ∀ action, Maintains P (handle action)) (plan : Plan Action Answer α) :
        Maintains P (plan.run handle) := by
  induction plan with
  | done value => exact maintains_pure value
  | fail fault => exact maintains_throw fault
  | act action next ih => exact maintains_bind (h action) ih

namespace Session

/-- The type that a pipeline has cached for an identifier. -/
def cached? (s : Session) (p : PipelineId) (id : Identifier) : Option TypeId :=
  (s.pipeline p).types.find? id

structure CachesKept (s s' : Session) : Prop where
  size : s.pipelines.size ≤ s'.pipelines.size
  types : ∀ p : PipelineId, p.index < s.pipelines.size →
    (s'.pipeline p).types = (s.pipeline p).types

variable {s s' : Session} {p q : PipelineId} {id key : Identifier} {t : TypeId} {I : Session →
  Prop} {α : Type}

theorem CachesKept.of_pipelines (h : s'.pipelines = s.pipelines) : CachesKept s s' where
  size := Nat.le_of_eq (by rw [h])
  types := fun p _ => by rw [pipeline, h, pipeline]

theorem pipeline_of_le (h : s.pipelines.size ≤ p.index) : s.pipeline p = default := by
  rw [pipeline, Array.getD_eq_getD_getElem?, Array.getElem?_eq_none h, Option.getD_none]

theorem lt_of_cached (h : s.cached? p id = some t) : p.index < s.pipelines.size := by
  rcases Nat.lt_or_ge p.index s.pipelines.size with hlt | hge
  · exact hlt
  · rw [cached?, pipeline_of_le hge] at h
    cases h

theorem CachesKept.cached (hkept : CachesKept s s') (h : s.cached? p id = some t) :
    s'.cached? p id = some t := by
  rw [cached?, hkept.types p (lt_of_cached h)]
  exact h

/-! ### What leaves the caches alone -/

/-- A property of sessions that is about nothing but cached types. -/
def Blind (I : Session → Prop) : Prop := ∀ s s', CachesKept s s' → I s → I s'

theorem blind_cached : Blind fun s => s.cached? p id = some t := fun _ _ hkept h => hkept.cached h

theorem pipeline_modify (s : Session) (q p : PipelineId) (change : Pipeline → Pipeline) :
    ({ s with pipelines := s.pipelines.modify q.index change } : Session).pipeline p
      = if q = p ∧ p.index < s.pipelines.size then change (s.pipeline p) else s.pipeline p := by
  simp only [pipeline, Array.getD_eq_getD_getElem?, Array.getElem?_modify]
  by_cases hlt : p.index < s.pipelines.size
  · by_cases hq : q = p
    · simp [hq, hlt]
    · have hindex : q.index ≠ p.index := fun h => hq (by cases q; cases p; simp_all)
      simp [hq, hindex]
  · by_cases hq : q.index = p.index <;> simp [hlt, hq]

theorem cachesKept_modify (s : Session) (q : PipelineId) {change : Pipeline → Pipeline}
    (h : ∀ line, (change line).types = line.types) :
    CachesKept s { s with pipelines := s.pipelines.modify q.index change } where
  size := by simp
  types := fun p _ => by
    rw [pipeline_modify]
    split
    · exact h _
    · rfl

theorem maintains_ask (query : Session → Except Fault α) : Maintains I (ask query) :=
  maintains_bind maintains_get fun _ => maintains_lift _

section Blind

variable (hI : Blind I)
include hI

theorem maintains_of_kept {act : Attempt Session α} (h : ∀ s, CachesKept s (act.start s).2) :
    Maintains I act := by
  intro s hs
  exact wp_const.mpr (hI _ _ (h s) hs)

theorem maintains_inRegistry (r : RegistryId) (act : Attempt TypeSpace α) :
    Maintains I (inRegistry r act) :=
  maintains_of_kept hI fun _ => .of_pipelines rfl

theorem maintains_generate (g : GeneratorId) (objectType : TypeId) (batch : Batch) :
    Maintains I (generate g objectType batch) :=
  maintains_of_kept hI fun _ => .of_pipelines rfl

end Blind

/-! ### Modules -/

/-- A property of sessions that has nothing to do with modules, their names or who makes them. -/
def Aloof (I : Session → Prop) : Prop :=
  ∀ s s', s'.program = s.program → s'.registries = s.registries → s'.pipelines = s.pipelines → I s →
    I s'

theorem Blind.aloof (hI : Blind I) : Aloof I := fun _ _ _ _ h => hI _ _ (.of_pipelines h)

section Modules

variable (hI : Aloof I)
include hI

theorem maintains_aside {f : Session → Session}
    (h : ∀ s, (f s).program = s.program ∧ (f s).registries = s.registries
      ∧ (f s).pipelines = s.pipelines) :
    Maintains I (modify f : Attempt Session PUnit) :=
  maintains_modify fun s hs => hI _ _ (h s).1 (h s).2.1 (h s).2.2 hs

theorem maintains_nextModuleName (n : NamingId) : Maintains I (nextModuleName n) := by
  refine maintains_bind maintains_get fun _ => ?_
  refine maintains_bind (maintains_aside hI fun _ => ⟨rfl, rfl, rfl⟩) fun _ => ?_
  exact maintains_pure _

theorem maintains_addGenerator (registry : RegistryId) (naming : NamingId) :
    Maintains I (addGenerator registry naming) := by
  refine maintains_bind (maintains_nextModuleName hI naming) fun _ => ?_
  refine maintains_bind maintains_get fun _ => ?_
  refine maintains_bind (maintains_aside hI fun _ => ⟨rfl, rfl, rfl⟩) fun _ => ?_
  exact maintains_pure _

theorem maintains_dequeue (pool : PoolId) (t : Thread) : Maintains I (dequeue pool t) := by
  refine maintains_bind maintains_get fun s => ?_
  split
  · exact maintains_throw _
  · refine maintains_bind maintains_get fun before => maintains_bind (maintains_aside hI fun _ =>
      ⟨rfl, rfl, rfl⟩) fun _ => ?_
    refine maintains_ite (maintains_bind (maintains_addGenerator hI _ _) fun g => ?_)
      (maintains_pure _)
    exact maintains_bind (maintains_aside hI fun _ => ⟨rfl, rfl, rfl⟩) fun _ => maintains_pure _

theorem maintains_enqueue (pool : PoolId) (t : Thread) (lease : Lease) :
    Maintains I (enqueue pool t lease) :=
  fun s hs => wp_const.mpr (hI s _ rfl rfl rfl hs)

theorem maintains_withLease (pool : PoolId) (t : Thread) {act : GeneratorId → Attempt Session α}
    (h : ∀ g, Maintains I (act g)) : Maintains I (withLease pool t act) := by
  refine maintains_bind (maintains_dequeue hI pool t) fun lease => ?_
  refine maintains_bind maintains_get fun _ => ?_
  refine maintains_bind (maintains_outcome (h _)) fun _ => ?_
  refine maintains_bind (maintains_enqueue hI pool t lease) fun _ => ?_
  exact maintains_lift _

variable (hgiveUp : ∀ s g, I s → I (s.giveUpUnfinished g))
include hgiveUp

theorem maintains_startModule (g : GeneratorId) : Maintains I (startModule g) := by
  refine maintains_bind maintains_get fun _ => ?_
  refine maintains_bind (maintains_nextModuleName hI _) fun _ => ?_
  exact maintains_modify fun s hs => hI (s.giveUpUnfinished g) _ rfl rfl rfl (hgiveUp s g hs)

theorem maintains_flushGenerator (g : GeneratorId) (configuration : String) :
    Maintains I (flushGenerator g configuration) := by
  refine maintains_bind maintains_get fun s => maintains_ite (maintains_pure _) ?_
  have hwrite : ∀ d name text, Maintains I (writeFile d name text) := fun d name text =>
    maintains_ite (maintains_bind (maintains_throw _) fun _ => maintains_aside hI fun _ =>
      ⟨rfl, rfl, rfl⟩)
      (maintains_aside hI fun _ => ⟨rfl, rfl, rfl⟩)
  have hrest : ∀ text, Maintains I (do
      writeFile (s.naming (s.generator g).naming).directory ((s.generator g).moduleName ++ ".xml")
        text
      startModule g
      return some (⟨(s.generator g).moduleName ++ ".xml", text⟩ : WrittenModule)) := fun text =>
    maintains_bind (hwrite _ _ _) fun _ => maintains_bind (maintains_startModule hI hgiveUp g)
      fun _ => maintains_pure _
  exact maintains_ite (maintains_bind (maintains_throw _) fun _ =>
    maintains_bind (maintains_lift _) hrest)
    (maintains_bind (maintains_lift _) hrest)

end Modules

end Session

end TypeLoom
