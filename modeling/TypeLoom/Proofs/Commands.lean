import TypeLoom.Proofs.Caches
import TypeLoom.Proofs.Sparing

/-!
# What commands keep

A command does little by itself: it leases contexts, generates batches, writes and reads modules,
and remembers what it came by. What each of these keeps is kept by every command, whatever
participants do in between and at whatever depth.
-/

namespace TypeLoom

open Attempt

variable {I : List GeneratorId → Session → Prop} {gs : List GeneratorId}
  {requests : Requests} {α : Type}

/-! ### Steps of commands -/

namespace Session

structure ModulesKept (s s' : Session) : Prop where
  program : s'.program = s.program
  registries : s'.registries = s.registries
  directories : s'.directories = s.directories
  namings : s'.namings = s.namings
  generators : s'.generators = s.generators
  pools : s'.pools = s.pools
  held : s'.held = s.held
  lines : ∀ q, (s'.pipeline q).configuration = (s.pipeline q).configuration
    ∧ (s'.pipeline q).registry = (s.pipeline q).registry
    ∧ (s'.pipeline q).pool = (s.pipeline q).pool

theorem modulesKept_modify (s : Session) (q : PipelineId) {change : Pipeline → Pipeline}
    (h : ∀ line, (change line).configuration = line.configuration
      ∧ (change line).registry = line.registry
      ∧ (change line).pool = line.pool) :
      ModulesKept s { s with pipelines := s.pipelines.modify q.index change } := by
  refine ⟨rfl, rfl, rfl, rfl, rfl, rfl, rfl, fun p => ?_⟩
  rw [pipeline_modify]
  split
  · exact h _
  · exact ⟨rfl, rfl, rfl⟩

def CountsOn (s s' : Session) : Prop := ∀ q, (s.pipeline q).proxyNames ≤ (s'.pipeline q).proxyNames

theorem CountsOn.of_pipelines (h : s'.pipelines = s.pipelines) : CountsOn s s' := fun q =>
  Nat.le_of_eq (by rw [pipeline, pipeline, h])

theorem countsOn_modify (s : Session) (q : PipelineId) {change : Pipeline → Pipeline}
    (h : ∀ line, line.proxyNames ≤ (change line).proxyNames) :
    CountsOn s { s with pipelines := s.pipelines.modify q.index change } := fun p => by
  rw [pipeline_modify]
  split
  · exact h _
  · exact Nat.le_refl _

/-- A property that the steps of commands keep in which nothing is generated, while leases of
these generators are held, the last one first. -/
structure Calm (I : List GeneratorId → Session → Prop) : Prop where
  aside : ∀ {gs s s'}, ModulesKept s s' → CachesKept s s' → CountsOn s s' → I gs s → I gs s'
  read : ∀ {gs} (r : RegistryId) (text : String),
    Maintains (I gs) (inRegistry r (Artifact.decode text))
  lease : ∀ {gs} {α : Type} (q : PipelineId) {act : GeneratorId → Attempt Session α},
    (∀ g, Maintains (I (g :: gs)) (act g)) →
      Maintains (I gs) (do withLease ((← get).pipeline q).pool Thread.main act)
  flush : ∀ {gs} (q : PipelineId), Maintains (I gs) (flush q)

structure Steady (I : List GeneratorId → Session → Prop) : Prop extends Calm I where
  generate : ∀ {gs} (g : GeneratorId) (objectType : TypeId) (batch : Batch),
    Maintains (I (g :: gs)) (Session.generate g objectType batch)

section Steps

variable (hI : Calm I)
include hI

theorem calm_modify {f : Session → Session} (hmodules : ∀ s, ModulesKept s (f s))
    (hcaches : ∀ s, CachesKept s (f s)) (hcounts : ∀ s, CountsOn s (f s)) :
    Maintains (I gs) (modify f : Attempt Session PUnit) :=
  maintains_modify fun s hs => hI.aside (hmodules s) (hcaches s) (hcounts s) hs

theorem calm_evaluate (act : Universe → Evaluation α) : Maintains (I gs) (evaluate act) := by
  have hheap : ∀ (s : Session) (heap : Heap), ModulesKept s { s with heap } := fun s heap =>
    ⟨rfl, rfl, rfl, rfl, rfl, rfl, rfl, fun _ => ⟨rfl, rfl, rfl⟩⟩
  refine maintains_bind maintains_get fun u => ?_
  exact maintains_within (Q := fun _ => True) (fun _ _ => wp_const.mpr trivial) (fun _ _ => trivial)
      fun heap s hs _ =>
    hI.aside (hheap s heap) (.of_pipelines rfl) (.of_pipelines rfl) hs

theorem calm_editPipeline (q : PipelineId) {change : Pipeline → Pipeline}
    (h : ∀ line, (change line).configuration = line.configuration
      ∧ (change line).registry = line.registry
      ∧ (change line).pool = line.pool) (htypes : ∀ line, (change line).types = line.types)
    (hcounts : ∀ line, line.proxyNames ≤ (change line).proxyNames) :
      Maintains (I gs) (editPipeline q change) :=
  calm_modify hI (fun s => modulesKept_modify s q h) (fun s => cachesKept_modify s q htypes)
    fun s => countsOn_modify s q hcounts

end Steps

end Session

/-! ### Assemblies -/

def Scene.About (P : Session → Prop) (scene : Scene) : Prop := P scene.session

section Assembly

open Scene Session

theorem Scene.maintains_inSession {P : Session → Prop} {act : Attempt Session α}
    (h : Maintains P act) :
    Maintains (About P) (inSession act) :=
  Attempt.maintains_within h (fun _ hs => hs) fun _ _ _ hinner => hinner

/-- What begins with nothing drafted keeps the property. -/
def Scene.Preserves (P : Session → Prop) (act : Attempt Scene α) : Prop :=
  ∀ s, P s → act.wp (fun _ => About P) (About P) { session := s }

theorem Scene.preserves_of_maintains {P : Session → Prop} {act : Attempt Scene α}
    (h : Maintains (About P) act) : Preserves P act :=
  fun _ hs => h _ hs

theorem Scene.maintains_inBatch {P : Session → Prop} (act : Attempt Batch α) : Maintains (About P)
    (inBatch act) := by
  intro scene hs
  exact wp_const.mpr hs

variable (hI : Calm I) (hrequests : ∀ gs c, Maintains (I gs) (requests c))

include hI in
theorem Session.maintains_proxyName (p : PipelineId) (requested : TypeId) :
    Maintains (I gs) (proxyName p requested) := by
  have hwithin : ∀ tries, Maintains (I gs) (proxyNameWithin p requested tries) := by
    intro tries
    induction tries with
    | zero =>
      exact maintains_bind maintains_get fun _ => maintains_bind maintains_get fun _ =>
        maintains_pure _
    | succ tries ih =>
      refine maintains_bind (calm_editPipeline hI p (fun _ => ⟨rfl, rfl, rfl⟩) (fun _ => rfl)
        fun _ => Nat.le_succ _) fun _ => ?_
      refine maintains_bind maintains_get fun s => ?_
      exact maintains_ite ih (maintains_pure _)
  exact maintains_bind maintains_get fun s => hwithin _

include hI hrequests

theorem Action.maintains_perform (action : Action) :
    Maintains (I gs) (action.perform requests) := by
  have hmodules : ∀ s s' : Session, s'.pipelines = s.pipelines → s'.program = s.program →
    s'.registries = s.registries →
      s'.directories = s.directories → s'.namings = s.namings → s'.generators = s.generators →
      s'.pools = s.pools →
      s'.held = s.held → s.ModulesKept s' := by
    intro s s' hpipelines hprogram hregistries hdirectories hnamings hgenerators hpools hheld
    refine ⟨hprogram, hregistries, hdirectories, hnamings, hgenerators, hpools, hheld, fun q => ?_⟩
    rw [pipeline, hpipelines]
    exact ⟨rfl, rfl, rfl⟩
  cases action with
  | look => exact maintains_get
  | note datum =>
    exact calm_modify hI (fun s => hmodules s _ rfl rfl rfl rfl rfl rfl rfl rfl) (fun _ =>
      .of_pipelines rfl)
      fun _ => .of_pipelines rfl
  | countAbsent total =>
    exact calm_modify hI (fun s => hmodules s _ rfl rfl rfl rfl rfl rfl rfl rfl) (fun _ =>
      .of_pipelines rfl)
      fun _ => .of_pipelines rfl
  | send command => exact maintains_outcome (hrequests gs command)

theorem DraftAction.maintains_perform (action : DraftAction) : Maintains (About (I gs))
    (action.perform requests) := by
  cases action with
  | general action => exact maintains_inSession (Action.maintains_perform hI hrequests action)
  | readState => exact maintains_bind maintains_get fun _ => maintains_pure _
  | writeState state => exact maintains_modify fun _ hs => hs
  | view => exact maintains_bind maintains_get fun _ => maintains_pure _
  | edit e => exact maintains_bind maintains_get fun _ => maintains_inBatch _
  | whenGenerated callback => exact maintains_modify fun _ hs => hs

theorem Errand.maintains_run (errand : Errand α) :
    Maintains (I gs) (errand.run (Action.perform requests)) :=
  Plan.maintains_run (Action.maintains_perform hI hrequests) errand

theorem Contribution.maintains_run (contribution : Contribution α) :
    Maintains (About (I gs)) (contribution.run (DraftAction.perform requests)) :=
  Plan.maintains_run (DraftAction.maintains_perform hI hrequests) contribution

namespace Assembler

variable (a : Assembler) (ha : a.requests = requests)
include ha

theorem maintains_draftProxy (id : Identifier) : Maintains (About (I gs)) (a.draftProxy id) := by
  subst ha
  refine maintains_bind (maintains_inSession (maintains_proxyName hI _ _)) fun name =>
    maintains_get_bind fun scene hs => ?_
  rw [wp_bind, wp_set]
  refine maintains_bind (maintains_forM _ fun item _ => ?_) (fun _ => maintains_pure _) _ hs
  exact Contribution.maintains_run hI hrequests _

omit hI hrequests ha in
theorem maintains_stamp {P : Session → Prop} (id : Identifier) (proxy : TypeHandle) :
    Maintains (About P) (a.stamp id proxy) := by
  refine maintains_bind (maintains_inBatch _) fun _ => ?_
  refine maintains_bind (maintains_inBatch _) fun _ => ?_
  refine maintains_bind maintains_get fun _ => ?_
  refine maintains_bind (maintains_lift _) fun _ => ?_
  refine maintains_bind (maintains_lift _) fun _ => ?_
  exact maintains_inBatch _

omit hI in
theorem maintains_generateBatch (hI : Steady I) :
    Maintains (About (I (a.generator :: gs))) a.generateBatch := by
  subst ha
  refine maintains_bind maintains_get fun scene => ?_
  refine maintains_bind (maintains_inSession (hI.generate _ _ _)) fun made => ?_
  refine maintains_bind (maintains_modify fun _ hs => hs) fun _ =>
    maintains_bind (maintains_lift _) fun generated => ?_
  refine maintains_bind (maintains_forM _ fun callback _ => ?_) fun _ => maintains_pure _
  exact maintains_inSession (Errand.maintains_run hI.toCalm hrequests _)

omit hI in
theorem maintains_assembleProxy (hI : Steady I) (id : Identifier) :
    Maintains (About (I (a.generator :: gs))) (a.assembleProxy id) := by
  refine maintains_bind (maintains_draftProxy hI.toCalm hrequests a ha id) fun proxy =>
    maintains_bind maintains_get fun scene => ?_
  refine maintains_ite (maintains_pure _) ?_
  refine maintains_bind (maintains_stamp a id proxy) fun _ => ?_
  exact maintains_bind (maintains_generateBatch hrequests a ha hI) fun _ => maintains_lift _

omit hI in
variable (gs) in
theorem maintains_assemble (hI : Steady I) (id : Identifier) :
    Maintains (About (I (a.generator :: gs))) (a.assemble id) := by
  refine maintains_bind maintains_get fun scene => maintains_ite ?_ ?_
  · exact maintains_recast _ (maintains_assembleProxy hrequests a ha hI id)
  · subst ha
    refine maintains_bind (maintains_forM _ fun participant _ => ?_) fun _ => maintains_pure _
    exact maintains_inSession (Errand.maintains_run hI.toCalm hrequests _)

omit hI in
theorem maintains_assembleAdditional (hI : Steady I) (id : Part) :
    Maintains (About (I (a.generator :: gs))) (a.assembleAdditional id) := by
  refine maintains_recast _ ?_
  have hprovide : ∀ participants,
      Maintains (About (I (a.generator :: gs))) (a.provideAdditional id participants) := by
    intro participants
    induction participants with
    | nil => exact maintains_throw _
    | cons participant rest ih =>
      have hcontribution : Maintains (About (I (a.generator :: gs))) _ :=
        Contribution.maintains_run hI.toCalm hrequests (participant.additionalType id)
      rw [← ha] at hcontribution
      refine maintains_bind hcontribution fun answer => ?_
      split
      · exact maintains_pure _
      · exact maintains_bind (maintains_generateBatch hrequests a ha hI) fun _ => maintains_lift _
      · exact ih
  exact hprovide _

end Assembler

end Assembly

/-! ### Commands -/

namespace Session

variable (cast : Cast)

/-- What assemblers do for these requests keeps the property. -/
structure Assembling (I : List GeneratorId → Session → Prop) (requests : Requests) : Prop where
  types : ∀ {gs} (a : Assembler), a.requests = requests →
    ∀ id, Scene.Preserves (I (a.generator :: gs)) (a.assemble id)
  additional : ∀ {gs} (a : Assembler), a.requests = requests → ∀ id,
    Scene.Preserves (I (a.generator :: gs)) (a.assembleAdditional id)

theorem Steady.assembling (hI : Steady I) (hrequests : ∀ gs c, Maintains (I gs) (requests c)) :
    Assembling I requests where
  types := fun {gs} a ha id =>
    Scene.preserves_of_maintains (Assembler.maintains_assemble gs hrequests a ha hI id)
  additional := fun a ha id =>
    Scene.preserves_of_maintains (Assembler.maintains_assembleAdditional hrequests a ha hI id)

section Calm

variable (hI : Calm I)
include hI

variable (gs) in
theorem maintains_withAssembler (q : PipelineId) {act : Assembler → Attempt Scene α}
    (h : ∀ a : Assembler, a.requests = requests → Scene.Preserves (I (a.generator :: gs)) (act a)) :
    Maintains (I gs) (withAssembler cast requests q act) := by
  refine hI.lease q fun g s hs => ?_
  rw [wp_within]
  exact h _ rfl s hs

theorem maintains_getAdditional (hassembling : Assembling I requests) (q : PipelineId) (id : Part) :
    Maintains (I gs) (getAdditional cast requests q id) := by
  refine maintains_bind maintains_get fun s => ?_
  split
  · exact maintains_pure _
  · refine maintains_bind (maintains_withAssembler gs cast hI q fun a ha =>
      hassembling.additional a ha id) fun t => ?_
    exact maintains_bind (calm_editPipeline hI q (fun _ => ⟨rfl, rfl, rfl⟩) (fun _ => rfl) fun _ =>
        Nat.le_refl _) fun _ =>
      maintains_pure _

theorem maintains_classify (q : PipelineId) (loaded : Loaded) (t : TypeId) :
    Maintains (I gs) (classify q loaded t) := by
  have hextract : Maintains (I gs) (extractId q t) := by
    refine maintains_bind (maintains_ask _) fun f => maintains_bind (calm_evaluate hI _) fun _ => ?_
    refine maintains_bind maintains_get fun s => ?_
    split
    · exact maintains_pure _
    · exact maintains_throw _
  refine maintains_bind maintains_get fun s => maintains_ite ?_ (maintains_pure _)
  exact maintains_bind (maintains_ask _) fun _ => maintains_bind hextract fun _ => maintains_pure _

theorem maintains_readDocument (q : PipelineId) (loaded : Loaded) (document : Option String) :
    Maintains (I gs) (readDocument q loaded document) := by
  refine maintains_bind (maintains_lift _) fun text => maintains_bind maintains_get fun s => ?_
  refine maintains_bind (hI.read _ _) fun read => ?_
  exact maintains_foldlM _ (fun loaded t => maintains_classify hI q loaded t) loaded

theorem maintains_insertAdditional (q : PipelineId) (rows : List (Part × TypeId)) :
    Maintains (I gs) (insertAdditional q rows) := by
  refine maintains_bind maintains_get fun _ => ?_
  refine maintains_bind (calm_editPipeline hI q (fun _ => ⟨rfl, rfl, rfl⟩) (fun _ => rfl) fun _ =>
    Nat.le_refl _) fun _ => ?_
  exact maintains_pure _

end Calm

def cache (s : Session) (q : PipelineId) (key : Identifier) (made : TypeId) : Session :=
  { s with
    pipelines := s.pipelines.modify q.index fun line => { line with types := line.types.put key made } }

/-- A property that nothing ends but what assemblers do. A type is cached under an identifier
only if the request for it began when nothing was cached there. -/
structure Enduring (I : List GeneratorId → Session → Prop) : Prop extends Calm I where
  cache : ∀ {gs} {s₀ : Session} {q : PipelineId} {key : Identifier}, I gs s₀ →
    s₀.cached? q key = none →
    ∀ s made, I gs s → I gs (s.cache q key made)
  addRows : ∀ {gs} s (q : PipelineId) rows, I gs s →
    I gs { s with pipelines := s.pipelines.modify q.index fun line => { line with types := addRows (s.pipeline q).types rows } }

/-- A property that no command can end. -/
structure Lasting (I : List GeneratorId → Session → Prop) : Prop extends Steady I, Enduring I

section Commands

variable {cast} (hI : Enduring I)
include hI

theorem maintains_insertTypes (q : PipelineId) (rows : List (Identifier × TypeId)) :
    Maintains (I gs) (insertTypes q rows) :=
  maintains_get_bind fun s hs => hI.addRows s q rows hs

theorem maintains_getType (hassembling : Assembling I requests) (q : PipelineId)
    (key : Identifier) :
    Maintains (I gs) (getType cast requests q key) := by
  refine maintains_get_bind fun s hs => ?_
  split
  · exact hs
  · rename_i hmiss
    have hrest : Maintains (I gs) (do
        let made ← withAssembler cast requests q fun assembler => assembler.assemble key
        editPipeline q fun line => { line with types := line.types.put key made }
        return made) := by
      refine maintains_bind (maintains_withAssembler gs cast hI.toCalm q fun a ha =>
        hassembling.types a ha key) fun made => ?_
      exact maintains_bind (maintains_modify fun s => hI.cache hs hmiss s made) fun _ =>
        maintains_pure _
    exact hrest s hs

theorem maintains_load (hrequests : ∀ gs c, Maintains (I gs) (requests c)) (q : PipelineId)
    (documents : List (Option String)) :
    Maintains (I gs) (load cast requests q documents) := by
  refine maintains_bind maintains_get fun s => maintains_bind (maintains_forM _ fun _ _ =>
    maintains_lift _) fun _ => ?_
  refine maintains_bind (maintains_foldlM _ (maintains_readDocument hI.toCalm q) _) fun loaded => ?_
  refine maintains_bind (maintains_insertTypes hI q _) fun _ => ?_
  refine maintains_bind (maintains_forM _ fun participant _ =>
    Errand.maintains_run hI.toCalm hrequests _) fun _ => ?_
  exact maintains_bind maintains_get fun _ =>
    maintains_bind (maintains_insertAdditional hI.toCalm q _) fun _ => maintains_pure _

theorem maintains_performOver (hassembling : Assembling I requests)
    (hrequests : ∀ gs c, Maintains (I gs) (requests c)) (c : Command) :
    Maintains (I gs) (performOver cast requests c) := by
  cases c with
  | assembled q key =>
    exact maintains_bind (maintains_getType hI hassembling q key) fun _ => maintains_pure _
  | requested q requested =>
    exact maintains_bind maintains_get fun _ =>
      maintains_bind (maintains_getType hI hassembling q _) fun _ => maintains_pure _
  | additional q key =>
    exact maintains_bind (maintains_getAdditional cast hI.toCalm hassembling q key) fun _ =>
      maintains_pure _
  | constructor q key parameters nonPublic =>
    refine maintains_bind ?_ fun _ => maintains_pure _
    refine maintains_bind maintains_get fun s => ?_
    split
    · exact maintains_pure _
    · refine maintains_bind (maintains_getType hI hassembling q key) fun _ =>
        maintains_bind (maintains_ask _) fun _ => ?_
      refine maintains_bind (calm_editPipeline hI.toCalm q (fun _ => ⟨rfl, rfl, rfl⟩) (fun _ => rfl)
        fun _ => Nat.le_refl _) fun _ => ?_
      exact maintains_pure _
  | flush q => exact maintains_bind (hI.flush q) fun _ => maintains_pure _
  | load q documents =>
    exact maintains_bind (maintains_load hI hrequests q documents) fun _ => maintains_pure _
  | insertTypes q rows =>
    exact maintains_bind (maintains_insertTypes hI q rows) fun _ => maintains_pure _
  | insertAdditional q rows =>
    exact maintains_bind (maintains_insertAdditional hI.toCalm q rows) fun _ => maintains_pure _

omit hI in
/-- No command ends any property of a family, however deep the commands of participants go, when
assemblers keep each of them over requests that keep all of them. -/
theorem maintains_performWithin_family {κ : Type} {I : κ → List GeneratorId → Session → Prop}
    (hI : ∀ k, Enduring (I k))
    (hassembling : ∀ requests : Requests, (∀ k gs c, Maintains (I k gs) (requests c)) →
      ∀ k, Assembling (I k) requests)
    (k : κ) (gs : List GeneratorId) (depth : Nat) (c : Command) :
        Maintains (I k gs) (performWithin cast depth c) := by
  induction depth generalizing k c gs with
  | zero => exact maintains_throw _
  | succ depth ih => exact maintains_performOver (hI k) (hassembling _ ih k) (ih k) c

omit hI in
theorem maintains_performWithin (hI : Lasting I) (gs : List GeneratorId)
    (depth : Nat) (c : Command) :
    Maintains (I gs) (performWithin cast depth c) :=
  maintains_performWithin_family (κ := Unit) (fun _ => hI.toEnduring)
    (fun _ hrequests _ => hI.toSteady.assembling (hrequests ())) () gs depth c

end Commands

/-! ### Properties that do not depend on leases -/

section Unleased

variable {P : Session → Prop}

/-- A property that has nothing to do with modules and outlives unfinished types is kept when
modules are written. -/
theorem maintains_flush (hP : Aloof P) (hgiveUp : ∀ s g, P s → P (s.giveUpUnfinished g))
    (q : PipelineId) :
    Maintains P (flush q) := by
  have hcontexts : ∀ contexts, Maintains P (flushContexts q contexts) := by
    intro contexts
    induction contexts with
    | nil => exact maintains_pure _
    | cons c rest ih =>
      refine maintains_bind maintains_get fun s =>
        maintains_bind (maintains_flushGenerator hP hgiveUp _ _) fun _ => ?_
      exact maintains_bind ih fun _ => maintains_pure _
  have hall : ∀ pool, Maintains P (dequeueAll pool Thread.main) := by
    intro pool
    refine maintains_bind (maintains_ask _) fun found => ?_
    split
    · exact maintains_throw _
    · exact maintains_bind (maintains_aside hP fun _ => ⟨rfl, rfl, rfl⟩) fun _ => maintains_pure _
  refine maintains_bind maintains_get fun s => maintains_bind (hall _) fun contexts => ?_
  refine maintains_bind (maintains_outcome (hcontexts _)) fun _ => ?_
  exact maintains_bind (maintains_aside hP fun _ => ⟨rfl, rfl, rfl⟩) fun _ => maintains_lift _

/-- A property that is about nothing but cached types does not depend on leases. -/
theorem Blind.steady (hP : Blind P) : Steady fun _ => P where
  aside := fun _ hcaches _ hs => hP _ _ hcaches hs
  read := fun r _ => maintains_inRegistry hP r _
  generate := maintains_generate hP
  lease := fun _ _ hact => maintains_bind maintains_get fun _ =>
    maintains_withLease hP.aloof _ _ hact
  flush := maintains_flush hP.aloof fun s _ hs => hP s _ (.of_pipelines rfl) hs

end Unleased

end Session

/-! ### What commands leave of a session

A command never takes a finished type back and never changes it: whatever participants do on the
way, and however the command ends, the finished types are as they were, and so are the registries
that pipelines work on and their core types.
-/

namespace Session

/-- Finished types are as they were, and pipelines work on the registries that they worked on,
with the same core types. -/
structure Remains (s s' : Session) : Prop where
  program : s.program.Spares s'.program
  core : ∀ r, (s'.registry r).core = (s.registry r).core
  registry : ∀ p, (s'.pipeline p).registry = (s.pipeline p).registry

variable {start s s' : Session}

theorem Remains.refl (s : Session) : s.Remains s := ⟨.refl _, fun _ => rfl, fun _ => rfl⟩

theorem Remains.trans (h : start.Remains s) (h' : s.Remains s') : start.Remains s' where
  program := h.program.trans h'.program
  core := fun r => (h'.core r).trans (h.core r)
  registry := fun p => (h'.registry p).trans (h.registry p)

theorem Remains.coreTypes (h : s.Remains s') (p : PipelineId) : s'.coreTypes p = s.coreTypes p := by
  rw [Session.coreTypes, h.registry p, h.core, Session.coreTypes]

theorem core_setRegistry {r : RegistryId} {registry : Registry}
    (h : registry.core = (s.registry r).core) (other : RegistryId) :
    ((s.setRegistry r registry).registry other).core = (s.registry other).core := by
  simp only [setRegistry, Session.registry, Array.getD_eq_getD_getElem?,
    Array.getElem?_setIfInBounds] at h ⊢
  split
  · rename_i heq
    split
    · rename_i hlt
      rw [← heq, Option.getD_some, h]
    · rename_i hge
      rw [Array.getElem?_eq_none (by rw [← heq]; exact Nat.not_lt.mp hge)]
  · rfl

theorem Remains.setSpace (h : start.Remains s) {r : RegistryId} {space : TypeSpace}
    (hspace : TypeSpace.Spares { program := s.program, registry := s.registry r } space) :
    start.Remains { s.setRegistry r space.registry with program := space.program } :=
  h.trans ⟨hspace.program, core_setRegistry hspace.core, fun _ => rfl⟩

theorem remains_modifyPipeline (s : Session) (q : PipelineId) {change : Pipeline → Pipeline}
    (h : ∀ line, (change line).registry = line.registry) :
    s.Remains { s with pipelines := s.pipelines.modify q.index change } where
  program := .refl _
  core := fun _ => rfl
  registry := fun p => by
    rw [pipeline_modify]
    split
    · exact h _
    · rfl

theorem aloof_remains (start : Session) : Aloof start.Remains :=
    fun s s' hprogram hregistries hpipelines h => by
  refine h.trans ⟨?_, fun r => ?_, fun p => ?_⟩
  · rw [hprogram]
    exact .refl _
  · rw [registry, hregistries, registry]
  · rw [pipeline, hpipelines, pipeline]

theorem remains_giveUpUnfinished (s : Session) (g : GeneratorId) (h : start.Remains s) :
    start.Remains (s.giveUpUnfinished g) := by
  refine ⟨h.program.dropAll fun t ht => ?_, h.core, h.registry⟩
  obtain ⟨-, hunfinished⟩ := List.mem_filter.mp ht
  rw [Bool.and_eq_true, Bool.not_eq_true'] at hunfinished
  exact h.program.unfinished hunfinished.1

theorem remains_inRegistry (r : RegistryId) {act : Attempt TypeSpace α}
    (hact : ∀ space, Maintains (TypeSpace.Spares space) act) :
    Maintains start.Remains (inRegistry r act) := by
  intro s hs
  rw [inRegistry, wp_within]
  exact wp_mono (hact _ _ (.refl _)) (fun _ _ => hs.setSpace) fun _ => hs.setSpace

theorem remains_generate (g : GeneratorId) (objectType : TypeId) (batch : Batch) :
    Maintains start.Remains (Session.generate g objectType batch) := by
  intro s hs
  have hspace := wp_const.mp (Production.wp_generate_spares objectType batch (s.workshop g))
  have hafter : start.Remains
      (s.putWorkshop g ((Production.generate objectType).start
        { batch, workshop := s.workshop g }).2.workshop) :=
    aloof_remains start { s.setRegistry (s.generator g).registry _ with program := _ } _ rfl rfl rfl
      (hs.setSpace hspace)
  exact wp_const.mpr hafter

/-- No command, however deep its participants go, changes a finished type. -/
theorem lasting_remains (start : Session) : Lasting fun _ => start.Remains where
  aside := fun hmodules _ _ hs =>
    hs.trans ⟨by rw [hmodules.program]; exact .refl _, fun r => by
      rw [registry, hmodules.registries, registry], fun p => (hmodules.lines p).2.1⟩
  read := fun r text => remains_inRegistry r fun _ => Artifact.spares_decode text
  generate := fun g objectType batch => remains_generate g objectType batch
  lease := fun _ _ hact => maintains_bind maintains_get fun _ =>
    maintains_withLease (aloof_remains start) _ _ hact
  flush := maintains_flush (aloof_remains start) fun s g => remains_giveUpUnfinished s g
  cache := fun _ _ s _ hs => hs.trans (remains_modifyPipeline s _ fun _ => rfl)
  addRows := fun s _ _ hs => hs.trans (remains_modifyPipeline s _ fun _ => rfl)

end Session

end TypeLoom
