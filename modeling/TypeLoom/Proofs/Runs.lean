import TypeLoom.Proofs.Courses
import TypeLoom.Proofs.Requests

/-!
# Runs of a pipeline

Commands take a course of events, whatever participants do in between. So at every moment of a run
each generated type that is finished is in one place: in the module that a context has under
construction, or in a module that a flush has returned.
-/

namespace TypeLoom.Session

open Attempt

variable {P : PoolId} {n : Nat} {s s' first : Session} {g : GeneratorId} {gs : List GeneratorId}
  {written : List WrittenModule} {directory : DirectoryId} {cast : Cast}

/-! ### Leases -/

theorem Manned.wp_lease (h : Manned P n s) :
    (dequeue P Thread.main).wp
      (fun lease s' => lease = Pool.soloLease P ∧ Manned P (n + 1) s'
        ∧ (s'.pool P).generators = #[s'.contextGenerator lease.context]
        ∧ ∀ g, (s.pool P).generators = #[g] → (s'.pool P).generators = #[g])
      (fun s' => s' = s) s := by
  have hsingle : ∀ {after : Session}, (after.pool P).generators.size = 1 →
      (after.pool P).generators = #[after.contextGenerator (Pool.soloLease P).context] := by
    intro after hone
    obtain ⟨g, hg⟩ := Array.size_eq_one_iff.mp hone
    show _ = #[(after.pool P).generators.getD 0 default]
    rw [hg]
    rfl
  refine h.wp_dequeue rfl (fun pool hsolo hid hone => ?_) fun pool hsolo hid hnone => ?_
  · have hmanned : Manned P (n + 1) (s.setPool P { s.pool P with pool }) :=
      h.setPool hid hsolo (by rw [hone, hsolo.created_of_pos])
    have hpool := pool_setPool h.bound { s.pool P with pool }
    have hsame : ((s.setPool P { s.pool P with pool }).pool P).generators = (s.pool P).generators :=
      by rw [hpool]
    exact ⟨rfl, hmanned, hsingle (by rw [hsame, hone]), fun g hg => hsame.trans hg⟩
  · have hmanned := h.withContext hsolo hid hnone
    refine ⟨rfl, hmanned, hsingle (hmanned.contexts.trans hmanned.solo.created_of_pos), fun g hg =>
      ?_⟩
    rw [hg] at hnone
    cases hnone

theorem Manned.leases (h : Manned P (n + 1) s) (hone : (s.pool P).generators = #[g]) :
    s.Leases P g := by
  have hrow : ∀ p : Pool, p.id = P → p.Solo (n + 1) →
      p.leases.find? Thread.main = some (⟨P, 0⟩, n + 1) := by
    intro p hid hp
    cases hp with
    | leased id =>
      obtain rfl : id = P := hid
      rfl
  refine ⟨⟨P, 0⟩, n + 1, hrow _ h.id h.solo, ?_⟩
  rw [contextGenerator, hone]
  rfl

/-! ### Commands -/

/-- A moment of a course, after these modules, at which leases of these generators are held. -/
structure Underway (first : Session) (P : PoolId) (written : List WrittenModule)
    (gs : List GeneratorId) (s : Session) :
    Prop where
  course : ∃ more, Course first (written ++ more) s
  manned : Manned P gs.length s
  held : ∀ g ∈ gs, (s.pool P).generators = #[g]

theorem Underway.event {more : List WrittenModule} (h : Underway first P written gs s)
    (e : s.Event more s') (hmanned : Manned P gs.length s')
    (hheld : (s'.pool P).generators = (s.pool P).generators) :
    Underway first P written gs s' := by
  obtain ⟨sofar, hcourse⟩ := h.course
  refine ⟨⟨sofar ++ more, ?_⟩, hmanned, fun g hg => hheld.trans (h.held g hg)⟩
  rw [← List.append_assoc]
  exact hcourse.step e

theorem Underway.aside (h : Underway first P written gs s) (hkept : s.ModulesKept s') :
    Underway first P written gs s' := by
  refine h.event (.aside hkept) (h.manned.of_same hkept.pools fun q => (hkept.lines q).2.2) ?_
  rw [Session.pool, hkept.pools, Session.pool]

theorem underway_read (r : RegistryId) (text : String) :
    Maintains (Underway first P written gs) (inRegistry r (Artifact.decode text)) := by
  intro s h
  have hnext : ∀ space, TypeSpace.Finishes [] { program := s.program, registry := s.registry r }
    space →
      Underway first P written gs
      { s.setRegistry r space.registry with program := space.program } := fun space hspace =>
    h.event (.worked r hspace) (h.manned.of_same rfl fun _ => rfl) rfl
  rw [inRegistry, wp_within]
  exact wp_mono (Artifact.wp_decode text _) (fun _ space hspace => hnext space hspace.2)
      fun space hspace =>
    hnext space hspace.finishes

theorem underway_generate (g : GeneratorId) (objectType : TypeId) (batch : Batch) :
    Maintains (Underway first P written (g :: gs)) (generate g objectType batch) := by
  intro s h
  have hleases : s.Leases (s.pipeline ⟨0⟩).pool g := by
    rw [h.manned.lines]
    exact h.manned.leases (h.held g List.mem_cons_self)
  exact wp_const.mpr (h.event (.generated ⟨0⟩ hleases objectType batch)
    (h.manned.of_same rfl fun _ => rfl) rfl)

theorem underway_lease {α : Type} (q : PipelineId) {act : GeneratorId → Attempt Session α}
    (hact : ∀ g, Maintains (Underway first P written (g :: gs)) (act g)) :
    Maintains (Underway first P written gs)
        (do withLease ((← get).pipeline q).pool Thread.main act) := by
  intro s h
  rw [wp_bind, wp_get, withLease]
  have hline := h.manned.lines q
  have hevent := Event.leased (s := s) q
  rw [hline] at hevent ⊢
  obtain ⟨hleased, hfailed⟩ := wp_iff.mp h.manned.wp_lease
  have hdequeue : (dequeue P Thread.main).wp
      (fun lease mid => lease = Pool.soloLease P
        ∧ Underway first P written (mid.contextGenerator lease.context :: gs) mid)
      (Underway first P written gs) s := by
    refine wp_iff.mpr ⟨fun lease mid hrun => ?_, fun fault mid hrun => hfailed fault mid hrun ▸ h⟩
    obtain ⟨hlease, hmanned, hone, hkept⟩ := hleased lease mid hrun
    obtain ⟨sofar, hcourse⟩ := h.course
    rw [hrun] at hevent
    refine ⟨hlease, ⟨sofar, ?_⟩, hmanned, fun g hg => ?_⟩
    · rw [← List.append_nil (written ++ sofar)]
      exact hcourse.step hevent
    · rcases List.mem_cons.mp hg with rfl | hg
      · exact hone
      · exact hkept g (h.held g hg)
  refine wp_step hdequeue (fun lease mid hmid => ?_) fun _ h => h
  obtain ⟨rfl, hmid⟩ := hmid
  rw [wp_bind, wp_get]
  have hafter := wp_const.mp (hact _ mid hmid)
  rw [wp_bind, wp_outcome]
  obtain ⟨pool, hend, m, hmanned, hlast⟩ := hafter.manned.enqueue (Pool.soloLease P)
  obtain rfl := hlast rfl
  have hreturned : Underway first P written gs
      ((enqueue P Thread.main (Pool.soloLease P)).start
        ((act (mid.contextGenerator (Pool.soloLease P).context)).start mid).2).2 := by
    obtain ⟨sofar, hcourse⟩ := hafter.course
    have hgiven := Event.returned (s :=
      ((act (mid.contextGenerator (Pool.soloLease P).context)).start mid).2) q (Pool.soloLease P)
    rw [hafter.manned.lines q] at hgiven
    refine ⟨⟨sofar, ?_⟩, hend ▸ hmanned, fun g hg => ?_⟩
    · rw [← List.append_nil (written ++ sofar)]
      exact hcourse.step hgiven
    · rw [hend, pool_setPool hafter.manned.bound]
      exact hafter.held g (List.mem_cons_of_mem _ hg)
  exact wp_step (wp_const.mpr hreturned) (fun _ after hafter => maintains_lift _ after hafter) fun _
    hafter => hafter

theorem underway_flush (q : PipelineId) : Maintains (Underway first P written gs) (flush q) := by
  intro s h
  obtain ⟨hflushed, hrefused⟩ := wp_iff.mp (h.manned.wp_flush q)
  refine wp_iff.mpr ⟨fun more after hrun => ?_, fun fault after hrun =>
    hrefused fault after hrun ▸ h⟩
  obtain ⟨-, ⟨-, rfl⟩ | ⟨g, v, -, -, hwrote⟩⟩ := hflushed more after hrun
  · exact h
  · refine h.event (.flushed q hrun) (h.manned.of_same hwrote.pools fun p => ?_) ?_
    · rw [Session.pipeline, hwrote.pipelines, Session.pipeline]
    · rw [Session.pool, hwrote.pools, Session.pool]

theorem lasting_underway : Lasting (Underway first P written) where
  aside := fun hkept _ _ h => h.aside hkept
  read := underway_read
  generate := underway_generate
  lease := fun q _ hact => underway_lease q hact
  flush := underway_flush
  cache := fun _ _ s _ h => h.aside (modulesKept_modify s _ fun _ => ⟨rfl, rfl, rfl⟩)
  addRows := fun s q _ h => h.aside (modulesKept_modify s q fun _ => ⟨rfl, rfl, rfl⟩)

/-- From each moment of a course on, whatever leases are held, a command takes such a course. -/
theorem Course.performWithin {start : Nat} {shelf : List Volume} (h : Course first written s)
    (hs : Accounted start P directory shelf s) (cast : Cast) (depth : Nat) (c : Command) :
    ∃ more, Course first (written ++ more) ((Session.performWithin cast depth c).start s).2 := by
  obtain ⟨n, hmanned⟩ := hs.manned
  have hheld : ∃ gs : List GeneratorId, gs.length = n ∧ ∀ g ∈ gs, (s.pool P).generators = #[g] := by
    cases n with
    | zero => exact ⟨[], rfl, fun _ hg => absurd hg List.not_mem_nil⟩
    | succ n =>
      obtain ⟨g, hg⟩ :=
        Array.size_eq_one_iff.mp (hmanned.contexts.trans hmanned.solo.created_of_pos)
      refine ⟨List.replicate (n + 1) g, List.length_replicate, fun g' hg' => ?_⟩
      rw [List.eq_of_mem_replicate hg', hg]
  obtain ⟨gs, rfl, hgs⟩ := hheld
  have hstart : Underway first P written gs s := ⟨⟨[], by rwa [List.append_nil]⟩, hmanned, hgs⟩
  exact (wp_const.mp (maintains_performWithin lasting_underway gs depth c s hstart)).course

/-! ### Conservation -/

/-- A registry lists the type. -/
def Lists (s : Session) (t : TypeId) : Prop := ∃ r, ∃ l ∈ (s.registry r).listings, l.type = t

/-- No pipeline has been set up yet; there is the directory, and there are the types that are
listed. -/
structure Vacant (directory : DirectoryId) (s : Session) : Prop where
  pools : s.pools = #[]
  pipelines : s.pipelines = #[]
  directory : directory.index < s.directories.size
  listed : ∀ t, s.Lists t → t.index < s.program.types.size

/-- Of the types from a number on, each generated one that is finished has one place in the
modules under construction and the written ones. Unfinished types have none, and the listed ones
are finished. -/
structure Placed (start : Nat) (p : PipelineId) (directory : DirectoryId) (shelf : List Volume)
    (s : Session) : Prop where
  listed : ∀ t : TypeId, start ≤ t.index → s.Lists t → (s.program.record t).complete = true
  once : ∀ t : TypeId, start ≤ t.index → (s.program.record t).origin = .generated →
    (s.program.record t).complete = true →
    (s.keptTypes (s.pipeline p).pool ++ shelf.flatMap (·.types)).count t = 1
  unfinished : ∀ t, (s.program.record t).complete = false → t ∉ s.keptTypes (s.pipeline p).pool
    ++ shelf.flatMap (·.types)
  files : (shelf.map (·.module.file)).Nodup
  stored : ∀ v ∈ shelf, (s.directory directory).files.find? v.module.file = some v.module.text

theorem Accounted.placed {start : Nat} {shelf : List Volume}
    (h : Accounted start P directory shelf s) (p : PipelineId) :
    Placed start p directory shelf s := by
  obtain ⟨n, hmanned⟩ := h.manned
  have hkept : s.keptTypes (s.pipeline p).pool = (s.declaredTypes P).filter fun t =>
      (s.program.record t).complete := by
    rw [hmanned.lines p, keptTypes_eq]
  have hsub : (s.keptTypes (s.pipeline p).pool ++ shelf.flatMap (·.types)).Sublist
      (s.declaredTypes P ++ shelf.flatMap (·.types)) := by
    rw [hkept]
    exact List.filter_sublist.append_right _
  refine ⟨fun t hle hlists => ?_, fun t hle horigin hdone => ?_, fun t hopen hmem => ?_,
    h.balanced.distinct,
    h.balanced.stored⟩
  · obtain ⟨r, l, hl, rfl⟩ := hlists
    exact h.listed r l hl hle
  · refine List.count_eq_one_of_mem (h.balanced.nodup.sublist hsub) ?_
    rcases List.mem_append.mp (h.balanced.covered t hle horigin hdone) with hmem | hmem
    · rw [hkept]
      exact List.mem_append_left _ (List.mem_filter.mpr ⟨hmem, hdone⟩)
    · exact List.mem_append_right _ hmem
  · have hdone : (s.program.record t).complete = true := by
      rcases List.mem_append.mp hmem with hmem | hmem
      · rw [hkept] at hmem
        simpa using (List.mem_filter.mp hmem).2
      · exact h.balanced.finished t hmem
    rw [hopen] at hdone
    cases hdone

variable {s₀ : Session} {registry : RegistryId} {settings : Settings} {names : List String}
  {p : PipelineId}

def withPipeline (s : Session) (registry : RegistryId) (settings : Settings)
    (directory : DirectoryId) : Session :=
  { s with
    namings := s.namings.push { directory, pattern := settings.pattern }
    pools := #[{ pool := { id := ⟨0⟩, capacity := settings.parallelism }, registry, naming := ⟨s.namings.size⟩ }]
    pipelines := #[{ configuration := settings.configuration, registry, pool := ⟨0⟩ }] }

theorem eq_withPipeline (hpools : s₀.pools = #[]) (hpipelines : s₀.pipelines = #[])
    (hopen : (addPipeline registry settings directory names).start s₀ = (.ok p, first)) :
    settings.validate = .ok () ∧ first = s₀.withPipeline registry settings directory := by
  have hspec : (addPipeline registry settings directory names).wp
      (fun _ after => settings.validate = .ok ()
        ∧ after = s₀.withPipeline registry settings directory) (fun _ => True) s₀ := by
    simp only [addPipeline, openPipeline, addNaming, addPool, wp_bind, wp_get, wp_modify,
      wp_pure, wp_lift]
    refine ⟨fun _ hvalid => ⟨fun _ _ => ⟨fun pool hpool => ⟨hvalid, ?_⟩, fun _ _ => trivial⟩,
      fun _ _ => trivial⟩, fun _ _ => trivial⟩
    rw [Pool.ofCapacity, hpools] at hpool
    split at hpool
    · cases hpool
    · cases hpool
      simp only [hpools, hpipelines]
      rfl
  exact (wp_iff.mp hspec).1 p first hopen

theorem manned_withPipeline (s₀ : Session) (registry : RegistryId) (settings : Settings)
    (directory : DirectoryId) :
    Manned ⟨0⟩ 0 (s₀.withPipeline registry settings directory) := by
  have hlines : ∀ q, ((s₀.withPipeline registry settings directory).pipeline q).pool = ⟨0⟩ := by
    intro q
    rw [Session.pipeline, withPipeline, Array.getD_eq_getD_getElem?]
    rcases hline : (#[_] : Array Pipeline)[q.index]? with _ | line
    · rfl
    · obtain rfl := List.mem_singleton.mp (Array.mem_toList_iff.mpr (Array.mem_of_getElem? hline))
      rfl
  exact ⟨hlines, Nat.zero_lt_one, rfl, .unused _ _, rfl⟩

/-- The pipeline has a pool of its own, and nothing was generated yet. -/
theorem Vacant.accounted (h : s₀.Vacant directory)
    (hopen : (addPipeline registry settings directory names).start s₀ = (.ok p, first)) :
    Accounted first.program.types.size ⟨0⟩ directory [] first := by
  obtain ⟨hvalid, rfl⟩ := eq_withPipeline h.pools h.pipelines hopen
  have hnaming : (s₀.withPipeline registry settings directory).naming ⟨s₀.namings.size⟩
      = { directory, pattern := settings.pattern } := by
    simp [withPipeline, Session.naming, Array.getD_eq_getD_getElem?]
  refine ⟨⟨0, manned_withPipeline _ _ _ _⟩, ?_, ?_, h.directory, fun g hg => ?_, Nat.le_refl _, ?_,
    fun r l hl hle => ?_⟩
  · show s₀.namings.size < (s₀.namings.push _).size
    rw [Array.size_push]
    exact Nat.lt_succ_self _
  · exact congrArg Naming.directory hnaming
  · exact absurd hg (Array.not_mem_empty g)
  · show Balanced _ _ _ _ ((s₀.withPipeline registry settings directory).naming ⟨s₀.namings.size⟩)
      [] []
    rw [hnaming]
    refine ⟨Settings.counts_of_validate hvalid, ?_, List.nodup_nil, ?_, ?_, List.nodup_nil, ?_, ?_,
      fun t hle _ hdone => ?_⟩
    all_goals try exact fun _ hmem => absurd hmem List.not_mem_nil
    exact absurd (Universe.lt_of_complete hdone) (Nat.not_lt.mpr hle)
  · exact absurd (h.listed l.type ⟨r, l, hl, rfl⟩) (Nat.not_lt.mpr hle)

/-- All commands of a pipeline take a course of events, a flush that fails changes nothing, and
at each moment of a course the generated types are in one place each. -/
theorem generated_types_placed (hvacant : s₀.Vacant directory)
    (hopen : (addPipeline registry settings directory names).start s₀ = (.ok p, first)) :
    (∀ written s, Course first written s → ∀ cast depth c, ∃ more,
      Course first (written ++ more) ((performWithin cast depth c).start s).2)
    ∧ (∀ written s, Course first written s → ∀ q fault s', (flush q).start s = (.error fault, s') →
      s' = s)
    ∧ ∀ written s, Course first written s → ∃ shelf : List Volume, shelf.map (·.module) = written
      ∧ (∀ v ∈ shelf, ReturnedIn first s v)
      ∧ Placed first.program.types.size p directory shelf s := by
  have hfirst := hvacant.accounted hopen
  refine ⟨fun written s h cast depth c => ?_, fun written s h q fault s' hflush => ?_,
    fun written s h => ?_⟩
  · obtain ⟨shelf, -, hs, -⟩ := h.accounted hfirst
    exact h.performWithin hs cast depth c
  · obtain ⟨shelf, -, hs, -⟩ := h.accounted hfirst
    obtain ⟨n, hmanned⟩ := hs.manned
    exact (wp_iff.mp (hmanned.wp_flush q)).2 fault s' hflush
  · obtain ⟨shelf, hshelf, hs, hreturned⟩ := h.accounted hfirst
    exact ⟨shelf, hshelf, hreturned, hs.placed p⟩

def readySession : Session :=
  let ready : Attempt Session DirectoryId := do
    let _ ← addRegistry
    addDirectory {}
  (ready.start {}).2

theorem readySession_vacant : readySession.Vacant ⟨0⟩ where
  pools := rfl
  pipelines := rfl
  directory := by decide
  listed := by
    rintro t ⟨r, l, hl, rfl⟩
    have hfirst : ∀ l ∈ (readySession.registry ⟨0⟩).listings.toList,
        l.type.index < readySession.program.types.size := by
      decide +kernel
    rcases r with ⟨_ | r⟩
    · exact hfirst l (Array.mem_toList_iff.mpr hl)
    · exact absurd hl (Array.not_mem_empty l)

/-- A pipeline with the usual settings. -/
def readyPipeline : Session := ((addPipeline ⟨0⟩ {} ⟨0⟩ ["recurring"]).start readySession).2

/-- Its session after a request with a nested one. -/
def readyRequested : Session :=
  ((perform recurringCast (.assembled ⟨0⟩ firstTypeId)).start readyPipeline).2

set_option maxRecDepth 10000 in
/-- The types of both requests are in the module under construction and in no other one. -/
theorem nested_types_kept :
    ∃ shelf : List Volume, (∀ v ∈ shelf, ReturnedIn readyPipeline readyRequested v)
      ∧ ∀ t ∈ ([⟨3⟩, ⟨4⟩] : List TypeId), t ∈ readyRequested.keptTypes ⟨0⟩
      ∧ t ∉ shelf.flatMap (·.types) := by
  have hopened : ((addPipeline ⟨0⟩ {} ⟨0⟩ ["recurring"]).start readySession).1 = .ok ⟨0⟩ := by rfl
  have hopen : (addPipeline ⟨0⟩ {} ⟨0⟩ ["recurring"]).start readySession
    = (.ok ⟨0⟩, readyPipeline) := by rw [← hopened]; rfl
  obtain ⟨hcommands, -, hplaced⟩ := generated_types_placed readySession_vacant hopen
  obtain ⟨more, hrequested⟩ :=
    hcommands [] readyPipeline .start recurringCast nestingLimit (.assembled ⟨0⟩ firstTypeId)
  obtain ⟨shelf, -, hreturned, hplaces⟩ := hplaced _ readyRequested hrequested
  have hline : (readyRequested.pipeline ⟨0⟩).pool = ⟨0⟩ := by decide +kernel
  have hsize : readyPipeline.program.types.size = 3 := by decide +kernel
  have hmade : ∀ t ∈ ([⟨3⟩, ⟨4⟩] : List TypeId), 3 ≤ t.index
    ∧ (readyRequested.program.record t).origin = .generated
      ∧ (readyRequested.program.record t).complete = true ∧ (readyRequested.keptTypes ⟨0⟩).count t
      = 1 := by decide +kernel
  refine ⟨shelf, hreturned, fun t ht => ?_⟩
  obtain ⟨hle, horigin, hdone, hkept⟩ := hmade t ht
  have honce := hplaces.once t (hsize ▸ hle) horigin hdone
  rw [hline, List.count_append, hkept] at honce
  exact ⟨List.count_pos_iff.mp (by omega), List.count_eq_zero.mp (by omega)⟩

end TypeLoom.Session
