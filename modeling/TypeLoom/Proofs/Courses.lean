import TypeLoom.Proofs.Accounts

/-!
# Courses of events

What happens to the session of a pipeline is a course of a few kinds of events. All commands take
such a course, with all the commands of participants in it, and at each moment of it the generated
types are accounted for.
-/

namespace TypeLoom.Session

open Attempt

variable {P : PoolId} {n m start : Nat} {s s' : Session} {g : GeneratorId} {d : DirectoryId}
  {shelf : List Volume}
  {α : Type}

/-! ### Contexts -/

def moduleNames (s : Session) (P : PoolId) : List String :=
  (s.pool P).generators.toList.map fun g => (s.generator g).moduleName

def declaredTypes (s : Session) (P : PoolId) : List TypeId :=
  (s.pool P).generators.toList.flatMap fun g => (s.generator g).types.toList

/-- The types that the contexts of a pool give as generated. -/
def keptTypes (s : Session) (P : PoolId) : List TypeId :=
  (s.pool P).generators.toList.flatMap s.generatedTypes

theorem keptTypes_eq (s : Session) (P : PoolId) :
    s.keptTypes P = (s.declaredTypes P).filter fun t => (s.program.record t).complete := by
  rw [keptTypes, declaredTypes, List.filter_flatMap]
  rfl

/-! ### Events -/

/-- The main thread holds a lease of a context with this generator. -/
def Leases (s : Session) (P : PoolId) (g : GeneratorId) : Prop :=
  ∃ c depth, (s.pool P).pool.leases.find? Thread.main = some (c, depth) ∧ s.contextGenerator c = g

/-- What happens to the session of a pipeline in one step, with the modules that a flush returned
in it. A pipeline leases a context, generates a batch with it, gives a lease back, flushes or is
refused to. Documents are read and types are made without pipelines. Or nothing happens to
modules, registries and leases. -/
inductive Event (s : Session) : List WrittenModule → Session → Prop
  | leased (q : PipelineId) : Event s [] ((dequeue (s.pipeline q).pool Thread.main).start s).2
  | generated (q : PipelineId) {g : GeneratorId} (hheld : s.Leases (s.pipeline q).pool g)
    (objectType : TypeId) (batch : Batch) :
      Event s [] ((generate g objectType batch).start s).2
  | returned (q : PipelineId) (lease : Lease) :
    Event s [] ((enqueue (s.pipeline q).pool Thread.main lease).start s).2
  | flushed (q : PipelineId) {more : List WrittenModule} {s' : Session} (hflush : (flush q).start s
    = (.ok more, s')) :
      Event s more s'
  | refused (q : PipelineId) {fault : Fault} {s' : Session} (hflush : (flush q).start s
    = (.error fault, s')) : Event s [] s'
  | worked (r : RegistryId) {space : TypeSpace}
      (hspace : TypeSpace.Finishes [] { program := s.program, registry := s.registry r } space) :
      Event s [] { s.setRegistry r space.registry with program := space.program }
  | aside {s' : Session} (hkept : s.ModulesKept s') : Event s [] s'

/-- The moments of a session from the first one on, each with the modules that flushes have
returned until then. -/
inductive Course (first : Session) : List WrittenModule → Session → Prop
  | start : Course first [] first
  | step {written more : List WrittenModule} {s s' : Session} (h : Course first written s)
    (e : s.Event more s') :
      Course first (written ++ more) s'

/-- The module was returned by a flush in the course from the first moment to this one, and its
types are those that the contexts gave then. -/
def ReturnedIn (first s : Session) (v : Volume) : Prop :=
  ∃ before now q next rest, Course first before now ∧ (flush q).start now = (.ok [v.module], next)
    ∧ Course next rest s
    ∧ v.types = now.keptTypes (now.pipeline q).pool
    ∧ ∃ header, Artifact.encode now.program header v.types = .ok v.module.text

theorem ReturnedIn.step {first : Session} {v : Volume} {more : List WrittenModule}
    (h : ReturnedIn first s v) (e : s.Event more s') : ReturnedIn first s' v := by
  obtain ⟨before, now, q, next, rest, hbefore, hflush, hrest, htypes, htext⟩ := h
  exact ⟨before, now, q, next, rest ++ more, hbefore, hflush, hrest.step e, htypes, htext⟩

/-! ### Accounted sessions -/

theorem generator_of_lt {g : GeneratorId} {made : Generator} (h : g.index < s.generators.size)
    (hset : s'.generators = s.generators.setIfInBounds g.index made) : s'.generator g = made := by
  simp [generator, hset, Array.getD_eq_getD_getElem?, h]

/-- The types from a number on are accounted for, in the modules of the only pool and in what was
written into a directory. -/
structure Accounted (start : Nat) (P : PoolId) (d : DirectoryId) (shelf : List Volume)
    (s : Session) : Prop where
  manned : ∃ n, Manned P n s
  naming : (s.pool P).naming.index < s.namings.size
  target : (s.naming (s.pool P).naming).directory = d
  directory : d.index < s.directories.size
  contexts : ∀ g ∈ (s.pool P).generators, g.index < s.generators.size
    ∧ (s.generator g).naming = (s.pool P).naming
  room : start ≤ s.program.types.size
  balanced : Balanced start shelf s.program (s.directory d).files (s.naming (s.pool P).naming)
    (s.moduleNames P) (s.declaredTypes P)
  listed : ∀ r, ∀ l ∈ (s.registry r).listings, start ≤ l.type.index →
    (s.program.record l.type).complete = true

/-- Only the counts of leases and what is no part of a module differ. -/
theorem Accounted.of_same (h : Accounted start P d shelf s) (hmanned : ∃ n, Manned P n s')
    (hprogram : s'.program = s.program) (hregistries : s'.registries = s.registries)
    (hdirectories : s'.directories = s.directories) (hnamings : s'.namings = s.namings)
    (hgenerators : s'.generators = s.generators)
    (hnaming : (s'.pool P).naming = (s.pool P).naming) (hcontexts : (s'.pool P).generators
      = (s.pool P).generators) :
    Accounted start P d shelf s' := by
  have hgenerator : s'.generator = s.generator := by
    funext g
    rw [Session.generator, hgenerators, Session.generator]
  have hnames : s'.moduleNames P = s.moduleNames P := by
    rw [moduleNames, hcontexts, hgenerator, moduleNames]
  have hdeclared : s'.declaredTypes P = s.declaredTypes P := by
    rw [declaredTypes, hcontexts, hgenerator, declaredTypes]
  have hscheme : s'.naming (s'.pool P).naming = s.naming (s.pool P).naming := by
    rw [hnaming, Session.naming, hnamings, Session.naming]
  refine ⟨hmanned, ?_, ?_, ?_, fun g hg => ?_, ?_, ?_, fun r l hl => ?_⟩
  · rw [hnaming, hnamings]
    exact h.naming
  · rw [hscheme]
    exact h.target
  · rw [hdirectories]
    exact h.directory
  · rw [hcontexts] at hg
    rw [hgenerators, hgenerator, hnaming]
    exact h.contexts g hg
  · rw [hprogram]
    exact h.room
  · rw [hprogram, Session.directory, hdirectories, hscheme, hnames, hdeclared]
    exact h.balanced
  · rw [Session.registry, hregistries] at hl
    rw [hprogram]
    exact h.listed r l hl

theorem Accounted.aside (h : Accounted start P d shelf s) (hkept : s.ModulesKept s') :
    Accounted start P d shelf s' := by
  obtain ⟨n, hmanned⟩ := h.manned
  have hpool : s'.pool P = s.pool P := by rw [Session.pool, hkept.pools, Session.pool]
  refine h.of_same ⟨n, hmanned.of_same hkept.pools fun q => (hkept.lines q).2.2⟩ hkept.program
    hkept.registries hkept.directories
    hkept.namings hkept.generators ?_ ?_
  · rw [hpool]
  · rw [hpool]

theorem Accounted.setPool {m : Nat} {pool : Pool} (h : Accounted start P d shelf s)
    (hmanned : Manned P m (s.setPool P { s.pool P with pool })) :
    Accounted start P d shelf (s.setPool P { s.pool P with pool }) := by
  obtain ⟨n, hbefore⟩ := h.manned
  have hpool := pool_setPool hbefore.bound { s.pool P with pool }
  refine h.of_same ⟨m, hmanned⟩ rfl rfl rfl rfl rfl ?_ ?_
  · rw [hpool]
  · rw [hpool]

/-! ### Events of an accounted session -/

theorem Manned.withContext {pool : Pool} (h : Manned P n s) (hsolo : pool.Solo (m + 1))
    (hid : pool.id = P) (hnone : (s.pool P).generators.size = 0) :
    Manned P (m + 1) (s.withContext P pool) := by
  have hcontexts : ((s.pool P).generators.push ⟨s.generators.size⟩).size = pool.created := by
    rw [Array.size_push, hnone, hsolo.created_of_pos]
  have hset : Manned P (m + 1) (s.setPool P
      { s.pool P with
        pool,
        generators := (s.pool P).generators.push ⟨s.generators.size⟩ }) := h.setPool hid hsolo hcontexts
  exact hset.of_same rfl fun _ => rfl

theorem Accounted.withContext {pool : Pool} (h : Accounted start P d shelf s)
    (hsolo : pool.Solo (m + 1)) (hid : pool.id = P) (hnone : (s.pool P).generators.size = 0) :
    Accounted start P d shelf (s.withContext P pool) := by
  obtain ⟨n, hmanned⟩ := h.manned
  let made : Generator :=
    { registry := (s.pool P).registry, naming := (s.pool P).naming,
      moduleName := (s.naming (s.pool P).naming).name }
  have hempty : (s.pool P).generators = #[] := Array.size_eq_zero_iff.mp hnone
  have hpool : (s.withContext P pool).pool P
      = { s.pool P with pool, generators := #[⟨s.generators.size⟩] } := by
    rw [← Array.push_empty, ← hempty]
    exact pool_setPool hmanned.bound _
  have hgenerator : (s.withContext P pool).generator ⟨s.generators.size⟩ = made := by
    simp [Session.withContext, Session.generator, Array.getD_eq_getD_getElem?, made]
  have hnaming : (s.withContext P pool).naming (s.pool P).naming
      = { s.naming (s.pool P).naming with counter := (s.naming (s.pool P).naming).counter + 1 } := by
    have hbound := h.naming
    simp [Session.withContext, Session.naming, Array.getD_eq_getD_getElem?, hbound]
  have hnames : (s.withContext P pool).moduleNames P = [(s.naming (s.pool P).naming).name] := by
    simp only [moduleNames, hpool, List.map_cons, List.map_nil, hgenerator, made]
  have hdeclared : (s.withContext P pool).declaredTypes P = [] := by
    simp only [declaredTypes, hpool, List.flatMap_cons, List.flatMap_nil, hgenerator, made,
      List.append_nil]
  have hbefore : Balanced start shelf s.program (s.directory d).files
      (s.naming (s.pool P).naming) [] [] := by
    have hbalanced := h.balanced
    rw [moduleNames, declaredTypes, hempty] at hbalanced
    exact hbalanced
  refine ⟨⟨m + 1, hmanned.withContext hsolo hid hnone⟩, ?_, ?_, h.directory, fun g hg => ?_,
    h.room, ?_, h.listed⟩
  · rw [hpool]
    simpa [Session.withContext] using h.naming
  · rw [hpool, hnaming]
    exact h.target
  · rw [hpool] at hg ⊢
    obtain rfl := List.mem_singleton.mp (Array.mem_toList_iff.mpr hg)
    rw [hgenerator]
    exact ⟨by simp [Session.withContext], rfl⟩
  · rw [hpool, hnaming, hnames, hdeclared]
    exact hbefore.opens

theorem Accounted.leased (h : Accounted start P d shelf s) (q : PipelineId) :
    Accounted start P d shelf ((dequeue (s.pipeline q).pool Thread.main).start s).2 := by
  obtain ⟨n, hmanned⟩ := h.manned
  rw [hmanned.lines q]
  refine wp_const.mp (hmanned.wp_dequeue h (fun pool hsolo hid hone => ?_) fun pool hsolo
    hid hnone => ?_)
  · have hcontexts : (s.pool P).generators.size = pool.created := by rw [hone, hsolo.created_of_pos]
    have hset : Manned P (n + 1) (s.setPool P { s.pool P with pool }) :=
      hmanned.setPool hid hsolo hcontexts
    exact h.setPool hset
  · exact h.withContext hsolo hid hnone

theorem Accounted.returned (h : Accounted start P d shelf s) (q : PipelineId) (lease : Lease) :
    Accounted start P d shelf ((enqueue (s.pipeline q).pool Thread.main lease).start s).2 := by
  obtain ⟨n, hmanned⟩ := h.manned
  obtain ⟨pool, hend, m, hset, -⟩ := hmanned.enqueue lease
  rw [hmanned.lines q, hend]
  exact h.setPool hset

theorem Manned.generators_of_leases (h : Manned P n s) (hheld : s.Leases P g) :
    (s.pool P).generators = #[g] := by
  obtain ⟨c, depth, hfind, hg⟩ := hheld
  have hsolo : ∀ p : Pool, p.id = P → p.Solo n → p.leases.find? Thread.main = some (c, depth) →
      c = ⟨P, 0⟩ ∧ p.created = 1 := by
    intro p hid hp hrow
    cases hp with
    | unused => cases hrow
    | free => cases hrow
    | leased =>
      cases hrow
      exact ⟨congrArg (ContextId.mk · 0) hid, rfl⟩
  obtain ⟨rfl, hcreated⟩ := hsolo _ h.id h.solo hfind
  obtain ⟨made, hmade⟩ := Array.size_eq_one_iff.mp (h.contexts.trans hcreated)
  rw [contextGenerator, hmade] at hg
  obtain rfl : made = g := hg
  exact hmade

theorem mem_of_setRegistry {r q : RegistryId} {registry : Registry} {l : Listing}
    (hl : l ∈ ((s.setRegistry r registry).registry q).listings) :
    l ∈ (s.registry q).listings ∨ l ∈ registry.listings := by
  rw [setRegistry, Session.registry, Array.getD_eq_getD_getElem?,
    Array.getElem?_setIfInBounds] at hl
  split at hl
  · split at hl
    · exact .inr hl
    · exact absurd hl (Array.not_mem_empty l)
  · rw [← Array.getD_eq_getD_getElem?] at hl
    exact .inl hl

theorem Accounted.listed_within {r : RegistryId} {space : TypeSpace} {more : List TypeId}
    (h : Accounted start P d shelf s)
    (hspace : TypeSpace.Finishes more { program := s.program, registry := s.registry r } space)
    (q : RegistryId) :
    ∀ l ∈ ((s.setRegistry r space.registry).registry q).listings, start ≤ l.type.index →
      (space.program.record l.type).complete = true := by
  intro l hl hle
  rcases mem_of_setRegistry hl with hold | hnew
  · exact hspace.complete _ (h.listed q l hold hle)
  · rcases hspace.listed l hnew with hold | hdone
    · exact hspace.complete _ (h.listed r l hold hle)
    · exact hdone

theorem Accounted.worked {r : RegistryId} {space : TypeSpace} (h : Accounted start P d shelf s)
    (hspace : TypeSpace.Finishes [] { program := s.program, registry := s.registry r } space) :
    Accounted start P d shelf { s.setRegistry r space.registry with program := space.program } := by
  obtain ⟨n, hmanned⟩ := h.manned
  have hbalanced := h.balanced.produces hspace List.nodup_nil h.room fun _ ht =>
    absurd ht List.not_mem_nil
  rw [List.append_nil] at hbalanced
  exact ⟨⟨n, hmanned.of_same rfl fun _ => rfl⟩, h.naming, h.target, h.directory, h.contexts,
    Nat.le_trans h.room hspace.size, hbalanced, h.listed_within hspace⟩

theorem Accounted.generated (h : Accounted start P d shelf s) (q : PipelineId)
    (hheld : s.Leases (s.pipeline q).pool g) (objectType : TypeId) (batch : Batch) :
    Accounted start P d shelf ((generate g objectType batch).start s).2 := by
  obtain ⟨n, hmanned⟩ := h.manned
  rw [hmanned.lines q] at hheld
  have hone : (s.pool P).generators = #[g] := hmanned.generators_of_leases hheld
  obtain ⟨hlt, hnaming⟩ := h.contexts g (by simp [hone])
  obtain ⟨more, hmore⟩ := Production.generate_produces objectType batch (s.workshop g)
  let w := ((Production.generate objectType).start { batch, workshop := s.workshop g }).2.workshop
  show Accounted start P d shelf (s.putWorkshop g w)
  have hgenerator : (s.putWorkshop g w).generator g = { s.generator g with types := w.output } :=
    generator_of_lt hlt rfl
  have hnames : (s.putWorkshop g w).moduleNames P = s.moduleNames P := by
    show (s.pool P).generators.toList.map _ = (s.pool P).generators.toList.map _
    simp only [hone, List.map_cons, List.map_nil, hgenerator]
  have hdeclared : (s.putWorkshop g w).declaredTypes P = s.declaredTypes P ++ more := by
    show (s.pool P).generators.toList.flatMap _ = (s.pool P).generators.toList.flatMap _ ++ more
    simp only [hone, List.flatMap_cons, List.flatMap_nil, hgenerator, List.append_nil]
    exact hmore.output
  refine ⟨⟨n, hmanned.of_same rfl fun _ => rfl⟩, h.naming, h.target, h.directory, fun g' hg => ?_,
    Nat.le_trans h.room hmore.space.size, ?_, h.listed_within hmore.space⟩
  · have hsame : g' = g := by simpa [hone] using (show g' ∈ (s.pool P).generators from hg)
    rw [hsame, hgenerator]
    exact ⟨by simpa [putWorkshop, setGenerator, setRegistry] using hlt, hnaming⟩
  · rw [hnames, hdeclared]
    exact h.balanced.produces hmore.space hmore.nodup h.room hmore.range

/-- The finished types of the module under construction go to the shelf. -/
theorem Accounted.wrote {v : WrittenModule} (h : Accounted start P d shelf s)
    (hone : (s.pool P).generators = #[g]) (hwrote : s.Wrote g v s') :
    Accounted start P d (shelf ++ [⟨v, s.generatedTypes g⟩]) s' := by
  obtain ⟨n, hmanned⟩ := h.manned
  obtain ⟨hlt, hnaming⟩ := h.contexts g (by simp [hone])
  have hpool : s'.pool P = s.pool P := by rw [Session.pool, hwrote.pools, Session.pool]
  have hgenerator : s'.generator g
      = { s.generator g with moduleName := (s.naming (s.pool P).naming).name, types := #[] } := by
    rw [← hnaming]
    exact generator_of_lt hlt hwrote.generators
  have hscheme : s'.naming (s.pool P).naming
      = { s.naming (s.pool P).naming with counter := (s.naming (s.pool P).naming).counter + 1 } := by
    have hbound := h.naming
    have hnamings := hwrote.namings
    rw [hnaming] at hnamings
    simp [Session.naming, hnamings, Array.getD_eq_getD_getElem?, hbound]
  have hfiles : (s'.directory d).files = (s.directory d).files.put v.file v.text := by
    have hbound := h.directory
    have hdirectories := hwrote.directories
    rw [hnaming, h.target] at hdirectories
    simp [Session.directory, hdirectories, Array.getD_eq_getD_getElem?,
      Array.getElem_modify, hbound]
  have hnames : s.moduleNames P = [(s.generator g).moduleName] := by simp [moduleNames, hone]
  have hdeclared : s.declaredTypes P = (s.generator g).types.toList := by simp [declaredTypes, hone]
  have hnames' : s'.moduleNames P = [(s.naming (s.pool P).naming).name] := by
    simp [moduleNames, hpool, hone, hgenerator]
  have hdeclared' : s'.declaredTypes P = [] := by simp [declaredTypes, hpool, hone, hgenerator]
  have hbefore := h.balanced
  rw [hnames, hdeclared] at hbefore
  have hbalanced : Balanced start (shelf ++ [⟨v, s.generatedTypes g⟩]) s'.program
    ((s.directory d).files.put v.file v.text)
      { s.naming (s.pool P).naming with counter := (s.naming (s.pool P).naming).counter + 1 }
      [(s.naming (s.pool P).naming).name] [] :=
    hbefore.flushes hwrote.program hwrote.file rfl
  refine ⟨⟨n, hmanned.of_same hwrote.pools fun p => ?_⟩, ?_, ?_, ?_, fun g' hg => ?_, ?_, ?_,
    fun r l hl hle => ?_⟩
  · rw [Session.pipeline, hwrote.pipelines, Session.pipeline]
  · rw [hpool, hwrote.namings, Array.size_setIfInBounds]
    exact h.naming
  · rw [hpool, hscheme]
    exact h.target
  · rw [hwrote.directories, Array.size_modify]
    exact h.directory
  · rw [hpool] at hg ⊢
    have hsame : g' = g := by simpa [hone] using hg
    rw [hsame, hgenerator, hwrote.generators, Array.size_setIfInBounds]
    exact ⟨hlt, hnaming⟩
  · exact Nat.le_trans h.room hwrote.program.size
  · rw [hfiles, hpool, hscheme, hnames', hdeclared']
    exact hbalanced
  · rw [Session.registry, hwrote.registries] at hl
    exact (hwrote.program.complete _).trans (h.listed r l hl hle)

theorem Accounted.flushed {more : List WrittenModule} (h : Accounted start P d shelf s)
    (q : PipelineId) (hflush : (flush q).start s = (.ok more, s')) :
    ∃ shelf', shelf'.map (·.module) = more ∧ Accounted start P d (shelf ++ shelf') s'
      ∧ ∀ v ∈ shelf', more = [v.module] ∧ v.types = s.keptTypes P
        ∧ ∃ header, Artifact.encode s.program header v.types = .ok v.module.text := by
  obtain ⟨n, hmanned⟩ := h.manned
  obtain ⟨-, ⟨rfl, rfl⟩ | ⟨g, v, hone, rfl, hwrote⟩⟩ :=
    (wp_iff.mp (hmanned.wp_flush q)).1 _ _ hflush
  · exact ⟨[], rfl, by rwa [List.append_nil], fun _ hv => absurd hv List.not_mem_nil⟩
  · refine ⟨[⟨v, s.generatedTypes g⟩], rfl, h.wrote hone hwrote, fun w hw => ?_⟩
    obtain rfl := List.mem_singleton.mp hw
    exact ⟨rfl, by simp [keptTypes, hone], hwrote.text⟩

theorem Accounted.refused {fault : Fault} (h : Accounted start P d shelf s) (q : PipelineId)
    (hflush : (flush q).start s = (.error fault, s')) : Accounted start P d shelf s' := by
  obtain ⟨n, hmanned⟩ := h.manned
  obtain rfl := (wp_iff.mp (hmanned.wp_flush q)).2 _ _ hflush
  exact h

theorem Accounted.event {more : List WrittenModule} (h : Accounted start P d shelf s)
    (e : s.Event more s') :
    ∃ shelf', shelf'.map (·.module) = more ∧ Accounted start P d (shelf ++ shelf') s'
      ∧ ∀ v ∈ shelf', ∀ first written, Course first written s → ReturnedIn first s' v := by
  have hnothing : ∀ after, Accounted start P d shelf after → ∃ shelf' :
    List Volume, shelf'.map (·.module) = []
      ∧ Accounted start P d (shelf ++ shelf') after
      ∧ ∀ v ∈ shelf', ∀ first written, Course first written s → ReturnedIn first after v :=
          fun after hafter =>
            ⟨[], rfl, by rwa [List.append_nil], fun _ hv => absurd hv List.not_mem_nil⟩
  cases e with
  | leased q => exact hnothing _ (h.leased q)
  | generated q hheld objectType batch => exact hnothing _ (h.generated q hheld objectType batch)
  | returned q lease => exact hnothing _ (h.returned q lease)
  | refused q hflush => exact hnothing _ (h.refused q hflush)
  | worked r hspace => exact hnothing _ (h.worked hspace)
  | aside hkept => exact hnothing _ (h.aside hkept)
  | flushed q hflush =>
    obtain ⟨shelf', hshelf, hafter, hvolumes⟩ := h.flushed q hflush
    obtain ⟨n, hmanned⟩ := h.manned
    refine ⟨shelf', hshelf, hafter, fun v hv first written hcourse => ?_⟩
    obtain ⟨rfl, htypes, htext⟩ := hvolumes v hv
    exact ⟨written, s, q, s', [], hcourse, hflush, .start, by rw [hmanned.lines q, htypes], htext⟩

/-- At each moment of a course the types are accounted for, with what was written until then on
the shelf. -/
theorem Course.accounted {first : Session} {written : List WrittenModule}
    (h : Course first written s) (hfirst : Accounted start P d [] first) :
    ∃ shelf, shelf.map (·.module) = written ∧ Accounted start P d shelf s ∧ ∀ v ∈ shelf,
        ReturnedIn first s v := by
  induction h with
  | start => exact ⟨[], rfl, hfirst, fun _ hv => absurd hv List.not_mem_nil⟩
  | step h e ih =>
    obtain ⟨shelf, rfl, hmid, hreturned⟩ := ih
    obtain ⟨shelf', rfl, hafter, hnew⟩ := hmid.event e
    refine ⟨shelf ++ shelf', List.map_append, hafter, fun v hv => ?_⟩
    rcases List.mem_append.mp hv with hv | hv
    · exact (hreturned v hv).step e
    · exact hnew v hv _ _ h

end TypeLoom.Session
