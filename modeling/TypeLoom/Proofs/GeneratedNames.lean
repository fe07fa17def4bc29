import TypeLoom.Proofs.Commands
import TypeLoom.Proofs.Image
import TypeLoom.Proofs.ProxyDrafts
import TypeLoom.Proofs.ProxyNames
import TypeLoom.Proofs.Requests

/-!
# Names of generated types

A pipeline gives each proxy a name with a number of its own, under which its registry lists nothing
at that time. So no two proxies of one pipeline have the same full name, whatever participants
request on the way, and none has that of a type that was there before its name was chosen. Nothing
tells a proxy from what is listed between the choice and the end of its generation, by another
pipeline or by a participant: the full names of the generated types are distinct just when these
happen to differ.
-/

namespace TypeLoom

open Attempt

/-! ### Names of proxies -/

/-- The full name of a type with this heading that no type encloses. -/
def Descriptor.Heading.fullName (heading : Descriptor.Heading) : String :=
  if heading.space.isEmpty then heading.name else heading.space ++ "." ++ heading.name

/-- The record of a finished type that came out of a descriptor with this heading, which no type
encloses. -/
structure TypeRecord.Headed (heading : Descriptor.Heading) (r : TypeRecord) : Prop where
  complete : r.complete = true
  origin : r.origin = .generated
  space : r.space = heading.space
  name : r.name = heading.name
  declaring : r.declaring = none

section Headed

variable {u u' : Universe} {t : TypeId} {heading : Descriptor.Heading}

theorem Universe.Spares.headed (h : u.Spares u') (ht : (u.record t).Headed heading) :
    (u'.record t).Headed heading := by
  obtain ⟨nested, hrecord⟩ := h.record t ht.complete
  rw [hrecord]
  exact { ht with }

theorem Universe.fullName_of_declaring (hdone : (u.record t).complete = true)
    (hnone : (u.record t).declaring = none) :
    u.fullName t = if (u.record t).space.isEmpty then (u.record t).name else (u.record t).space
    ++ "." ++ (u.record t).name := by
  obtain ⟨size, hsize⟩ :=
    Nat.exists_eq_add_one_of_ne_zero (Nat.ne_of_gt (Nat.zero_lt_of_lt (lt_of_complete hdone)))
  have houter : u.declaring? t = none := by rw [declaring?, hnone, Option.bind_none]
  rw [fullName, hsize, fullNameWithin, houter]

theorem Universe.fullName_of_headed (ht : (u.record t).Headed heading) :
    u.fullName t = heading.fullName := by
  rw [fullName_of_declaring ht.complete ht.declaring, ht.space, ht.name,
    Descriptor.Heading.fullName]

/-- The type is finished, no type encloses it, and this is its full name. -/
structure Universe.Settled (u : Universe) (t : TypeId) (name : String) : Prop where
  complete : (u.record t).complete = true
  declaring : (u.record t).declaring = none
  fullName : u.fullName t = name

theorem Universe.Spares.settled {name : String} (h : u.Spares u') (ht : u.Settled t name) :
    u'.Settled t name := by
  obtain ⟨nested, hrecord⟩ := h.record t ht.complete
  have hdone : (u'.record t).complete = true := by
    rw [hrecord]
    exact ht.complete
  have hnone : (u'.record t).declaring = none := by
    rw [hrecord]
    exact ht.declaring
  refine ⟨hdone, hnone, ?_⟩
  rw [← ht.fullName, fullName_of_declaring hdone hnone,
    fullName_of_declaring ht.complete ht.declaring, hrecord]

end Headed

/-- The proxies of a batch come out as types with the same names. -/
theorem Production.wp_generate_headed (objectType : TypeId) (w : Workshop) {b : Batch}
    {proxies : List (TypeHandle × Descriptor.Heading)} (hb : b.Drafts proxies) :
    (generate objectType).wp
      (fun g after => ∀ p ∈ proxies, p.2.declaring = none → ∀ t, g.emitted.type p.1 = .ok t →
        (after.program.record t).Headed p.2)
      (fun _ => True) { batch := b, workshop := w } := by
  refine wp_mono (wp_generate_finished (G := False) objectType hb.wellFormed hb.whole w nofun) ?_
    fun _ _ => trivial
  rintro g after ⟨P, hfor, hfinished⟩ ⟨h, heading⟩ hp htop t ht
  obtain ⟨d, hd, rfl⟩ := hb.drafted _ hp
  obtain ⟨-, rfl⟩ := (Emitted.type_eq_ok hfinished.lists.types).mp ht
  have hdeclaring : d.declaring = none := htop
  have hshows := hfinished.shows hb.wellFormed hfor hd
  refine ⟨congrArg TypeRecord.complete hshows, congrArg TypeRecord.origin hshows, ?_,
    congrArg TypeRecord.name hshows, ?_⟩
  · refine (congrArg TypeRecord.space hshows).trans ?_
    show (if d.declaring.isSome then "" else d.space) = d.space
    rw [hdeclaring]
    rfl
  · refine (congrArg TypeRecord.declaring hshows).trans ?_
    show d.declaring.map P.layout.place = none
    rw [hdeclaring]
    rfl

/-! ### Histories -/

/-- A name that a pipeline chose: the number in it, what the proxy is headed, and which types
were known then. -/
structure Choice where
  pipeline : PipelineId
  number : Nat
  heading : Descriptor.Heading
  known : List TypeId

namespace Choice

/-- One pipeline has not chosen the same number for both, unless it does not count. -/
def Apart (c c' : Choice) : Prop := c.pipeline = c'.pipeline → c.number = c'.number → c.number = 0

theorem Apart.symm {c c' : Choice} (h : c.Apart c') : c'.Apart c := fun hline hnumber =>
  hnumber.trans (h hline.symm hnumber.symm)

/-- The heading is that of a proxy, which has the number at the end of its name. -/
structure Marked (c : Choice) : Prop where
  declaring : c.heading.declaring = none
  name : ∃ start, c.heading.name = start ++ "_Proxy_" ++ toString c.number

theorem Marked.fullName {c : Choice} (h : c.Marked) :
    ∃ start, c.heading.fullName = start ++ "_Proxy_" ++ toString c.number := by
  obtain ⟨start, hname⟩ := h.name
  unfold Descriptor.Heading.fullName
  split
  · exact ⟨start, hname⟩
  · refine ⟨c.heading.space ++ "." ++ start, ?_⟩
    rw [hname]
    simp only [String.append_assoc]

theorem Marked.number_eq {c c' : Choice} (h : c.Marked) (h' : c'.Marked)
    (heq : c.heading.fullName = c'.heading.fullName) :
    c.number = c'.number := by
  obtain ⟨start, hname⟩ := h.fullName
  obtain ⟨start', hname'⟩ := h'.fullName
  rw [hname, hname'] at heq
  exact number_of_proxyName heq

/-- The known types are still there, under other full names than the one that was chosen. -/
def Free (c : Choice) (u : Universe) : Prop :=
  0 < c.number → ∀ t ∈ c.known, ∃ name, u.Settled t name ∧ name ≠ c.heading.fullName

theorem Free.mono {c : Choice} {u u' : Universe} (h : c.Free u) (hspares : u.Spares u') :
    c.Free u' := by
  intro hcounted t ht
  obtain ⟨name, hsettled, hne⟩ := h hcounted t ht
  exact ⟨name, hspares.settled hsettled, hne⟩

end Choice

structure DraftProxy where
  handle : TypeHandle
  choice : Choice

structure MadeProxy where
  type : TypeId
  choice : Choice

def madeProxies (outcome : Except Fault Generated) (drafts : List DraftProxy) : List MadeProxy :=
  match outcome with
  | .ok g => drafts.filterMap fun d => (g.emitted.type d.handle).toOption.map fun t => ⟨t, d.choice⟩
  | .error _ => []

namespace Session

/-- The finished types outside of others that the registry of a pipeline lists under their full
names. -/
def known (s : Session) (p : PipelineId) : List TypeId :=
  ((s.registry (s.pipeline p).registry).listings.toList.filter fun l =>
    l.name == s.program.fullName l.type
    && (s.program.record l.type).complete && (s.program.record l.type).declaring.isNone).map
    (·.type)

/-- Finished types are as they were, no more generated ones are finished, and pipelines stay and
only count on. -/
structure NamesKept (s s' : Session) : Prop where
  program : s.program.Spares s'.program
  generated : ∀ t, (s'.program.record t).origin = .generated →
    (s'.program.record t).complete = true →
    (s.program.record t).complete = true
  lines : s.pipelines.size ≤ s'.pipelines.size
  counts : s.CountsOn s'

/-- What happens to the names of proxies, with those that are chosen for proxies on their way and
with the types that came out of proxies. A pipeline chooses a name or gives it up, a batch is
generated, or nothing is generated. -/
inductive ProxyHistory (first : Session) : List Choice → List MadeProxy → Session → Prop
  | start : ProxyHistory first [] [] first
  | aside {chosen : List Choice} {made : List MadeProxy} {s s' : Session}
    (h : ProxyHistory first chosen made s)
      (hkept : s.NamesKept s') : ProxyHistory first chosen made s'
  | chose {chosen : List Choice} {made : List MadeProxy} {s s' : Session}
    (h : ProxyHistory first chosen made s) (p : PipelineId)
      (requested : TypeId) {name : String}
      (hname : (proxyName p requested).start s = (.ok name, s')) :
      ProxyHistory first (⟨p, (s'.pipeline p).proxyNames, .ofProxy s'.program requested name,
        s'.known p⟩ :: chosen) made s'
  | gaveUp {c : Choice} {chosen : List Choice} {made : List MadeProxy} {s : Session}
    (h : ProxyHistory first (c :: chosen) made s) :
      ProxyHistory first chosen made s
  | generated (drafts : List DraftProxy) {chosen : List Choice} {made : List MadeProxy}
    {s s' : Session}
      (h : ProxyHistory first (drafts.map (·.choice) ++ chosen) made s) {batch : Batch}
      (hbatch : batch.Drafts (drafts.map fun d => (d.handle, d.choice.heading))) (g : GeneratorId)
        (objectType : TypeId)
      {outcome : Except Fault Generated} {closed : Batch}
      (hrun : (Session.generate g objectType batch).start s = (.ok (outcome, closed), s')) :
      ProxyHistory first chosen (made ++ madeProxies outcome drafts) s'

variable {first s mid s' : Session} {chosen : List Choice} {made : List MadeProxy} {α : Type}

/-! ### Generations -/

section Generation

variable {drafts : List DraftProxy} {batch closed : Batch} {g : GeneratorId} {objectType : TypeId}
  {outcome : Except Fault Generated}

theorem pipelines_generate (hrun : (Session.generate g objectType batch).start s
      = (.ok (outcome, closed), s')) :
    s'.pipelines = s.pipelines := by
  have hafter : ((Session.generate g objectType batch).start s).2.pipelines = s.pipelines := rfl
  rwa [hrun] at hafter

theorem choices_madeProxies (outcome : Except Fault Generated) (drafts : List DraftProxy) :
    ((madeProxies outcome drafts).map (·.choice)).Sublist (drafts.map (·.choice)) := by
  cases outcome with
  | error fault => exact List.nil_sublist _
  | ok g =>
    induction drafts with
    | nil => exact .slnil
    | cons d drafts ih =>
      rw [madeProxies, List.filterMap_cons]
      cases g.emitted.type d.handle with
      | error fault => exact ih.cons _
      | ok t => exact ih.cons_cons _

theorem headed_generate (hbatch : batch.Drafts (drafts.map fun d => (d.handle, d.choice.heading)))
    (hrun : (Session.generate g objectType batch).start s = (.ok (outcome, closed), s'))
    (hmarked : ∀ d ∈ drafts, d.choice.Marked) {m : MadeProxy}
    (hm : m ∈ madeProxies outcome drafts) :
    (s'.program.record m.type).Headed m.choice.heading := by
  have hheaded := Production.wp_generate_headed objectType (s.workshop g) hbatch
  rcases hproduced : (Production.generate objectType).start
    { batch, workshop := s.workshop g } with ⟨made, after⟩
  rw [Session.generate, start_of, hproduced] at hrun
  cases hrun
  cases outcome with
  | error fault => exact absurd hm List.not_mem_nil
  | ok g =>
    obtain ⟨d, hd, hmade⟩ := List.mem_filterMap.mp hm
    cases htype : g.emitted.type d.handle with
    | error fault =>
      rw [htype] at hmade
      cases hmade
    | ok t =>
      rw [htype] at hmade
      cases hmade
      exact wp_ok hheaded hproduced _ (List.mem_map_of_mem hd) (hmarked d hd).declaring t htype

end Generation

/-! ### Numbers -/

theorem fullName_ofProxy (s : Session) (requested : TypeId) (number : Nat) :
    (Descriptor.Heading.ofProxy s.program requested (s.numberedProxyName requested number)).fullName
      = s.proxyFullName requested number := rfl

theorem settled_of_known {p : PipelineId} {t : TypeId} (ht : t ∈ s.known p) :
    s.program.Settled t (s.program.fullName t)
      ∧ (s.registry (s.pipeline p).registry).hasName (s.program.fullName t) = true := by
  obtain ⟨l, hl, rfl⟩ := List.mem_map.mp ht
  obtain ⟨hlisted, hkept⟩ := List.mem_filter.mp hl
  simp only [Bool.and_eq_true, beq_iff_eq, Option.isNone_iff_eq_none] at hkept
  refine ⟨⟨hkept.1.2, hkept.2, rfl⟩,
    Array.any_eq_true'.mpr ⟨l, Array.mem_toList_iff.mp hlisted, ?_⟩⟩
  exact beq_iff_eq.mpr hkept.1.1

/-- The choices and what came of them are in order: no pipeline has chosen a number twice, or a
name that it knew. -/
structure Numbered (first : Session) (chosen : List Choice) (made : List MadeProxy) (s : Session) :
    Prop where
  lines : first.pipelines.size ≤ s.pipelines.size
  counted : ∀ c ∈ chosen ++ made.map (·.choice), c.pipeline.index < first.pipelines.size →
    0 < c.number
  counts : ∀ c ∈ chosen ++ made.map (·.choice), c.number ≤ (s.pipeline c.pipeline).proxyNames
  apart : (chosen ++ made.map (·.choice)).Pairwise Choice.Apart
  free : ∀ c ∈ chosen ++ made.map (·.choice), c.Free s.program
  marked : ∀ c ∈ chosen ++ made.map (·.choice), c.Marked
  headed : ∀ m ∈ made, (s.program.record m.type).Headed m.choice.heading

namespace Numbered

theorem aside (h : Numbered first chosen made s) (hprogram : s.program.Spares s'.program)
    (hlines : s.pipelines.size ≤ s'.pipelines.size) (hcounts : s.CountsOn s') :
    Numbered first chosen made s' where
  lines := Nat.le_trans h.lines hlines
  counted := h.counted
  counts := fun c hc => Nat.le_trans (h.counts c hc) (hcounts _)
  apart := h.apart
  free := fun c hc => (h.free c hc).mono hprogram
  marked := h.marked
  headed := fun m hm => hprogram.headed (h.headed m hm)

theorem chose {p : PipelineId} {requested : TypeId} {name : String}
    (h : Numbered first chosen made s) (hname : (proxyName p requested).start s = (.ok name, s')) :
    Numbered first (⟨p, (s'.pipeline p).proxyNames, .ofProxy s'.program requested name, s'.known p⟩
        :: chosen) made s' := by
  obtain ⟨hcounted, hmade, hgrows⟩ := wp_ok wp_proxyName hname
  have hcounts : s.CountsOn s' := hcounted.countsOn
  have hprogram : s.program.Spares s'.program := by
    rw [hcounted.program]
    exact .refl _
  have hkept := h.aside hprogram (Nat.le_of_eq hcounted.size.symm) hcounts
  refine ⟨hkept.lines, List.forall_mem_cons.mpr ⟨fun hp => ?_, h.counted⟩,
    List.forall_mem_cons.mpr ⟨Nat.le_refl _, hkept.counts⟩,
    List.pairwise_cons.mpr ⟨fun c hc hline hnumber => ?_, h.apart⟩,
    List.forall_mem_cons.mpr ⟨fun hnumber t ht => ?_, hkept.free⟩,
    List.forall_mem_cons.mpr ⟨⟨rfl, (s.program.record requested).name, hmade⟩, h.marked⟩,
      hkept.headed⟩
  · exact Nat.zero_lt_of_lt (hgrows (Nat.lt_of_lt_of_le hp h.lines)).1
  -- A pipeline that is there has counted past all that it chose before.
  · by_cases hp : p.index < s.pipelines.size
    · have hlt := (hgrows hp).1
      have hle := h.counts c hc
      dsimp only at hline hnumber
      rw [← hline, ← hnumber] at hle
      omega
    · exact hcounted.eq_zero (Nat.le_of_not_lt hp)
  · have hp : p.index < s.pipelines.size :=
      Nat.lt_of_not_le fun hp => Nat.ne_of_gt hnumber (hcounted.eq_zero hp)
    obtain ⟨hsettled, hlisted⟩ := settled_of_known ht
    refine ⟨_, hsettled, fun heq => (hgrows hp).2 ((hcounted.takes _).mp ?_)⟩
    rw [Takes, ← fullName_ofProxy, hcounted.numberedProxyName, ← hmade, ← heq]
    exact hlisted

theorem gaveUp {c : Choice} (h : Numbered first (c :: chosen) made s) :
    Numbered first chosen made s where
  lines := h.lines
  counted := fun c hc => h.counted c (List.mem_cons_of_mem _ hc)
  counts := fun c hc => h.counts c (List.mem_cons_of_mem _ hc)
  apart := (List.pairwise_cons.mp h.apart).2
  free := fun c hc => h.free c (List.mem_cons_of_mem _ hc)
  marked := fun c hc => h.marked c (List.mem_cons_of_mem _ hc)
  headed := h.headed

theorem generated {drafts : List DraftProxy}
    (h : Numbered first (drafts.map (·.choice) ++ chosen) made s) {batch : Batch}
    (hbatch : batch.Drafts (drafts.map fun d => (d.handle, d.choice.heading))) {g : GeneratorId}
    {objectType : TypeId} {outcome : Except Fault Generated} {closed : Batch}
    (hrun : (Session.generate g objectType batch).start s = (.ok (outcome, closed), s')) :
    Numbered first chosen (made ++ madeProxies outcome drafts) s' := by
  have hremains : s.Remains s' := by
    have hafter : s.Remains ((Session.generate g objectType batch).start s).2 :=
      wp_const.mp (remains_generate g objectType batch s (.refl s))
    rwa [hrun] at hafter
  have hpipelines := pipelines_generate hrun
  have hkept := h.aside hremains.program (Nat.le_of_eq (congrArg Array.size hpipelines.symm))
    (.of_pipelines hpipelines)
  have hmore : (chosen ++ (made ++ madeProxies outcome drafts).map (·.choice)).Subperm
      (drafts.map (·.choice) ++ chosen ++ made.map (·.choice)) := by
    refine ⟨(madeProxies outcome drafts).map (·.choice) ++ (chosen ++ made.map (·.choice)), ?_, ?_⟩
    · rw [List.map_append, ← List.append_assoc chosen]
      exact List.perm_append_comm
    · rw [List.append_assoc]
      exact (choices_madeProxies outcome drafts).append_right _
  refine ⟨hkept.lines, fun c hc => hkept.counted c (hmore.subset hc), fun c hc =>
    hkept.counts c (hmore.subset hc), ?_,
    fun c hc => hkept.free c (hmore.subset hc), fun c hc => hkept.marked c (hmore.subset hc),
    fun m hm => ?_⟩
  · obtain ⟨some, hperm, hsub⟩ := hmore
    exact (hperm.pairwise_iff fun h => Choice.Apart.symm h).mp (hkept.apart.sublist hsub)
  · rcases List.mem_append.mp hm with hm | hm
    · exact hkept.headed m hm
    · refine headed_generate hbatch hrun (fun d hd => h.marked _ ?_) hm
      exact List.mem_append_left _ (List.mem_append_left _ (List.mem_map_of_mem hd))

end Numbered

theorem ProxyHistory.numbered (h : ProxyHistory first chosen made s) :
    Numbered first chosen made s := by
  induction h with
  | start => exact ⟨Nat.le_refl _, nofun, nofun, .nil, nofun, nofun, nofun⟩
  | aside _ hkept ih => exact ih.aside hkept.program hkept.lines hkept.counts
  | chose _ p requested hname ih => exact ih.chose hname
  | gaveUp _ ih => exact ih.gaveUp
  | generated drafts _ hbatch g objectType hrun ih => exact ih.generated hbatch hrun

/-! ### Commands -/

theorem NamesKept.of_program (hprogram : s'.program = s.program)
    (hlines : s.pipelines.size ≤ s'.pipelines.size) (hcounts : s.CountsOn s') : s.NamesKept s' where
  program := by
    rw [hprogram]
    exact .refl _
  generated := fun t _ hdone => by rwa [hprogram] at hdone
  lines := hlines
  counts := hcounts

theorem namesKept_modify (s : Session) (q : PipelineId) {change : Pipeline → Pipeline}
    (h : ∀ line, line.proxyNames ≤ (change line).proxyNames) :
    s.NamesKept { s with pipelines := s.pipelines.modify q.index change } :=
  .of_program rfl (Nat.le_of_eq Array.size_modify.symm) (countsOn_modify s q h)

/-- Since then, names may have been chosen and given up again, and more types have come out of
proxies. -/
def Recorded (first : Session) (chosen : List Choice) (made : List MadeProxy) (s : Session) :
    Prop :=
  ∃ more, ProxyHistory first chosen (made ++ more) s

theorem ProxyHistory.recorded (h : ProxyHistory first chosen made s) :
    Recorded first chosen made s := ⟨[], by rwa [List.append_nil]⟩

namespace Recorded

theorem aside (h : Recorded first chosen made s) (hkept : s.NamesKept s') :
    Recorded first chosen made s' := by
  obtain ⟨more, h⟩ := h
  exact ⟨more, h.aside hkept⟩

theorem gaveUp {c : Choice} (h : Recorded first (c :: chosen) made s) :
    Recorded first chosen made s := by
  obtain ⟨more, h⟩ := h
  exact ⟨more, h.gaveUp⟩

theorem aloof : Aloof (Recorded first chosen made) := fun _ _ hprogram _ hpipelines h =>
  h.aside (.of_program hprogram (Nat.le_of_eq (congrArg Array.size hpipelines.symm))
    (.of_pipelines hpipelines))

theorem read (r : RegistryId) (text : String) : Maintains (Recorded first chosen made)
    (inRegistry r (Artifact.decode text)) := by
  intro s hs
  have hnext : ∀ space, TypeSpace.Spares { program := s.program, registry := s.registry r } space →
      TypeSpace.Finishes [] { program := s.program, registry := s.registry r } space →
      Recorded first chosen made
        { s.setRegistry r space.registry with program := space.program } := by
    intro space hspares hfinishes
    refine hs.aside ⟨hspares.program, fun t horigin hdone => ?_, Nat.le_refl _, .of_pipelines rfl⟩
    exact (hfinishes.made t horigin hdone).resolve_right List.not_mem_nil
  rw [inRegistry, wp_within]
  exact wp_mono (wp_and (Artifact.spares_decode text _ (.refl _)) (Artifact.wp_decode text _))
    (fun _ space h => hnext space h.1 h.2.2) fun space h => hnext space h.1 h.2.finishes

theorem giveUpUnfinished (s : Session) (g : GeneratorId) (h : Recorded first chosen made s) :
    Recorded first chosen made (s.giveUpUnfinished g) :=
  h.aside ⟨(remains_giveUpUnfinished s g (.refl s)).program,
    fun t _ hdone => ((Universe.prepares_drop _ s.program).complete t).symm.trans hdone,
    Nat.le_refl _, .of_pipelines rfl⟩

theorem enduring : Enduring fun _ => Recorded first chosen made where
  aside := fun hmodules hcaches hcounts h =>
    h.aside (.of_program hmodules.program hcaches.size hcounts)
  read := read
  lease := fun _ _ hact => maintains_bind maintains_get fun _ => maintains_withLease aloof _ _ hact
  flush := maintains_flush aloof giveUpUnfinished
  cache := fun _ _ s _ h => h.aside (namesKept_modify s _ fun _ => Nat.le_refl _)
  addRows := fun s q _ h => h.aside (namesKept_modify s q fun _ => Nat.le_refl _)

end Recorded

end Session

/-! ### Assemblies -/

namespace Assembler

open Session Scene

variable {first : Session} {chosen : List Choice} {made : List MadeProxy} {α : Type}
  {a : Assembler} {scene : Scene}

section Walk

variable (hrequests : ∀ chosen made c, Maintains (Recorded first chosen made) (a.requests c))
include hrequests

theorem recorded_contribution (contribution : Contribution α) :
    Maintains (About (Recorded first chosen made))
    (contribution.run (DraftAction.perform a.requests)) :=
  @Contribution.maintains_run _ [] _ _ Recorded.enduring.toCalm (fun _ =>
    hrequests chosen made) contribution

theorem recorded_errand (errand : Errand α) :
    Maintains (Recorded first chosen made) (errand.run (Action.perform a.requests)) :=
  @Errand.maintains_run _ [] _ _ Recorded.enduring.toCalm (fun _ => hrequests chosen made) errand

/-- A name is chosen for the proxy, and it keeps it whatever participants contribute. -/
theorem wp_draftProxy_recorded (id : Identifier) (hs : Recorded first chosen made scene.session) :
    (a.draftProxy id).wp
      (fun proxy after => ∃ c, Recorded first (c :: chosen) made after.session
        ∧ after.batch.Drafts [(proxy, c.heading)])
      (About (Recorded first chosen made)) scene := by
  obtain ⟨more, hs⟩ := hs
  refine a.wp_draftProxy_of (wp_iff.mpr ⟨fun name s hname => ?_, fun fault s hname => ?_⟩)
  · have hchose : Recorded first _ made s := ⟨more, hs.chose a.pipeline id.requested hname⟩
    have hdrafts := Batch.drafts_createProxy s.program id.requested name
    have hturns := maintains_forM (a.participants.zipIdx)
      (fun turn _ => recorded_contribution hrequests
        (turn.1.participate ⟨id, turn.2, (Batch.createProxy s.program {} id.requested name).1⟩))
      { scene with
        session := s, batch := (Batch.createProxy s.program {} id.requested name).2 } hchose
    refine wp_mono (wp_and hturns (a.drafts_contribute id _ _ hdrafts)) (fun _ after h => ?_)
      fun after h => h.1.gaveUp
    exact ⟨_, h.1, h.2⟩
  · exact ((wp_iff.mp wp_proxyName).2 fault s hname).elim

/-- The names that were chosen for the proxies of the batch are used or lost. -/
theorem wp_generateBatch_recorded (drafts : List DraftProxy)
    (hs : Recorded first (drafts.map (·.choice) ++ chosen) made scene.session)
    (hbatch : scene.batch.Drafts (drafts.map fun d => (d.handle, d.choice.heading))) :
    a.generateBatch.wp (fun _ => About (Recorded first chosen made))
        (About (Recorded first chosen made)) scene := by
  obtain ⟨more, hs⟩ := hs
  unfold generateBatch
  rw [wp_bind, wp_get, wp_bind, inSession, wp_within]
  refine wp_iff.mpr ⟨fun result s hrun => ?_, fun fault s hrun => by cases hrun⟩
  have hnext : Recorded first chosen made s := ⟨more ++ _, by
    rw [← List.append_assoc]
    exact hs.generated drafts hbatch a.generator _ hrun⟩
  rw [wp_bind, wp_modify, wp_bind, wp_lift]
  refine ⟨fun g _ => ?_, fun _ _ => hnext⟩
  have htold : Maintains (About (Recorded first chosen made))
      (scene.callbacks.toList.forM fun callback =>
        inSession ((callback g).run (Action.perform a.requests))) :=
    maintains_forM _ fun callback _ => maintains_inSession (recorded_errand hrequests (callback g))
  exact wp_step (htold _ hnext) (fun _ _ h => h) fun _ h => h

theorem recorded_assembleProxy (id : Identifier) : Maintains (About (Recorded first chosen made))
    (a.assembleProxy id) := by
  intro scene hs
  unfold assembleProxy
  refine wp_step (wp_draftProxy_recorded hrequests id hs) (fun proxy drafted hdrafted =>
    ?_) fun _ h => h
  obtain ⟨c, hchose, hbatch⟩ := hdrafted
  rw [wp_bind, wp_get, wp_ite]
  refine ⟨fun _ => hchose.gaveUp, fun _ => ?_⟩
  have hstamped :=
    wp_and (maintains_stamp (P := Recorded first (c :: chosen) made) a id proxy drafted hchose)
    (a.drafts_stamp id proxy drafted hbatch)
  refine wp_step hstamped (fun _ stamped h => ?_) fun _ h => h.1.gaveUp
  exact wp_step (wp_generateBatch_recorded hrequests [⟨proxy, c⟩] h.1 h.2)
    (fun _ after hafter => maintains_lift _ after hafter) fun _ hafter => hafter

theorem recorded_assemble (id : Identifier) : Maintains (About (Recorded first chosen made))
    (a.assemble id) := by
  refine maintains_bind maintains_get fun scene => maintains_ite ?_ ?_
  · exact maintains_recast _ (recorded_assembleProxy hrequests id)
  · refine maintains_bind (maintains_forM _ fun participant _ => ?_) fun _ => maintains_pure _
    exact maintains_inSession (recorded_errand hrequests _)

theorem recorded_assembleAdditional (id : Part) : Preserves (Recorded first chosen made)
    (a.assembleAdditional id) := by
  have hprovide : ∀ (participants : List Participant) (scene : Scene),
    Recorded first chosen made scene.session →
      scene.batch.Drafts [] → (a.provideAdditional id participants).wp (fun _ =>
        About (Recorded first chosen made))
        (About (Recorded first chosen made)) scene := by
    intro participants
    induction participants with
    | nil => exact fun _ hs _ => hs
    | cons participant rest ih =>
      intro scene hs hbatch
      have hcontribution :=
        wp_and (recorded_contribution hrequests (participant.additionalType id) scene hs)
        (Contribution.drafts_run (participant.additionalType id) scene hbatch)
      refine wp_step hcontribution (fun answer after hafter => ?_) fun _ h => h.1
      split
      · exact hafter.1
      · exact wp_step (wp_generateBatch_recorded hrequests [] hafter.1 hafter.2)
          (fun _ after hafter => maintains_lift _ after hafter) fun _ h => h
      · exact ih after hafter.1 hafter.2
  intro s hs
  rw [assembleAdditional, wp_recast]
  exact hprovide _ _ hs Batch.drafts_empty

end Walk

end Assembler

namespace Session

variable {first s : Session} {chosen : List Choice} {made : List MadeProxy}

theorem ProxyHistory.performWithin (h : ProxyHistory first chosen made s) (cast : Cast)
    (depth : Nat) (c : Command) :
    ∃ more, ProxyHistory first chosen (made ++ more)
    ((Session.performWithin cast depth c).start s).2 := by
  let family (k : List Choice × List MadeProxy) (_ : List GeneratorId) : Session → Prop :=
    Recorded first k.1 k.2
  have hassembling : ∀ requests : Requests, (∀ k gs c, Maintains (family k gs) (requests c)) →
      ∀ k, Assembling (family k) requests := by
    intro requests hrequests k
    have hall : ∀ a : Assembler, a.requests = requests →
        ∀ chosen made c, Maintains (Recorded first chosen made) (a.requests c) :=
        fun a ha chosen made c =>
          ha ▸ hrequests (chosen, made) [] c
    exact ⟨fun a ha id => Scene.preserves_of_maintains (Assembler.recorded_assemble (hall a ha) id),
      fun a ha id => Assembler.recorded_assembleAdditional (hall a ha) id⟩
  exact wp_const.mp (maintains_performWithin_family (I :=
    family) (fun _ => Recorded.enduring) hassembling (chosen, made) []
    depth c s h.recorded)

/-! ### Proxies without contributions -/

/-- A pipeline makes a proxy of a type, and nobody contributes to it. -/
def makeProxy (p : PipelineId) (g : GeneratorId) (requested objectType : TypeId) :
    Attempt Session TypeId := do
  let name ← proxyName p requested
  let s ← get
  let (proxy, batch) := Batch.createProxy s.program {} requested name
  let (outcome, _) ← Session.generate g objectType batch
  let generated ← Attempt.lift outcome
  Attempt.lift (generated.emitted.type proxy)

theorem madeProxies_singleton {g : Generated} {draft : DraftProxy} {t : TypeId}
    (h : g.emitted.type draft.handle = .ok t) :
    madeProxies (.ok g) [draft] = [⟨t, draft.choice⟩] := by
  simp [madeProxies, h, Except.toOption]

/-- What came out of a proxy is in the history, under the name that its pipeline chose. -/
theorem ProxyHistory.makeProxy (h : ProxyHistory first chosen made s) {p : PipelineId}
    {g : GeneratorId} {requested objectType t : TypeId}
    (hrun : (makeProxy p g requested objectType).start s = (.ok t, s')) :
    ∃ m : MadeProxy, m.type = t ∧ m.choice.pipeline = p
        ∧ ProxyHistory first chosen (made ++ [m]) s' := by
  rw [Session.makeProxy, start_bind_ok] at hrun
  obtain ⟨name, named, hname, hrest⟩ := hrun
  rw [start_bind_ok] at hrest
  obtain ⟨_, _, hget, hrest⟩ := hrest
  cases hget
  rw [start_bind_ok] at hrest
  obtain ⟨⟨outcome, closed⟩, after, hgenerate, hrest⟩ := hrest
  rw [start_bind, start_lift] at hrest
  cases outcome with
  | error fault => cases hrest
  | ok generated =>
    dsimp only at hrest
    rw [start_lift] at hrest
    obtain ⟨htype, hlast⟩ := Prod.mk.inj hrest
    subst hlast
    have hdrafts := Batch.drafts_createProxy named.program requested name
    have hnext := ProxyHistory.generated [⟨_, _⟩] (h.chose p requested hname) hdrafts g
      objectType hgenerate
    rw [madeProxies_singleton htype] at hnext
    exact ⟨_, rfl, rfl, hnext⟩

/-! ### Distinct names -/

/-- Of the generated types that a registry lists, no two have the same full name but those that
are exempt. -/
def NamesDistinctBut (exempt : TypeId → TypeId → Prop) (s : Session) : Prop :=
  ∀ r, ∀ l ∈ (s.registry r).listings, ∀ l' ∈ (s.registry r).listings,
    (s.program.record l.type).origin = .generated →
    (s.program.record l'.type).origin = .generated → l.type ≠ l'.type → ¬ exempt l.type l'.type →
    ¬ exempt l'.type l.type →
      s.program.fullName l.type ≠ s.program.fullName l'.type

/-- The full names of the generated types of each registry are distinct. -/
def NamesDistinct (s : Session) : Prop := s.NamesDistinctBut fun _ _ => False

/-- The first type came out of a proxy of a pipeline that counts. The other one came out of a
proxy of the same pipeline, or the pipeline knew it when it chose the name. -/
def ToldApart (made : List MadeProxy) (t t' : TypeId) : Prop :=
  ∃ m ∈ made, m.type = t ∧ 0 < m.choice.number
    ∧ ((∃ m' ∈ made, m'.type = t' ∧ m.choice.pipeline = m'.choice.pipeline) ∨ t' ∈ m.choice.known)

theorem Numbered.fullName_ne (h : Numbered first chosen made s) {t t' : TypeId}
    (hapart : ToldApart made t t') (hne : t ≠ t') :
    s.program.fullName t ≠ s.program.fullName t' := by
  obtain ⟨m, hm, rfl, hcounted, hother⟩ := hapart
  intro heq
  rw [Universe.fullName_of_headed (h.headed m hm)] at heq
  have hmember : ∀ m ∈ made, m.choice ∈ chosen ++ made.map (·.choice) := fun m hm =>
    List.mem_append_right _ (List.mem_map_of_mem hm)
  rcases hother with ⟨m', hm', rfl, hline⟩ | hknown
  · rw [Universe.fullName_of_headed (h.headed m' hm')] at heq
    have hnumber := (h.marked _ (hmember m hm)).number_eq (h.marked _ (hmember m' hm')) heq
    have hpairs : made.Pairwise fun m m' => m.choice.Apart m'.choice :=
      List.pairwise_map.mp (List.pairwise_append.mp h.apart).2.1
    have hsymm : Std.Symm fun m m' : MadeProxy => m.choice.Apart m'.choice :=
      ⟨fun _ _ => Choice.Apart.symm⟩
    have hzero :=
      hpairs.forall hm hm' (fun hsame => hne (congrArg MadeProxy.type hsame)) hline hnumber
    exact absurd hzero (Nat.ne_of_gt hcounted)
  · obtain ⟨name, hsettled, hfree⟩ := h.free _ (hmember m hm) hcounted t' hknown
    exact hfree (hsettled.fullName.symm.trans heq.symm)

/-- All commands are in a history. At each moment of a history, two proxies of one pipeline have
different full names, and so have a proxy and a type that its pipeline knew when it chose the
name. So the full names of generated types are distinct just when no two generated types have the
same one that are not told apart like this. The pipelines that were there from the start all
count. -/
theorem generated_names_distinct_iff (first : Session) :
    (∀ chosen made s, ProxyHistory first chosen made s → ∀ cast depth c, ∃ more,
      ProxyHistory first chosen (made ++ more) ((performWithin cast depth c).start s).2)
    ∧ ∀ chosen made s, ProxyHistory first chosen made s →
      (∀ m ∈ made, m.choice.pipeline.index < first.pipelines.size → 0 < m.choice.number)
      ∧ (∀ t t', ToldApart made t t' → t ≠ t' → s.program.fullName t ≠ s.program.fullName t')
      ∧ (s.NamesDistinct ↔ s.NamesDistinctBut (ToldApart made)) := by
  refine ⟨fun _ _ _ h cast depth c => h.performWithin cast depth c, fun chosen made s h => ?_⟩
  have hnumbered := h.numbered
  have hcounted : ∀ m ∈ made, m.choice.pipeline.index < first.pipelines.size →
      0 < m.choice.number := fun m hm =>
    hnumbered.counted _ (List.mem_append_right _ (List.mem_map_of_mem hm))
  have hapart : ∀ t t', ToldApart made t t' → t ≠ t' →
      s.program.fullName t ≠ s.program.fullName t' := fun _ _ =>
    hnumbered.fullName_ne
  refine ⟨hcounted, hapart, fun hdistinct r l hl l' hl' hmade hmade' hne _ _ => ?_,
    fun hdistinct r l hl l' hl' hmade hmade' hne _ _ => ?_⟩
  · exact hdistinct r l hl l' hl' hmade hmade' hne not_false not_false
  · by_cases htold : ToldApart made l.type l'.type
    · exact hapart _ _ htold hne
    · by_cases htold' : ToldApart made l'.type l.type
      · exact (hapart _ _ htold' hne.symm).symm
      · exact hdistinct r l hl l' hl' hmade hmade' hne htold htold'

/-- A pipeline on a fresh registry, and a generator beside it. -/
def oneGenerator : Session := ((addGenerator ⟨0⟩ ⟨0⟩).start onePipeline).2

/-- The pipeline makes two proxies of the first type. -/
def twoProxies : Attempt Session (List TypeId) := do
  let one ← makeProxy ⟨0⟩ ⟨0⟩ ⟨0⟩ ⟨0⟩
  let other ← makeProxy ⟨0⟩ ⟨0⟩ ⟨0⟩ ⟨0⟩
  return [one, other]

set_option maxRecDepth 10000 in
/-- Two proxies of one pipeline are told apart, and nothing else was generated: the names are
distinct. -/
theorem generated_names_distinct_twice : ∃ made,
    ProxyHistory oneGenerator [] made (twoProxies.start oneGenerator).2
      ∧ ToldApart made ⟨3⟩ ⟨4⟩
      ∧ (twoProxies.start oneGenerator).2.program.fullName ⟨3⟩
        ≠ (twoProxies.start oneGenerator).2.program.fullName ⟨4⟩
      ∧ (twoProxies.start oneGenerator).2.NamesDistinct := by
  have hsize : oneGenerator.pipelines.size = 1 := by decide +kernel
  have hregistries : (twoProxies.start oneGenerator).2.registries.size = 1 := by decide +kernel
  have hgenerated : ∀ l ∈ ((twoProxies.start oneGenerator).2.registry ⟨0⟩).listings.toList,
      ((twoProxies.start oneGenerator).2.program.record l.type).origin = .generated → l.type = ⟨3⟩
      ∨ l.type = ⟨4⟩ := by
    decide +kernel
  have hanswer : (twoProxies.start oneGenerator).1.toOption = some [⟨3⟩, ⟨4⟩] := by decide +kernel
  generalize hend : twoProxies.start oneGenerator = result at hregistries hgenerated hanswer ⊢
  obtain ⟨answer, last⟩ := result
  cases answer with
  | error fault => cases hanswer
  | ok types =>
    obtain rfl : types = [⟨3⟩, ⟨4⟩] := Option.some.inj hanswer
    rw [twoProxies, start_bind_ok] at hend
    obtain ⟨one, mid, hfirst, hrest⟩ := hend
    rw [start_bind_ok] at hrest
    obtain ⟨other, after, hsecond, hrest⟩ := hrest
    cases hrest
    obtain ⟨m, htype, hline, hhistory⟩ := ProxyHistory.start.makeProxy hfirst
    obtain ⟨m', htype', hline', hhistory⟩ := hhistory.makeProxy hsecond
    have hhistory : ProxyHistory oneGenerator [] [m, m'] last := hhistory
    obtain ⟨-, hnames⟩ := generated_names_distinct_iff oneGenerator
    obtain ⟨hcounted, hapart, hdistinct⟩ := hnames _ _ _ hhistory
    have htold : ToldApart [m, m'] ⟨3⟩ ⟨4⟩ :=
      ⟨m, List.mem_cons_self, htype, hcounted m List.mem_cons_self (by rw [hline, hsize]; decide),
        .inl ⟨m', List.mem_cons_of_mem _ List.mem_cons_self, htype', hline.trans hline'.symm⟩⟩
    refine ⟨_, hhistory, htold, hapart _ _ htold (by decide),
      hdistinct.mpr fun r l hl l' hl' hmade hmade' hne htells htells' => ?_⟩
    have hregistry : r = ⟨0⟩ := by
      by_contra hother
      have hempty : last.registry r = default := by
        rw [registry, Array.getD_eq_getD_getElem?, Array.getElem?_eq_none, Option.getD_none]
        have hone : last.registries.size = 1 := hregistries
        have hindex : r.index ≠ 0 := fun hzero => hother (congrArg RegistryId.mk hzero)
        omega
      rw [hempty] at hl
      exact absurd hl (Array.not_mem_empty _)
    subst hregistry
    rcases hgenerated l (Array.mem_toList_iff.mpr hl) hmade with heq | heq
    · rcases hgenerated l' (Array.mem_toList_iff.mpr hl') hmade' with heq' | heq'
      · exact absurd (heq.trans heq'.symm) hne
      · exact absurd (heq ▸ heq' ▸ htold) htells
    · rcases hgenerated l' (Array.mem_toList_iff.mpr hl') hmade' with heq' | heq'
      · exact absurd (heq ▸ heq' ▸ htold) htells'
      · exact absurd (heq.trans heq'.symm) hne

theorem namesDistinct_of_declared (h : ∀ r ∈ s.program.types, r.origin ≠ .generated) :
    s.NamesDistinct := by
  intro _ l _ _ _ hmade _ _ _ _
  by_cases hlt : l.type.index < s.program.types.size
  · rw [Universe.record, Array.getD, dif_pos hlt] at hmade
    exact absurd hmade (h _ (Array.getElem_mem hlt))
  · rw [Universe.record_of_le _ _ (Nat.le_of_not_lt hlt)] at hmade
    cases hmade

def twoPipelines : Session :=
  ((openPipeline ⟨0⟩ "default" 2 ⟨⟨0⟩, "Other", 2⟩ ["recurring"]).start onePipeline).2

/-- A request to the first pipeline. Participants request the same type from the second one while
they contribute. -/
def crossingRun : Session :=
  ((perform (fun _ => [recurring ⟨1⟩]) (.assembled ⟨0⟩ firstTypeId)).start twoPipelines).2

/-- The full names of generated types stay distinct, whatever participants do. -/
def NamesStayDistinct : Prop :=
  ∀ s : Session, s.NamesDistinct → ∀ cast c, ((perform cast c).start s).2.NamesDistinct

set_option maxRecDepth 10000 in
/-- The second pipeline uses the name that the first one has chosen. -/
theorem not_namesStayDistinct : ¬ NamesStayDistinct := by
  intro hstay
  have hfirst : twoPipelines.NamesDistinct := namesDistinct_of_declared (by decide +kernel)
  have hdistinct : crossingRun.NamesDistinct := hstay _ hfirst _ _
  have hlisted : ∀ t ∈ [(⟨3⟩ : TypeId), ⟨4⟩],
    t ∈ (crossingRun.registry ⟨0⟩).listings.toList.map (·.type)
      ∧ (crossingRun.program.record t).origin = .generated := by decide +kernel
  have hsame : crossingRun.program.fullName ⟨3⟩ = crossingRun.program.fullName ⟨4⟩ := by
    decide +kernel
  obtain ⟨hmem, hmade⟩ := hlisted ⟨3⟩ (by decide)
  obtain ⟨hmem', hmade'⟩ := hlisted ⟨4⟩ (by decide)
  obtain ⟨l, hl, hid⟩ := List.mem_map.mp hmem
  obtain ⟨l', hl', hid'⟩ := List.mem_map.mp hmem'
  have hne := hdistinct ⟨0⟩ l (Array.mem_toList_iff.mp hl) l' (Array.mem_toList_iff.mp hl')
  rw [hid, hid'] at hne
  exact hne hmade hmade' (by decide) not_false not_false hsame

end Session

end TypeLoom
