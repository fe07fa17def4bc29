import TypeLoom.Proofs.Pages

/-!
# Renditions

Pages are read by a pipeline on another registry, one after the other. The copies of types that
stand for identifiers are told to be proxies for them, in the order of the pages, so the first proxy
that tells an identifier is the copy of the first type that stands for it.
-/

namespace TypeLoom

open Attempt

/-- The identifier with the type that another registry has for the requested type. -/
def Identifier.onto (there : TypeId → TypeId) (id : Identifier) : Identifier :=
  ⟨there id.requested, id.parts⟩

namespace Session

variable {cast : Cast} {p q : PipelineId} {id key : Identifier} {t c : TypeId} {f : FieldId}
  {s s' start now ready after : Session}
  {page : Page} {pages : List Page} {loaded loaded' : Loaded} {there : TypeId → TypeId}

/-! ### Pages as they are read -/

/-- A page as it was read: the types that its elements became, in order, and the session as it
was before any of them was sorted. -/
structure Rendition where
  page : Page
  copies : List TypeId
  session : Session

namespace Rendition

def rows (r : Rendition) : List (TypeId × TypeId) := r.page.types.zip r.copies

def marked (q : PipelineId) (r : Rendition) : List TypeId :=
  r.copies.filter (r.session.isAssembled q)

end Rendition

def renditionsFrom (q : PipelineId) : Loaded → List Page → Session → List Rendition
  | _, [], _ => []
  | loaded, page :: pages, s =>
    match (inRegistry (s.pipeline q).registry (Artifact.decode page.text)).start s with
    | (.ok (_, copies), ready) =>
      ⟨page, copies, ready⟩ ::
        match (copies.foldlM (classify q) loaded).start ready with
        | (.ok loaded, after) => renditionsFrom q loaded pages after
        | (.error _, _) => []
    | (.error _, _) => []

def renditions (q : PipelineId) (pages : List Page) (s : Session) : List Rendition :=
  renditionsFrom q {} pages s

/-- No expression stores anything else into the field than the identifier, and the initializer
has not been started. -/
@[mk_iff]
structure Untouched (s : Session) (id : Identifier) (f : FieldId) : Prop where
  only : s.program.StoresOnly (s.program.cell f) (.identifier id)
  unstarted : s.heap.Unstarted (s.program.cell f)

instance (s : Session) (id : Identifier) (f : FieldId) : Decidable (s.Untouched id f) :=
  decidable_of_iff' _ (s.untouched_iff id f)

/-- What was sorted while pages were read: the copies with the mark, in order, each with the
identifier that it bears. -/
structure Sorted (q : PipelineId) (loaded : Loaded) (rs : List Rendition) (loaded' : Loaded) :
    Prop where
  generated : loaded'.proxies.map (·.generated) = loaded.proxies.map (·.generated)
    ++ rs.flatMap (·.marked q)
  kept : ∀ x ∈ loaded.proxies, x ∈ loaded'.proxies
  told : ∀ r ∈ rs, ∀ id f, f.owner ∈ r.copies → r.session.Bears q id f → r.session.Untouched id f →
    ⟨id.requested, f.owner, id⟩ ∈ loaded'.proxies

theorem readDocument_ok {text : String}
    (h : (readDocument q loaded (some text)).start s = (.ok loaded', after)) :
    ∃ header copies ready, (inRegistry (s.pipeline q).registry (Artifact.decode text)).start s
    = (.ok (header, copies), ready)
      ∧ (copies.foldlM (classify q) loaded).start ready = (.ok loaded', after) := by
  obtain ⟨_, _, htext, h⟩ := start_bind_ok.mp h
  cases htext
  obtain ⟨_, _, hget, h⟩ := start_bind_ok.mp h
  cases hget
  obtain ⟨⟨header, copies⟩, ready, hread, h⟩ := start_bind_ok.mp h
  exact ⟨header, copies, ready, hread, h⟩

theorem renditionsFrom_cons {header : Artifact.Header} {copies : List TypeId}
    (hread : (inRegistry (s.pipeline q).registry (Artifact.decode page.text)).start s
      = (.ok (header, copies), ready))
    (hsorted : (copies.foldlM (classify q) loaded).start ready = (.ok loaded', after)) :
    renditionsFrom q loaded (page :: pages) s = ⟨page, copies, ready⟩
        :: renditionsFrom q loaded' pages after := by
  rw [renditionsFrom, hread]
  dsimp only
  rw [hsorted]

theorem sorted_classify (page : Page) {copies : List TypeId}
    (hrun : (copies.foldlM (classify q) loaded).start ready = (.ok loaded', after)) :
    OnlyHeap ready after ∧ Sorted q loaded [⟨page, copies, ready⟩] loaded' := by
  have hall := wp_classifyAll (q := q) copies loaded (OnlyHeap.refl ready)
  obtain ⟨hheap, more, hmore, hmarked⟩ := wp_ok hall hrun
  refine ⟨hheap, ?_, fun x hx => ?_, fun r hr id f hf hbears huntouched => ?_⟩
  · rw [hmore, List.map_append, hmarked, List.flatMap_singleton]
    rfl
  · rw [hmore]
    exact List.mem_append_left _ hx
  · obtain rfl := List.mem_singleton.mp hr
    obtain ⟨hstamps, -⟩ := hbears.stamps (.refl _) huntouched.only
    have hstamped := wp_classifyAll_stamped hbears hstamps copies loaded (OnlyHeap.refl ready)
      (huntouched.unstarted.stamped _)
    exact (wp_ok hstamped hrun).2 hf

theorem sorted_renditionsFrom
    (hrun : ((pages.map fun page => some page.text).foldlM (readDocument q) loaded).start s
      = (.ok loaded', after)) :
    (renditionsFrom q loaded pages s).map (·.page) = pages
    ∧ Sorted q loaded (renditionsFrom q loaded pages s) loaded' := by
  induction pages generalizing loaded s with
  | nil =>
    cases hrun
    exact ⟨rfl, by simp [renditionsFrom], fun _ hx => hx, nofun⟩
  | cons page pages ih =>
    rw [List.map_cons, List.foldlM_cons] at hrun
    obtain ⟨mid, next, hfirst, hrest⟩ := start_bind_ok.mp hrun
    obtain ⟨header, copies, ready, hread, hsorted⟩ := readDocument_ok hfirst
    obtain ⟨hpages, hlater⟩ := ih hrest
    obtain ⟨-, hnow⟩ := sorted_classify page hsorted
    rw [renditionsFrom_cons hread hsorted]
    refine ⟨by rw [List.map_cons, hpages], ?_, fun x hx => hlater.kept x (hnow.kept x hx),
      fun r hr id f hf hbears huntouched => ?_⟩
    · rw [hlater.generated, hnow.generated, List.append_assoc, List.flatMap_singleton,
        List.flatMap_cons]
    · rcases List.mem_cons.mp hr with rfl | hr
      · exact hlater.kept _ (hnow.told _ (List.mem_singleton_self _) id f hf hbears huntouched)
      · exact hlater.told r hr id f hf hbears huntouched

/-! ### Counterparts -/

def Offers (s : Session) (q : PipelineId) (name : String) (t : TypeId) : Prop :=
  ((s.registry (s.pipeline q).registry).named name).head? = some t

instance (s : Session) (q : PipelineId) (name : String) (t : TypeId) :
    Decidable (s.Offers q name t) :=
  inferInstanceAs (Decidable (_ = _))

def StandsFor (s : Session) (p : PipelineId) (id : Identifier) (t : TypeId) : Prop := ∃ f :
    FieldId, f.owner = t ∧ s.Bears p id f

def Held (s : Session) (p : PipelineId) (pages : List Page) (id : Identifier) : Prop :=
  ∃ page ∈ pages, ∃ t ∈ page.types, s.StandsFor p id t

/-- The registry of a pipeline has a mark of its own and, under the names that pages use, this
mark and a type for each requested type; no type of a page has one of these names. -/
structure Counterparts (s start : Session) (p q : PipelineId) (pages : List Page)
    (there : TypeId → TypeId) : Prop where
  finished : (start.program.record (start.coreTypes q).assembledTypeAttribute).complete = true
  present : start.program.isPresent (start.coreTypes q).assembledTypeAttribute = true
  mark : ∀ page ∈ pages, start.Offers q
    (page.session.program.fullName (s.coreTypes p).assembledTypeAttribute)
    (start.coreTypes q).assembledTypeAttribute
  requested : ∀ page ∈ pages, ∀ t ∈ page.types, ∀ id, s.StandsFor p id t →
    start.Offers q (page.session.program.fullName id.requested) (there id.requested)
  free : ∀ page ∈ pages, ∀ other ∈ page.types,
    page.session.program.fullName other
    ≠ page.session.program.fullName (s.coreTypes p).assembledTypeAttribute
      ∧ ∀ t ∈ page.types, ∀ id, s.StandsFor p id t →
        page.session.program.fullName other ≠ page.session.program.fullName id.requested
  apart : ∀ id other, s.Held p pages id → s.Held p pages other →
    there id.requested = there other.requested →
    id.requested = other.requested

/-- A session in which a pipeline is about to read the next page: it finds what it found when it
started. -/
structure Awaiting (start : Session) (q : PipelineId) (now : Session) : Prop where
  remains : start.Remains now
  room : (now.pipeline q).registry.index < now.registries.size
  tidy : Artifact.Tidy (now.spaceOf (now.pipeline q).registry)
  offers : ∀ name t, start.Offers q name t → now.Offers q name t

theorem OnlyHeap.pipeline (h : OnlyHeap s after) (q : PipelineId) :
    after.pipeline q = s.pipeline q := by
  rw [Session.pipeline, h.pipelines, Session.pipeline]

theorem OnlyHeap.registry (h : OnlyHeap s after) (r : RegistryId) :
    after.registry r = s.registry r := by
  rw [Session.registry, h.registries, Session.registry]

theorem Awaiting.onlyHeap (h : Awaiting start q now) (ho : OnlyHeap now after) :
    Awaiting start q after where
  remains := h.remains.trans ⟨by rw [ho.program]; exact .refl _, fun r => by
    rw [ho.registry], fun p => by rw [ho.pipeline]⟩
  room := by
    rw [ho.pipeline, ho.registries]
    exact h.room
  tidy := by
    rw [ho.pipeline, spaceOf, ho.registry, ho.program]
    exact h.tidy
  offers := fun name t ht => by
    rw [Offers, ho.pipeline, ho.registry]
    exact h.offers name t ht

theorem Awaiting.read {header : Artifact.Header} {copies : List TypeId} (h : Awaiting start q now)
    (hprinted : page.Printed) (hreadable : Artifact.Readable page.session.program page.types)
    (hread : (inRegistry (now.pipeline q).registry (Artifact.decode page.text)).start now
      = (.ok (header, copies), ready)) :
    Awaiting start q ready ∧ ∃ here, Artifact.Reprinted page.session.program page.types
      (now.spaceOf (now.pipeline q).registry)
      copies here (ready.spaceOf (ready.pipeline q).registry) := by
  have hremains :=
    wp_ok (remains_inRegistry _ (fun _ => Artifact.spares_decode page.text) now (Remains.refl now))
    hread
  rw [inRegistry, start_within] at hread
  rcases hdecode :
    (Artifact.decode page.text).start (now.spaceOf (now.pipeline q).registry) with ⟨outcome, space⟩
  rw [spaceOf] at hdecode
  rw [hdecode] at hread
  obtain ⟨rfl, rfl⟩ := Prod.mk.inj hread
  obtain ⟨here, hprint⟩ := wp_ok (Artifact.wp_decode_reprinted h.tidy hreadable hprinted) hdecode
  have hspace :
    spaceOf { now.setRegistry (now.pipeline q).registry space.registry with program := space.program }
      (now.pipeline q).registry = space := by
    rw [spaceOf]
    congr 1
    exact registry_setRegistry h.room _
  refine ⟨⟨h.remains.trans hremains, ?_, ?_, fun name t ht => ?_⟩, here, ?_⟩
  · show _ < (now.registries.setIfInBounds _ _).size
    rw [Array.size_setIfInBounds]
    exact h.room
  · show Artifact.Tidy (spaceOf _ (now.pipeline q).registry)
    rw [hspace]
    exact hprint.tidy
  · have hfirst := hprint.head_named (h.offers name t ht)
    rw [← hspace] at hfirst
    exact hfirst
  · show Artifact.Reprinted _ _ _ _ _ (spaceOf _ (now.pipeline q).registry)
    rw [hspace]
    exact hprint

/-- The types of a page have copies that are new, and the copies bear the identifiers that the
types bear. -/
structure Faithful (s : Session) (p q : PipelineId) (there : TypeId → TypeId) (size : Nat)
    (r : Rendition) : Prop where
  length : r.page.types.length = r.copies.length
  nodup : r.copies.Nodup
  new : ∀ c ∈ r.copies, size ≤ c.index
  element : ∀ row ∈ r.rows, ∃ n, Artifact.encodeType r.page.session.program row.1 = .ok n
    ∧ Artifact.encodeType r.session.program row.2 = .ok n
  bears : ∀ (f : FieldId) c id, (f.owner, c) ∈ r.rows → s.Bears p id f →
    r.session.Bears q (id.onto there) ⟨c, f.index⟩

theorem Awaiting.faithful {header : Artifact.Header} {copies : List TypeId}
    (h : Awaiting start q now) (hthere : Counterparts s start p q pages there)
    (hpage : page ∈ pages) (hremains : s.Remains page.session) (hprinted : page.Printed)
    (hreadable : Artifact.Readable page.session.program page.types)
    (hread : (inRegistry (now.pipeline q).registry (Artifact.decode page.text)).start now
      = (.ok (header, copies), ready)) :
    Awaiting start q ready ∧ Faithful s p q there now.program.types.size ⟨page, copies, ready⟩
      ∧ ∀ c ∈ copies, c.index < ready.program.types.size := by
  obtain ⟨hready, here, hprint⟩ := h.read hprinted hreadable hread
  have hcore := hready.remains.coreTypes q
  refine ⟨hready, ⟨hprint.length, hprint.nodup hreadable.labels, hprint.read.new, hprint.element,
    fun f c id hrow hbears => ?_⟩,
    fun c hc => ?_⟩
  · have ht := (List.of_mem_zip hrow).1
    have hstands : s.StandsFor p id f.owner := ⟨f, rfl, hbears⟩
    have hcarries : (page.session.program.record f.owner).Carries
        (s.coreTypes p).assembledTypeAttribute id f := by
      rw [← hremains.coreTypes p]
      exact (hremains.bears hbears).carries
    have hcopied :=
      hprint.carries hreadable.labels hrow hcarries (h.offers _ _ (hthere.mark page hpage))
      (h.offers _ _ (hthere.requested page hpage _ ht id hstands))
      fun other hother => ⟨(hthere.free page hpage other hother).1,
        (hthere.free page hpage other hother).2 _ ht id hstands⟩
    refine ⟨?_, ?_, ?_⟩ <;> rw [hcore]
    · exact hcopied
    · exact hready.remains.program.complete hthere.finished
    · rw [hready.remains.isPresent hthere.finished]
      exact hthere.present
  · by_contra hbeyond
    have hcomplete := hprint.read.complete c hc
    rw [show (ready.spaceOf (ready.pipeline q).registry).program = ready.program from rfl,
      Universe.record_of_le ready.program c (Nat.not_lt.mp hbeyond)] at hcomplete
    cases hcomplete

theorem Awaiting.faithful_all {rest : List Page} (h : Awaiting start q now)
    (hthere : Counterparts s start p q pages there)
    (hrest : ∀ page ∈ rest, page ∈ pages ∧ s.Remains page.session ∧ page.Printed
      ∧ Artifact.Readable page.session.program page.types)
    (hrun : ((rest.map fun page => some page.text).foldlM (readDocument q) loaded).start now
      = (.ok loaded', after)) :
    (∀ r ∈ renditionsFrom q loaded rest now, Faithful s p q there now.program.types.size r)
      ∧ ((renditionsFrom q loaded rest now).flatMap (·.copies)).Nodup := by
  induction rest generalizing loaded now with
  | nil => exact ⟨nofun, List.nodup_nil⟩
  | cons page rest ih =>
    rw [List.map_cons, List.foldlM_cons] at hrun
    obtain ⟨mid, next, hfirst, hlater⟩ := start_bind_ok.mp hrun
    obtain ⟨header, copies, ready, hread, hsorted⟩ := readDocument_ok hfirst
    obtain ⟨⟨hpage, hremains, hprinted, hreadable⟩, hrest⟩ := List.forall_mem_cons.mp hrest
    obtain ⟨hready, hfaithful, hbelow⟩ := h.faithful hthere hpage hremains hprinted hreadable hread
    obtain ⟨honly, -⟩ := sorted_classify page hsorted
    obtain ⟨hothers, hnodup⟩ := ih (hready.onlyHeap honly) hrest hlater
    rw [renditionsFrom_cons hread hsorted]
    have hsize : now.program.types.size ≤ next.program.types.size := by
      rw [honly.program]
      exact (wp_ok (remains_inRegistry _ (fun _ => Artifact.spares_decode page.text) now
        (Remains.refl now)) hread).program.size
    refine ⟨List.forall_mem_cons.mpr ⟨hfaithful, fun r hr => ?_⟩, ?_⟩
    · have hfaithful := hothers r hr
      exact { hfaithful with new := fun c hc => Nat.le_trans hsize (hfaithful.new c hc) }
    · rw [List.flatMap_cons]
      refine List.nodup_append.mpr ⟨hfaithful.nodup, hnodup, fun c hc c' hc' => ?_⟩
      obtain ⟨r, hr, hc'⟩ := List.mem_flatMap.mp hc'
      rintro rfl
      have hbelow := hbelow c hc
      rw [← honly.program] at hbelow
      exact Nat.not_lt.mpr ((hothers r hr).new c hc') hbelow

/-! ### The first copy that tells an identifier -/

section Searches

variable {α : Type} {P : α → Bool} {a : α} {front back searched all : List α}

theorem find?_of_sublist (hsub : searched.Sublist all) (hnodup : all.Nodup)
    (hin : ∀ x ∈ all, P x = true → x ∈ searched) :
    searched.find? P = all.find? P := by
  induction hsub with
  | slnil => rfl
  | @cons searched all x hsub ih =>
    obtain ⟨hx, hnodup⟩ := List.nodup_cons.mp hnodup
    obtain ⟨hhead, hin⟩ := List.forall_mem_cons.mp hin
    have hnot : ¬ P x = true := fun hP => hx (hsub.subset (hhead hP))
    rw [List.find?_cons_of_neg hnot, ih hnodup hin]
  | @cons_cons searched all x hsub ih =>
    obtain ⟨hx, hnodup⟩ := List.nodup_cons.mp hnodup
    obtain ⟨-, hin⟩ := List.forall_mem_cons.mp hin
    have hrest : ∀ y ∈ all, P y = true → y ∈ searched := fun y hy hP =>
      (List.mem_cons.mp (hin y hy hP)).resolve_left fun heq => hx (heq ▸ hy)
    rw [List.find?_cons, List.find?_cons, ih hnodup hrest]

theorem find?_eq_some_iff_of_nodup (hnodup : (front ++ a :: back).Nodup) (ha : P a = true) :
    (front ++ a :: back).find? P = some a ↔ ∀ x ∈ front, P x = false := by
  rw [List.find?_append, List.find?_cons_of_pos ha]
  constructor
  · intro hfound x hx
    cases hearlier : front.find? P with
    | none => exact Bool.eq_false_iff.mpr (List.find?_eq_none.mp hearlier x hx)
    | some b =>
      rw [hearlier] at hfound
      obtain rfl : b = a := Option.some.inj hfound
      exact absurd rfl ((List.nodup_append.mp hnodup).2.2 b (List.mem_of_find?_eq_some hearlier) b
        List.mem_cons_self)
  · intro hnone
    rw [List.find?_eq_none.mpr fun x hx => Bool.eq_false_iff.mp (hnone x hx)]
    rfl

end Searches

section Restoring

variable {rs : List Rendition} {size : Nat}

theorem map_snd_rows (h : ∀ r ∈ rs, r.page.types.length = r.copies.length) :
    (rs.flatMap (·.rows)).map Prod.snd = rs.flatMap (·.copies) := by
  rw [List.map_flatMap]
  exact List.flatMap_congr fun r hr => List.map_snd_zip (Nat.le_of_eq (h r hr).symm)

theorem marked_sublist (q : PipelineId) (rs : List Rendition) :
    (rs.flatMap (·.marked q)).Sublist (rs.flatMap (·.copies)) := by
  induction rs with
  | nil => exact List.Sublist.slnil
  | cons r rs ih => exact List.Sublist.append List.filter_sublist ih

/-- Nothing but stamps has to do with the fields that identifiers are in, and nothing but a type
that stands for an identifier has a copy with the mark. -/
structure Plainly (s : Session) (p q : PipelineId) (there : TypeId → TypeId) (rs : List Rendition) :
    Prop where
  untouched : ∀ r ∈ rs, ∀ (f : FieldId) c id, (f.owner, c) ∈ r.rows → s.Bears p id f →
    r.session.Untouched (id.onto there) ⟨c, f.index⟩
  marked : ∀ r ∈ rs, ∀ t c, (t, c) ∈ r.rows → r.session.isAssembled q c = true →
    ∃ id, s.StandsFor p id t

variable (hthere : Counterparts s start p q (rs.map (·.page)) there) (hfaithful : ∀ r ∈ rs,
  Faithful s p q there size r)
  (hnodup : (rs.flatMap (·.copies)).Nodup) (hplainly : Plainly s p q there rs)
  (hsorted : Sorted q {} rs loaded)
include hfaithful hplainly hsorted

theorem mem_proxies (hrow : (t, c) ∈ rs.flatMap (·.rows)) (hstands : s.StandsFor p id t) :
    ⟨there id.requested, c, id.onto there⟩ ∈ loaded.proxies := by
  obtain ⟨r, hr, hrow⟩ := List.mem_flatMap.mp hrow
  obtain ⟨f, rfl, hbears⟩ := hstands
  have hcopied := (hfaithful r hr).bears f c id hrow hbears
  exact hsorted.told r hr (id.onto there) ⟨c, f.index⟩ (List.of_mem_zip hrow).2 hcopied
    (hplainly.untouched r hr f c id hrow hbears)

include hthere hnodup

theorem told_iff {x : LoadedProxy} (hx : x ∈ loaded.proxies)
    (hheld : s.Held p (rs.map (·.page)) id) :
    x.id = id.onto there ↔ ∃ t, (t, x.generated) ∈ rs.flatMap (·.rows) ∧ s.StandsFor p id t := by
  have hgenerated : loaded.proxies.map (·.generated) = rs.flatMap (·.marked q) := hsorted.generated
  have hunique : (loaded.proxies.map (·.generated)).Nodup := by
    rw [hgenerated]
    exact hnodup.sublist (marked_sublist q rs)
  have hsame : ∀ {t other}, (t, x.generated) ∈ rs.flatMap (·.rows) → s.StandsFor p other t →
      x.id = other.onto there := by
    intro t other hrow hstands
    have hmem := mem_proxies hfaithful hplainly hsorted hrow hstands
    rw [List.inj_on_of_nodup_map hunique hx hmem rfl]
  constructor
  · intro hid
    have hmarked : x.generated ∈ rs.flatMap (·.marked q) := by
      rw [← hgenerated]
      exact List.mem_map_of_mem hx
    obtain ⟨r, hr, hmarked⟩ := List.mem_flatMap.mp hmarked
    obtain ⟨hcopy, hmark⟩ := List.mem_filter.mp hmarked
    rw [← List.map_snd_zip (Nat.le_of_eq (hfaithful r hr).length.symm)] at hcopy
    obtain ⟨⟨t, _⟩, hrow, rfl⟩ := List.mem_map.mp hcopy
    obtain ⟨other, hstands⟩ := hplainly.marked r hr t x.generated hrow hmark
    have hin : (t, x.generated) ∈ rs.flatMap (·.rows) := List.mem_flatMap.mpr ⟨r, hr, hrow⟩
    have heq : id.onto there = other.onto there := hid.symm.trans (hsame hin hstands)
    have hother : s.Held p (rs.map (·.page)) other :=
      ⟨r.page, List.mem_map_of_mem hr, t, (List.of_mem_zip hrow).1, hstands⟩
    have hrequested := hthere.apart id other hheld hother (congrArg Identifier.requested heq)
    have hparts : (id.onto there).parts = (other.onto there).parts := by rw [heq]
    refine ⟨t, hin, ?_⟩
    obtain ⟨requested, parts⟩ := id
    obtain ⟨requested', parts'⟩ := other
    obtain rfl : requested = requested' := hrequested
    obtain rfl : parts = parts' := hparts
    exact hstands
  · rintro ⟨t, hrow, hstands⟩
    exact hsame hrow hstands

/-- The first proxy that tells an identifier is the copy of the first type that stands for it. -/
theorem first_proxy_iff {front back : List (TypeId × TypeId)}
    (hrows : rs.flatMap (·.rows) = front ++ (t, c) :: back) (hstands : s.StandsFor p id t) :
    (loaded.proxies.find? fun x => x.id == id.onto there).map (·.generated) = some c ↔
        ∀ row ∈ front, ¬ s.StandsFor p id row.1 := by
  classical
  have hlengths : ∀ r ∈ rs, r.page.types.length = r.copies.length :=
    fun r hr => (hfaithful r hr).length
  have hcopies := map_snd_rows hlengths
  have hrow : (t, c) ∈ rs.flatMap (·.rows) := by rw [hrows]; simp
  have hheld : s.Held p (rs.map (·.page)) id := by
    obtain ⟨r, hr, hrow⟩ := List.mem_flatMap.mp hrow
    exact ⟨r.page, List.mem_map_of_mem hr, t, (List.of_mem_zip hrow).1, hstands⟩
  let tells (x : TypeId) : Bool := decide (∃ t, (t, x) ∈ rs.flatMap (·.rows) ∧ s.StandsFor p id t)
  have hsearch : (loaded.proxies.find? fun x => x.id == id.onto there).map (·.generated)
      = (loaded.proxies.map (·.generated)).find? tells := by
    rw [List.find?_map]
    congr 1
    refine List.find?_congr fun x hx => ?_
    rw [Bool.eq_iff_iff, beq_iff_eq, told_iff hthere hfaithful hnodup hplainly hsorted hx hheld]
    exact decide_eq_true_iff.symm
  have hall : (loaded.proxies.map (·.generated)).find? tells
      = (rs.flatMap (·.copies)).find? tells := by
    refine find?_of_sublist ?_ hnodup fun x _ hx => ?_
    · rw [show loaded.proxies.map (·.generated) = _ from hsorted.generated]
      exact marked_sublist q rs
    · obtain ⟨t', hin, hstands'⟩ := of_decide_eq_true hx
      exact List.mem_map.mpr ⟨_, mem_proxies hfaithful hplainly hsorted hin hstands', rfl⟩
  rw [hsearch, hall]
  rw [← hcopies, hrows, List.map_append, List.map_cons] at hnodup ⊢
  rw [find?_eq_some_iff_of_nodup hnodup (decide_eq_true ⟨t, hrow, hstands⟩)]
  constructor
  · intro hnone row hmem hearlier
    have htells : tells row.2 = true :=
      decide_eq_true ⟨row.1, by rw [hrows]; exact List.mem_append_left _ hmem, hearlier⟩
    rw [hnone row.2 (List.mem_map_of_mem hmem)] at htells
    cases htells
  · intro hnone x hx
    obtain ⟨row, hmem, rfl⟩ := List.mem_map.mp hx
    refine decide_eq_false ?_
    rintro ⟨t', hin, hearlier⟩
    have hunique : ((rs.flatMap (·.rows)).map Prod.snd).Nodup := by
      rw [hrows, List.map_append, List.map_cons]
      exact hnodup
    have hsame : (t', row.2) = row :=
      List.inj_on_of_nodup_map hunique hin (by rw [hrows]; exact List.mem_append_left _ hmem) rfl
    exact hnone row hmem (by rw [← hsame]; exact hearlier)

end Restoring

end Session

end TypeLoom
