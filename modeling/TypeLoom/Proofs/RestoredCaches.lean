import TypeLoom.Proofs.Renditions

/-!
# Caches that are restored

A pipeline loads what another one has written. Each identifier is cached with the copy of the first
type on the pages that stands for it, so a type that was assembled on a request comes back exactly
if no earlier type stands for the same identifier.
-/

namespace TypeLoom

open Attempt

namespace Session

variable {cast : Cast} {p q : PipelineId} {id key : Identifier} {t c : TypeId} {f : FieldId}
  {s s' start ready after : Session}
  {page : Page} {there : TypeId → TypeId}

/-! ### Rows of the cache -/

/-- Rows that are there come before the new ones, and these are taken in their order. -/
theorem find?_addRows_eq {κ : Type} [DecidableEq κ] (key : κ) (more rows : Keyed κ TypeId) :
    (addRows rows more).find? key = (rows.find? key).or (more.find? key) := by
  induction more generalizing rows with
  | nil => exact Option.or_none.symm
  | cons row more ih =>
    obtain ⟨other, t⟩ := row
    have hnext : Keyed.find? ((other, t) :: more) key = if other = key then some t
        else Keyed.find? more key := by
      simp only [Keyed.find?, List.find?_cons]
      split <;> simp_all
    rw [addRows, ih, hnext]
    by_cases hkey : other = key
    · subst hkey
      rw [if_pos rfl, Keyed.hasKey]
      cases hfound : rows.find? other with
      | none =>
        rw [if_neg (by simp), Keyed.find?_put_self]
        rfl
      | some v =>
        rw [if_pos (by simp), hfound]
        rfl
    · rw [if_neg hkey]
      split
      · rfl
      · rw [Keyed.find?_put_of_ne _ _ _ _ hkey]

/-! ### Loads -/

/-- A load into an empty cache leaves each identifier with the first proxy that tells it,
whatever participants rebuild. -/
theorem cached_of_load {depth count : Nat} {documents : List (Option String)}
    (hq : q.index < start.pipelines.size)
    (hroom : (start.pipeline q).registry.index < start.registries.size)
    (hempty : (start.pipeline q).types = [])
    (hload : (load cast (performWithin cast depth) q documents).start start
      = (.ok count, after)) :
    ∃ loaded mid, (documents.foldlM (readDocument q) {}).start start = (.ok loaded, mid)
      ∧ ∀ key c, (loaded.proxies.find? fun x => x.id == key).map (·.generated) = some c →
      after.cached? q key = some c := by
  obtain ⟨_, _, hget, hload⟩ := start_bind_ok.mp hload
  cases hget
  obtain ⟨_, checked, hcheck, hload⟩ := start_bind_ok.mp hload
  rw [(start_checkDocuments documents hcheck).1] at hload
  obtain ⟨loaded, mid, hread, hload⟩ := start_bind_ok.mp hload
  obtain ⟨_, filled, hinsert, hload⟩ := start_bind_ok.mp hload
  refine ⟨loaded, mid, hread, fun key c hfound => ?_⟩
  have hpipelines := (wp_ok (wp_readDocuments documents hroom) hread).pipelines
  have hfilled : filled.cached? q key = some c := by
    obtain ⟨_, _, hget, hinsert⟩ := start_bind_ok.mp hinsert
    cases hget
    obtain ⟨_, _, hedit, hend⟩ := start_bind_ok.mp hinsert
    cases hedit
    cases hend
    have hempty' : (mid.pipeline q).types = [] := by rw [pipeline, hpipelines]; exact hempty
    rw [cached?, pipeline_modify, if_pos ⟨rfl, by rw [hpipelines]; exact hq⟩]
    show (addRows (mid.pipeline q).types _).find? key = some c
    rw [hempty', find?_addRows_eq, Keyed.find?, Keyed.find?, List.find?_map, Option.map_map]
    exact hfound
  have hI : Lasting fun _ s => s.cached? q key = some c := lasting_cached
  obtain ⟨_, rebuilt, hrebuild, hload⟩ := start_bind_ok.mp hload
  have hkeep : Maintains (fun s : Session => s.cached? q key = some c)
      ((cast q).forM fun participant =>
      (participant.rebuild loaded.proxies loaded.additional).run
        (Action.perform (performWithin cast depth))) :=
    maintains_forM _ fun participant _ => @Errand.maintains_run _ [] _ _ hI.toCalm
      (fun gs c => maintains_performWithin hI gs depth c) _
  have hrebuilt := wp_ok (hkeep filled hfilled) hrebuild
  obtain ⟨_, _, hget, hload⟩ := start_bind_ok.mp hload
  cases hget
  obtain ⟨_, last, hadditional, hend⟩ := start_bind_ok.mp hload
  cases hend
  have hlast := wp_ok (@maintains_insertAdditional _ [] hI.toCalm q _ rebuilt hrebuilt) hadditional
  exact hlast

/-! ### Types that were assembled -/

/-- A request for the identifier, at whatever depth, found nothing in the cache and was answered
with the type. The session is a later one. -/
inductive Assembled (s : Session) (p : PipelineId) (id : Identifier) (t : TypeId) : Prop
  | intro (cast : Cast) (depth : Nat) (before answered : Session)
      (finished : (before.program.record (before.coreTypes p).assembledTypeAttribute).complete
        = true)
      (missed : before.cached? p id = none)
      (answer : (performWithin cast depth (.assembled p id)).start before
        = (.ok (.type t), answered)) (later : answered.Remains s)

/-- What is assembled with a lease bears the identifier when the lease has gone back. -/
theorem standsFor_of_withAssembler {depth : Nat} {before : Session} (hproxy : t ≠ id.requested)
    (hmark : (before.program.record (before.coreTypes p).assembledTypeAttribute).complete = true)
    (hrun : (withAssembler cast (performWithin cast depth) p fun a => a.assemble id).start before
      = (.ok t, after)) :
    after.StandsFor p id t := by
  obtain ⟨_, _, hget, hrun⟩ := start_bind_ok.mp hrun
  cases hget
  obtain ⟨lease, taken, htaken, hrun⟩ := start_bind_ok.mp hrun
  have htakes := wp_ok (maintains_dequeue (aloof_remains before) _ _ before (.refl _)) htaken
  obtain ⟨_, _, hget, hrun⟩ := start_bind_ok.mp hrun
  cases hget
  obtain ⟨outcome, done, houtcome, hrun⟩ := start_bind_ok.mp hrun
  obtain ⟨_, given, hgiven, hend⟩ := start_bind_ok.mp hrun
  rw [start_lift] at hend
  cases hend
  have hgives := wp_ok (maintains_enqueue (aloof_remains done) _ _ lease done (.refl _)) hgiven
  rw [start_outcome, start_within] at houtcome
  let a : Assembler :=
    { requests := performWithin cast depth, participants := cast p, pipeline := p, generator := taken.contextGenerator lease.context }
  rcases hassemble : (a.assemble id).start { session := taken } with ⟨made, scene⟩
  rw [hassemble] at houtcome
  cases houtcome
  have hfinished : (taken.program.record (taken.coreTypes p).assembledTypeAttribute).complete
      = true := by
    rw [htakes.coreTypes]
    exact htakes.program.complete hmark
  have hspec := @Assembler.wp_assemble cast depth a { session := taken } rfl id hfinished
  obtain ⟨f, hf, -, made, -, -, hbears, hmade⟩ := (wp_ok hspec hassemble).resolve_left hproxy
  exact ⟨f, hf, hgives.bears (hmade.bears hbears)⟩

theorem Assembled.standsFor (h : s.Assembled p id t) (hproxy : t ≠ id.requested) :
    s.StandsFor p id t := by
  obtain ⟨cast, depth, before, answered, hmark, hmiss, hrun, hlater⟩ := h
  cases depth with
  | zero => cases hrun
  | succ depth =>
    simp only [performWithin, performOver, getType] at hrun
    obtain ⟨made, mid, hrun, hend⟩ := start_bind_ok.mp hrun
    cases hend
    obtain ⟨_, _, hget, hrun⟩ := start_bind_ok.mp hrun
    cases hget
    rw [show Keyed.find? (before.pipeline p).types id = none from hmiss] at hrun
    obtain ⟨made, mid, hmade, hrun⟩ := start_bind_ok.mp hrun
    cases hrun
    obtain ⟨f, hf, hbears⟩ := standsFor_of_withAssembler hproxy hmark hmade
    have hcached : mid.Remains (mid.cache p id t) := remains_modifyPipeline mid p fun _ => rfl
    exact ⟨f, hf, hlater.bears (hcached.bears hbears)⟩

/-! ### Caches that come back -/

/-- A pipeline that has cached nothing, and whose registry lists everything under its own name. -/
structure Fresh (start : Session) (q : PipelineId) : Prop where
  exists_pipeline : q.index < start.pipelines.size
  empty : (start.pipeline q).types = []
  room : (start.pipeline q).registry.index < start.registries.size
  tidy : Artifact.Tidy (start.spaceOf (start.pipeline q).registry)

theorem Fresh.awaiting (h : Fresh start q) : Awaiting start q start :=
  ⟨.refl start, h.room, h.tidy, fun _ _ ht => ht⟩

/-- A pipeline loads what another one has flushed. All types of the pages are read, in order, and
each copy is written as its original was. A type that was assembled on a request comes back, as
what is cached for the identifier, exactly if no type before it stands for the same identifier. -/
theorem reload_caches_first {depth count : Nat} {modules : List WrittenModule}
    (hflush : (flush p).start s = (.ok modules, s'))
    (hreadable : ∀ page ∈ flushedPages p s, Artifact.Readable page.session.program page.types)
    (hfresh : Fresh start q) (hthere : Counterparts s start p q (flushedPages p s) there)
    (hplainly : Plainly s p q there (renditions q (flushedPages p s) start))
    (hload : (load cast (performWithin cast depth) q (modules.map fun module =>
      some module.text)).start start = (.ok count, after)) :
    let rs := renditions q (flushedPages p s) start
    rs.map (·.page) = flushedPages p s
      ∧ (∀ r ∈ rs, r.page.types.length = r.copies.length ∧ ∀ row ∈ r.rows, ∃ n,
        Artifact.encodeType r.page.session.program row.1 = .ok n
        ∧ Artifact.encodeType r.session.program row.2 = .ok n)
      ∧ ∀ front t c back, rs.flatMap (·.rows) = front ++ (t, c) :: back → ∀ id, s.Assembled p id t →
        t ≠ id.requested →
        (after.cached? q (id.onto there) = some c ↔ ∀ row ∈ front, ¬ s.StandsFor p id row.1) := by
  intro rs
  obtain ⟨htexts, hprinted⟩ := pages_of_flush hflush
  have hdocuments : (modules.map fun module => some module.text)
      = (flushedPages p s).map fun page => some page.text := by
    rw [← Function.comp_def some, ← List.map_map, ← htexts, List.map_map]
    rfl
  obtain ⟨loaded, mid, hread, hcached⟩ :=
    cached_of_load hfresh.exists_pipeline hfresh.room hfresh.empty hload
  rw [hdocuments] at hread
  obtain ⟨hpages, hsorted⟩ := sorted_renditionsFrom hread
  have hall : ∀ page ∈ flushedPages p s, page ∈ flushedPages p s
    ∧ s.Remains page.session ∧ page.Printed
      ∧ Artifact.Readable page.session.program page.types := fun page hpage =>
    ⟨hpage, (hprinted page hpage).1, (hprinted page hpage).2, hreadable page hpage⟩
  obtain ⟨hfaithful, hnodup⟩ := hfresh.awaiting.faithful_all hthere hall hread
  refine ⟨hpages, fun r hr => ⟨(hfaithful r hr).length, (hfaithful r hr).element⟩,
    fun front t c back hrows id hassembled hproxy => ?_⟩
  have hstands := hassembled.standsFor hproxy
  rw [← hpages] at hthere
  rw [← first_proxy_iff hthere hfaithful hnodup hplainly hsorted hrows hstands]
  have hrow : (t, c) ∈ rs.flatMap (·.rows) := by rw [hrows]; simp
  have htold := mem_proxies hfaithful hplainly hsorted hrow hstands
  cases hfound : loaded.proxies.find? fun x => x.id == id.onto there with
  | none => exact absurd (beq_self_eq_true _) (List.find?_eq_none.mp hfound _ htold)
  | some x =>
    rw [hcached (id.onto there) x.generated (by rw [hfound]; rfl)]
    rfl

/-! ### One page -/

/-- The identifier that a type stands for can be seen where nothing else is stored into the
field. -/
theorem StandsFor.eq_of_only {other : Identifier} (h : s.StandsFor p id t)
    (hfield : s.program.findField? t identifierFieldName = some f)
    (honly : s.program.StoresOnly (s.program.cell f) (.identifier other)) : id = other := by
  obtain ⟨g, rfl, hbears⟩ := h
  obtain rfl : f = g := Option.some.inj (hfield.symm.trans hbears.findField?)
  obtain ⟨m, items, -, hbody, hstamp⟩ := hbears.carries.stamp
  have hin : .store none (.member f) (.constant (.identifier id)) ∈ (Expr.block items).nodes :=
    List.mem_cons_of_mem _ (Expr.mem_nodesAll hstamp List.mem_cons_self)
  have hvalue := honly m _ hbody none f _ hin rfl
  cases hvalue
  rfl

theorem renditions_page (hprinted : page.Printed) {header : Artifact.Header} {copies : List TypeId}
    (hread : (inRegistry (start.pipeline q).registry (decodeRoot page.root)).start start
      = (.ok (header, copies), ready)) :
    renditions q [page] start = [⟨page, copies, ready⟩] := by
  rw [renditions, renditionsFrom, hprinted.decode, hread]
  dsimp only
  split <;> rfl

/-- All types of the page stand for identifiers of one requested type. -/
theorem counterparts_of_page (requested : TypeId)
    (hfinished : (start.program.record (start.coreTypes q).assembledTypeAttribute).complete = true)
    (hpresent : start.program.isPresent (start.coreTypes q).assembledTypeAttribute = true)
    (hmark : start.Offers q (page.session.program.fullName (s.coreTypes p).assembledTypeAttribute)
      (start.coreTypes q).assembledTypeAttribute)
    (hrequested : start.Offers q (page.session.program.fullName requested) (there requested))
    (hfree : ∀ other ∈ page.types,
      page.session.program.fullName other
      ≠ page.session.program.fullName (s.coreTypes p).assembledTypeAttribute
        ∧ page.session.program.fullName other ≠ page.session.program.fullName requested)
    (hheld : ∀ t ∈ page.types, ∀ id, s.StandsFor p id t → id.requested = requested) :
        Counterparts s start p q [page] there := by
  refine ⟨hfinished, hpresent, ?_, ?_, ?_, ?_⟩
  · simpa using hmark
  · rintro _ hpage t ht id hstands
    obtain rfl := List.mem_singleton.mp hpage
    rw [hheld t ht id hstands]
    exact hrequested
  · rintro _ hpage other hother
    obtain rfl := List.mem_singleton.mp hpage
    refine ⟨(hfree other hother).1, fun t ht id hstands => ?_⟩
    rw [hheld t ht id hstands]
    exact (hfree other hother).2
  · rintro id other ⟨_, hpage, t, ht, hstands⟩ ⟨_, hpage', t', ht', hstands'⟩ -
    obtain rfl := List.mem_singleton.mp hpage
    obtain rfl := List.mem_singleton.mp hpage'
    rw [hheld t ht id hstands, hheld t' ht' other hstands']

theorem plainly_of_page {other : Identifier} (htypes : page.types = [t])
    (hstands : s.StandsFor p other t) (hfield : s.program.findField? t identifierFieldName = some f)
    (honly : s.program.StoresOnly (s.program.cell f) (.identifier other))
    (huntouched : ready.Untouched (other.onto there) ⟨c, f.index⟩) :
        Plainly s p q there [⟨page, [c], ready⟩] := by
  have hrow : ∀ row ∈ page.types.zip [c], row = (t, c) := by
    rw [htypes]
    exact fun row hrow => List.mem_singleton.mp hrow
  refine ⟨fun r hr g c' id hin hbears => ?_, fun r hr t' c' hin _ => ?_⟩
  · obtain rfl := List.mem_singleton.mp hr
    obtain ⟨rfl, rfl⟩ := Prod.mk.inj (hrow _ hin)
    obtain rfl := StandsFor.eq_of_only ⟨g, rfl, hbears⟩ hfield honly
    obtain rfl : f = g := Option.some.inj (hfield.symm.trans hbears.findField?)
    exact huntouched
  · obtain rfl := List.mem_singleton.mp hr
    obtain ⟨rfl, -⟩ := Prod.mk.inj (hrow _ hin)
    exact ⟨other, hstands⟩

def withSecondPipeline (s : Session) : Session :=
  let opened : Attempt Session PipelineId := do
    let r ← addRegistry
    openPipeline r "default" 1 ⟨⟨0⟩, "Second", 1⟩ ["recurring"]
  (opened.start s).2

/-- The first pipeline has written its module, and the second one has not begun to load it. -/
def handedOver (s : Session) : Session := withSecondPipeline ((flush ⟨0⟩).start s).2

def onlyPage (s : Session) : Page := (flushedPages ⟨0⟩ s).headD default

/-- The second pipeline loads what the first one has written. -/
def reloaded (cast : Cast) (s : Session) : Except Fault Nat × Session :=
  (load cast (performWithin cast nestingLimit) ⟨1⟩ [some (flushedModule ⟨0⟩ s).text]).start
    (handedOver s)

/-- The page as the second pipeline reads it: the copies, and the session then. -/
def onlyReading (s : Session) : Except Fault (Artifact.Header × List TypeId) × Session :=
  (inRegistry ⟨1⟩ (decodeRoot (onlyPage s).root)).start (handedOver s)

/-- What can be seen of a pipeline that has cached nothing. -/
def looksFresh (s : Session) (q : PipelineId) : Bool :=
  decide (q.index < s.pipelines.size) && (s.pipeline q).types.isEmpty && decide
    ((s.pipeline q).registry.index < s.registries.size)
    && s.program.types.toList.all (·.declaring.isNone) &&
    (s.registry (s.pipeline q).registry).listings.toList.all fun l =>
      looksProper s.program l.type && s.program.fullName l.type == l.name

theorem fresh_of_looksFresh (h : looksFresh s q = true) : s.Fresh q := by
  simp only [looksFresh, Bool.and_eq_true, decide_eq_true_eq, List.isEmpty_iff, List.all_eq_true,
    Option.isNone_iff_eq_none, beq_iff_eq] at h
  obtain ⟨⟨⟨⟨hexists, hempty⟩, hroom⟩, hflat⟩, hlisted⟩ := h
  exact ⟨hexists, hempty, hroom, tidy_of_flat hflat fun l hl =>
    hlisted l (Array.mem_toList_iff.mpr hl)⟩

/-- What the second pipeline has for a type of the first registry. -/
def shifted (count : Nat) (t : TypeId) : TypeId := ⟨t.index + count⟩

/-- The second pipeline can read what the first one has written: a single page, whose types all
stand for one identifier. -/
@[mk_iff]
structure Reloadable (s : Session) (count : Nat) (types copies : List TypeId) : Prop where
  flushed : ((flush ⟨0⟩).start s).1.toOption.map List.length = some 1
  page : (flushedPages ⟨0⟩ s).length = 1
  readable : looksReadable (onlyPage s) = true
  listed : (onlyPage s).types = types
  stored : ∀ t ∈ types, ∃ f ∈ s.program.findField? t identifierFieldName,
    s.program.StoresOnly (s.program.cell f) (.identifier firstTypeId)
  fresh : looksFresh (handedOver s) ⟨1⟩ = true
  registry : ((handedOver s).pipeline ⟨1⟩).registry = ⟨1⟩
  header : (Artifact.Header.ofNode (onlyPage s).root).toOption.map (·.configuration)
    = some ((handedOver s).pipeline ⟨1⟩).configuration
  copied : (onlyReading s).1.toOption.map (·.2) = some copies
  told : ((readRoot ⟨1⟩ {} (onlyPage s).root).start (handedOver s)).1.toOption.map
    (fun loaded => loaded.proxies.length + loaded.additional.length) = some copies.length
  finished : ((handedOver s).program.record
    ((handedOver s).coreTypes ⟨1⟩).assembledTypeAttribute).complete = true
  present : (handedOver s).program.isPresent ((handedOver s).coreTypes ⟨1⟩).assembledTypeAttribute
    = true
  mark : (handedOver s).Offers ⟨1⟩
    ((onlyPage s).session.program.fullName (s.coreTypes ⟨0⟩).assembledTypeAttribute)
    ((handedOver s).coreTypes ⟨1⟩).assembledTypeAttribute
  requested : (handedOver s).Offers ⟨1⟩
    ((onlyPage s).session.program.fullName firstTypeId.requested)
    (shifted count firstTypeId.requested)
  free : ∀ other ∈ types,
    (onlyPage s).session.program.fullName other ≠ (onlyPage s).session.program.fullName
    (s.coreTypes ⟨0⟩).assembledTypeAttribute
      ∧ (onlyPage s).session.program.fullName other ≠ (onlyPage s).session.program.fullName
      firstTypeId.requested

instance (s : Session) (count : Nat) (types copies : List TypeId) :
    Decidable (s.Reloadable count types copies) :=
  decidable_of_iff' _ (reloadable_iff s count types copies)

namespace Reloadable

variable {count : Nat} {types copies : List TypeId} (h : s.Reloadable count types copies)
include h

theorem flush_eq : (flush ⟨0⟩).start s = (.ok [flushedModule ⟨0⟩ s], ((flush ⟨0⟩).start s).2) :=
  flush_of_length h.flushed

theorem pages_eq : flushedPages ⟨0⟩ s = [onlyPage s] := pages_of_length h.page

theorem page_eq : (onlyPage s).text = (flushedModule ⟨0⟩ s).text ∧ (onlyPage s).Printed := by
  have hwritten := pages_of_flush h.flush_eq
  rw [h.pages_eq, List.map_singleton, List.map_singleton, List.forall_mem_singleton] at hwritten
  exact ⟨(List.cons.inj hwritten.1).1, hwritten.2.2⟩

theorem readable_pages : ∀ page ∈ flushedPages ⟨0⟩ s,
    Artifact.Readable page.session.program page.types := by
  rw [h.pages_eq, List.forall_mem_singleton]
  exact readable_of_looksReadable h.readable

theorem renditions_eq : renditions ⟨1⟩ (flushedPages ⟨0⟩ s)
    (handedOver s) = [⟨onlyPage s, copies, (onlyReading s).2⟩] := by
  obtain ⟨⟨header, found⟩, hread, rfl⟩ := Artifact.exists_of_toOption_map h.copied
  have hreading :
    (inRegistry ((handedOver s).pipeline ⟨1⟩).registry (decodeRoot (onlyPage s).root)).start
    (handedOver s)
      = (.ok (header, found), (onlyReading s).2) := by
    rw [h.registry]
    exact Prod.ext hread rfl
  rw [h.pages_eq]
  exact renditions_page h.page_eq.2 hreading

theorem rows_eq : (renditions ⟨1⟩ (flushedPages ⟨0⟩ s) (handedOver s)).flatMap (·.rows)
    = types.zip copies := by
  rw [h.renditions_eq, List.flatMap_singleton, ← h.listed]
  rfl

theorem counterparts : Counterparts s (handedOver s) ⟨0⟩ ⟨1⟩ (flushedPages ⟨0⟩ s)
    (shifted count) := by
  have hheld : ∀ t ∈ types, ∀ id, s.StandsFor ⟨0⟩ id t → id.requested = firstTypeId.requested := by
    intro t ht id hstands
    obtain ⟨f, hfield, honly⟩ := h.stored t ht
    rw [hstands.eq_of_only hfield honly]
  rw [h.pages_eq]
  refine counterparts_of_page firstTypeId.requested h.finished h.present h.mark h.requested ?_ ?_
  · rw [h.listed]
    exact h.free
  · rw [h.listed]
    exact hheld

theorem reloaded_ok {cast : Cast}
    (hquiet : ∀ participant ∈ cast ⟨1⟩, participant.rebuild = fun _ _ => return ()) :
    reloaded cast s = (.ok copies.length, (reloaded cast s).2) := by
  obtain ⟨loaded, hloaded, hcount⟩ := Artifact.exists_of_toOption_map h.told
  obtain ⟨after, hload⟩ : ∃ after,
    (load cast (performWithin cast nestingLimit) ⟨1⟩ [some (onlyPage s).text]).start (handedOver s)
      = (.ok (loaded.proxies.length + loaded.additional.length), after) :=
    load_page h.page_eq.2 hquiet h.header (Prod.ext hloaded rfl)
  rw [h.page_eq.1, hcount] at hload
  rw [reloaded, hload]

theorem reloaded_cached {cast : Cast} {written : Nat}
    (hload : reloaded cast s = (.ok written, (reloaded cast s).2))
    (hfirst : ((readRoot ⟨1⟩ {} (onlyPage s).root).start (handedOver s)).1.toOption.map
      (fun loaded => (loaded.proxies.find? fun x => x.id == key).map (·.generated))
      = some (some c)) :
    (reloaded cast s).2.cached? ⟨1⟩ key = some c := by
  have hfresh := fresh_of_looksFresh h.fresh
  obtain ⟨loaded, mid, hread, hcached⟩ :=
    cached_of_load hfresh.exists_pipeline hfresh.room hfresh.empty hload
  rw [← h.page_eq.1, foldlM_page h.page_eq.2] at hread
  rw [hread] at hfirst
  exact hcached key c (Option.some.inj hfirst)

end Reloadable

def markingCast : Cast := fun _ => [marking]

/-- A proxy of the first type was requested. -/
def markedRun : Except Fault Reply × Session :=
  (performWithin markingCast nestingLimit (.assembled ⟨0⟩ firstTypeId)).start onePipeline

set_option maxRecDepth 10000 in
theorem reloadable_markedRun : markedRun.2.Reloadable 4 [⟨3⟩] [⟨7⟩] := by decide +kernel

set_option maxRecDepth 10000 in
theorem assembled_markedRun : markedRun.2.Assembled ⟨0⟩ firstTypeId ⟨3⟩ := by
  obtain ⟨hanswer, hfinished, hmissed⟩ : (answered markedRun.1).nat? = some 3
      ∧ (onePipeline.program.record (onePipeline.coreTypes ⟨0⟩).assembledTypeAttribute).complete
      = true
      ∧ onePipeline.cached? ⟨0⟩ firstTypeId = none := by decide +kernel
  have hrun : markedRun = (.ok (.type ⟨3⟩), markedRun.2) := by
    rw [← eq_type_of_answered hanswer]
  exact .intro markingCast nestingLimit onePipeline markedRun.2 hfinished hmissed hrun (.refl _)

set_option maxRecDepth 10000 in
/-- Nothing else is stored where the identifier is, neither in the proxy nor in its copy. -/
theorem untouched_markedRun : ∃ f ∈ markedRun.2.program.findField? ⟨3⟩ identifierFieldName,
    markedRun.2.program.StoresOnly (markedRun.2.program.cell f) (.identifier firstTypeId)
      ∧ (onlyReading markedRun.2).2.Untouched (firstTypeId.onto (shifted 4)) ⟨⟨7⟩, f.index⟩ := by
        decide +kernel

theorem plainly_markedRun :
    Plainly markedRun.2 ⟨0⟩ ⟨1⟩ (shifted 4)
    (renditions ⟨1⟩ (flushedPages ⟨0⟩ markedRun.2) (handedOver markedRun.2)) := by
  obtain ⟨f, hfield, honly, huntouched⟩ := untouched_markedRun
  rw [reloadable_markedRun.renditions_eq]
  exact plainly_of_page reloadable_markedRun.listed (assembled_markedRun.standsFor (by decide))
    hfield honly huntouched

/-- The proxy comes back. -/
theorem marked_comes_back :
    (reloaded markingCast markedRun.2).2.cached? ⟨1⟩ (firstTypeId.onto (shifted 4)) = some ⟨7⟩ := by
  have hquiet : ∀ participant ∈ markingCast ⟨1⟩, participant.rebuild = fun _ _ => return () := by
    intro participant hin
    rw [List.mem_singleton.mp hin]
    rfl
  have hload := reloadable_markedRun.reloaded_ok hquiet
  obtain ⟨-, -, hcached⟩ :=
    reload_caches_first reloadable_markedRun.flush_eq reloadable_markedRun.readable_pages
    (fresh_of_looksFresh reloadable_markedRun.fresh) reloadable_markedRun.counterparts
    plainly_markedRun hload
  exact (hcached [] ⟨3⟩ ⟨7⟩ [] reloadable_markedRun.rows_eq firstTypeId assembled_markedRun
    (by decide)).mpr nofun

def requestAll (cast : Cast) (p : PipelineId) (ids : List Identifier) (s : Session) : Session :=
  ids.foldl (fun s id => ((perform cast (.assembled p id)).start s).2) s

/-- After any requests, a pipeline flushes its modules, and a fresh pipeline with the same
configuration loads them, whose registry has the requested types under the names that they had.
Each type of the modules that was cached comes back. -/
def CachesComeBack : Prop :=
  ∀ (cast : Cast) (p q : PipelineId) (there : TypeId → TypeId) (first s s' start after : Session)
    (ids : List Identifier)
    (modules : List WrittenModule) (count : Nat), first.Fresh p → s = requestAll cast p ids first →
    (flush p).start s = (.ok modules, s') → start.Fresh q → (start.pipeline q).configuration
      = (s.pipeline p).configuration →
    Counterparts s start p q (flushedPages p s) there →
    (load cast (performWithin cast nestingLimit) q (modules.map fun module =>
      some module.text)).start start = (.ok count, after) →
      ∀ id t c, (t, c) ∈ (renditions q (flushedPages p s) start).flatMap (·.rows) →
      s.cached? p id = some t →
        after.cached? q (id.onto there) = some c

/-- The session in which two proxies were made for one identifier. -/
def doubled : Session := requestAll recurringCast ⟨0⟩ [firstTypeId] onePipeline

set_option maxRecDepth 10000 in
theorem reloadable_doubled : doubled.Reloadable 5 [⟨3⟩, ⟨4⟩] [⟨8⟩, ⟨9⟩] := by decide +kernel

set_option maxRecDepth 10000 in
/-- The second proxy is cached; among those that are read, the first one is told first. -/
theorem cached_doubled : doubled.cached? ⟨0⟩ firstTypeId = some ⟨4⟩
    ∧ ((readRoot ⟨1⟩ {} (onlyPage doubled).root).start (handedOver doubled)).1.toOption.map
      (fun loaded => (loaded.proxies.find? fun x => x.id == firstTypeId.onto (shifted 5)).map
        (·.generated)) = some (some ⟨8⟩)
    ∧ looksFresh onePipeline ⟨0⟩ = true
    ∧ ((handedOver doubled).pipeline ⟨1⟩).configuration = (doubled.pipeline ⟨0⟩).configuration := by
      decide +kernel

/-- The second proxy is cached, and the first one comes back in its place. -/
theorem not_cachesComeBack : ¬ CachesComeBack := by
  intro hback
  have hquiet : ∀ participant ∈ recurringCast ⟨1⟩, participant.rebuild = fun _ _ => return () := by
    intro participant hin
    rw [List.mem_singleton.mp hin]
    rfl
  obtain ⟨hcached, hfirst, hstart, hconfiguration⟩ := cached_doubled
  have hload := reloadable_doubled.reloaded_ok hquiet
  have hrow : (⟨4⟩, ⟨9⟩) ∈ (renditions ⟨1⟩ (flushedPages ⟨0⟩ doubled) (handedOver doubled)).flatMap
      (·.rows) := by
    rw [reloadable_doubled.rows_eq]
    decide
  have hlast := hback recurringCast ⟨0⟩ ⟨1⟩ (shifted 5) onePipeline doubled _ (handedOver doubled) _
    [firstTypeId] _ 2
    (fresh_of_looksFresh hstart) rfl reloadable_doubled.flush_eq
    (fresh_of_looksFresh reloadable_doubled.fresh) hconfiguration
    reloadable_doubled.counterparts hload firstTypeId ⟨4⟩ ⟨9⟩ hrow hcached
  rw [reloadable_doubled.reloaded_cached hload hfirst] at hlast
  exact absurd hlast (by decide)

end Session

end TypeLoom
