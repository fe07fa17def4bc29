import TypeLoom.Proofs.Assembled
import TypeLoom.Proofs.ModuleDocuments
import TypeLoom.Proofs.FailedLoads

/-!
# Modules that are read again

Types that were written to a module are read into another space, and each copy is written as the
element of its original. The copy of a type that carries an identifier is sorted among the proxies,
and it tells the identifier that the words of the original stand for.
-/

namespace TypeLoom

/-! ### Registries that types are added to -/

namespace Registry

variable {r : Registry} {u : Universe} {types : List TypeId} {name : String} {t : TypeId}

theorem mem_insert {l : Listing} (hl : l ∈ (r.insert u t).listings) :
    l ∈ r.listings ∨ l = ⟨(u.record t).token, u.fullName t, t⟩ := by
  unfold insert at hl
  split at hl
  · exact .inl hl
  · exact (Array.mem_push.mp hl)

theorem mem_insertAll {l : Listing} (hl : l ∈ (r.insertAll u types).listings) :
    l ∈ r.listings ∨ ∃ t ∈ types, l = ⟨(u.record t).token, u.fullName t, t⟩ := by
  induction types generalizing r with
  | nil => exact .inl hl
  | cons t types ih =>
    rcases ih hl with hold | ⟨other, hother, hl⟩
    · exact (mem_insert hold).imp_right fun h => ⟨t, List.mem_cons_self, h⟩
    · exact .inr ⟨other, List.mem_cons_of_mem _ hother, hl⟩

theorem head_named_insertAll (h : (r.named name).head? = some t) :
    ((r.insertAll u types).named name).head? = some t := by
  induction types generalizing r with
  | nil => exact h
  | cons added types ih =>
    refine ih ?_
    show ((r.insert u added).named name).head? = some t
    unfold insert
    split
    · exact h
    · rw [named] at h ⊢
      rw [Array.toList_push, List.filter_append, List.map_append, List.head?_append, h]
      rfl

end Registry

namespace Artifact

open Markup Attempt

variable {u : Universe} {space after : TypeSpace} {types copies : List TypeId} {s : Scope}
  {header : Header} {text name : String}
  {t c : TypeId}

/-! ### Reading a module that was written -/

/-- These types can be written and read back: they have names of their own, and nothing in their
elements is lost. -/
structure Readable (u : Universe) (types : List TypeId) : Prop where
  labels : ModuleTypes u types
  exact : ∀ nodes, types.mapM (encodeType u) = .ok nodes → ∀ n ∈ nodes, exactTree n = true

/-- Types were read into a space and are listed from then on. Each is written as the type that
its element was written for. -/
structure Reprinted (u : Universe) (types : List TypeId) (space : TypeSpace) (copies : List TypeId)
    (here : Keyed String TypeId) (after : TypeSpace) : Prop where
  read : ReadInto space copies ⟨after.program, space.registry, here⟩
  length : types.length = copies.length
  element : ∀ p ∈ types.zip copies, ∃ n, encodeType u p.1 = .ok n
    ∧ encodeType after.program p.2 = .ok n
  listings : after.registry.listings = (space.registry.insertAll after.program copies).listings

theorem wp_decode_reprinted (hspace : Tidy space) (hreadable : Readable u types)
    (htext : encode u header types = .ok text) :
    (decode text).wp (fun read after => ∃ here, Reprinted u types space read.2 here after)
    (fun _ => True) space := by
  obtain ⟨nodes, hnodes, hrender⟩ := bind_eq_ok.mp htext
  obtain rfl := Except.ok.inj hrender
  have hwritten : ∀ n ∈ nodes, Written u n := by
    intro n hn
    obtain ⟨t, ht, hencode⟩ := exists_of_mem_mapM hnodes hn
    exact written_of_encodeType (usualNames_of_proper (hreadable.labels.proper t ht)) hencode
  have hload := Loading.wp_loadRead hspace hwritten (hreadable.exact nodes hnodes)
  have hlisted := Loading.wp_load nodes { space }
  unfold decode
  rw [wp_bind, wp_lift, parse_render_module hnodes]
  refine ⟨?_, fun _ _ => trivial⟩
  rintro root ⟨⟩
  rw [wp_bind, wp_lift]
  refine ⟨fun header' _ => ?_, fun _ _ => trivial⟩
  rw [wp_bind, wp_get, childrenNamed_module header hwritten]
  rcases hrun : (Loading.load nodes).start { space } with ⟨fault | copies, last⟩
  · rw [wp_bind, wp_set, wp_throw]
    trivial
  · rw [wp_bind, wp_set, wp_pure]
    obtain ⟨hagain, hread⟩ := wp_ok hload hrun
    refine ⟨_, hread, (length_mapM hnodes).symm.trans (length_mapM hagain), fun p hp =>
      exists_of_mem_zip hnodes hagain hp, ?_⟩
    exact (wp_ok hlisted hrun).1


section Reprinted

variable {here : Keyed String TypeId} (hprint : Reprinted u types space copies here after)
include hprint

theorem Reprinted.named (hc : c ∈ copies) : after.program.Named c (after.program.fullName c) := by
  obtain ⟨name, hnamed, -⟩ := hprint.read.found c hc
  have hname : after.program.fullName c = name := Universe.Named.fullName hnamed
  rw [hname]
  exact hnamed

theorem Reprinted.tidy : Tidy after := by
  have hready := hprint.read.ready
  refine ⟨hready.enclosed, fun l hl => ?_, fun l hl => ?_⟩
  · rw [hprint.listings] at hl
    rcases Registry.mem_insertAll hl with hold | ⟨c, hc, rfl⟩
    · exact hready.listed l hold
    · exact hprint.named hc
  · rw [hprint.listings] at hl
    rcases Registry.mem_insertAll hl with hold | ⟨c, hc, rfl⟩
    · exact hready.proper l.type (.inr ⟨l, hold, rfl⟩)
    · exact hready.proper c (.inl (hprint.read.new c hc))

theorem Reprinted.fullName (hlabels : ModuleTypes u types) (hp : (t, c) ∈ types.zip copies) :
    after.program.fullName c = u.fullName t := by
  obtain ⟨ht, hc⟩ := List.of_mem_zip hp
  obtain ⟨n, hn, hn'⟩ := hprint.element (t, c) hp
  exact fullName_of_encodeType (hlabels.named t ht) (hprint.named hc) hn hn'

theorem Reprinted.fullNames (hlabels : ModuleTypes u types) :
    copies.map after.program.fullName = types.map u.fullName := by
  refine List.ext_getElem (by simp [hprint.length]) fun index hindex hindex' => ?_
  rw [List.getElem_map, List.getElem_map]
  refine hprint.fullName hlabels (List.mem_iff_getElem.mpr ⟨index, ?_, List.getElem_zip⟩)
  simpa [hprint.length] using hindex

theorem Reprinted.nodup (hlabels : ModuleTypes u types) : copies.Nodup := by
  refine List.Nodup.of_map after.program.fullName ?_
  rw [hprint.fullNames hlabels]
  exact hlabels.distinct

theorem Reprinted.type_of_copy (hlabels : ModuleTypes u types) (hp : (t, c) ∈ types.zip copies) :
    Scope.type ⟨after.program, space.registry, here⟩ (u.fullName t) = .ok c := by
  have hc := (List.of_mem_zip hp).2
  obtain ⟨name, hnamed, hfound⟩ := hprint.read.found c hc
  obtain ⟨other, hother⟩ := Option.isSome_iff_exists.mp hfound
  have hnames : (copies.map after.program.fullName).Nodup := by
    rw [hprint.fullNames hlabels]
    exact hlabels.distinct
  have hname : after.program.fullName c = name := Universe.Named.fullName hnamed
  have hsame : other = c := by
    refine List.inj_on_of_nodup_map hnames (hprint.read.here name other hother) hc ?_
    exact (Universe.Named.fullName (hprint.read.ready.here name other hother).2).trans hname.symm
  subst hsame
  rw [← hprint.fullName hlabels hp, hname, Scope.type, hother]

theorem Reprinted.type_of_listed (hlabels : ModuleTypes u types)
    (hlisted : (space.registry.named name).head? = some t)
    (hnone : ∀ other ∈ types, u.fullName other ≠ name) :
    Scope.type ⟨after.program, space.registry, here⟩ name = .ok t := by
  have hfree : here.find? name = none := by
    refine Option.eq_none_iff_forall_ne_some.mpr fun c hfound => ?_
    have hc := hprint.read.here name c hfound
    have hname : after.program.fullName c = name :=
      Universe.Named.fullName (hprint.read.ready.here name c hfound).2
    have hmem : name ∈ types.map u.fullName := by
      rw [← hprint.fullNames hlabels, ← hname]
      exact List.mem_map_of_mem hc
    obtain ⟨other, hother, heq⟩ := List.mem_map.mp hmem
    exact hnone other hother heq
  rw [Scope.type, hfree]
  dsimp only
  rw [hlisted]

theorem Reprinted.head_named (hlisted : (space.registry.named name).head? = some t) :
    (after.registry.named name).head? = some t := by
  have hkept : ((space.registry.insertAll after.program copies).named name).head? = some t :=
    Registry.head_named_insertAll hlisted
  rw [Registry.named] at hkept ⊢
  rw [hprint.listings]
  exact hkept

theorem Reprinted.carries {mark mark' requested : TypeId} {id : Identifier} {f : FieldId}
    (hlabels : ModuleTypes u types) (hp : (f.owner, c) ∈ types.zip copies)
    (hcarries : (u.record f.owner).Carries mark id f)
    (hmark : (space.registry.named (u.fullName mark)).head? = some mark')
    (hrequested : (space.registry.named (u.fullName id.requested)).head? = some requested)
    (hnone : ∀ other ∈ types, u.fullName other ≠ u.fullName mark
      ∧ u.fullName other ≠ u.fullName id.requested) :
    (after.program.record c).Carries mark' ⟨requested, id.parts⟩ ⟨c, f.index⟩ := by
  obtain ⟨ht, hc⟩ := List.of_mem_zip hp
  obtain ⟨n, hn, hn'⟩ := hprint.element (f.owner, c) hp
  have hknown : Scope.Recognizes ⟨after.program, space.registry, here⟩ u f.owner c mark mark' id
      ⟨requested, id.parts⟩ := by
    refine ⟨hprint.type_of_copy hlabels hp, ?_, ?_, rfl⟩
    · exact hprint.type_of_listed hlabels hmark fun other hother => (hnone other hother).1
    · exact hprint.type_of_listed hlabels hrequested fun other hother => (hnone other hother).2
  exact carries_of_copy hprint.read hc hknown (usualNames_of_proper (hlabels.proper _ ht)) hn hn'
    hcarries

end Reprinted

end Artifact

namespace Session

open Attempt

variable {q : PipelineId} {s now mid after : Session} {f : FieldId} {id : Identifier} {t : TypeId}

/-! ### Sorting what was read -/

theorem OnlyHeap.refl (s : Session) : OnlyHeap s s := ⟨rfl, rfl, rfl⟩

theorem OnlyHeap.isAssembled (h : OnlyHeap s mid) (q : PipelineId) (t : TypeId) :
    mid.isAssembled q t = s.isAssembled q t := by
  simp only [Session.isAssembled, coreTypes, registry, pipeline, h.program,
    h.registries, h.pipelines]

theorem OnlyHeap.bears (h : OnlyHeap s mid) (hs : s.Bears q id f) : mid.Bears q id f := by
  have hcore : mid.coreTypes q = s.coreTypes q := by
    simp only [coreTypes, registry, pipeline, h.registries, h.pipelines]
  refine ⟨?_, ?_, ?_⟩ <;> rw [hcore, h.program]
  · exact hs.carries
  · exact hs.finished
  · exact hs.present

theorem wp_classify_proxy (loaded : Loaded) (h : mid.isAssembled q t = true) :
    (classify q loaded t).wp
      (fun loaded' _ => ∃ requested id, loaded'.proxies = loaded.proxies ++ [⟨requested, t, id⟩]
        ∧ mid.requestedType q t = .ok requested ∧ ((extractId q t).start mid).1 = .ok id)
      (fun _ => True) mid := by
  rw [classify, wp_bind, wp_get, if_pos h, wp_bind, ask, wp_bind, wp_get, wp_lift]
  refine ⟨fun requested hrequested => ?_, fun _ _ => trivial⟩
  refine wp_iff.mpr ⟨fun loaded' after hrun => ?_, fun _ _ _ => trivial⟩
  obtain ⟨id, last, hid, hend⟩ := start_bind_ok.mp hrun
  cases hend
  exact ⟨requested, id, rfl, hrequested, by rw [hid]⟩

theorem wp_classify_other (loaded : Loaded) (h : mid.isAssembled q t = false) :
    (classify q loaded t).wp (fun loaded' _ => loaded'.proxies = loaded.proxies)
    (fun _ => True) mid := by
  rw [classify, wp_bind, wp_get, if_neg (by rw [h]; exact Bool.false_ne_true)]
  rfl

/-- The types with the mark are proxies, in the order in which they are sorted. -/
theorem wp_classifyAll (types : List TypeId) (loaded : Loaded) (h : OnlyHeap now mid) :
    (types.foldlM (classify q) loaded).wp
      (fun loaded' after => OnlyHeap now after ∧ ∃ more : List LoadedProxy,
        loaded'.proxies = loaded.proxies ++ more
        ∧ more.map (·.generated) = types.filter (now.isAssembled q))
      (fun _ => True) mid := by
  induction types generalizing loaded mid with
  | nil => exact ⟨h, [], by simp⟩
  | cons t types ih =>
    rw [List.foldlM_cons]
    have hheap := onlyHeap_classify q loaded t mid h
    rw [List.filter_cons]
    cases hmark : now.isAssembled q t with
    | true =>
      have hproxy := wp_classify_proxy loaded ((h.isAssembled q t).trans hmark)
      refine wp_step (wp_and hheap hproxy) (fun loaded' next hnext => ?_) fun _ _ => trivial
      obtain ⟨hnext, requested, id, hfirst, -⟩ := hnext
      refine wp_mono (ih loaded' hnext) (fun loaded'' after hafter => ?_) fun _ h => h
      obtain ⟨hafter, more, hmore, hmarked⟩ := hafter
      refine ⟨hafter, ⟨requested, t, id⟩ :: more, ?_, ?_⟩
      · rw [hmore, hfirst, List.append_assoc, List.singleton_append]
      · rw [List.map_cons, hmarked]
        rfl
    | false =>
      have hother := wp_classify_other loaded ((h.isAssembled q t).trans hmark)
      refine wp_step (wp_and hheap hother) (fun loaded' next hnext => ?_) fun _ _ => trivial
      obtain ⟨hnext, hfirst⟩ := hnext
      rw [← hfirst]
      exact ih loaded' hnext

/-- The field goes on to hold nothing but the identifier. -/
theorem stamped_classify (hstamps : now.program.Stamps f (.identifier id))
    (loaded : Loaded) (t : TypeId) :
    Maintains (fun s => OnlyHeap now s ∧ s.heap.Stamped (now.program.cell f) (.identifier id) False)
    (classify q loaded t) := by
  have hevaluate : Maintains (fun s => OnlyHeap now s
    ∧ s.heap.Stamped (now.program.cell f) (.identifier id) False)
      (evaluate fun u => u.ensureInitialized t) := by
    rintro s ⟨hsame, hheap⟩
    rw [evaluate, wp_bind, wp_get, wp_within]
    have hprepared : (s.program.ensureInitialized t).wp (fun _ h =>
      h.Stamped (now.program.cell f) (.identifier id) False)
        (fun h => h.Stamped (now.program.cell f) (.identifier id) False) s.heap := by
      rw [hsame.program]
      exact Entry.stamped_perform hstamps (.prepare t) s.heap hheap
    exact wp_mono hprepared (fun _ _ h => ⟨⟨hsame.program, hsame.registries, hsame.pipelines⟩, h⟩)
      fun _ h => ⟨⟨hsame.program, hsame.registries, hsame.pipelines⟩, h⟩
  have hextract : Maintains (fun s => OnlyHeap now s
      ∧ s.heap.Stamped (now.program.cell f) (.identifier id) False) (extractId q t) := by
    refine maintains_bind (maintains_ask _) fun f => maintains_bind hevaluate fun _ =>
      maintains_bind maintains_get fun now => ?_
    split
    · exact maintains_pure _
    · exact maintains_throw _
  refine maintains_bind maintains_get fun now => maintains_ite ?_ (maintains_pure _)
  exact maintains_bind (maintains_ask _) fun _ => maintains_bind hextract fun _ => maintains_pure _

/-- A type that bears an identifier is told to be a proxy for it. -/
theorem wp_classifyAll_stamped (hbears : now.Bears q id f)
    (hstamps : now.program.Stamps f (.identifier id)) (types : List TypeId) (loaded : Loaded)
    (h : OnlyHeap now mid) (hheap : mid.heap.Stamped (now.program.cell f) (.identifier id) False) :
    (types.foldlM (classify q) loaded).wp
      (fun loaded' _ => (∀ x ∈ loaded.proxies, x ∈ loaded'.proxies)
        ∧ (f.owner ∈ types → ⟨id.requested, f.owner, id⟩ ∈ loaded'.proxies))
      (fun _ => True) mid := by
  induction types generalizing loaded mid with
  | nil => exact ⟨fun _ hx => hx, nofun⟩
  | cons t types ih =>
    rw [List.foldlM_cons]
    have hkeeps := stamped_classify (q := q) hstamps loaded t mid ⟨h, hheap⟩
    cases hmark : mid.isAssembled q t with
    | false =>
      have hother := wp_classify_other loaded hmark
      refine wp_step (wp_and hkeeps hother) (fun loaded' next hnext => ?_) fun _ _ => trivial
      obtain ⟨⟨hnext, hheap'⟩, hfirst⟩ := hnext
      have hne : t ≠ f.owner := by
        rintro rfl
        rw [(h.bears hbears).isAssembled] at hmark
        cases hmark
      refine wp_mono (ih loaded' hnext hheap') (fun loaded'' after hafter => ?_) fun _ h => h
      rw [hfirst] at hafter
      refine ⟨hafter.1, fun hmem => hafter.2 ?_⟩
      exact (List.mem_cons.mp hmem).resolve_left (Ne.symm hne)
    | true =>
      have hproxy := wp_classify_proxy loaded hmark
      refine wp_step (wp_and hkeeps hproxy) (fun loaded' next hnext => ?_) fun _ _ => trivial
      obtain ⟨⟨hnext, hheap'⟩, requested, told, hfirst, hrequested, htold⟩ := hnext
      refine wp_mono (ih loaded' hnext hheap') (fun loaded'' after hafter => ?_) fun _ h => h
      have hkept : ∀ x ∈ loaded.proxies, x ∈ loaded''.proxies := fun x hx =>
        hafter.1 x (by rw [hfirst]; exact List.mem_append_left _ hx)
      refine ⟨hkept, fun hmem => ?_⟩
      rcases List.mem_cons.mp hmem with rfl | hmem
      · have hhere := h.bears hbears
        rw [hhere.requestedType] at hrequested
        cases hrequested
        rw [← h.program] at hstamps hheap
        obtain rfl := extractId_of_stamped hstamps hheap hhere.identifierField htold
        refine hafter.1 _ ?_
        rw [hfirst]
        exact List.mem_append_right _ List.mem_cons_self
      · exact hafter.2 hmem

end Session

end TypeLoom
