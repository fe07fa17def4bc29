import TypeLoom.Proofs.Defining

/-!
# Generating batches

What comes out of a successful generation: every descriptor has a type at its place in the order,
with the base, the interfaces, the methods and the overrides of the descriptor. Whether a generation
succeeds or fails, the types that were there keep their outlines and the universe stays well-formed.
-/

namespace TypeLoom

namespace Descriptor

variable {u : Universe} {d d' : Descriptor}

theorem alike_of_forget (h : d'.forget = d.forget) : Alike d d' := by
  have hread : ∀ {γ : Type} (read : Descriptor → γ), (∀ e, read e.forget = read e) →
      read d' = read d := by
    intro γ read hforget
    rw [← hforget d', ← hforget d, h]
  exact ⟨hread (·.handle) fun _ => rfl, hread (·.flags) fun _ => rfl, hread (·.base) fun _ => rfl,
    hread (·.interfaces) fun _ => rfl, hread (fun e => e.constructors.map (·.signature)) fun _ =>
    rfl,
    hread (·.methods) fun _ => rfl, hread (·.overrides) fun _ => rfl,
      hread (·.implementations) fun _ => rfl⟩

/-- What a descriptor becomes at its place, without its overrides. -/
def sketch (d : Descriptor) (l : Layout) (objectType : TypeId) (flags : UInt32) : Sketch where
  flags := flags
  base := d.emittedBase l objectType
  interfaces := d.emittedInterfaces l
  methods := d.methods.toList.map (·.emitted l)

theorem sketch_congr (h : Alike d d') (l : Layout) (objectType : TypeId) (flags : UInt32) :
    d'.sketch l objectType flags = d.sketch l objectType flags := by
  have hinterface : d'.isInterface = d.isInterface := by rw [isInterface, isInterface, h.flags]
  simp only [sketch, emittedBase, emittedInterfaces, h.base, h.interfaces, h.methods, hinterface]

end Descriptor

namespace Batch

variable {b : Batch} {order : List TypeHandle} {h on : TypeHandle}

theorem Ordered.before (ho : b.Ordered order) (hmem : h ∈ order) (hon : on ∈ order)
    (hwaits : b.Waits h on) :
    order.idxOf on < order.idxOf h := by
  by_contra hle
  have hne : order.idxOf h ≠ order.idxOf on :=
    fun heq => hwaits.1 ((List.idxOf_inj hmem).mp heq).symm
  have hlt : order.idxOf h < order.idxOf on := by omega
  have hnone := List.pairwise_iff_getElem.mp ho.hard _ _ (List.idxOf_lt_length_of_mem hmem)
    (List.idxOf_lt_length_of_mem hon) hlt
  rw [List.getElem_idxOf, List.getElem_idxOf] at hnone
  exact hnone hwaits

/-! ### Closed batches -/

theorem alike_close (d : Descriptor) : Descriptor.Alike d d.close :=
  ⟨rfl, rfl, rfl, rfl, rfl, rfl, rfl, rfl⟩

theorem Sound.close {u : Universe} (hb : b.Sound u) : b.closeAll.Sound u := by
  have hclosed : ∀ (i : Nat) (d : Descriptor), b.closeAll.types[i]? = some d →
      ∃ e, b.types[i]? = some e ∧ d = e.close := by
    intro i d hd
    simp only [closeAll, Array.getElem?_map] at hd
    obtain ⟨e, he, rfl⟩ := Option.map_eq_some_iff.mp hd
    exact ⟨e, he, rfl⟩
  refine ⟨fun i d hd => ?_, fun i d hd => ?_⟩
  · obtain ⟨e, he, rfl⟩ := hclosed i d hd
    exact hb.handles i e he
  · obtain ⟨e, he, rfl⟩ := hclosed i d hd
    exact (hb.sound i e he).alike (alike_close e)

end Batch

namespace Production

open Attempt Universe TypeSpace

variable {ground first p : Production} {l : Layout} {h : TypeHandle} {objectType : TypeId}

/-- Descriptors of a sound batch are defined in an order that suits them. -/
theorem scheduled (hbatch : ground.batch.Sound ground.program)
    (hordered : ground.batch.Ordered l.order) {d d' : Descriptor}
    (hd : ground.batch.find? h = some d) (ha : Descriptor.Alike d d') :
    Scheduled ground l h d' := by
  have hmem : h ∈ l.order := (hordered.mem h).mpr (Array.getElem?_eq_some_iff.mp hd).1
  have hsound := hbatch.sound h.index d hd
  have hhandle : d.handle = h := hbatch.handles h.index d hd
  have hbefore : ∀ on, on ≠ h → on ∈ l.order → on ∈ d.hardDependencies →
      (l.place on).index < (l.place h).index := by
    intro on hne hon hdep
    rw [Layout.place_of_mem hmem, Layout.place_of_mem hon]
    exact Nat.add_lt_add_left (hordered.before hmem hon ⟨hne, d, hd, hdep⟩) _
  refine ⟨hmem, ha.handle.trans hhandle, hsound.alike ha, fun b hb hon => ?_, fun i hi hon => ?_⟩
  · rw [ha.base] at hb
    have hlt := hsound.draftBase b hb
    rw [hhandle] at hlt
    refine hbefore b (fun heq => by rw [heq] at hlt; exact Nat.lt_irrefl _ hlt) hon ?_
    simp [Descriptor.hardDependencies, hb, Signature.draft?]
  · rw [ha.interfaces] at hi
    by_cases heq : i = h
    · rw [heq]
    · refine Nat.le_of_lt (hbefore i heq hon ?_)
      simp only [Descriptor.hardDependencies, Descriptor.interfaceDrafts, List.mem_append,
        List.mem_filterMap]
      exact .inr ⟨.draft i, Array.mem_toList_iff.mpr hi, rfl⟩

/-! ### Defining all members -/

/-- What is known of a declared descriptor when its members are defined. -/
def planned (first : Production) (l : Layout) (objectType : TypeId) (h : TypeHandle) : Sketch :=
  match first.batch.find? h with
  | some d => d.sketch l objectType (first.program.outline (l.place h)).flags
  | none => (first.program.outline (l.place h)).sketch

def plannedOverrides (first : Production) (l : Layout) (h : TypeHandle) :
    List (TypeId × Override) :=
  match first.batch.find? h with
  | some d => (d.emittedOverrides (l.place h)).map (l.place h, ·)
  | none => []

theorem sketch_of_blank {d : Descriptor} {o : TypeOutline} (h : Blank ground d o) :
    o.sketch = { flags := o.flags } := by
  obtain ⟨u, -, -, -, ho⟩ := h
  rw [ho]
  rfl

theorem isInterface_of_blank {d : Descriptor} {o : TypeOutline} (h : Blank ground d o) :
    hasBits o.flags TypeFlags.interface = d.isInterface := by
  obtain ⟨u, -, -, -, ho⟩ := h
  rw [ho, Descriptor.isInterface]
  split
  · exact hasBits_set _ _ _ rfl
  · rfl

/-- A declared descriptor can be defined, and its type has only flags yet. -/
theorem Declared.scheduled (hfirst : Declared ground l l.order first)
    (hbatch : ground.batch.Sound ground.program) (hordered : ground.batch.Ordered l.order)
    (hmem : h ∈ l.order) :
    ∃ d, first.batch.find? h = some d ∧ Scheduled ground l h d
      ∧ hasBits (first.program.outline (l.place h)).flags TypeFlags.interface = d.isInterface
      ∧ (first.program.outline (l.place h)).sketch
          = { flags := (first.program.outline (l.place h)).flags } := by
  obtain ⟨known, hknown, hblank⟩ := hfirst.blank h hmem
  obtain ⟨d, hd, hforget⟩ := hfirst.intact.batch.find hknown
  have halike := Descriptor.alike_of_forget hforget
  have hinterface : d.isInterface = known.isInterface := by
    rw [Descriptor.isInterface, Descriptor.isInterface, halike.flags]
  exact ⟨d, hd, Production.scheduled hbatch hordered hknown halike,
    (isInterface_of_blank hblank).trans hinterface.symm, sketch_of_blank hblank⟩

theorem wp_defineAll (hstart : l.start = ground.program.types.size)
    (hbatch : ground.batch.Sound ground.program) (hordered : ground.batch.Ordered l.order)
    (hobject : objectType.index < ground.program.types.size)
    (hfirst : Declared ground l l.order first) :
    (forIn l.order PUnit.unit (fun h _ =>
      do let _ ← define objectType h; pure (.yield PUnit.unit)) :
      Attempt Production PUnit).wp
      (fun _ after => (∀ h ∈ l.order, ∀ d, first.batch.find? h = some d → ∀ m ∈ d.methods,
          after.emitted.methods.find? m.handle = some ⟨l.place h, m.handle.slot⟩)
        ∧ Standing ground first l (planned first l objectType)
          (l.order.flatMap (plannedOverrides first l)) after)
      (Intact ground) first := by
  let declared (h : TypeHandle) : Sketch := (first.program.outline (l.place h)).sketch
  let inv (done : List TypeHandle) (after : Production) : Prop :=
    (∀ h ∈ done, ∀ d, first.batch.find? h = some d → ∀ m ∈ d.methods,
      after.emitted.methods.find? m.handle = some ⟨l.place h, m.handle.slot⟩)
    ∧ Standing ground first l (fun h => if h ∈ done then planned first l objectType h
      else declared h)
        (done.flatMap (plannedOverrides first l)) after
  have hfollows : first.emitted.Follows l := by
    intro h t ht
    rw [hfirst.types] at ht
    split at ht
    · cases ht
      exact ⟨‹_›, rfl⟩
    · cases ht
  refine wp_mono (wp_forIn (I := inv) l.order (fun done h rest heq mid hmid => ?_) ?_) ?_ fun _ h =>
    h
  · have hmem : h ∈ l.order := by rw [heq]; simp
    have hfresh : h ∉ done := by
      have hnodup := hordered.nodup
      rw [heq] at hnodup
      exact fun hold => List.disjoint_of_nodup_append hnodup hold List.mem_cons_self
    obtain ⟨d, hd, hsched, hclass, hflags⟩ := hfirst.scheduled hbatch hordered hmem
    have hnow : Standing ground first l (Function.update
        (fun h => if h ∈ done then planned first l objectType h else declared h) h (declared h))
        (done.flatMap (plannedOverrides first l)) mid := by
      have hsame : Function.update (fun h => if h ∈ done then planned first l objectType h
        else declared h) h
          (declared h) = fun h => if h ∈ done then planned first l objectType h
          else declared h := by
        rw [Function.update_eq_self_iff, if_neg hfresh]
      rw [hsame]
      exact hmid.2
    have hd' : mid.batch.find? h = some d := by rw [hmid.2.batch]; exact hd
    refine wp_mono (wp_define hstart (hmid.2.follows hfollows) hsched hobject hd' ⟨_, hflags⟩ hclass
      hnow.restart) ?_
      fun _ h => h
    rintro - next ⟨hrows, hnext⟩
    have hplanned : planned first l objectType h = d.sketch l objectType (declared h).flags := by
      simp only [planned, hd, declared]
      rfl
    refine ⟨fun other hother e he m hm => ?_, ?_⟩
    · rcases List.mem_append.mp hother with hold | hnew
      · exact hnext.rows _ _ (hmid.1 other hold e he m hm)
      · obtain rfl := List.mem_singleton.mp hnew
        obtain rfl : d = e := Option.some.inj (hd.symm.trans he)
        exact hrows m hm
    · have hall := hmid.2.rebase hnext
      have hsketch : (fun other => if other ∈ done ++ [h] then planned first l objectType other
        else declared other)
          = Function.update (fun h => if h ∈ done then planned first l objectType h
            else declared h) h
            (d.sketch l objectType (declared h).flags) := by
        funext other
        by_cases hother : other = h
        · subst hother
          rw [Function.update_self, if_pos (by simp), hplanned]
        · rw [Function.update_of_ne hother]
          simp [hother]
      have hnoted : (done ++ [h]).flatMap (plannedOverrides first l)
          = done.flatMap (plannedOverrides first l) ++ (d.emittedOverrides (l.place h)).map
          (l.place h, ·) := by
        rw [List.flatMap_append, List.flatMap_singleton, plannedOverrides, hd]
      rw [hsketch, hnoted]
      exact hall
  · refine ⟨nofun, hfirst.intact, rfl, rfl, fun _ _ h => h, hfirst.size, fun h _ => ?_, ?_⟩
    · rw [if_neg (List.not_mem_nil)]
    · rw [Production.noted, hfirst.attachments]
      rfl
  · rintro - after ⟨hrows, hafter⟩
    refine ⟨hrows, ⟨hafter.intact, hafter.batch, hafter.types, hafter.rows, hafter.size,
      fun h hmem => ?_,
      hafter.noted⟩⟩
    rw [hafter.sketch h hmem, if_pos hmem]

/-! ### Attaching -/

theorem wp_ensureOwn {post : PUnit → TypeSpace → Prop} {fail : TypeSpace → Prop}
    {s : TypeSpace} {t : TypeId} {m : MethodId} (h : post ⟨⟩ s) (hfail : fail s) :
    (ensureOwn t m).wp post fail s := by
  unfold ensureOwn
  simp only [currentProgram, wp_bind, wp_get, wp_pure]
  cases s.program.methodOwner? m with
  | none => exact hfail
  | some owner =>
    simp only [wp_ite, wp_pure, wp_throw]
    exact ⟨fun _ => h, fun _ => hfail⟩

theorem still_attachBody (t : TypeId) (m : MethodId) (body : Expr) :
    Still (attachOne (.body t m body)) := by
  refine still_bind (still_lookUp _) fun lowered => still_inSpace ?_
  refine quiet_bind (quiet_ensureOpen t) fun _ => quiet_bind (fun s => ?_) fun _ =>
    quiet_setBody _ _
  exact wp_ensureOwn (.refl s) (.refl s)

/-- What a method overrides exists, belongs to an interface or matches the method, and only
classes override methods of classes. -/
theorem declaration_of_mem {d : Descriptor} {u : Universe} (hd : d.Sound u) {m : DraftMethod}
    (hm : m ∈ d.methods) {declaration : MethodId}
    (hdecl : declaration ∈ m.baseMethod.toList ++ m.explicitOverrides.toList) :
    (u.method? declaration).isSome ∧ ((u.record declaration.owner).isInterface = false →
      d.isInterface = false ∧ m.name = (u.method declaration).name
        ∧ m.signature = (u.method declaration).signature) := by
  rcases List.mem_append.mp hdecl with hbase | hexplicit
  · have hstands := hd.standsIn m hm declaration (Option.mem_toList.mp hbase)
    obtain ⟨t, ht⟩ := hstands.base
    refine ⟨hstands.exists', fun _ => ⟨?_, hstands.name, hstands.signature⟩⟩
    rw [Bool.eq_false_iff]
    intro hi
    rw [hd.rootless hi] at ht
    cases ht
  · obtain ⟨-, hexists, hinterface⟩ :=
      hd.implements m hm declaration (Array.mem_toList_iff.mp hexplicit)
    exact ⟨hexists, fun hclass => by rw [hclass] at hinterface; cases hinterface⟩

theorem Standing.method_of_mem {S : TypeHandle → Sketch} {sk : Sketch}
    {N : List (TypeId × Override)} {d : Descriptor} (hd : Scheduled ground l h d)
    (hmethods : sk.methods = d.methods.toList.map (·.emitted l))
    (hS : Standing ground first l (Function.update S h sk) N p) {m : DraftMethod}
    (hm : m ∈ d.methods) :
    ∃ body, (p.program.outline (l.place h)).method? m.handle.slot = some body
      ∧ (body.name, body.flags, body.signature) = m.emitted l := by
  obtain ⟨i, hi⟩ := Array.mem_iff_getElem?.mp hm
  rw [hd.sound.handles i m hi]
  have hsketch := congrArg Sketch.methods (hS.sketch h hd.mem)
  rw [Function.update_self, hmethods] at hsketch
  have hplace := congrArg (fun methods : List (String × UInt32 × MethodSignature) =>
    methods[i]?) hsketch
  simp only [TypeOutline.sketch, List.getElem?_map, Array.getElem?_toList, hi,
    Option.map_some] at hplace
  exact Option.map_eq_some_iff.mp hplace

theorem wp_defineOverride {S : TypeHandle → Sketch} {sk : Sketch} {N : List (TypeId × Override)}
    {d : Descriptor} (hstart : l.start = ground.program.types.size) (hd : Scheduled ground l h d)
    (hclass : hasBits sk.flags TypeFlags.interface = d.isInterface)
    (hmethods : sk.methods = d.methods.toList.map (·.emitted l)) {m : DraftMethod}
    (hm : m ∈ d.methods)
    {declaration : MethodId} (hdecl : declaration ∈ m.baseMethod.toList
      ++ m.explicitOverrides.toList)
    (hS : Standing ground first l (Function.update S h sk) N p) :
    (inSpace (TypeSpace.defineOverride (l.place h) ⟨l.place h, m.handle.slot⟩ declaration)).wp
      (fun _ => Standing ground first l (Function.update S h
        { sk with overrides := sk.overrides ++ [⟨declaration, ⟨l.place h, m.handle.slot⟩⟩] }) N)
      (Intact ground) p := by
  rw [wp_inSpace]
  unfold TypeSpace.defineOverride
  rw [wp_bind]
  refine wp_ensureOpen ?_ hS.intact
  rw [wp_bind]
  refine wp_ensureOwn ?_ hS.intact
  simp only [currentProgram, wp_bind, wp_get, wp_pure, wp_ite, wp_throw, edit, wp_modify]
  refine ⟨fun _ => hS.intact, fun _ => ?_⟩
  let v : Override := ⟨declaration, ⟨l.place h, m.handle.slot⟩⟩
  have hr : Shaped p.workshop.space (l.place h) (TypeOutline.addOverride v)
      { p.workshop.space with program := p.workshop.space.program.modify (l.place h) fun r =>
          { r with overrides := r.overrides.push v } } :=
    ⟨reshaped_modify (hS.place_lt hd.mem) fun r => TypeOutline.outline_pushOverride r v, rfl⟩
  obtain ⟨hexists, hmatches⟩ := declaration_of_mem hd.sound hm hdecl
  have hlt := Universe.lt_of_isSome_method? _ _ hexists
  obtain ⟨body, hbody, hemitted⟩ := hS.method_of_mem hd hmethods hm
  have hsame : p.program.outline declaration.owner = ground.program.outline declaration.owner :=
    hS.intact.agree declaration.owner hlt
  obtain ⟨declared, hdeclared⟩ :=
    Option.isSome_iff_exists.mp ((isSome_method? _ _).symm.trans hexists)
  have hhead : ground.program.head declaration = declared := by
    rw [head_eq, hdeclared, Option.getD_some]
  have hsettled : (ground.program.method declaration).signature.Settled p.program.types.size := by
    have hexists' : (p.program.method? declaration).isSome := by
      rw [hS.intact.agree.isSome_method? hlt]
      exact hexists
    rw [← hS.intact.agree.signature hlt]
    exact hS.intact.sound.wellFormed.signature_settled hexists'
  have hbefore : declaration.owner.index < (l.place h).index := by
    have := l.start_le_place h
    omega
  have hagree : (p.program.outline declaration.owner).isInterface = false →
      (p.program.outline (l.place h)).isInterface = false ∧ body.name = declared.name
        ∧ body.signature.agrees declared.signature := by
    intro hi
    rw [hsame] at hi
    obtain ⟨hclass', hname, hsignature⟩ := hmatches hi
    have hparts : body.name = m.name ∧ body.flags = m.flags
        ∧ body.signature = m.signature.placed l := by
      simpa [DraftMethod.emitted] using hemitted
    refine ⟨?_, ?_, ?_⟩
    · rw [TypeOutline.isInterface, hS.flags hd.mem, hclass, hclass']
    · rw [hparts.1, hname, ← hhead]
      rfl
    · rw [hparts.2.2, hsignature, MethodSignature.placed_of_settled hsettled, ← hhead]
      exact MethodSignature.agrees_refl _
  rw [← hsame] at hdeclared
  exact hS.shaped (f := fun sk => { sk with overrides := sk.overrides ++ [v] }) hstart hd.mem
    hr (fun _ => rfl)
    (TypeOutline.keeps_addOverride _ _) fun hfits =>
    hfits.addOverride rfl hbefore hbody hdeclared hagree

def overridesAt (t : TypeId) (noted : List (TypeId × Override)) : List Override :=
  (noted.filter fun v => v.1 == t).map (·.2)

theorem overridesAt_append (t : TypeId) (noted noted' : List (TypeId × Override)) :
    overridesAt t (noted ++ noted') = overridesAt t noted ++ overridesAt t noted' := by
  rw [overridesAt, List.filter_append, List.map_append]
  rfl

theorem flatMap_only {α β : Type} [DecidableEq α] {items : List α} (hnodup : items.Nodup) {a : α}
    (ha : a ∈ items) (values : List β) :
    (items.flatMap fun item => if item = a then values else []) = values := by
  induction items with
  | nil => cases ha
  | cons item items ih =>
    rw [List.flatMap_cons]
    obtain ⟨hnew, hrest⟩ := List.nodup_cons.mp hnodup
    rcases List.mem_cons.mp ha with rfl | hmem
    · have hnone : (items.flatMap fun item => if item = a then values else []) = [] := by
        refine List.flatMap_eq_nil_iff.mpr fun item hitem => if_neg ?_
        rintro rfl
        exact hnew hitem
      rw [if_pos rfl, hnone, List.append_nil]
    · have hne : item ≠ a := by
        rintro rfl
        exact hnew hmem
      rw [if_neg hne, List.nil_append, ih hrest hmem]

theorem fst_of_mem_plannedOverrides {v : TypeId × Override} (hv : v ∈ plannedOverrides first l h) :
    v.1 = l.place h := by
  unfold plannedOverrides at hv
  split at hv
  · obtain ⟨w, -, rfl⟩ := List.mem_map.mp hv
    rfl
  · cases hv

theorem overridesAt_planned (hnodup : l.order.Nodup) (hmem : h ∈ l.order) :
    overridesAt (l.place h) (l.order.flatMap (plannedOverrides first l))
      = (plannedOverrides first l h).map (·.2) := by
  have hone : ∀ other, ((plannedOverrides first l other).filter fun v => v.1 == l.place h)
      = if other = h then plannedOverrides first l h else [] := by
    intro other
    by_cases heq : other = h
    · subst heq
      rw [if_pos rfl, List.filter_eq_self]
      exact fun v hv => beq_iff_eq.mpr (fst_of_mem_plannedOverrides hv)
    · rw [if_neg heq, List.filter_eq_nil_iff]
      intro v hv hplace
      rw [fst_of_mem_plannedOverrides hv, beq_iff_eq] at hplace
      exact heq (l.place_injective hplace)
  rw [overridesAt, List.filter_flatMap, List.flatMap_congr fun other _ => hone other,
    flatMap_only hnodup hmem]

def attached (first : Production) (l : Layout) (objectType : TypeId)
    (noted : List (TypeId × Override)) (h : TypeHandle) : Sketch :=
  { planned first l objectType h with overrides := overridesAt (l.place h) noted }

/-- Attaching everything gives each type its planned overrides. -/
theorem wp_attachAttachments (hstart : l.start = ground.program.types.size)
    (hbatch : ground.batch.Sound ground.program) (hordered : ground.batch.Ordered l.order)
    (hfirst : Declared ground l l.order first)
    (hS : Standing ground first l (planned first l objectType)
      (l.order.flatMap (plannedOverrides first l)) p) :
    (forIn p.attachments.toList PUnit.unit (fun a _ =>
      do let _ ← attachOne a; pure (.yield PUnit.unit)) :
      Attempt Production PUnit).wp
      (fun _ => Standing ground p l
        (attached first l objectType (l.order.flatMap (plannedOverrides first l)))
        (l.order.flatMap (plannedOverrides first l)))
      (Intact ground) p := by
  let N := l.order.flatMap (plannedOverrides first l)
  let inv (done : List Attachment) (after : Production) : Prop :=
    Standing ground p l (attached first l objectType (done.filterMap Attachment.noted)) N after
  have hnoted : p.attachments.toList.filterMap Attachment.noted = N := hS.noted
  refine wp_mono (wp_forIn (I := inv) p.attachments.toList (fun done a rest heq mid hmid => ?_) ?_)
    ?_ fun _ h => h
  · cases a with
    | body t m body =>
      have hsame : (done ++ [Attachment.body t m body]).filterMap Attachment.noted
          = done.filterMap Attachment.noted := by
        rw [List.filterMap_append]
        exact List.append_nil _
      show (attachOne (.body t m body)).wp (fun _ after => Standing ground p l
        (attached first l objectType ((done ++ [Attachment.body t m body]).filterMap
          Attachment.noted)) N after) _ _
      rw [hsame]
      exact (still_attachBody t m body).wp hmid fun _ _ _ hafter => hafter
    | override t body declaration =>
      have hmem : (t, (⟨declaration, body⟩ : Override)) ∈ N := by
        rw [← hnoted, heq]
        exact List.mem_filterMap.mpr ⟨.override t body declaration, by simp, rfl⟩
      obtain ⟨h, hh, hv⟩ := List.mem_flatMap.mp hmem
      obtain rfl : t = l.place h := fst_of_mem_plannedOverrides hv
      obtain ⟨d, hd, hsched, hclass, -⟩ := hfirst.scheduled hbatch hordered hh
      simp only [plannedOverrides, hd, Descriptor.emittedOverrides,
        DraftMethod.emittedOverrides, List.mem_map,
        List.mem_flatMap, Prod.mk.injEq, true_and, exists_eq_right] at hv
      obtain ⟨m, hm, declaration', hdecl, hv⟩ := hv
      cases hv
      have hplanned : planned first l objectType h
          = d.sketch l objectType (first.program.outline (l.place h)).flags := by
        rw [planned, hd]
      let A := attached first l objectType (done.filterMap Attachment.noted)
      have hnow : Standing ground p l (Function.update A h (A h)) N mid := by
        rw [Function.update_eq_self]
        exact hmid
      have hA : A h = { d.sketch l objectType (first.program.outline (l.place h)).flags with
          overrides := overridesAt (l.place h) (done.filterMap Attachment.noted) } := by
        show attached _ _ _ _ h = _
        rw [attached, hplanned]
      have hstep := wp_defineOverride hstart hsched (by rw [hA]; exact hclass) (by rw [hA]; rfl)
        (Array.mem_toList_iff.mp hm) hdecl hnow
      let v : Override := ⟨declaration, ⟨l.place h, m.handle.slot⟩⟩
      have hone : [Attachment.override (l.place h) v.body v.declaration].filterMap Attachment.noted
          = [(l.place h, v)] := rfl
      have hnext : attached first l objectType
          ((done ++ [Attachment.override (l.place h) v.body v.declaration]).filterMap
            Attachment.noted)
          = Function.update A h { A h with overrides := (A h).overrides ++ [v] } := by
        funext other
        rw [attached, List.filterMap_append, hone, overridesAt_append]
        by_cases hother : other = h
        · subst hother
          have hself : overridesAt (l.place other) [(l.place other, v)] = [v] := by
            simp [overridesAt]
          rw [Function.update_self, hself]
          rfl
        · have hplace : l.place h ≠ l.place other := fun heq => hother (l.place_injective heq).symm
          have hnone : overridesAt (l.place other) [(l.place h, v)] = [] := by
            simp [overridesAt, hplace]
          rw [Function.update_of_ne hother, hnone, List.append_nil]
          rfl
      show (attachOne _).wp (fun _ after =>
        Standing ground p l (attached first l objectType _) N after) _ _
      rw [hnext]
      exact hstep
  · have hbegin : ∀ h ∈ l.order, planned first l objectType h
        = attached first l objectType [] h := by
      intro h hh
      obtain ⟨d, hd, -⟩ := hfirst.scheduled hbatch hordered hh
      rw [attached, planned, hd]
      rfl
    exact hS.restart.congr hbegin
  · intro _ after hafter
    have hend : Standing ground p l
      (attached first l objectType (p.attachments.toList.filterMap Attachment.noted)) N
        after := hafter
    rw [hnoted] at hend
    exact hend

/-! ### Creating -/

theorem still_create (h : TypeHandle) : Still (create h) := by
  refine still_bind (still_lookUp _) fun t => still_bind (still_inSpace ?_) fun _ => still_pure _
  refine quiet_bind (quiet_ensureOpen t) fun _ => quiet_bind quiet_currentProgram fun _ =>
    quiet_bind (quiet_lift _) fun _ => quiet_bind (quiet_markComplete t) fun _ =>
      quiet_bind (quiet_list t) fun _ => quiet_pure _

theorem still_mapM {α β : Type} {body : β → Attempt Production α} (items : List β)
    (h : ∀ item, Still (body item)) :
    Still (items.mapM body) := by
  intro p
  have hloop : (items.mapM body).wp (fun vs after => items.length = vs.length
    ∧ Calm p after) (Calm p) p :=
    wp_mapM (I := fun _ => Calm p) items
      (fun _ item _ _ mid hmid =>
        wp_mono (h item mid) (fun _ _ hafter => hmid.trans hafter) fun _ hafter =>
        hmid.trans hafter) (Calm.refl p)
  exact wp_mono hloop (fun _ _ hafter => hafter.2) fun _ hafter => hafter

/-! ### The whole generation -/

/-- What came out of a successful generation. -/
structure Produced (ground : Production) (objectType : TypeId) (l : Layout) (g : Generated)
    (p : Production) :
    Prop where
  start : l.start = ground.program.types.size
  ordered : ground.batch.Ordered l.order
  intact : Intact ground p
  size : p.program.types.size = l.start + l.order.length
  types : ∀ h, g.emitted.types.find? h = if h ∈ l.order then some (l.place h) else none
  methods : ∀ h d, ground.batch.find? h = some d → ∀ m ∈ d.methods,
    g.emitted.methods.find? m.handle = some ⟨l.place h, m.handle.slot⟩
  outlines : ∀ h d, ground.batch.find? h = some d → ∃ u : Universe, u.WellFormed
    ∧ ground.program.types.size ≤ u.types.size ∧ Agree ground.program.types.size ground.program u
    ∧ (p.program.outline (l.place h)).sketch =
      { d.sketch l objectType (if ground.batch.isAbstract u d then d.flags ||| TypeFlags.abstract else d.flags) with
        overrides := d.emittedOverrides (l.place h) }

theorem wp_generateClosed (hspace : ground.workshop.space.Sound)
    (hbatch : ground.batch.Sound ground.program)
    (hobject : objectType.index < ground.program.types.size) (hemitted : ground.emitted = {})
    (hnone : ground.attachments = #[]) (hclosed : ground.batch.closeAll = ground.batch) :
    (generate objectType).wp (fun g p => ∃ l, Produced ground objectType l g p)
        (Intact ground) ground := by
  unfold generate
  rw [wp_bind, wp_modify, hclosed]
  rw [wp_bind, wp_get, wp_bind, wp_lift]
  refine ⟨fun order horder => ?_, fun _ _ => .refl hspace⟩
  have hordered := Batch.order_ok hbatch.handles horder
  let l : Layout := ⟨ground.program.types.size, order⟩
  rw [wp_bind]
  refine wp_mono (wp_declareAll (l := l) rfl hordered.nodup hspace hemitted hnone)
    (fun _ first hfirst => ?_)
    fun _ h => h
  rw [wp_bind]
  refine wp_mono (wp_defineAll rfl hbatch hordered hobject hfirst) (fun _ second hsecond =>
    ?_) fun _ h => h
  rw [wp_bind, wp_get, wp_bind]
  refine wp_mono (wp_attachAttachments rfl hbatch hordered hfirst hsecond.2) (fun _ third hthird =>
    ?_) fun _ h => h
  rw [wp_bind]
  refine (still_mapM order still_create).wp hthird fun types last _ hlast => ?_
  rw [wp_bind, wp_get, wp_pure]
  refine ⟨l, rfl, hordered, hlast.intact, hlast.size, fun h => ?_, fun h d hd m hm => ?_,
    fun h d hd => ?_⟩
  · rw [hlast.types, hsecond.2.types]
    exact hfirst.types h
  · obtain ⟨d', hd', hforget⟩ := hfirst.intact.batch.find hd
    have hmem : h ∈ order := (hordered.mem h).mpr (Array.getElem?_eq_some_iff.mp hd).1
    refine hlast.rows _ _ (hsecond.1 h hmem d' hd' m ?_)
    rw [(Descriptor.alike_of_forget hforget).methods]
    exact hm
  · have hmem : h ∈ order := (hordered.mem h).mpr (Array.getElem?_eq_some_iff.mp hd).1
    obtain ⟨known, hknown, u, hu, hsize, hagree, hblank⟩ := hfirst.blank h hmem
    obtain rfl : d = known := Option.some.inj (hd.symm.trans hknown)
    obtain ⟨d', hd', hforget⟩ := hfirst.intact.batch.find hd
    have halike := Descriptor.alike_of_forget hforget
    refine ⟨u, hu, hsize, hagree, ?_⟩
    rw [hlast.sketch h hmem, attached, overridesAt_planned hordered.nodup hmem]
    have hplanned : planned first l objectType h = d.sketch l objectType
        (if ground.batch.isAbstract u d then d.flags ||| TypeFlags.abstract else d.flags) := by
      rw [planned, hd', hblank]
      exact Descriptor.sketch_congr halike l objectType _
    have hoverrides : (plannedOverrides first l h).map (·.2) = d.emittedOverrides (l.place h) := by
      have hmap : ((d'.emittedOverrides (l.place h)).map (l.place h, ·)).map (·.2)
          = d'.emittedOverrides (l.place h) := by simp [Function.comp_def]
      rw [plannedOverrides, hd', hmap, Descriptor.emittedOverrides, halike.methods]
      rfl
    rw [hplanned, hoverrides]

/-- A production at its beginning, with a batch that takes no more changes. -/
def opening (b : Batch) (workshop : Workshop) : Production := { batch := b.closeAll, workshop }

/-- A generation succeeds with a type for each descriptor, or fails; either way it moves nothing
that was there. -/
theorem wp_generate {b : Batch} (workshop : Workshop) (hspace : workshop.space.Sound)
    (hbatch : b.Sound workshop.space.program)
    (hobject : objectType.index < workshop.space.program.types.size) :
    (generate objectType).wp (fun g p => ∃ l, Produced (opening b workshop) objectType l g p)
      (Intact (opening b workshop)) { batch := b, workshop } := by
  have hclosed : b.closeAll.closeAll = b.closeAll := by
    simp only [Batch.closeAll, Array.map_map, Batch.mk.injEq]
    rfl
  have hsound : b.closeAll.Sound workshop.space.program := hbatch.close
  have hground : (opening b workshop).workshop.space.Sound := hspace
  have hwp := wp_generateClosed hground hsound hobject rfl rfl hclosed
  have hsame : (generate objectType).start { batch := b, workshop }
      = (generate objectType).start (opening b workshop) := by
    unfold generate
    rw [start_bind, start_bind, start_modify, start_modify]
    simp only [opening, hclosed]
  unfold wp at hwp ⊢
  rw [hsame]
  exact hwp

end Production

end TypeLoom
