import TypeLoom.Proofs.WellFormed

/-!
# Headings and interfaces of descriptors

The names of a descriptor, its base and what it is a proxy of are settled when the descriptor is
made. Interfaces are listed one by one, and no operation lists one a second time as long as the
interfaces that it is given are there.
-/

namespace TypeLoom

open Attempt

variable {u : Universe} {held : Prop}

/-! ### Descriptors -/

namespace Descriptor

structure Heading where
  space : String
  name : String
  base : Option Signature
  declaring : Option TypeHandle
  requested : Option TypeId

def heading (d : Descriptor) : Heading := ⟨d.space, d.name, d.base, d.declaring, d.requested⟩

/-- The heading is the same. Interfaces that did not repeat still do not, provided that those to
be listed were there. -/
structure Retains (held : Prop) (d d' : Descriptor) : Prop where
  heading : d'.heading = d.heading
  interfaces : held → d.interfaces.toList.Nodup → d'.interfaces.toList.Nodup

variable {start d d' : Descriptor}

theorem Retains.refl (held : Prop) (d : Descriptor) : d.Retains held d := ⟨rfl, fun _ h => h⟩

theorem Retains.same (h : start.Retains held d) (hheading : d'.heading = d.heading)
    (hinterfaces : d'.interfaces = d.interfaces) :
    start.Retains held d' where
  heading := hheading.trans h.heading
  interfaces := by
    rw [hinterfaces]
    exact h.interfaces

theorem Retains.addInterface (h : start.Retains held d) {s : Signature}
    (hnew : held → s ∉ d.interfaces) :
    start.Retains held (touch { d with interfaces := d.interfaces.push s }) where
  heading := h.heading
  interfaces := fun hheld hstart => by
    have hnames : (d.interfaces.toList.map id).Nodup := by
      rw [List.map_id]
      exact h.interfaces hheld hstart
    have hpushed := nodup_push hnames fun other hother (heq : other = s) =>
      hnew hheld (heq ▸ hother)
    rwa [List.map_id] at hpushed

theorem Retains.modifyMethod (h : start.Retains held d) (slot : Slot)
    (change : DraftMethod → DraftMethod) :
    start.Retains held (d.modifyMethod slot change).touch := by
  cases slot <;> exact h.same rfl rfl

theorem retains_addField (name : String) (signature : Signature) (flags : UInt32) :
    Maintains (start.Retains held) (addField name signature flags) :=
  fun _ hd => wp_addField (fun _ _ => hd.same rfl rfl) fun _ => hd

theorem retains_addConstructor (flags : UInt32) (parameters : List Parameter) (body : Expr) :
    Maintains (start.Retains held) (addConstructor flags parameters body) :=
  fun _ hd => wp_addConstructor (fun _ _ _ _ _ => hd.same rfl rfl) hd

theorem retains_addTypeInitializer (body : Expr) : Maintains (start.Retains held)
    (addTypeInitializer body) :=
  fun _ hd => wp_addTypeInitializer (fun _ _ => hd.same rfl rfl) hd

theorem retains_addTypeInitialization (e : Expr) : Maintains (start.Retains held)
    (addTypeInitialization e) :=
  fun _ hd => wp_addTypeInitialization (fun _ => hd.same rfl rfl) hd

theorem retains_addInitialization (e : Expr) : Maintains (start.Retains held)
    (addInitialization e) :=
  fun _ hd => wp_addInitialization (fun _ _ => hd.same rfl rfl) hd

theorem retains_addMethod (name : String) (flags : UInt32) (signature : MethodSignature)
    (body : Option Expr) :
    Maintains (start.Retains held) (addMethod name flags signature body) :=
  fun _ hd => wp_addMethod (fun _ _ => hd.same rfl rfl) fun _ => hd

theorem retains_setMethodBody (handle : MethodHandle) (body : Expr) :
    Maintains (start.Retains held) (setMethodBody handle body) :=
  fun _ hd => wp_setMethodBody (fun _ _ _ _ => hd.modifyMethod _ _) hd

theorem retains_addProperty (name : String) (signature : Signature)
    (getter setter : Option MethodHandle) :
    Maintains (start.Retains held) (addProperty u name signature getter setter) :=
  fun _ hd => wp_addProperty (fun _ _ _ _ => hd.same rfl rfl) fun _ => hd

theorem retains_addPropertyAccessors (name : String) (signature : Signature) (access : Access)
    (getterBody setterBody : Option Expr) :
    Maintains (start.Retains held) (addPropertyAccessors u name signature access getterBody
        setterBody) := by
  refine fun d hd => wp_addPropertyAccessors (fun _ _ => ?_) fun _ => hd
  refine maintains_bind (maintains_option getterBody fun body => retains_addMethod _ _ _ _)
    (fun getter => ?_) d hd
  exact maintains_bind (maintains_option setterBody fun body =>
      retains_addMethod _ _ _ _) fun setter =>
    retains_addProperty _ _ _ _

theorem retains_addAutoProperty (name : String) (signature : Signature) (access : Access) :
    Maintains (start.Retains held) (addAutoProperty u name signature access) :=
  maintains_bind (retains_addField _ _ _) fun _ => retains_addPropertyAccessors _ _ _ _ _

theorem retains_addEvent (name : String) (type : Signature) (add remove : MethodHandle)
    (raise : Option MethodHandle) :
    Maintains (start.Retains held) (addEvent u name type add remove raise) :=
  fun _ hd => wp_addEvent (fun _ _ _ _ => hd.same rfl rfl) hd

theorem retains_addInterface {interface : TypeId} (hheld : held → u.isPresent interface = true)
    (allow : Bool) :
    Maintains (start.Retains held) (addInterface u interface allow) := by
  refine fun d hd => wp_addInterface (fun _ _ hnew => hd.addInterface fun hh hmem => ?_) hd hd
  refine hnew interface (List.mem_filterMap.mpr ⟨.ofClass interface,
    Array.mem_toList_iff.mpr hmem, ?_⟩) rfl
  rw [Signature.class?, Option.bind_some, Universe.present?, if_pos (hheld hh)]

theorem retains_addDraftInterface (interface : TypeHandle) : Maintains (start.Retains held)
    (addDraftInterface interface) :=
  fun _ hd => wp_addDraftInterface (fun _ hnew => hd.addInterface fun _ => hnew) hd

theorem retains_addAttribute (a : Attribute) : Maintains (start.Retains held) (addAttribute a) :=
  fun _ hd => wp_addAttribute (fun _ => hd.same rfl rfl) hd

theorem retains_addMethodAttribute (handle : MethodHandle) (a : Attribute) :
    Maintains (start.Retains held) (addMethodAttribute handle a) :=
  fun _ hd => wp_addMethodAttribute (fun _ _ => hd.modifyMethod _ _) hd

theorem retains_addFieldAttribute (handle : FieldHandle) (a : Attribute) :
    Maintains (start.Retains held) (addFieldAttribute handle a) :=
  fun _ hd => wp_addFieldAttribute (fun _ _ _ => hd.same rfl rfl) hd

theorem retains_getOrAddOverride (m : MethodId) : Maintains (start.Retains held)
    (getOrAddOverride u m) :=
  fun _ hd => wp_getOrAddOverride (fun _ _ _ _ => hd) (fun _ _ _ _ _ => hd.same rfl rfl)
    (fun _ _ _ _ _ _ => hd.same rfl rfl) hd

theorem retains_getOrAddImplementation (m : MethodId) : Maintains (start.Retains held)
    (getOrAddImplementation u m) := by
  refine fun d hd => wp_getOrAddImplementation (fun _ _ _ => hd) (fun _ _ _ _ => hd.same rfl rfl)
    (fun inherited _ _ _ _ _ => ?_) (fun _ _ _ _ => hd.same rfl rfl) hd
  exact wp_mono (retains_getOrAddOverride inherited d hd) (fun _ _ hd' =>
    hd'.same rfl rfl) fun _ h => h

theorem heading_askAbstract (u : Universe) (d : Descriptor) :
    (d.askAbstract u).2.heading = d.heading := by
  unfold askAbstract
  split <;> rfl

end Descriptor

/-! ### Batches -/

def Edit.Held (u : Universe) : Edit → Prop
  | .addInterface _ interface _ => u.isPresent interface
  | _ => True

namespace Batch

variable {α : Type} {b mid b' : Batch}

/-- The descriptors that there were have kept their headings, the new ones are no proxies, and
none lists an interface twice if none did and the interfaces to be listed were there. -/
structure Retains (held : Prop) (b b' : Batch) : Prop where
  old : ∀ h d, b.find? h = some d → ∃ d', b'.find? h = some d' ∧ d.Retains held d'
  plain : ∀ h d', b.find? h = none → b'.find? h = some d' → d'.requested = none
  new : held → ∀ h d', b.find? h = none → b'.find? h = some d' → d'.interfaces.toList.Nodup

theorem Retains.refl (held : Prop) (b : Batch) : b.Retains held b where
  old := fun _ d hd => ⟨d, hd, .refl held d⟩
  plain := fun _ _ hnone hd => by
    rw [hnone] at hd
    cases hd
  new := fun _ _ _ hnone hd => by
    rw [hnone] at hd
    cases hd

theorem find?_setIfInBounds (b : Batch) (t h : TypeHandle) (d' : Descriptor) :
    find? { b with types := b.types.setIfInBounds t.index d' } h
      = if t = h then (b.find? h).map fun _ => d' else b.find? h := by
  simp only [find?, Array.getElem?_setIfInBounds]
  by_cases ht : t = h
  · subst ht
    by_cases hlt : t.index < b.types.size <;> simp [hlt]
  · have hindex : t.index ≠ h.index := fun hi => ht (by cases t; cases h; simp_all)
    simp [ht, hindex]

theorem find?_push (b : Batch) (h : TypeHandle) (made : Descriptor) :
    find? { b with types := b.types.push made } h = if h.index = b.types.size then some made
    else b.find? h := by
  simp only [find?, Array.getElem?_push]

theorem Retains.set (hb : b.Retains held mid) {t : TypeHandle} {d d' : Descriptor}
    (hd : mid.find? t = some d) (hd' : d.Retains held d') :
    b.Retains held { mid with types := mid.types.setIfInBounds t.index d' } where
  old := fun h e he => by
    obtain ⟨e', he', hkept⟩ := hb.old h e he
    rw [find?_setIfInBounds]
    by_cases ht : t = h
    · subst ht
      obtain rfl : d = e' := Option.some.inj (hd.symm.trans he')
      rw [if_pos rfl, hd]
      exact ⟨d', rfl, hd'.heading.trans hkept.heading, fun hheld hnodup =>
        hd'.interfaces hheld (hkept.interfaces hheld hnodup)⟩
    · rw [if_neg ht]
      exact ⟨e', he', hkept⟩
  plain := fun h e hnone he => by
    rw [find?_setIfInBounds] at he
    split at he
    · rename_i ht
      subst ht
      rw [hd] at he
      cases he
      exact (congrArg Descriptor.Heading.requested hd'.heading).trans (hb.plain t d hnone hd)
    · exact hb.plain h e hnone he
  new := fun hheld h e hnone he => by
    rw [find?_setIfInBounds] at he
    split at he
    · rename_i ht
      subst ht
      rw [hd] at he
      cases he
      exact hd'.interfaces hheld (hb.new hheld t d hnone hd)
    · exact hb.new hheld h e hnone he

theorem Retains.push (hb : b.Retains held mid) {made : Descriptor} (hplain : made.requested = none)
    (hmade : made.interfaces = #[]) :
    b.Retains held { mid with types := mid.types.push made } where
  old := fun h e he => by
    obtain ⟨e', he', hkept⟩ := hb.old h e he
    have hlt : h.index < mid.types.size := (Array.getElem?_eq_some_iff.mp he').1
    rw [find?_push, if_neg (Nat.ne_of_lt hlt)]
    exact ⟨e', he', hkept⟩
  plain := fun h e hnone he => by
    rw [find?_push] at he
    split at he
    · cases he
      exact hplain
    · exact hb.plain h e hnone he
  new := fun hheld h e hnone he => by
    rw [find?_push] at he
    split at he
    · cases he
      rw [hmade]
      exact List.nodup_nil
    · exact hb.new hheld h e hnone he

theorem retains_onType {t : TypeHandle} {act : Attempt Descriptor α}
    (h : ∀ d : Descriptor, Maintains (d.Retains held) act) :
    Maintains (b.Retains held) (onType t act) := by
  refine fun mid hmid => wp_onType (fun _ => hmid) fun d hd => ?_
  exact wp_mono (h d d (.refl held d)) (fun _ _ hd' => hmid.set hd hd') fun _ hd' => hmid.set hd hd'

theorem retains_createType (space name : String) (flags : UInt32) (base : Option Signature) :
    Maintains (b.Retains held) (createType u space name flags base) :=
  fun _ hmid => wp_createType (fun _ _ => hmid.push rfl rfl) hmid

theorem retains_addNested (outer : TypeHandle) (name : String) (flags : UInt32)
    (base : Option Signature) :
    Maintains (b.Retains held) (addNested u outer name flags base) := by
  refine fun mid hmid => wp_addNested (fun d hd _ _ _ => ?_) hmid
  have hlt : outer.index < mid.types.size := (Array.getElem?_eq_some_iff.mp hd).1
  refine (hmid.push rfl rfl).set (d := d) ?_ ((Descriptor.Retains.refl held d).same rfl rfl)
  rw [find?_push, if_neg (Nat.ne_of_lt hlt)]
  exact hd

theorem retains_addBatchInterface (t interface : TypeHandle) : Maintains (b.Retains held)
    (addBatchInterface t interface) :=
  fun _ hmid => wp_addBatchInterface
    (fun _ _ _ => retains_onType (fun _ => Descriptor.retains_addDraftInterface interface) _ hmid)
    hmid

theorem retains_askAbstract (t : TypeHandle) : Maintains (b.Retains held) (askAbstract u t) := by
  have halone : Maintains (b.Retains held) (askAlone u t) := retains_onType fun start d hd => by
    rw [wp_of]
    exact hd.same (d.heading_askAbstract u) (alike_askAbstract (u := u) d).interfaces
  refine maintains_bind halone fun alone =>
    maintains_ite (maintains_pure _) (maintains_bind maintains_get fun now => ?_)
  exact maintains_bind (maintains_lift _) fun _ => maintains_pure _

/-- Whatever an edit does, it changes no heading and repeats no interface. -/
theorem retains_perform (e : Edit) : Maintains (b.Retains (e.Held u)) (e.perform u) := by
  cases e with
  | createType space name flags base =>
    exact maintains_map (retains_createType space name flags base)
  | createInterface space name => exact maintains_map (retains_createType space name _ none)
  | addNested outer name flags base => exact maintains_map (retains_addNested outer name flags base)
  | addBatchInterface t i =>
    exact maintains_bind (retains_addBatchInterface t i) fun _ => maintains_pure _
  | addField t name signature flags =>
    exact maintains_map (retains_onType fun _ => Descriptor.retains_addField name signature flags)
  | addConstructor t flags parameters body =>
    exact maintains_map (retains_onType fun _ =>
      Descriptor.retains_addConstructor flags parameters body)
  | addTypeInitializer t body =>
    exact maintains_map (retains_onType fun _ => Descriptor.retains_addTypeInitializer body)
  | addTypeInitialization t e =>
    exact maintains_bind (retains_onType fun _ => Descriptor.retains_addTypeInitialization e)
      fun _ => maintains_pure _
  | addInitialization t e =>
    exact maintains_bind (retains_onType fun _ => Descriptor.retains_addInitialization e) fun _ =>
      maintains_pure _
  | addMethod t name flags signature body =>
    exact maintains_map (retains_onType fun _ =>
      Descriptor.retains_addMethod name flags signature body)
  | setMethodBody t m body =>
    exact maintains_bind (retains_onType fun _ => Descriptor.retains_setMethodBody m body) fun _ =>
      maintains_pure _
  | addProperty t name signature getter setter =>
    exact maintains_map (retains_onType fun _ =>
      Descriptor.retains_addProperty name signature getter setter)
  | addPropertyAccessors t name signature access getterBody setterBody =>
    exact maintains_map (retains_onType fun _ =>
      Descriptor.retains_addPropertyAccessors name signature access getterBody setterBody)
  | addAutoProperty t name signature access =>
    exact maintains_map (retains_onType fun _ =>
      Descriptor.retains_addAutoProperty name signature access)
  | addEvent t name eventType add remove raise =>
    exact maintains_map (retains_onType fun _ =>
      Descriptor.retains_addEvent name eventType add remove raise)
  | addInterface t interface allow =>
    exact maintains_bind (retains_onType fun _ => Descriptor.retains_addInterface id allow) fun _ =>
      maintains_pure _
  | addAttribute t a =>
    exact maintains_bind (retains_onType fun _ => Descriptor.retains_addAttribute a) fun _ =>
      maintains_pure _
  | addMethodAttribute t m a =>
    exact maintains_bind (retains_onType fun _ => Descriptor.retains_addMethodAttribute m a)
      fun _ => maintains_pure _
  | addFieldAttribute t f a =>
    exact maintains_bind (retains_onType fun _ => Descriptor.retains_addFieldAttribute f a) fun _ =>
      maintains_pure _
  | overrideMethod t m =>
    exact maintains_bind (retains_onType fun _ => Descriptor.retains_getOrAddOverride m) fun _ =>
      maintains_pure _
  | implementMethod t m =>
    exact maintains_bind (retains_onType fun _ => Descriptor.retains_getOrAddImplementation m)
      fun _ => maintains_pure _
  | askAbstract t => exact maintains_map (retains_askAbstract t)

end Batch

end TypeLoom
