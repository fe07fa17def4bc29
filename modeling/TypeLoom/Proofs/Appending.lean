import TypeLoom.Proofs.Formed

/-!
# Members are appended

An operation on a descriptor appends to its lists and to its registries. What was there stays at its
place: a method is changed only when it is given a body or an attribute, and a field only when it is
given an attribute.
-/

namespace TypeLoom

open Attempt

/-! ### Lists that were appended to -/

theorem prefix_push {α : Type} (items : Array α) (item : α) :
    items.toList <+: (items.push item).toList := by
  rw [Array.toList_push]
  exact List.prefix_append _ _

theorem getElem?_of_prefix {α : Type} {items items' : Array α} (h : items.toList <+: items'.toList)
    {i : Nat} {item : α} (hitem : items[i]? = some item) : items'[i]? = some item := by
  obtain ⟨more, hmore⟩ := h
  rw [← Array.getElem?_toList] at hitem ⊢
  rw [← hmore, List.getElem?_append_left (List.getElem?_eq_some_iff.mp hitem).1, hitem]

theorem getElem?_of_prefix_map {α : Type} {change : α → α} {items items' : Array α}
    (h : items.toList.map change <+: items'.toList) {i : Nat} {item : α}
    (hitem : items[i]? = some item) :
    items'[i]? = some (change item) := by
  rw [← Array.toList_map] at h
  refine getElem?_of_prefix h ?_
  rw [Array.getElem?_map, hitem, Option.map_some]

namespace Descriptor

/-! ### What an operation leaves -/

def Registered (d : Descriptor) (h : MethodHandle) : Prop :=
  ∃ token, d.overrides.find? token = some h ∨ d.implementations.find? token = some h

/-- The members that there were are changed as told, and the rest is appended. What is registered
anew is a method. -/
structure Appended (rewrite : DraftMethod → DraftMethod) (annotate : DraftField → DraftField)
    (d d' : Descriptor) : Prop where
  handle : d'.handle = d.handle
  heading : d'.heading = d.heading
  flags : d'.flags = d.flags
  isSealed : d'.isSealed = d.isSealed
  interfaces : d.interfaces.toList <+: d'.interfaces.toList
  fields : d.fields.toList.map annotate <+: d'.fields.toList
  constructors : d.constructors.toList.map rewrite <+: d'.constructors.toList
  typeInitializer : ∀ m, d.typeInitializer = some m → d'.typeInitializer = some (rewrite m)
  methods : d.methods.toList.map rewrite <+: d'.methods.toList
  properties : d.properties.toList <+: d'.properties.toList
  events : d.events.toList <+: d'.events.toList
  nested : d.nested.toList <+: d'.nested.toList
  attributes : d.attributes.toList <+: d'.attributes.toList
  initializations : d.initializations.toList <+: d'.initializations.toList
  typeInitializations : d.typeInitializations.toList <+: d'.typeInitializations.toList
  overrides : KeepsRows d.overrides d'.overrides
  implementations : KeepsRows d.implementations d'.implementations
  registered : ∀ h, d'.Registered h → d.Registered h ∨ ∃ m ∈ d'.methods, m.handle = h

variable {u : Universe} {start d d' : Descriptor} {rewrite : DraftMethod →
  DraftMethod} {annotate : DraftField → DraftField}

theorem Appended.refl (d : Descriptor) : d.Appended id id d where
  handle := rfl
  heading := rfl
  flags := rfl
  isSealed := rfl
  interfaces := List.prefix_rfl
  fields := by rw [List.map_id]
  constructors := by rw [List.map_id]
  typeInitializer := fun _ h => h
  methods := by rw [List.map_id]
  properties := List.prefix_rfl
  events := List.prefix_rfl
  nested := List.prefix_rfl
  attributes := List.prefix_rfl
  initializations := List.prefix_rfl
  typeInitializations := List.prefix_rfl
  overrides := .refl _
  implementations := .refl _
  registered := fun _ => .inl

theorem Appended.pushMethod (h : start.Appended rewrite annotate d) (m : DraftMethod) :
    start.Appended rewrite annotate { d with methods := d.methods.push m } :=
  { h with
    methods := h.methods.trans (prefix_push _ _)
    registered := fun handle hregistered => (h.registered handle hregistered).imp_right
      fun ⟨own, hown, hhandle⟩ => ⟨own, Array.mem_push_of_mem _ hown, hhandle⟩ }

theorem Appended.touch (h : start.Appended rewrite annotate d) :
    start.Appended rewrite annotate d.touch := { h with }

/-- An own method is registered for a free slot. -/
theorem Appended.putOverride (h : start.Appended rewrite annotate d) {slot : Token}
    {handle : MethodHandle} (free : d.overrides.find? slot = none)
    (hhandle : ∃ m ∈ d.methods, m.handle = handle) :
    start.Appended rewrite annotate { d with overrides := d.overrides.put slot handle } :=
  { h with
    overrides := fun token other hrow =>
      keepsRows_put handle free token other (h.overrides token other hrow)
    registered := by
      rintro found ⟨token, hrow | hrow⟩
      · rcases find?_put_cases hrow with ⟨-, rfl⟩ | hold
        · exact .inr hhandle
        · exact h.registered found ⟨token, .inl hold⟩
      · exact h.registered found ⟨token, .inr hrow⟩ }

/-- An own method, or one that was registered before, is registered for a free interface method. -/
theorem Appended.putImplementation (h : start.Appended rewrite annotate d) {slot : Token}
    {handle : MethodHandle} (free : d.implementations.find? slot = none)
    (hhandle : d.Registered handle ∨ ∃ m ∈ d.methods, m.handle = handle) :
    start.Appended rewrite annotate
      { d with implementations := d.implementations.put slot handle } :=
  { h with
    implementations := fun token other hrow =>
      keepsRows_put handle free token other (h.implementations token other hrow)
    registered := by
      rintro found ⟨token, hrow | hrow⟩
      · exact h.registered found ⟨token, .inl hrow⟩
      · rcases find?_put_cases hrow with ⟨-, rfl⟩ | hold
        · exact hhandle.elim (h.registered _) .inr
        · exact h.registered found ⟨token, .inr hold⟩ }

/-! ### Operations that only append -/

def Appending {α : Type} (held : α → Descriptor → Prop) (act : Attempt Descriptor α) : Prop :=
  ∀ start d : Descriptor, start.Appended id id d →
    act.wp (fun v d' => start.Appended id id d' ∧ held v d') (start.Appended id id) d

variable {α β : Type} {held : β → Descriptor → Prop}

theorem Appending.bind {first : α → Descriptor → Prop} {act : Attempt Descriptor α}
    {next : α → Attempt Descriptor β} (h : Appending first act)
    (hnext : ∀ v, Appending held (next v)) : Appending held (act >>= next) := by
  intro start d hd
  rw [wp_bind]
  exact wp_mono (h start d hd) (fun v mid hmid => hnext v start mid hmid.1) fun _ hafter => hafter

theorem Appending.option {act : β → Attempt Descriptor α} {first : α → Descriptor → Prop}
    (item : Option β) (h : ∀ v, Appending first (act v)) : Appending (fun _ _ => True)
    (item.mapM act) := by
  cases item with
  | none => exact fun _ _ hd => ⟨hd, trivial⟩
  | some v =>
    intro start d hd
    rw [Option.mapM_some, wp_map]
    exact wp_mono (h v start d hd) (fun _ _ hafter => ⟨hafter.1, trivial⟩) fun _ hafter => hafter

def Declares (d : Descriptor) (h : MethodHandle) : Prop :=
  ∃ m, (m ∈ d.methods ∨ m ∈ d.constructors ∨ d.typeInitializer = some m) ∧ m.handle = h

theorem appending_addField (name : String) (signature : Signature) (flags : UInt32) :
    Appending (fun h d => ∃ f ∈ d.fields, f.handle = h) (addField name signature flags) :=
  fun _ _ hd => wp_addField
    (fun _ _ => ⟨{ hd with fields := hd.fields.trans (prefix_push _ _) }, _, Array.mem_push_self,
      rfl⟩) fun _ => hd

theorem appending_addConstructor (flags : UInt32) (parameters : List Parameter) (body : Expr) :
    Appending (fun h d => d.Declares h) (addConstructor flags parameters body) :=
  fun _ _ hd => wp_addConstructor (fun _ _ _ _ _ =>
    ⟨{ hd with constructors := hd.constructors.trans (prefix_push _ _) }, _,
      .inr (.inl Array.mem_push_self), rfl⟩) hd

theorem appending_addTypeInitializer (body : Expr) : Appending (fun h d => d.Declares h)
    (addTypeInitializer body) := by
  refine fun start d hd => wp_addTypeInitializer (fun _ hnone => ⟨?_, _, .inr (.inr rfl), rfl⟩) hd
  have hfirst : start.typeInitializer = none := by
    cases hsome : start.typeInitializer with
    | none => rfl
    | some m =>
      have hlater := hd.typeInitializer m hsome
      rw [hnone] at hlater
      cases hlater
  exact { hd with typeInitializer := fun m hm => by rw [hfirst] at hm; cases hm }

theorem appending_addTypeInitialization (e : Expr) : Appending (fun _ _ => True)
    (addTypeInitialization e) :=
  fun _ _ hd => wp_addTypeInitialization
    (fun _ => ⟨{ hd with typeInitializations := hd.typeInitializations.trans (prefix_push _ _) },
      trivial⟩) hd

theorem appending_addInitialization (e : Expr) : Appending (fun _ _ => True)
    (addInitialization e) :=
  fun _ _ hd => wp_addInitialization
    (fun _ _ => ⟨{ hd with initializations := hd.initializations.trans (prefix_push _ _) },
      trivial⟩) hd

theorem appending_addMethod (name : String) (flags : UInt32) (signature : MethodSignature)
    (body : Option Expr) :
    Appending (fun h d => d.Declares h) (addMethod name flags signature body) :=
  fun _ _ hd => wp_addMethod (fun _ _ => ⟨(hd.pushMethod _).touch, _, .inl Array.mem_push_self,
    rfl⟩) fun _ => hd

theorem appending_addProperty (name : String) (signature : Signature)
    (getter setter : Option MethodHandle) :
    Appending (fun h d => ∃ p ∈ d.properties, p.handle = h)
    (addProperty u name signature getter setter) :=
  fun _ _ hd => wp_addProperty
    (fun _ _ _ _ => ⟨{ hd with properties := hd.properties.trans (prefix_push _ _) }, _,
      Array.mem_push_self, rfl⟩) fun _ => hd

theorem appending_addPropertyAccessors (name : String) (signature : Signature) (access : Access)
    (getterBody setterBody : Option Expr) :
    Appending (fun h d => ∃ p ∈ d.properties, p.handle = h)
      (addPropertyAccessors u name signature access getterBody setterBody) := by
  refine fun start d hd => wp_addPropertyAccessors (fun _ _ => ?_) fun _ => hd
  refine Appending.bind (.option getterBody fun body => appending_addMethod _ _ _ _)
    (fun getter => ?_) start d hd
  exact .bind (.option setterBody fun body => appending_addMethod _ _ _ _) fun setter =>
    appending_addProperty _ _ _ _

theorem appending_addAutoProperty (name : String) (signature : Signature) (access : Access) :
    Appending (fun h d => ∃ p ∈ d.properties, p.handle = h)
    (addAutoProperty u name signature access) :=
  .bind (appending_addField _ _ _) fun _ => appending_addPropertyAccessors _ _ _ _ _

theorem appending_addEvent (name : String) (type : Signature) (add remove : MethodHandle)
    (raise : Option MethodHandle) :
    Appending (fun h d => ∃ v ∈ d.events, v.handle = h) (addEvent u name type add remove raise) :=
  fun _ _ hd => wp_addEvent
    (fun _ _ _ _ => ⟨{ hd with events := hd.events.trans (prefix_push _ _) }, _,
      Array.mem_push_self, rfl⟩) hd

theorem appending_addInterface (interface : TypeId) (allow : Bool) :
    Appending (fun _ _ => True) (addInterface u interface allow) :=
  fun _ _ hd => wp_addInterface
    (fun _ _ _ => ⟨{ hd with interfaces := hd.interfaces.trans (prefix_push _ _) }, trivial⟩)
    ⟨hd, trivial⟩ hd

theorem appending_addDraftInterface (interface : TypeHandle) : Appending (fun _ _ => True)
    (addDraftInterface interface) :=
  fun _ _ hd => wp_addDraftInterface
    (fun _ _ => ⟨{ hd with interfaces := hd.interfaces.trans (prefix_push _ _) }, trivial⟩) hd

theorem appending_addAttribute (a : Attribute) : Appending (fun _ _ => True) (addAttribute a) :=
  fun _ _ hd => wp_addAttribute
    (fun _ => ⟨{ hd with attributes := hd.attributes.trans (prefix_push _ _) }, trivial⟩) hd

/-! ### Registries -/

theorem exists_of_find? {p : DraftMethod → Bool} {own : DraftMethod}
    (h : d.methods.find? p = some own) :
    ∃ m ∈ d.methods, m.handle = own.handle := ⟨own, Array.mem_of_find?_eq_some h, rfl⟩

theorem appending_getOrAddOverride (m : MethodId) :
    Appending (fun answer d => d.Registered answer.1) (getOrAddOverride u m) := by
  refine fun start d hd => wp_getOrAddOverride (fun _ existing _ hrow => ⟨hd, _, .inl hrow⟩)
    (fun _ own _ free hfound => ?_)
    (fun base access _ free _ _ => ?_) hd
  · exact ⟨hd.putOverride free (exists_of_find? hfound), _, .inl (Keyed.find?_put_self _ _ _)⟩
  · have hpushed := hd.pushMethod (newOverride u d.nextMethod m (u.resolveVirtual base m) access)
    exact ⟨(hpushed.putOverride free ⟨_, Array.mem_push_self, rfl⟩).touch, _,
      .inl (Keyed.find?_put_self _ _ _)⟩

theorem appending_getOrAddImplementation (m : MethodId) :
    Appending (fun answer d => d.Registered answer.1) (getOrAddImplementation u m) := by
  refine fun start d hd => wp_getOrAddImplementation (fun existing _ hrow => ⟨hd, _, .inr hrow⟩)
    (fun own _ free hfound => ?_)
    (fun inherited _ free _ _ _ => ?_) (fun _ free _ _ => ?_) hd
  · exact ⟨hd.putImplementation free (.inr (exists_of_find? hfound)), _,
      .inr (Keyed.find?_put_self _ _ _)⟩
  · -- The override has left the registry of implementations alone.
    refine wp_mono (wp_and (appending_getOrAddOverride inherited start d hd)
      (evolved_getOrAddOverride inherited)) ?_
      fun _ hafter => hafter.1
    rintro answer after ⟨⟨hafter, hregistered⟩, -, -, -, -, hsame, -, -⟩
    have hfree : after.implementations.find? (u.method m).token = none := by
      rw [hsame]
      exact free
    exact ⟨hafter.putImplementation hfree (.inl hregistered), _, .inr (Keyed.find?_put_self _ _ _)⟩
  · have hpushed := hd.pushMethod
      { handle := d.nextMethod, name := (u.method m).name, kind := .method,
        flags := newImplementationFlags,
        signature := (u.method m).signature, body := none, explicitOverrides := #[m] }
    exact ⟨(hpushed.putImplementation free (.inr ⟨_, Array.mem_push_self, rfl⟩)).touch, _,
      .inr (Keyed.find?_put_self _ _ _)⟩

/-! ### Operations on one member -/

def reworking (h : MethodHandle) (change : DraftMethod → DraftMethod) (m : DraftMethod) :
    DraftMethod :=
  if m.handle = h then change m else m

def annotating (h : FieldHandle) (a : Attribute) (f : DraftField) : DraftField :=
  if f.handle = h then { f with attributes := f.attributes.push a } else f

theorem toList_map_of_forall {γ : Type} {items : Array γ} {change : γ → γ}
    (h : ∀ item ∈ items, change item = item) :
    items.toList.map change = items.toList :=
  (List.map_congr_left fun item hitem => h item (Array.mem_toList_iff.mp hitem)).trans
    (List.map_id _)

/-- At its own place an item is changed, at the others none is. -/
theorem toList_map_eq_modify {γ : Type} {items : Array γ} {change rewrite : γ → γ} {place : Nat}
    (h : ∀ (i : Nat) item, items[i]? = some item → rewrite item = if place = i then change item
      else item) :
    items.toList.map rewrite = (items.modify place change).toList := by
  refine List.ext_getElem? fun i => ?_
  rw [List.getElem?_map, Array.getElem?_toList, Array.getElem?_toList, Array.getElem?_modify]
  cases hitem : items[i]? with
  | none => simp
  | some item =>
    rw [Option.map_some, h i item hitem]
    split <;> rfl

/-- In a well-formed descriptor the method of a handle stands at its place. -/
theorem appended_modifyMethod {t : TypeHandle} (hwf : d.WellFormed t) (slot : Slot)
    (change : DraftMethod → DraftMethod) :
    d.Appended (reworking ⟨t, slot⟩ change) id (d.modifyMethod slot change).touch := by
  have hhandles : ∀ own : DraftMethod, ∀ other : Slot, own.handle = ⟨t, other⟩ →
      reworking ⟨t, slot⟩ change own = if slot = other then change own else own := by
    intro own other hown
    rw [reworking, hown]
    by_cases hslot : slot = other
    · rw [if_pos (by rw [hslot]), if_pos hslot]
    · rw [if_neg fun heq => hslot (MethodHandle.mk.inj heq).2.symm, if_neg hslot]
  have hmethods := fun i own hown => hhandles own _ (hwf.methods i own hown).1
  have hconstructors := fun i own hown => hhandles own _ (hwf.constructors i own hown).1
  have hinitializer := fun own hown => hhandles own _ (hwf.initializer own hown).1
  have hkept : ∀ {items : Array DraftMethod},
      (∀ (i : Nat) own, items[i]? = some own → reworking ⟨t, slot⟩ change own = own) →
        items.toList.map (reworking ⟨t, slot⟩ change) <+: items.toList := by
    intro items hsame
    rw [toList_map_of_forall fun own hown => by
      obtain ⟨i, hi⟩ := Array.mem_iff_getElem?.mp hown
      exact hsame i own hi]
  cases slot with
  | method index =>
    have hrewritten : d.methods.toList.map (reworking ⟨t, .method index⟩ change)
      = (d.methods.modify index change).toList :=
      toList_map_eq_modify fun i own hown => by simpa using hmethods i own hown
    exact { Appended.refl d with
      methods := hrewritten ▸ List.prefix_rfl
      constructors := hkept fun i own hown => by simpa using hconstructors i own hown
      typeInitializer := fun own hown => by
        rw [hinitializer own hown, if_neg nofun]
        exact hown
      registered := fun _ => .inl }
  | constructor index =>
    have hrewritten : d.constructors.toList.map (reworking ⟨t, .constructor index⟩ change)
        = (d.constructors.modify index change).toList :=
      toList_map_eq_modify fun i own hown => by simpa using hconstructors i own hown
    exact { Appended.refl d with
      methods := hkept fun i own hown => by simpa using hmethods i own hown
      constructors := hrewritten ▸ List.prefix_rfl
      typeInitializer := fun own hown => by
        rw [hinitializer own hown, if_neg nofun]
        exact hown
      registered := fun _ => .inl }
  | typeInitializer =>
    exact { Appended.refl d with
      methods := hkept fun i own hown => by simpa using hmethods i own hown
      constructors := hkept fun i own hown => by simpa using hconstructors i own hown
      typeInitializer := fun own hown => by
        rw [hinitializer own hown, if_pos rfl]
        show d.typeInitializer.map change = _
        rw [hown, Option.map_some] }

end Descriptor

end TypeLoom
