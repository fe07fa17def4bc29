import TypeLoom.Proofs.Declaring
import TypeLoom.Proofs.Defining

/-!
# Portraits of types

What a descriptor becomes is told by its portrait: the record of its type without tokens, without
bodies, and without what other types add to it. Handles in it are replaced by what stands at their
places.
-/

namespace TypeLoom

/-! ### Tables -/

namespace Keyed

variable {κ ν : Type} [DecidableEq κ] {rows : Keyed κ ν} {has has' : κ →
  Prop} {image : κ → ν} {key : κ}

def Tabulates (rows : Keyed κ ν) (has : κ → Prop) (image : κ → ν) : Prop :=
  ∀ key value, rows.find? key = some value ↔ has key ∧ value = image key

theorem tabulates_nil (hnone : ∀ key, ¬ has key) : Tabulates ([] : Keyed κ ν) has image :=
  fun key _ => ⟨fun h => (by cases h), fun h => absurd h.1 (hnone key)⟩

theorem Tabulates.congr (h : rows.Tabulates has image) (hhas : ∀ key, has' key ↔ has key) :
    rows.Tabulates has' image :=
  fun key value => by rw [hhas, h key value]

theorem Tabulates.find? (h : rows.Tabulates has image) (hkey : has key) :
    rows.find? key = some (image key) :=
  (h key _).mpr ⟨hkey, rfl⟩

theorem Tabulates.isSome_iff (h : rows.Tabulates has image) :
    (rows.find? key).isSome ↔ has key := by
  rw [Option.isSome_iff_exists]
  exact ⟨fun ⟨value, hvalue⟩ => ((h key value).mp hvalue).1, fun hkey => ⟨_, h.find? hkey⟩⟩

theorem Tabulates.put (h : rows.Tabulates has image)
    (hhas : ∀ other, has' other ↔ other = key ∨ has other) :
    (rows.put key (image key)).Tabulates has' image := by
  intro other value
  rw [hhas]
  by_cases hother : other = key
  · subst hother
    rw [find?_put_self, Option.some.injEq]
    exact ⟨fun heq => ⟨.inl rfl, heq.symm⟩, fun heq => heq.2.symm⟩
  · rw [find?_put_of_ne _ _ _ _ (Ne.symm hother), h other value, or_iff_right hother]

end Keyed

namespace Emitted

variable {κ ν : Type} [DecidableEq κ] {rows : Keyed κ ν} {has : κ → Prop} {image : κ →
  ν} {key : κ} {kind : String}
  {text : κ → String}

theorem require_eq_ok {value : ν} : require kind text rows key = .ok value ↔
    rows.find? key = some value := by
  unfold require
  cases rows.find? key <;> simp

theorem addOnce_of_tabulates (h : rows.Tabulates has image) (hnew : ¬ has key) (value : ν) :
    addOnce kind text rows key value = .ok (rows.put key value) := by
  have hfree : rows.hasKey key = false := by
    rw [Keyed.hasKey, Bool.eq_false_iff]
    exact fun hsome => hnew (h.isSome_iff.mp hsome)
  rw [addOnce, hfree]
  rfl

end Emitted

/-! ### Places of members -/

namespace Layout

def placeField (l : Layout) (f : FieldHandle) : FieldId := ⟨l.place f.owner, f.index⟩

def placeMethod (l : Layout) (m : MethodHandle) : MethodId := ⟨l.place m.owner, m.slot⟩

def placeProperty (l : Layout) (p : PropertyHandle) : PropertyId := ⟨l.place p.owner, p.index⟩

def placeEvent (l : Layout) (v : EventHandle) : EventId := ⟨l.place v.owner, v.index⟩

variable (l : Layout)

theorem placeField_injective : Function.Injective l.placeField := by
  rintro ⟨owner, index⟩ ⟨owner', index'⟩ heq
  obtain ⟨howner, rfl⟩ := FieldId.mk.inj heq
  exact congrArg (FieldHandle.mk · index) (l.place_injective howner)

theorem placeMethod_injective : Function.Injective l.placeMethod := by
  rintro ⟨owner, slot⟩ ⟨owner', slot'⟩ heq
  obtain ⟨howner, rfl⟩ := MethodId.mk.inj heq
  exact congrArg (MethodHandle.mk · slot) (l.place_injective howner)

theorem placeProperty_injective : Function.Injective l.placeProperty := by
  rintro ⟨owner, index⟩ ⟨owner', index'⟩ heq
  obtain ⟨howner, rfl⟩ := PropertyId.mk.inj heq
  exact congrArg (PropertyHandle.mk · index) (l.place_injective howner)

theorem placeEvent_injective : Function.Injective l.placeEvent := by
  rintro ⟨owner, index⟩ ⟨owner', index'⟩ heq
  obtain ⟨howner, rfl⟩ := EventId.mk.inj heq
  exact congrArg (EventHandle.mk · index) (l.place_injective howner)

end Layout

/-! ### Records without what is not planned -/

def FieldRecord.portrait (r : FieldRecord) : FieldRecord := { r with token := ⟨0⟩ }

def MethodRecord.portrait (r : MethodRecord) : MethodRecord := { r with token := ⟨0⟩, body := none }

def PropertyRecord.portrait (r : PropertyRecord) : PropertyRecord := { r with token := ⟨0⟩ }

def EventRecord.portrait (r : EventRecord) : EventRecord := { r with token := ⟨0⟩ }

namespace TypeRecord

/-- The record without tokens, bodies, enclosed types and overrides. -/
def portrait (r : TypeRecord) : TypeRecord :=
  { r with
    token := ⟨0⟩
    fields := r.fields.map (·.portrait)
    constructors := r.constructors.map (·.portrait)
    methods := r.methods.map (·.portrait)
    ownInitializer := r.ownInitializer.map (·.portrait)
    properties := r.properties.map (·.portrait)
    events := r.events.map (·.portrait)
    nested := #[]
    overrides := #[] }

theorem method?_portrait (r : TypeRecord) (slot : Slot) :
    r.portrait.method? slot = (r.method? slot).map (·.portrait) := by
  cases slot <;> simp [portrait, method?]

end TypeRecord

/-! ### Portraits of descriptors -/

def DraftField.portrait (l : Layout) (f : DraftField) : FieldRecord :=
  { token := ⟨0⟩, name := f.name, signature := f.signature.placed l, flags := f.flags,
    attributes := f.attributes }

def DraftMethod.portrait (l : Layout) (kind : MethodKind) (m : DraftMethod) : MethodRecord :=
  { token := ⟨0⟩, name := m.name, kind, flags := m.flags, signature := m.signature.placed l,
    attributes := m.attributes }

def DraftProperty.portrait (l : Layout) (p : DraftProperty) : PropertyRecord :=
  { token := ⟨0⟩, name := p.name, signature := p.signature.placed l, flags := 0
    getter := p.getter.map l.placeMethod, setter := p.setter.map l.placeMethod }

def DraftEvent.portrait (l : Layout) (v : DraftEvent) : EventRecord :=
  { token := ⟨0⟩, name := v.name, type := v.type.placed l, flags := 0
    add := l.placeMethod v.add, remove := l.placeMethod v.remove, raise :=
    v.raise.map l.placeMethod }

namespace Descriptor

/-- The type has an initializer: one was added, or there is something for it to run. -/
def Initializes (d : Descriptor) : Prop :=
  d.typeInitializer.isSome ∨ d.typeInitializations.isEmpty = false

instance (d : Descriptor) : Decidable d.Initializes := by
  unfold Initializes
  infer_instance

def plainInitializer : MethodRecord :=
  { token := ⟨0⟩, name := ".cctor", kind := .typeInitializer, signature := {}
    flags := MethodFlags.isPrivate ||| MethodFlags.static ||| MethodFlags.hideBySig
    ||| specialFlags }

def initializerPortrait (l : Layout) (d : Descriptor) : Option MethodRecord :=
  if d.Initializes then some ((d.typeInitializer.map (·.portrait l .typeInitializer)).getD
    plainInitializer) else none

def blankPortrait (l : Layout) (flags : UInt32) (d : Descriptor) : TypeRecord :=
  { token := ⟨0⟩, space := if d.declaring.isSome then "" else d.space, name := d.name, flags,
    origin := .generated
    declaring := d.declaring.map l.place }

def framePortrait (l : Layout) (objectType : TypeId) (flags : UInt32) (d : Descriptor) :
    TypeRecord :=
  { d.blankPortrait l flags with
    base := d.emittedBase l objectType
    interfaces := (d.emittedInterfaces l).toArray
    attributes := d.attributes }

/-- The type with its fields and with methods of all kinds. -/
def corePortrait (l : Layout) (objectType : TypeId) (flags : UInt32) (d : Descriptor) :
    TypeRecord :=
  { d.framePortrait l objectType flags with
    fields := d.fields.map (·.portrait l)
    constructors := d.constructors.map (·.portrait l .constructor)
    methods := d.methods.map (·.portrait l .method)
    ownInitializer := d.initializerPortrait l
    initializer := if d.Initializes then some ⟨l.place d.handle, .typeInitializer⟩ else none }

def portrait (l : Layout) (objectType : TypeId) (flags : UInt32) (d : Descriptor) : TypeRecord :=
  { d.corePortrait l objectType flags with
    properties := d.properties.map (·.portrait l)
    events := d.events.map (·.portrait l) }

end Descriptor

/-! ### Lowering -/

/-- The types that the signature names are among those that are made. -/
def Signature.Within (made : List TypeHandle) (s : Signature) : Prop := ∀ h, s = .draft h → h ∈ made

def MethodSignature.Within (made : List TypeHandle) (s : MethodSignature) : Prop :=
  s.returns.Within made ∧ ∀ type ∈ s.types, type.Within made

def Signature.Names (u : Universe) (made : List TypeHandle) : Signature → Prop
  | .draft h => h ∈ made
  | .ofClass t => u.isPresent t
  | _ => False

/-- A loop of steps that succeed under a condition, each with a known result. -/
theorem mapM_eq_ok_iff {α β : Type} {f : β → Except Fault α} {P : β → Prop} {g : β → α}
    {items : List β} {vs : List α} (h : ∀ item v, f item = .ok v ↔ P item ∧ v = g item) :
    items.mapM f = .ok vs ↔ (∀ item ∈ items, P item) ∧ vs = items.map g := by
  induction items generalizing vs with
  | nil =>
    exact ⟨fun heq => ⟨fun _ hnone => absurd hnone List.not_mem_nil, (Except.ok.inj heq).symm⟩,
      fun heq => by rw [heq.2]; rfl⟩
  | cons item items ih =>
    rw [mapM_cons_eq_ok, List.forall_mem_cons, List.map_cons]
    constructor
    · rintro ⟨v, rest, hv, hrest, rfl⟩
      obtain ⟨hitem, rfl⟩ := (h item v).mp hv
      obtain ⟨hitems, rfl⟩ := ih.mp hrest
      exact ⟨⟨hitem, hitems⟩, rfl⟩
    · rintro ⟨⟨hitem, hitems⟩, rfl⟩
      exact ⟨_, _, (h item _).mpr ⟨hitem, rfl⟩, ih.mpr ⟨hitems, rfl⟩, rfl⟩

namespace Emitted

variable {l : Layout} {made : List TypeHandle} {e : Emitted}

section Types

variable (he : e.types.Tabulates (· ∈ made) l.place)
include he

theorem type_eq_ok {h : TypeHandle} {t : TypeId} : e.type h = .ok t ↔ h ∈ made ∧ t = l.place h := by
  rw [Emitted.type, require_eq_ok, he h t]

theorem signature_eq_ok {s s' : Signature} : Lower.signature e s = .ok s' ↔ s.Within made
    ∧ s' = s.placed l := by
  have hother : ∀ s : Signature, s.placed l = s → (∀ h, s ≠ .draft h) →
    (Except.ok s = (.ok s' : Except Fault Signature)
      ↔ s.Within made ∧ s' = s.placed l) := by
    intro s hplaced hne
    rw [Except.ok.injEq, hplaced]
    exact ⟨fun heq => ⟨fun h hs => absurd hs (hne h), heq.symm⟩, fun heq => heq.2.symm⟩
  cases s with
  | draft h =>
    have hwithin : (Signature.draft h).Within made ↔ h ∈ made :=
      ⟨fun hall => hall h rfl, fun hmem _ heq => Signature.draft.inj heq ▸ hmem⟩
    rw [hwithin, Lower.signature, Signature.placed]
    cases ht : e.type h with
    | error f =>
      refine ⟨fun heq => (by cases heq), fun heq => ?_⟩
      have hok := (type_eq_ok he).mpr ⟨heq.1, rfl⟩
      rw [ht] at hok
      cases hok
    | ok t =>
      obtain ⟨hmem, rfl⟩ := (type_eq_ok he).mp ht
      exact ⟨fun heq => ⟨hmem, (Except.ok.inj heq).symm⟩, fun heq => by rw [heq.2]; rfl⟩
  | _ => exact hother _ rfl fun _ heq => (by cases heq)

theorem methodSignature_eq_ok {s s' : MethodSignature} :
    Lower.methodSignature e s = .ok s' ↔ s.Within made ∧ s' = s.placed l := by
  have hparameter : ∀ p v, Lower.parameter e p = .ok v ↔ p.type.Within made
      ∧ v = ⟨p.name, p.type.placed l⟩ := by
    intro p v
    rw [Lower.parameter, bind_eq_ok]
    constructor
    · rintro ⟨type, htype, hv⟩
      obtain ⟨hwithin, rfl⟩ := (signature_eq_ok he).mp htype
      exact ⟨hwithin, (Except.ok.inj hv).symm⟩
    · rintro ⟨hwithin, rfl⟩
      exact ⟨_, (signature_eq_ok he).mpr ⟨hwithin, rfl⟩, rfl⟩
  have hwithin : s.Within made ↔ s.returns.Within made ∧ ∀ p ∈ s.parameters,
      p.type.Within made := by
    rw [MethodSignature.Within, MethodSignature.types]
    simp
  rw [hwithin, Lower.methodSignature, bind_eq_ok]
  constructor
  · rintro ⟨parameters, hparameters, hrest⟩
    obtain ⟨returns, hreturns, hs⟩ := bind_eq_ok.mp hrest
    obtain ⟨hall, rfl⟩ := (mapM_eq_ok_iff hparameter).mp hparameters
    obtain ⟨hreturn, rfl⟩ := (signature_eq_ok he).mp hreturns
    exact ⟨⟨hreturn, hall⟩, (Except.ok.inj hs).symm⟩
  · rintro ⟨⟨hreturn, hall⟩, rfl⟩
    exact ⟨_, (mapM_eq_ok_iff hparameter).mpr ⟨hall, rfl⟩,
      bind_eq_ok.mpr ⟨_, (signature_eq_ok he).mpr ⟨hreturn, rfl⟩, rfl⟩⟩

theorem namedType_eq_ok {u : Universe} {s : Signature} {t : TypeId} :
    Lower.namedType u e s = .ok t ↔ s.Names u made ∧ s.placed l = .ofClass t := by
  cases s with
  | draft h =>
    rw [Lower.namedType, type_eq_ok he, Signature.placed, Signature.ofClass.injEq, eq_comm (a := t)]
    rfl
  | ofClass t' =>
    simp only [Lower.namedType, Signature.placed, Signature.ofClass.injEq]
    by_cases hpresent : u.isPresent t'
    · rw [if_pos hpresent, Except.ok.injEq]
      exact ⟨fun heq => ⟨hpresent, heq⟩, fun heq => heq.2⟩
    · rw [if_neg hpresent]
      exact ⟨fun heq => (by cases heq), fun heq => absurd heq.1 hpresent⟩
  | _ => exact ⟨fun heq => (by cases heq), fun heq => heq.1.elim⟩

end Types

end Emitted

end TypeLoom
