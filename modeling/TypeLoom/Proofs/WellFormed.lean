import Mathlib.Data.List.Nodup
import TypeLoom.Proofs.Wholeness

/-!
# Well-formed descriptors

Members stand at the places that their handles say, names and interfaces do not repeat, a method is
abstract just when it has no body, and accessors are methods of the same descriptor with the
signatures that they need. Every operation keeps this, the ones that pass by the usual checks
included: overrides, implementations, the constructors of a proxy, and new bodies.
-/

namespace TypeLoom

open Attempt

variable {u : Universe}

theorem forall_getElem?_push {α : Type} {P : Nat → α → Prop} {items : Array α} {item : α}
    (h : ∀ (i : Nat) x, items[i]? = some x → P i x) (hitem : P items.size item) :
    ∀ (i : Nat) x, (items.push item)[i]? = some x → P i x := by
  intro i x hx
  rw [Array.getElem?_push] at hx
  split at hx
  · rename_i hi
    cases hx
    rwa [hi]
  · exact h i x hx

theorem forall_getElem?_modify {α : Type} {P : Nat → α → Prop} {items : Array α}
    {change : α → α} (index : Nat) (h : ∀ (i : Nat) x, items[i]? = some x → P i x)
    (hchange : ∀ i x, P i x → P i (change x)) :
    ∀ (i : Nat) x, (items.modify index change)[i]? = some x → P i x := by
  intro i x hx
  rw [Array.getElem?_modify] at hx
  split at hx
  · obtain ⟨y, hy, rfl⟩ := Option.map_eq_some_iff.mp hx
    exact hchange i y (h i y hy)
  · exact h i x hx

theorem forall_getElem?_set {α : Type} {P : Nat → α → Prop} {items : Array α}
    {item : α} (index : Nat) (h : ∀ (i : Nat) x, items[i]? = some x → P i x)
    (hitem : P index item) :
    ∀ (i : Nat) x, (items.setIfInBounds index item)[i]? = some x → P i x := by
  intro i x hx
  rw [Array.getElem?_setIfInBounds] at hx
  split at hx
  · rename_i hi
    split at hx
    · cases hx
      rwa [← hi]
    · cases hx
  · exact h i x hx

theorem nodup_push {α β : Type} {nameOf : α → β} {items : Array α} {item : α}
    (h : (items.toList.map nameOf).Nodup) (hnew : ∀ other ∈ items, nameOf other ≠ nameOf item) :
    ((items.push item).toList.map nameOf).Nodup := by
  rw [Array.toList_push, List.map_append, List.nodup_append]
  refine ⟨h, List.nodup_singleton _, fun name hname other hother heq => ?_⟩
  obtain ⟨old, hold, rfl⟩ := List.mem_map.mp hname
  rw [List.map_singleton, List.mem_singleton] at hother
  exact hnew old (Array.mem_toList_iff.mp hold) (heq.trans hother)

/-! ### Methods -/

namespace DraftMethod

/-- What holds of a regular method of a class or of an interface. -/
structure WellFormed (ofInterface : Bool) (m : DraftMethod) : Prop where
  bodiless : m.isAbstract = m.body.isNone
  abstract : m.isAbstract = true → m.isVirtual = true
  static : m.isStatic = true → m.isVirtual = false
  interface : ofInterface = true → m.isStatic = false → m.isAbstract = true

/-- What holds of constructors and type initializers: they have a body and are marked as what
they are. -/
structure Special (name : String) (m : DraftMethod) : Prop where
  name : m.name = name
  body : m.body.isSome = true
  concrete : m.isAbstract = false
  marked : m.flags ||| Descriptor.specialFlags = m.flags

/-- What holds of type initializers: no two differ in more than their bodies and attributes. -/
structure Initializer (m : DraftMethod) : Prop where
  special : m.Special ".cctor"
  flags : m.flags = MethodFlags.isPrivate ||| MethodFlags.static ||| MethodFlags.hideBySig |||
    Descriptor.specialFlags
  signature : m.signature = {}

variable {m : DraftMethod} {name : String} {ofInterface : Bool}

theorem abstract_cleared (m : DraftMethod) (body : Expr) :
    isAbstract { m with flags := m.flags &&& ~~~MethodFlags.abstract, body := some body }
    = false := by
  rw [isAbstract, hasBits, UInt32.and_assoc, show ~~~MethodFlags.abstract &&& MethodFlags.abstract
    = 0 from rfl,
    UInt32.and_zero]
  rfl

theorem WellFormed.setBody (h : m.WellFormed ofInterface)
    (hstatic : ofInterface = true → m.isStatic = true) (body : Expr) :
    WellFormed ofInterface
    { m with flags := m.flags &&& ~~~MethodFlags.abstract, body := some body } := by
  have hrevised := Descriptor.revised_body m body
  refine ⟨m.abstract_cleared body, fun habstract => ?_, fun hs => ?_, fun hi hs => ?_⟩
  · rw [m.abstract_cleared body] at habstract
    cases habstract
  · rw [hrevised.isVirtual]
    exact h.static (hrevised.isStatic ▸ hs)
  · rw [hrevised.isStatic, hstatic hi] at hs
    cases hs

theorem Special.setBody (h : m.Special name) (body : Expr) :
    Special name { m with flags := m.flags &&& ~~~MethodFlags.abstract, body := some body } where
  name := h.name
  body := rfl
  concrete := m.abstract_cleared body
  marked := by
    have hdistrib : (m.flags ||| Descriptor.specialFlags) &&& ~~~MethodFlags.abstract
        = (m.flags &&& ~~~MethodFlags.abstract) |||
        (Descriptor.specialFlags &&& ~~~MethodFlags.abstract) :=
      UInt32.toBitVec_inj.mp (by simp [BitVec.and_or_distrib_right])
    rw [h.marked, show Descriptor.specialFlags &&& ~~~MethodFlags.abstract
      = Descriptor.specialFlags from rfl] at hdistrib
    exact hdistrib.symm

theorem Initializer.setBody (h : m.Initializer) (body : Expr) :
    Initializer { m with flags := m.flags &&& ~~~MethodFlags.abstract, body := some body } where
  special := h.special.setBody body
  flags := by
    rw [h.flags]
    rfl
  signature := h.signature

theorem wellFormed_of_checkMethod {d : Descriptor} {handle : MethodHandle} {flags : UInt32}
    {signature : MethodSignature} {body : Option Expr} {explicitOverrides : Array MethodId}
    (h : d.checkMethod name flags signature body.isSome = .ok ()) :
    WellFormed d.isInterface
        { handle, name, kind := .method, flags, signature, body, explicitOverrides } := by
  simp only [Descriptor.checkMethod, guard_bind_eq_ok, guard_eq_ok] at h
  obtain ⟨-, hvirtual, hnone, hsome, hstatic, hinterface, -⟩ := h
  simp only [Bool.and_eq_true, Bool.not_eq_true', not_and, Bool.not_eq_true,
    Bool.not_eq_false] at hvirtual hnone hsome hstatic hinterface
  refine ⟨?_, hvirtual, hstatic, fun hi hs => hinterface ⟨hi, hs⟩⟩
  show hasBits flags MethodFlags.abstract = body.isNone
  cases habstract : hasBits flags MethodFlags.abstract with
  | true => rw [← Option.not_isSome, hnone habstract, Bool.not_false]
  | false => rw [← Option.not_isSome, hsome habstract, Bool.not_true]

theorem flags_newOverride (handle : MethodHandle) (declared implementation : MethodId)
    (access : Access) :
    let made := Descriptor.newOverride u handle declared implementation access
    made.isAbstract = (u.method implementation).isAbstract ∧ made.isVirtual = true
        ∧ made.isStatic = false := by
  have hflags : ∀ (isAbstract : Bool) (access : Access),
      let flags := withAccess (MethodFlags.virtual ||| MethodFlags.hideBySig) access
      let made := if isAbstract then flags ||| MethodFlags.abstract else flags
      hasBits made MethodFlags.abstract = isAbstract ∧ hasBits made MethodFlags.virtual = true
        ∧ hasBits made MethodFlags.static = false := by
    intro isAbstract access
    cases isAbstract <;> cases access <;> decide
  exact hflags (u.method implementation).isAbstract access

theorem wellFormed_newOverride (handle : MethodHandle) (declared implementation : MethodId)
    (access : Access) :
    WellFormed false (Descriptor.newOverride u handle declared implementation access) := by
  obtain ⟨habstract, hvirtual, hstatic⟩ :=
    flags_newOverride (u := u) handle declared implementation access
  refine ⟨?_, fun _ => hvirtual, fun hs => ?_, nofun⟩
  · rw [habstract]
    cases hr : (u.method implementation).isAbstract <;> simp [Descriptor.newOverride, hr]
  · rw [hstatic] at hs
    cases hs

end DraftMethod

/-! ### Descriptors -/

namespace Descriptor

/-- A descriptor at the place of a handle. -/
structure WellFormed (h : TypeHandle) (d : Descriptor) : Prop where
  handle : d.handle = h
  fields : ∀ (i : Nat) f, d.fields[i]? = some f → f.handle = ⟨h, i⟩
    ∧ (d.isInterface = true → f.isStatic = true)
  constructors : ∀ (i : Nat) c, d.constructors[i]? = some c → c.handle = ⟨h, .constructor i⟩
    ∧ c.Special ".ctor"
  initializer : ∀ m, d.typeInitializer = some m → m.handle = ⟨h, .typeInitializer⟩ ∧ m.Initializer
  methods : ∀ (i : Nat) m, d.methods[i]? = some m → m.handle = ⟨h, .method i⟩
    ∧ m.WellFormed d.isInterface
  properties : ∀ (i : Nat) p, d.properties[i]? = some p → p.handle = ⟨h, i⟩
    ∧ d.Serves p.signature p.getter p.setter
  events : ∀ (i : Nat) v, d.events[i]? = some v → v.handle = ⟨h, i⟩
    ∧ d.ServesEvent v.type v.add v.remove v.raise
  fieldNames : (d.fields.toList.map (·.name)).Nodup
  propertyNames : (d.properties.toList.map (·.name)).Nodup
  eventNames : (d.events.toList.map (·.name)).Nodup
  noConstructors : d.isInterface = true → d.constructors = #[]
  rootless : d.isInterface = true → d.base = none

variable {h : TypeHandle} {d d' : Descriptor}

/-- A descriptor without members, apart from the constructors of a class. -/
theorem wellFormed_blank (hhandle : d.handle = h) (hfields : d.fields = #[])
    (hmethods : d.methods = #[]) (hproperties : d.properties = #[]) (hevents : d.events = #[])
    (hinitializer : d.typeInitializer = none) (hconstructors : ∀ (i : Nat) c, d.constructors[i]?
      = some c → c.handle = ⟨h, .constructor i⟩ ∧ c.Special ".ctor")
    (hclass : d.isInterface = true → d.constructors = #[] ∧ d.base = none) : d.WellFormed h where
  handle := hhandle
  fields := by simp [hfields]
  constructors := hconstructors
  initializer := by simp [hinitializer]
  methods := by simp [hmethods]
  properties := by simp [hproperties]
  events := by simp [hevents]
  fieldNames := by simp [hfields]
  propertyNames := by simp [hproperties]
  eventNames := by simp [hevents]
  noConstructors := fun hi => (hclass hi).1
  rootless := fun hi => (hclass hi).2

/-! ### Accessors stay accessors -/

section Accessors

variable (hhandle : d'.handle = d.handle)
  (hmethods : ∀ (i : Nat) m, d.methods[i]? = some m → ∃ m', d'.methods[i]? = some m' ∧ m.Revised m')
include hhandle hmethods

theorem IsAccessor.keep {handle : MethodHandle} {isStatic : Bool} {kind : MethodSignature → Prop}
    (ha : d.IsAccessor handle isStatic kind) : d'.IsAccessor handle isStatic kind := by
  obtain ⟨i, m, rfl, hm, hstatic, hkind⟩ := ha
  obtain ⟨m', hm', hrevised⟩ := hmethods i m hm
  refine ⟨i, m', by rw [hhandle], hm', hrevised.isStatic.trans hstatic, ?_⟩
  rw [hrevised.signature]
  exact hkind

theorem Serves.keep {signature : Signature} {getter setter : Option MethodHandle}
    (hs : d.Serves signature getter setter) : d'.Serves signature getter setter := by
  obtain ⟨isStatic, hgetter, hsetter⟩ := hs
  exact ⟨isStatic, fun handle hh => (hgetter handle hh).keep hhandle hmethods,
    fun handle hh => (hsetter handle hh).keep hhandle hmethods⟩

theorem ServesEvent.keep {type : Signature} {add remove : MethodHandle}
    {raise : Option MethodHandle} (hs : d.ServesEvent type add remove raise) :
    d'.ServesEvent type add remove raise := by
  obtain ⟨isStatic, hadd, hremove, hraise⟩ := hs
  exact ⟨isStatic, hadd.keep hhandle hmethods, hremove.keep hhandle hmethods,
    fun handle hh => (hraise handle hh).keep hhandle hmethods⟩

end Accessors

theorem WellFormed.addMethod (hd : d.WellFormed h) {m : DraftMethod}
    (hhandle : m.handle = ⟨h, .method d.methods.size⟩) (hm : m.WellFormed d.isInterface)
    (overrides implementations : Keyed Token MethodHandle) :
    WellFormed h (touch { d with methods := d.methods.push m, overrides, implementations }) := by
  let d' := touch { d with methods := d.methods.push m, overrides, implementations }
  have hmethods : ∀ (i : Nat) own, d.methods[i]? = some own → ∃ own', d'.methods[i]? = some own'
    ∧ own.Revised own' :=
    fun i own hown => getElem?_push_exists m hown
  have hsame : d'.handle = d.handle := rfl
  exact { hd with
    methods := forall_getElem?_push hd.methods ⟨hhandle, hm⟩
    properties := fun i p hp =>
      ⟨(hd.properties i p hp).1, (hd.properties i p hp).2.keep hsame hmethods⟩
    events := fun i v hv => ⟨(hd.events i v hv).1, (hd.events i v hv).2.keep hsame hmethods⟩ }

theorem WellFormed.modifyMethod (hd : d.WellFormed h) (slot : Slot)
    {change : DraftMethod → DraftMethod} (hrevised : ∀ m : DraftMethod, m.Revised (change m))
    (hmethod : ∀ i m, slot = .method i → d.methods[i]? = some m →
      (change m).WellFormed d.isInterface)
    (hspecial : ∀ m : DraftMethod, m.Special ".ctor" → (change m).Special ".ctor")
    (hinitializer : ∀ m : DraftMethod, m.Initializer → (change m).Initializer) :
    (d.modifyMethod slot change).touch.WellFormed h := by
  cases slot with
  | method index =>
    let d' := (d.modifyMethod (.method index) change).touch
    have hmethods : ∀ (i : Nat) own, d.methods[i]? = some own → ∃ own', d'.methods[i]? = some own'
      ∧ own.Revised own' :=
      fun i own hown => getElem?_modify_exists hrevised hown
    have hsame : d'.handle = d.handle := rfl
    exact { hd with
      methods := fun i m hm => by
        change (d.methods.modify index change)[i]? = some m at hm
        rw [Array.getElem?_modify] at hm
        split at hm
        · rename_i hi
          obtain ⟨old, hold, rfl⟩ := Option.map_eq_some_iff.mp hm
          exact ⟨(hrevised old).handle.trans (hd.methods i old hold).1,
            hmethod i old (by rw [hi]) hold⟩
        · exact hd.methods i m hm
      properties := fun i p hp =>
        ⟨(hd.properties i p hp).1, (hd.properties i p hp).2.keep hsame hmethods⟩
      events := fun i v hv => ⟨(hd.events i v hv).1, (hd.events i v hv).2.keep hsame hmethods⟩ }
  | constructor index =>
    exact { hd with
      constructors := forall_getElem?_modify index hd.constructors fun i c hc =>
        ⟨(hrevised c).handle.trans hc.1, hspecial c hc.2⟩
      noConstructors := fun hi => by
        show d.constructors.modify index change = #[]
        rw [hd.noConstructors hi]
        rfl }
  | typeInitializer =>
    exact { hd with
      initializer := fun m hm => by
        obtain ⟨old, hold, rfl⟩ := Option.map_eq_some_iff.mp hm
        obtain ⟨hhandle, hold⟩ := hd.initializer old hold
        exact ⟨(hrevised old).handle.trans hhandle, hinitializer old hold⟩ }

/-! ### Operations -/

theorem wellFormed_addField (name : String) (signature : Signature) (flags : UInt32) :
    Maintains (WellFormed h) (addField name signature flags) := by
  refine fun d hd => wp_addField (fun _ htakes => ?_) fun _ => hd
  exact { hd with
    fields := forall_getElem?_push hd.fields ⟨by rw [hd.handle], htakes.static⟩
    fieldNames := nodup_push hd.fieldNames htakes.free }

/-- Flags that were checked to be those of a constructor are not abstract when the marks are
added. -/
theorem abstract_of_meetsBits {flags : UInt32}
    (hmeets : meetsBits flags (MethodFlags.virtual ||| MethodFlags.abstract) = false) :
    hasBits (flags ||| specialFlags) MethodFlags.abstract = false := by
  have hzero : flags &&& (MethodFlags.virtual ||| MethodFlags.abstract) = 0 := by
    simpa [meetsBits] using hmeets
  rw [hasBits_set _ _ _ (by decide), hasBits]
  rw [show MethodFlags.abstract = (MethodFlags.virtual ||| MethodFlags.abstract) &&&
    MethodFlags.abstract from rfl,
    ← UInt32.and_assoc, hzero]
  rfl

theorem wellFormed_addConstructor (flags : UInt32) (parameters : List Parameter) (body : Expr) :
    Maintains (WellFormed h) (addConstructor flags parameters body) := by
  refine fun d hd => wp_addConstructor (fun _ _ hmeets hclass _ => ?_) hd
  exact { hd with
    constructors := forall_getElem?_push hd.constructors
      ⟨by rw [nextConstructor, hd.handle], rfl, rfl, abstract_of_meetsBits hmeets,
        by rw [UInt32.or_assoc, UInt32.or_self]⟩
    noConstructors := fun hi => by
      rw [show d.isInterface = true from hi] at hclass
      cases hclass }

theorem wellFormed_addTypeInitializer (body : Expr) : Maintains (WellFormed h)
    (addTypeInitializer body) := by
  refine fun d hd => wp_addTypeInitializer (fun _ _ => ?_) hd
  exact { hd with
    initializer := fun m hm => by
      cases hm
      have hflags : let flags :=
        MethodFlags.isPrivate ||| MethodFlags.static ||| MethodFlags.hideBySig ||| specialFlags
          hasBits flags MethodFlags.abstract = false ∧ flags ||| specialFlags = flags := by decide
      exact ⟨by rw [hd.handle], ⟨rfl, rfl, hflags.1, hflags.2⟩, rfl, rfl⟩ }

theorem wellFormed_addTypeInitialization (e : Expr) : Maintains (WellFormed h)
    (addTypeInitialization e) :=
  fun _ hd => wp_addTypeInitialization (fun _ => { hd with }) hd

theorem wellFormed_addInitialization (e : Expr) : Maintains (WellFormed h) (addInitialization e) :=
  fun _ hd => wp_addInitialization (fun _ _ => { hd with }) hd

theorem wellFormed_addMethod (name : String) (flags : UInt32) (signature : MethodSignature)
    (body : Option Expr) :
    Maintains (WellFormed h) (addMethod name flags signature body) := by
  refine fun d hd => wp_addMethod (fun _ check => ?_) fun _ => hd
  exact hd.addMethod (by rw [nextMethod, hd.handle]) (DraftMethod.wellFormed_of_checkMethod check) _
    _

theorem wellFormed_setMethodBody (handle : MethodHandle) (body : Expr) :
    Maintains (WellFormed h) (setMethodBody handle body) := by
  refine fun d hd => wp_setMethodBody (fun _ m hm hstatic => ?_) hd
  refine hd.modifyMethod handle.slot (fun m => revised_body m body) (fun i own hslot hown => ?_)
    (fun m hm => hm.setBody body) fun m hm => hm.setBody body
  obtain rfl : own = m := by
    unfold method? at hm
    split at hm
    · rw [hslot] at hm
      exact Option.some.inj (hown.symm.trans hm)
    · cases hm
  exact (hd.methods i own hown).2.setBody hstatic body

theorem wellFormed_addMethodAttribute (handle : MethodHandle) (a : Attribute) :
    Maintains (WellFormed h) (addMethodAttribute handle a) := by
  refine fun d hd => wp_addMethodAttribute (fun _ _ => ?_) hd
  refine hd.modifyMethod handle.slot (fun m => revised_attributes m _) (fun i own _ hown => ?_)
    (fun m hm => ?_) fun m hm => ?_
  · have hown := (hd.methods i own hown).2
    exact ⟨hown.bodiless, hown.abstract, hown.static, hown.interface⟩
  · exact ⟨hm.name, hm.body, hm.concrete, hm.marked⟩
  · exact ⟨⟨hm.special.name, hm.special.body, hm.special.concrete, hm.special.marked⟩,
      hm.flags, hm.signature⟩

theorem wellFormed_addProperty (name : String) (signature : Signature)
    (getter setter : Option MethodHandle) :
    Maintains (WellFormed h) (addProperty u name signature getter setter) := by
  refine fun d hd => wp_addProperty (fun _ _ hfree hserves => ?_) fun _ => hd
  exact { hd with
    properties := forall_getElem?_push hd.properties ⟨by rw [hd.handle], hserves⟩
    propertyNames := nodup_push hd.propertyNames hfree }

theorem wellFormed_addPropertyAccessors (name : String) (signature : Signature) (access : Access)
    (getterBody setterBody : Option Expr) :
    Maintains (WellFormed h) (addPropertyAccessors u name signature access getterBody
        setterBody) := by
  refine fun d hd => wp_addPropertyAccessors (fun _ _ => ?_) fun _ => hd
  refine maintains_bind (maintains_option getterBody fun body => wellFormed_addMethod _ _ _ _)
    (fun getter => ?_) d hd
  exact maintains_bind (maintains_option setterBody fun body =>
      wellFormed_addMethod _ _ _ _) fun setter =>
    wellFormed_addProperty _ _ _ _

theorem wellFormed_addAutoProperty (name : String) (signature : Signature) (access : Access) :
    Maintains (WellFormed h) (addAutoProperty u name signature access) :=
  maintains_bind (wellFormed_addField _ _ _) fun _ => wellFormed_addPropertyAccessors _ _ _ _ _

theorem wellFormed_addEvent (name : String) (type : Signature) (add remove : MethodHandle)
    (raise : Option MethodHandle) :
    Maintains (WellFormed h) (addEvent u name type add remove raise) := by
  refine fun d hd => wp_addEvent (fun _ _ hfree hserves => ?_) hd
  exact { hd with
    events := forall_getElem?_push hd.events ⟨by rw [hd.handle], hserves⟩
    eventNames := nodup_push hd.eventNames hfree }

theorem wellFormed_addInterface (interface : TypeId) (allow : Bool) : Maintains (WellFormed h)
    (addInterface u interface allow) :=
  fun _ hd => wp_addInterface (fun _ _ _ => { hd with }) hd hd

theorem wellFormed_addDraftInterface (interface : TypeHandle) : Maintains (WellFormed h)
    (addDraftInterface interface) :=
  fun _ hd => wp_addDraftInterface (fun _ _ => { hd with }) hd

theorem wellFormed_addAttribute (a : Attribute) : Maintains (WellFormed h) (addAttribute a) :=
  fun _ hd => wp_addAttribute (fun _ => { hd with }) hd

theorem wellFormed_addFieldAttribute (handle : FieldHandle) (a : Attribute) :
    Maintains (WellFormed h) (addFieldAttribute handle a) := by
  refine fun d hd => wp_addFieldAttribute (fun _ _ _ => ?_) hd
  let change (f : DraftField) : DraftField := { f with attributes := f.attributes.push a }
  have hnames : (d.fields.modify handle.index change).toList.map (·.name)
      = d.fields.toList.map (·.name) := by
    apply List.ext_getElem?
    intro i
    simp only [List.getElem?_map, Array.getElem?_toList, Array.getElem?_modify]
    split
    · rw [Option.map_map]
      rfl
    · rfl
  exact { hd with
    fields := forall_getElem?_modify handle.index hd.fields fun _ _ hf => hf
    fieldNames := hnames ▸ hd.fieldNames }

theorem wellFormed_getOrAddOverride (m : MethodId) : Maintains (WellFormed h)
    (getOrAddOverride u m) := by
  refine fun d hd => wp_getOrAddOverride (fun _ _ _ _ => hd) (fun _ _ _ _ _ => { hd with })
    (fun base access check _ _ _ => ?_) hd
  have hclass : d.isInterface = false := by
    rw [Bool.eq_false_iff]
    intro hi
    have hbase := (baseType?_eq_some (checkOverride_ok check).isBase).1
    rw [hd.rootless hi] at hbase
    cases hbase
  refine hd.addMethod (by rw [← hd.handle]; rfl) ?_ _ _
  rw [hclass]
  exact DraftMethod.wellFormed_newOverride _ _ _ _

theorem wellFormed_getOrAddImplementation (m : MethodId) : Maintains (WellFormed h)
    (getOrAddImplementation u m) := by
  refine fun d hd => wp_getOrAddImplementation (fun _ _ _ => hd) (fun _ _ _ _ => { hd with })
    (fun inherited _ _ _ _ _ => ?_) (fun _ _ _ check => ?_) hd
  · exact wp_mono (wellFormed_getOrAddOverride inherited d hd) (fun _ _ hd' =>
      { hd' with }) fun _ h => h
  · exact hd.addMethod (by rw [nextMethod, hd.handle]) (DraftMethod.wellFormed_of_checkMethod check)
      _ _

theorem wellFormed_operation {α : Type} {act : Attempt Descriptor α} (operation : Operation u act) :
    Maintains (WellFormed h) act := by
  cases operation with
  | addition addition =>
    cases addition with
    | addField name signature flags => exact wellFormed_addField name signature flags
    | addConstructor flags parameters body => exact wellFormed_addConstructor flags parameters body
    | addTypeInitializer body => exact wellFormed_addTypeInitializer body
    | addTypeInitialization e => exact wellFormed_addTypeInitialization e
    | addInitialization e => exact wellFormed_addInitialization e
    | addMethod name flags signature body => exact wellFormed_addMethod name flags signature body
    | setMethodBody handle body => exact wellFormed_setMethodBody handle body
    | addProperty name signature getter setter =>
      exact wellFormed_addProperty name signature getter setter
    | addPropertyAccessors name signature access getterBody setterBody =>
      exact wellFormed_addPropertyAccessors name signature access getterBody setterBody
    | addAutoProperty name signature access =>
      exact wellFormed_addAutoProperty name signature access
    | addEvent name type add remove raise => exact wellFormed_addEvent name type add remove raise
    | addInterface interface allow => exact wellFormed_addInterface interface allow
    | addAttribute a => exact wellFormed_addAttribute a
    | addMethodAttribute handle a => exact wellFormed_addMethodAttribute handle a
    | addFieldAttribute handle a => exact wellFormed_addFieldAttribute handle a
  | getOrAddOverride m => exact wellFormed_getOrAddOverride m
  | getOrAddImplementation m => exact wellFormed_getOrAddImplementation m

end Descriptor

end TypeLoom
