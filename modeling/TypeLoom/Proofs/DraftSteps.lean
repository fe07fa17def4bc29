import Mathlib.Logic.Relation
import TypeLoom.Proofs.Chains
import TypeLoom.Proofs.Operations

/-!
# Steps of descriptors

All that an operation can do to the methods, the overrides and the implementations of a descriptor,
said once with the checks that stand before it. Every operation is a run of such steps, whether it
succeeds or fails half way.
-/

namespace TypeLoom

/-- Types that the signature mentions are below a size; descriptors may be mentioned. -/
def Signature.Known (size : Nat) : Signature → Prop
  | .ofClass t => t.index < size
  | _ => True

def MethodSignature.Known (size : Nat) (s : MethodSignature) : Prop :=
  s.returns.Known size ∧ ∀ t ∈ s.types, t.Known size

instance (size : Nat) (s : Signature) : Decidable (s.Known size) :=
  decidable_of_iff (∀ t ∈ s.class?, t.index < size) (by cases s
    <;> simp [Signature.class?, Signature.Known])

instance (size : Nat) (s : MethodSignature) : Decidable (s.Known size) :=
  inferInstanceAs (Decidable (_ ∧ _))

theorem Signature.Known.mono {size size' : Nat} {s : Signature} (h : s.Known size)
    (hle : size ≤ size') :
    s.Known size' := by
  cases s with
  | ofClass t => exact Nat.lt_of_lt_of_le h hle
  | _ => trivial

theorem MethodSignature.Known.mono {size size' : Nat} {s : MethodSignature} (h : s.Known size)
    (hle : size ≤ size') : s.Known size' := ⟨h.1.mono hle, fun t ht => (h.2 t ht).mono hle⟩

theorem Signature.Settled.known {size : Nat} {s : Signature} (h : s.Settled size) :
    s.Known size := by
  cases s <;> first | exact h | trivial

theorem MethodSignature.Settled.known {size : Nat} {s : MethodSignature} (h : s.Settled size) :
    s.Known size := ⟨h.1.known, fun t ht => (h.2 t ht).known⟩

/-- Only body, attributes and abstractness may differ. -/
structure DraftMethod.Revised (m m' : DraftMethod) : Prop where
  handle : m'.handle = m.handle
  name : m'.name = m.name
  kind : m'.kind = m.kind
  signature : m'.signature = m.signature
  isVirtual : m'.isVirtual = m.isVirtual
  isNewSlot : m'.isNewSlot = m.isNewSlot
  isStatic : m'.isStatic = m.isStatic
  access : m'.access = m.access
  baseMethod : m'.baseMethod = m.baseMethod
  explicitOverrides : m'.explicitOverrides = m.explicitOverrides

theorem hasBits_clear (word part cleared : UInt32) (h : part &&& ~~~cleared = part) :
    hasBits (word &&& ~~~cleared) part = hasBits word part := by
  unfold hasBits
  rw [UInt32.and_assoc, UInt32.and_comm (~~~cleared) part, h]

theorem hasBits_set (word part set : UInt32) (h : set &&& part = 0) :
    hasBits (word ||| set) part = hasBits word part := by
  have hand : (word ||| set) &&& part = word &&& part := by
    have hdistrib : (word ||| set) &&& part = (word &&& part) ||| (set &&& part) :=
      UInt32.toBitVec_inj.mp (by simp [BitVec.and_or_distrib_right])
    rw [hdistrib, h, UInt32.or_zero]
  rw [hasBits, hasBits, hand]

namespace Descriptor

/-! ### One step -/

structure Alike (d d' : Descriptor) : Prop where
  handle : d'.handle = d.handle
  flags : d'.flags = d.flags
  base : d'.base = d.base
  interfaces : d'.interfaces = d.interfaces
  constructors : d'.constructors.map (·.signature) = d.constructors.map (·.signature)
  methods : d'.methods = d.methods
  overrides : d'.overrides = d.overrides
  implementations : d'.implementations = d.implementations

theorem Alike.refl (d : Descriptor) : Alike d d := ⟨rfl, rfl, rfl, rfl, rfl, rfl, rfl, rfl⟩

theorem alike_touch (d : Descriptor) : Alike d d.touch := ⟨rfl, rfl, rfl, rfl, rfl, rfl, rfl, rfl⟩

/-- One step of a descriptor over a universe. -/
inductive Change (u : Universe) (d : Descriptor) : Descriptor → Prop
  /-- Something else is added. -/
  | aside {d' : Descriptor} (h : Alike d d') : Change u d d'
  | constructor {d' : Descriptor} (c : DraftMethod) (known : c.signature.Known u.types.size)
      (h : Alike { d with constructors := d.constructors.push c } d') : Change u d d'
  | interface {d' : Descriptor} (s : Signature)
      (exists' : ∀ t, s = .ofClass t → (u.record t).isInterface = true)
      (h : Alike { d with interfaces := d.interfaces.push s } d') : Change u d d'
  | method {d' : Descriptor} (name : String) (flags : UInt32) (signature : MethodSignature)
    (body : Option Expr)
      (known : signature.Known u.types.size)
      (check : d.checkMethod name flags signature body.isSome = .ok ())
      (h : Alike { d with
        methods := d.methods.push
          { handle := d.nextMethod, name, kind := .method, flags, signature, body } } d') :
      Change u d d'
  /-- A method gets a body or an attribute. -/
  | revise {d' : Descriptor} (index : Nat) (change : DraftMethod → DraftMethod)
      (revised : ∀ m : DraftMethod, m.Revised (change m))
      (h : Alike { d with methods := d.methods.modify index change } d') : Change u d d'
  /-- An own method is taken for the override of a slot that has none. -/
  | reuse {d' : Descriptor} (m : MethodId) (base : TypeId) (own : DraftMethod)
      (check : d.checkOverride u m = .ok base) (free : d.overrides.find? (u.slotToken m) = none)
      (found : d.methods.find? (fun own => own.takesSlot (u.method m).name (u.method m).signature)
        = some own)
      (h : Alike { d with overrides := d.overrides.put (u.slotToken m) own.handle } d') :
        Change u d d'
  /-- A slot that has none gets an override. -/
  | override {d' : Descriptor} (m : MethodId) (base : TypeId) (access : Access)
      (check : d.checkOverride u m = .ok base) (free : d.overrides.find? (u.slotToken m) = none)
      (missing : d.methods.find? (fun own => own.takesSlot (u.method m).name (u.method m).signature)
        = none)
      (allowed : d.overrideAccess u (u.resolveVirtual base m) = .ok access)
      (h : Alike { d with
        methods := d.methods.push (newOverride u d.nextMethod m (u.resolveVirtual base m) access)
        overrides := d.overrides.put (u.slotToken m) d.nextMethod } d') : Change u d d'
  /-- An own public method is taken for the implementation of an interface method. -/
  | claim {d' : Descriptor} (m : MethodId) (own : DraftMethod)
    (check : d.checkImplementation u m = .ok ())
      (free : d.implementations.find? (u.method m).token = none)
      (found : d.methods.find? (fun own =>
        own.isPublicVirtual (u.method m).name (u.method m).signature)
        = some own)
      (h : Alike { d with implementations := d.implementations.put (u.method m).token own.handle }
        d') :
      Change u d d'
  /-- The override of the inherited implementation implements an interface method, and no other
  own public method does. -/
  | inherit {d' : Descriptor} (m inherited : MethodId) (base : TypeId) (handle : MethodHandle)
      (check : d.checkImplementation u m = .ok ())
      (free : d.implementations.find? (u.method m).token = none)
      (isBase : d.baseType? u = some base) (found : u.resolveInterfaceMethod base m
        = some inherited)
      (row : d.overrides.find? (u.slotToken inherited) = some handle)
      (only : ∀ other, d.methods.find? (fun own =>
        own.isPublicVirtual (u.method m).name (u.method m).signature)
        = some other → other.handle = handle)
      (h : Alike { d with implementations := d.implementations.put (u.method m).token handle } d') :
      Change u d d'
  /-- An interface method that nothing implements gets an abstract implementation. -/
  | implement {d' : Descriptor} (m : MethodId) (check : d.checkImplementation u m = .ok ())
      (free : d.implementations.find? (u.method m).token = none)
      (missing : d.methods.find? (fun own =>
        own.isPublicVirtual (u.method m).name (u.method m).signature)
        = none)
      (checkMethod : d.checkMethod (u.method m).name newImplementationFlags
        (u.method m).signature false
        = .ok ())
      (h : Alike { d with
        methods := d.methods.push
          { handle := d.nextMethod, name := (u.method m).name, kind := .method
            flags := newImplementationFlags, signature := (u.method m).signature, body := none
            explicitOverrides := #[m] }
        implementations := d.implementations.put (u.method m).token d.nextMethod } d') :
          Change u d d'

abbrev Evolution (u : Universe) : Descriptor → Descriptor → Prop := Relation.ReflTransGen (Change u)

/-! ### Operations as runs -/

open Attempt

variable {α β : Type} {u : Universe} {post : α → Descriptor → Prop} {fail : Descriptor → Prop}
  {d : Descriptor}

/-- However the operation ends, it was a run of steps. -/
def Evolving (u : Universe) (act : Attempt Descriptor α) : Prop :=
  ∀ d, act.wp (fun _ => Evolution u d) (Evolution u d) d

theorem evolving_bind {act : Attempt Descriptor α} {next : α → Attempt Descriptor β}
    (h : Evolving u act) (hnext : ∀ v, Evolving u (next v)) : Evolving u (act >>= next) := by
  intro d
  rw [wp_bind]
  refine wp_mono (h d) (fun v mid hmid => ?_) fun _ hafter => hafter
  exact wp_mono (hnext v mid) (fun _ _ hafter => hmid.trans hafter) fun _ hafter =>
    hmid.trans hafter

theorem evolving_pure (v : α) : Evolving u (pure v) := fun _ => .refl

theorem evolving_mapM {γ : Type} {body : γ → Attempt Descriptor α} (item : Option γ)
    (h : ∀ v, Evolving u (body v)) : Evolving u (item.mapM body) := by
  cases item with
  | none => exact evolving_pure _
  | some v =>
    intro d
    rw [Option.mapM_some, wp_map]
    exact h v d

theorem evolution_aside {d' : Descriptor} (h : Alike d d') : Evolution u d d' := .single (.aside h)

/-! ### Operations that add something else -/

theorem evolving_addField (name : String) (signature : Signature) (flags : UInt32) :
    Evolving u (addField name signature flags) :=
  fun _ => wp_addField (fun _ _ => evolution_aside ⟨rfl, rfl, rfl, rfl, rfl, rfl, rfl, rfl⟩)
    fun _ => .refl

theorem evolving_addTypeInitializer (body : Expr) : Evolving u (addTypeInitializer body) :=
  fun _ => wp_addTypeInitializer (fun _ _ => evolution_aside ⟨rfl, rfl, rfl, rfl, rfl, rfl,
    rfl, rfl⟩) .refl

theorem evolving_addTypeInitialization (e : Expr) : Evolving u (addTypeInitialization e) :=
  fun _ => wp_addTypeInitialization (fun _ => evolution_aside ⟨rfl, rfl, rfl, rfl, rfl, rfl,
    rfl, rfl⟩) .refl

theorem evolving_addInitialization (e : Expr) : Evolving u (addInitialization e) :=
  fun _ => wp_addInitialization (fun _ _ => evolution_aside ⟨rfl, rfl, rfl, rfl, rfl, rfl,
    rfl, rfl⟩) .refl

theorem evolving_addProperty (name : String) (signature : Signature)
    (getter setter : Option MethodHandle) :
    Evolving u (addProperty u name signature getter setter) :=
  fun _ => wp_addProperty (fun _ _ _ _ => evolution_aside ⟨rfl, rfl, rfl, rfl, rfl, rfl, rfl, rfl⟩)
    fun _ => .refl

theorem evolving_addEvent (name : String) (type : Signature) (add remove : MethodHandle)
    (raise : Option MethodHandle) : Evolving u (addEvent u name type add remove raise) :=
  fun _ => wp_addEvent (fun _ _ _ _ => evolution_aside ⟨rfl, rfl, rfl, rfl, rfl, rfl, rfl, rfl⟩)
    .refl

theorem evolving_addAttribute (a : Attribute) : Evolving u (addAttribute a) :=
  fun _ => wp_addAttribute (fun _ => evolution_aside ⟨rfl, rfl, rfl, rfl, rfl, rfl, rfl, rfl⟩) .refl

theorem evolving_addFieldAttribute (h : FieldHandle) (a : Attribute) :
    Evolving u (addFieldAttribute h a) :=
  fun _ => wp_addFieldAttribute (fun _ _ _ => evolution_aside ⟨rfl, rfl, rfl, rfl, rfl, rfl,
    rfl, rfl⟩) .refl

/-! ### Operations on methods and interfaces -/

theorem evolving_addConstructor (flags : UInt32) (parameters : List Parameter) (body : Expr)
    (known : (⟨.void, parameters⟩ : MethodSignature).Known u.types.size) :
    Evolving u (addConstructor flags parameters body) :=
  fun _ => wp_addConstructor
    (fun _ _ _ _ _ => .single (.constructor _ known ⟨rfl, rfl, rfl, rfl, rfl, rfl, rfl, rfl⟩)) .refl

theorem evolving_addMethod (name : String) (flags : UInt32) (signature : MethodSignature)
    (body : Option Expr) (known : signature.Known u.types.size) :
    Evolving u (addMethod name flags signature body) :=
  fun _ => wp_addMethod (fun _ check =>
    .single (.method name flags signature body known check ⟨rfl, rfl, rfl, rfl, rfl, rfl, rfl,
      rfl⟩)) fun _ => .refl

/-- Changing a method of a handle revises a regular method or leaves the regular methods alone. -/
theorem evolution_modifyMethod (d : Descriptor) (slot : Slot) (change : DraftMethod → DraftMethod)
    (revised : ∀ m : DraftMethod, m.Revised (change m)) :
    Evolution u d (d.modifyMethod slot change).touch := by
  cases slot with
  | method index =>
    exact .single (.revise index change revised ⟨rfl, rfl, rfl, rfl, rfl, rfl, rfl, rfl⟩)
  | constructor index =>
    refine evolution_aside ⟨rfl, rfl, rfl, rfl, ?_, rfl, rfl, rfl⟩
    apply Array.ext_getElem?
    intro i
    simp only [modifyMethod, touch, Array.getElem?_map, Array.getElem?_modify]
    split <;> cases d.constructors[i]? <;> simp [(revised _).signature]
  | typeInitializer => exact evolution_aside ⟨rfl, rfl, rfl, rfl, rfl, rfl, rfl, rfl⟩

theorem revised_body (m : DraftMethod) (body : Expr) :
    m.Revised { m with flags := m.flags &&& ~~~MethodFlags.abstract, body := some body } where
  handle := rfl
  name := rfl
  kind := rfl
  signature := rfl
  isVirtual := hasBits_clear _ _ _ rfl
  isNewSlot := hasBits_clear _ _ _ rfl
  isStatic := hasBits_clear _ _ _ rfl
  access := by
    show Access.ofBits (m.flags &&& ~~~MethodFlags.abstract) = Access.ofBits m.flags
    unfold Access.ofBits
    rw [UInt32.and_assoc, show ~~~MethodFlags.abstract &&& accessMask = accessMask from rfl]
  baseMethod := rfl
  explicitOverrides := rfl

theorem evolving_setMethodBody (h : MethodHandle) (body : Expr) :
    Evolving u (setMethodBody h body) :=
  fun d => wp_setMethodBody (fun _ _ _ _ => evolution_modifyMethod d h.slot _ fun m =>
    revised_body m body) .refl

theorem revised_attributes (m : DraftMethod) (attributes : Array Attribute) :
    m.Revised { m with attributes } :=
  ⟨rfl, rfl, rfl, rfl, rfl, rfl, rfl, rfl, rfl, rfl⟩

theorem evolving_addMethodAttribute (h : MethodHandle) (a : Attribute) :
    Evolving u (addMethodAttribute h a) :=
  fun d => wp_addMethodAttribute (fun _ _ => evolution_modifyMethod d h.slot _ fun m =>
    revised_attributes m _) .refl

theorem evolving_addPropertyAccessors (name : String) (signature : Signature) (access : Access)
    (getterBody setterBody : Option Expr) (known : signature.Known u.types.size) :
    Evolving u (addPropertyAccessors u name signature access getterBody setterBody) := by
  have hget : (MethodSignature.unnamed signature []).Known u.types.size :=
    ⟨known, fun _ ht => absurd ht (by simp [MethodSignature.unnamed, MethodSignature.types])⟩
  have hset : (⟨.void, [⟨"value", signature⟩]⟩ : MethodSignature).Known u.types.size := by
    refine ⟨trivial, fun t ht => ?_⟩
    simp only [MethodSignature.types, List.map_cons, List.map_nil, List.mem_singleton] at ht
    rw [ht]
    exact known
  refine fun d => wp_addPropertyAccessors (fun _ _ => ?_) fun _ => .refl
  refine evolving_bind (evolving_mapM getterBody fun body =>
    evolving_addMethod _ _ _ (some body) hget) (fun getter => ?_) d
  exact evolving_bind (evolving_mapM setterBody fun body =>
      evolving_addMethod _ _ _ (some body) hset) fun setter =>
    evolving_addProperty _ _ _ _

theorem evolving_addAutoProperty (name : String) (signature : Signature) (access : Access)
    (known : signature.Known u.types.size) : Evolving u (addAutoProperty u name signature access) :=
  evolving_bind (evolving_addField _ _ _) fun _ => evolving_addPropertyAccessors _ _ _ _ _ known

theorem evolving_addInterface (interface : TypeId) (allow : Bool) :
    Evolving u (addInterface u interface allow) := by
  refine fun d => wp_addInterface (fun _ hinterface _ => ?_) .refl .refl
  refine .single (.interface (.ofClass interface) ?_ ⟨rfl, rfl, rfl, rfl, rfl, rfl, rfl, rfl⟩)
  rintro t ht
  cases ht
  exact hinterface

theorem evolving_addDraftInterface (interface : TypeHandle) :
    Evolving u (addDraftInterface interface) := by
  refine fun d => wp_addDraftInterface (fun _ _ => ?_) .refl
  refine .single (.interface (.draft interface) (fun t ht => ?_) ⟨rfl, rfl, rfl, rfl,
    rfl, rfl, rfl, rfl⟩)
  cases ht

/-! ### Overrides and implementations -/

/-- What the override of a method came from: a method that can be overridden, and a run of steps
after which the slot has the answered handle. No other method was added. -/
theorem evolved_getOrAddOverride (m : MethodId) :
    (getOrAddOverride u m).wp
      (fun answer d' => Evolution u d d' ∧ d'.overrides.find? (u.slotToken m) = some answer.1
        ∧ d'.base = d.base ∧ d'.interfaces = d.interfaces ∧ d'.implementations = d.implementations
        ∧ (∀ p other, d.methods.find? p = none → d'.methods.find? p = some other →
          other.handle = answer.1)
        ∧ ∃ base, d.checkOverride u m = .ok base)
      (Evolution u d) d := by
  have hsame : ∀ (handle : MethodHandle) p other, d.methods.find? p = none →
    d.methods.find? p = some other →
      other.handle = handle := fun _ _ _ hnone hsome => by
    rw [hnone] at hsome
    cases hsome
  refine wp_getOrAddOverride (fun base existing check row => ?_) (fun base own check free found =>
    ?_)
    (fun base access check free missing allowed => ?_) .refl
  · exact ⟨.refl, row, rfl, rfl, rfl, hsame _, base, check⟩
  · refine ⟨.single (.reuse m base own check free found (Alike.refl _)), ?_, rfl, rfl, rfl,
      hsame _, base, check⟩
    exact Keyed.find?_put_self _ _ _
  · refine ⟨.single (.override m base access check free missing allowed (alike_touch _)), ?_, rfl,
      rfl, rfl, ?_, base, check⟩
    · exact Keyed.find?_put_self _ _ _
    · intro p other hnone hother
      change (d.methods.push _).find? p = some other at hother
      rw [Array.find?_push, hnone, Option.none_or] at hother
      split at hother
      · cases hother
        rfl
      · cases hother

theorem evolving_getOrAddOverride (m : MethodId) : Evolving u (getOrAddOverride u m) :=
  fun _ => wp_mono (evolved_getOrAddOverride m) (fun _ _ h => h.1) fun _ h => h

/-- Whether a method can be implemented depends on the base and the interfaces only. -/
theorem checkImplementation_congr {d' : Descriptor} (m : MethodId) (hbase : d'.base = d.base)
    (hinterfaces : d'.interfaces = d.interfaces) (check : d.checkImplementation u m = .ok ()) :
    d'.checkImplementation u m = d.checkImplementation u m := by
  have himplements : ∀ i, d'.implementsInterface u i = d.implementsInterface u i := by
    intro i
    simp only [implementsInterface, interfaceTypes, baseType?, hbase, hinterfaces]
  rw [check]
  unfold checkImplementation at check ⊢
  split at check
  · cases check
  · split at check
    · rename_i hi
      rw [himplements, if_pos hi]
    · cases check

/-- What an answered implementation came from: a method that can be implemented, and a run of
steps after which the method has a row with the answered handle. -/
theorem evolved_getOrAddImplementation (m : MethodId) :
    (getOrAddImplementation u m).wp
      (fun answer d' => Evolution u d d' ∧ d.checkImplementation u m = .ok ()
        ∧ d'.implementations.find? (u.method m).token = some answer.1)
      (Evolution u d) d := by
  refine wp_getOrAddImplementation (fun existing check row => ?_) (fun own check free found => ?_)
    (fun inherited check free missing found _ => ?_) (fun check free missing checked => ?_) .refl
  · exact ⟨.refl, check, row⟩
  · exact ⟨.single (.claim m own check free found (Alike.refl _)), check,
      Keyed.find?_put_self _ _ _⟩
  · obtain ⟨base, hbase, hfound⟩ := Option.bind_eq_some_iff.mp found
    refine wp_mono (evolved_getOrAddOverride inherited) ?_ fun _ h => h
    rintro ⟨handle, created⟩ d' ⟨hevolved, hslot, hsameBase, hinterfaces, hsame, honly, -⟩
    have check' : d'.checkImplementation u m = .ok () := by
      rw [← check]
      exact checkImplementation_congr m hsameBase hinterfaces check
    have hbase' : d'.baseType? u = some base := by rw [baseType?, hsameBase]; exact hbase
    refine ⟨hevolved.tail (.inherit m inherited base handle check' (by rw [hsame]; exact free)
      hbase' hfound hslot
      (fun other hother => honly _ other missing hother) (Alike.refl _)), check,
      Keyed.find?_put_self _ _ _⟩
  · exact ⟨.single (.implement m check free missing checked (alike_touch _)), check,
      Keyed.find?_put_self _ _ _⟩

theorem evolving_getOrAddImplementation (m : MethodId) : Evolving u (getOrAddImplementation u m) :=
  fun _ => wp_mono (evolved_getOrAddImplementation m) (fun _ _ h => h.1) fun _ h => h

end Descriptor

end TypeLoom
