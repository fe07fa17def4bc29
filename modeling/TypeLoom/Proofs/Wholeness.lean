import TypeLoom.Proofs.Batches

/-!
# Methods without bodies

A method that lacks a body is abstract, and a descriptor that remembers not to be abstract has no
abstract method. Every operation on a batch keeps both, whatever its arguments are and however it
ends.
-/

namespace TypeLoom

open Attempt

variable {u : Universe}

theorem hasBits_or_self (word part : UInt32) : hasBits (word ||| part) part = true := by
  have hand : (word ||| part) &&& part = part := by
    apply UInt32.toBitVec_inj.mp
    ext i
    simp only [UInt32.toBitVec_and, UInt32.toBitVec_or, BitVec.getElem_and, BitVec.getElem_or]
    cases word.toBitVec[i] <;> cases part.toBitVec[i] <;> rfl
  rw [hasBits, hand]
  exact beq_self_eq_true part

namespace Descriptor

structure Whole (d : Descriptor) : Prop where
  bodiless : ∀ m ∈ d.methods, m.body = none → m.isAbstract = true
  remembered : d.abstractMemo = some false → ∀ m ∈ d.methods, m.isAbstract = false

variable {d d' : Descriptor}

/-! ### Changes -/

theorem whole_touch (h : ∀ m ∈ d.methods, m.body = none → m.isAbstract = true) : d.touch.Whole where
  bodiless := h
  remembered := fun hmemo => by cases hmemo

/-- A method that lacks a body and is not abstract is never added. -/
theorem Whole.push (h : d.Whole) {m : DraftMethod} (hm : m.body = none → m.isAbstract = true) :
    ∀ own ∈ d.methods.push m, own.body = none → own.isAbstract = true := by
  intro own hown
  rcases Array.mem_push.mp hown with hold | rfl
  · exact h.bodiless own hold
  · exact hm

theorem Whole.modifyMethod (h : d.Whole) (slot : Slot) {change : DraftMethod → DraftMethod}
    (hchange : ∀ m : DraftMethod, (m.body = none → m.isAbstract = true) →
      (change m).body = none → (change m).isAbstract = true) :
      (d.modifyMethod slot change).touch.Whole := by
  apply whole_touch
  cases slot with
  | constructor index => exact h.bodiless
  | typeInitializer => exact h.bodiless
  | method index =>
    intro m hm
    obtain ⟨i, hlt, rfl⟩ := Array.mem_iff_getElem.mp hm
    simp only [Descriptor.modifyMethod, Array.getElem_modify]
    split
    · exact hchange _ (h.bodiless _ (Array.getElem_mem _))
    · exact h.bodiless _ (Array.getElem_mem _)

/-! ### Members that are no methods -/

theorem whole_addField (name : String) (signature : Signature) (flags : UInt32) :
    Maintains Whole (addField name signature flags) :=
  fun _ hd => wp_addField (fun _ _ => whole_touch hd.bodiless) fun _ => hd

theorem whole_addConstructor (flags : UInt32) (parameters : List Parameter) (body : Expr) :
    Maintains Whole (addConstructor flags parameters body) :=
  fun _ hd => wp_addConstructor (fun _ _ _ _ _ => whole_touch hd.bodiless) hd

theorem whole_addTypeInitializer (body : Expr) : Maintains Whole (addTypeInitializer body) :=
  fun _ hd => wp_addTypeInitializer (fun _ _ => whole_touch hd.bodiless) hd

theorem whole_addTypeInitialization (e : Expr) : Maintains Whole (addTypeInitialization e) :=
  fun _ hd => wp_addTypeInitialization (fun _ => whole_touch hd.bodiless) hd

theorem whole_addInitialization (e : Expr) : Maintains Whole (addInitialization e) :=
  fun _ hd => wp_addInitialization (fun _ _ => whole_touch hd.bodiless) hd

theorem whole_addProperty (name : String) (signature : Signature)
    (getter setter : Option MethodHandle) :
    Maintains Whole (addProperty u name signature getter setter) :=
  fun _ hd => wp_addProperty (fun _ _ _ _ => whole_touch hd.bodiless) fun _ => hd

theorem whole_addEvent (name : String) (type : Signature) (add remove : MethodHandle)
    (raise : Option MethodHandle) :
    Maintains Whole (addEvent u name type add remove raise) :=
  fun _ hd => wp_addEvent (fun _ _ _ _ => whole_touch hd.bodiless) hd

theorem whole_addInterface (interface : TypeId) (allow : Bool) :
    Maintains Whole (addInterface u interface allow) :=
  fun _ hd => wp_addInterface (fun _ _ _ => whole_touch hd.bodiless) hd hd

theorem whole_addDraftInterface (interface : TypeHandle) :
    Maintains Whole (addDraftInterface interface) :=
  fun _ hd => wp_addDraftInterface (fun _ _ => whole_touch hd.bodiless) hd

theorem whole_addAttribute (a : Attribute) : Maintains Whole (addAttribute a) :=
  fun _ hd => wp_addAttribute (fun _ => whole_touch hd.bodiless) hd

theorem whole_addFieldAttribute (h : FieldHandle) (a : Attribute) :
    Maintains Whole (addFieldAttribute h a) :=
  fun _ hd => wp_addFieldAttribute (fun _ _ _ => whole_touch hd.bodiless) hd

/-! ### Methods -/

theorem abstract_of_checkMethod {name : String} {flags : UInt32} {s : MethodSignature}
    {hasBody : Bool} (h : d.checkMethod name flags s hasBody = .ok ()) (hnone : hasBody = false) :
    hasBits flags MethodFlags.abstract = true := by
  simp only [checkMethod, guard_bind_eq_ok, guard_eq_ok] at h
  obtain ⟨-, -, -, hrequired, -⟩ := h
  simpa [hnone] using hrequired

theorem whole_addMethod (name : String) (flags : UInt32) (signature : MethodSignature)
    (body : Option Expr) :
    Maintains Whole (addMethod name flags signature body) := by
  refine fun d hd => wp_addMethod (fun _ check => whole_touch (hd.push fun hnone => ?_)) fun _ => hd
  exact abstract_of_checkMethod check (by rw [show body = none from hnone]; rfl)

theorem whole_setMethodBody (h : MethodHandle) (body : Expr) :
    Maintains Whole (setMethodBody h body) := by
  refine fun d hd => wp_setMethodBody (fun _ _ _ _ => hd.modifyMethod h.slot fun m _ hnone => ?_) hd
  cases hnone

theorem whole_addMethodAttribute (h : MethodHandle) (a : Attribute) :
    Maintains Whole (addMethodAttribute h a) :=
  fun _ hd => wp_addMethodAttribute (fun _ _ => hd.modifyMethod h.slot fun _ hm => hm) hd

theorem whole_addPropertyAccessors (name : String) (signature : Signature) (access : Access)
    (getterBody setterBody : Option Expr) :
    Maintains Whole (addPropertyAccessors u name signature access getterBody setterBody) := by
  refine fun d hd => wp_addPropertyAccessors (fun _ _ => ?_) fun _ => hd
  refine maintains_bind (maintains_option getterBody fun body => whole_addMethod _ _ _ _)
    (fun getter => ?_) d hd
  exact maintains_bind (maintains_option setterBody fun body =>
      whole_addMethod _ _ _ _) fun setter =>
    whole_addProperty _ _ _ _

theorem whole_addAutoProperty (name : String) (signature : Signature) (access : Access) :
    Maintains Whole (addAutoProperty u name signature access) :=
  maintains_bind (whole_addField _ _ _) fun _ => whole_addPropertyAccessors _ _ _ _ _

/-! ### Overrides and implementations -/

theorem newOverride_abstract (handle : MethodHandle) (m implementation : MethodId) (access : Access)
    (hnone : (newOverride u handle m implementation access).body = none) :
    (newOverride u handle m implementation access).isAbstract = true := by
  unfold newOverride at hnone ⊢
  by_cases hr : (u.method implementation).isAbstract = true
  · simp only [DraftMethod.isAbstract, hr, if_true]
    exact hasBits_or_self _ _
  · simp only [hr, Bool.false_eq_true, if_false] at hnone
    cases hnone

theorem whole_getOrAddOverride (m : MethodId) : Maintains Whole (getOrAddOverride u m) := by
  refine fun d hd => wp_getOrAddOverride (fun _ _ _ _ => hd) (fun _ _ _ _ _ =>
    ⟨hd.bodiless, hd.remembered⟩)
    (fun base access _ _ _ _ => whole_touch (hd.push fun hnone => ?_)) hd
  exact newOverride_abstract _ _ _ _ hnone

theorem whole_getOrAddImplementation (m : MethodId) :
    Maintains Whole (getOrAddImplementation u m) := by
  refine fun d hd => wp_getOrAddImplementation (fun _ _ _ => hd) (fun _ _ _ _ =>
    ⟨hd.bodiless, hd.remembered⟩)
    (fun inherited _ _ _ _ _ => ?_) (fun _ _ _ _ => whole_touch (hd.push fun _ => ?_)) hd
  · exact wp_mono (whole_getOrAddOverride inherited d hd) (fun _ _ hd' =>
      ⟨hd'.bodiless, hd'.remembered⟩) fun _ h => h
  · exact (by decide : hasBits newImplementationFlags MethodFlags.abstract = true)

theorem whole_operation {α : Type} {act : Attempt Descriptor α} (operation : Operation u act) :
    Maintains Whole act := by
  cases operation with
  | addition addition =>
    cases addition with
    | addField name signature flags => exact whole_addField name signature flags
    | addConstructor flags parameters body => exact whole_addConstructor flags parameters body
    | addTypeInitializer body => exact whole_addTypeInitializer body
    | addTypeInitialization e => exact whole_addTypeInitialization e
    | addInitialization e => exact whole_addInitialization e
    | addMethod name flags signature body => exact whole_addMethod name flags signature body
    | setMethodBody h body => exact whole_setMethodBody h body
    | addProperty name signature getter setter =>
      exact whole_addProperty name signature getter setter
    | addPropertyAccessors name signature access getterBody setterBody =>
      exact whole_addPropertyAccessors name signature access getterBody setterBody
    | addAutoProperty name signature access => exact whole_addAutoProperty name signature access
    | addEvent name type add remove raise => exact whole_addEvent name type add remove raise
    | addInterface interface allow => exact whole_addInterface interface allow
    | addAttribute a => exact whole_addAttribute a
    | addMethodAttribute h a => exact whole_addMethodAttribute h a
    | addFieldAttribute h a => exact whole_addFieldAttribute h a
  | getOrAddOverride m => exact whole_getOrAddOverride m
  | getOrAddImplementation m => exact whole_getOrAddImplementation m

/-! ### Asking -/

/-- What is remembered of the answer is true of the own methods. -/
theorem whole_askAbstract (hd : d.Whole) : (d.askAbstract u).2.Whole := by
  unfold askAbstract
  cases hmemo : d.abstractMemo with
  | some answer => exact hd
  | none =>
    refine ⟨hd.bodiless, fun hfalse m hm => ?_⟩
    have hany : d.methods.any DraftMethod.isAbstract = false := by
      have := Option.some.inj hfalse
      simp only [computeAbstract, Bool.or_eq_false_iff] at this
      exact this.1.1.2
    simpa using Array.any_eq_false'.mp hany m hm

theorem Whole.askAbstract_of_abstract (hd : d.Whole) {m : DraftMethod} (hm : m ∈ d.methods)
    (habstract : m.isAbstract = true) :
    (d.askAbstract u).1 = true := by
  unfold askAbstract
  cases hmemo : d.abstractMemo with
  | some answer =>
    cases answer with
    | true => rfl
    | false =>
      rw [hd.remembered hmemo m hm] at habstract
      cases habstract
  | none =>
    have hany : d.methods.any DraftMethod.isAbstract = true :=
      Array.any_eq_true'.mpr ⟨m, hm, habstract⟩
    simp [computeAbstract, hany]

end Descriptor

/-! ### Batches -/

namespace Batch

variable {α : Type} {b : Batch}

def Whole (b : Batch) : Prop := ∀ d ∈ b.types, d.Whole

theorem Whole.of_find (h : b.Whole) {t : TypeHandle} {d : Descriptor} (hd : b.find? t = some d) :
    d.Whole :=
  h d (Array.mem_of_getElem? hd)

theorem Whole.set (h : b.Whole) (index : Nat) {d : Descriptor} (hd : d.Whole) :
    Whole { b with types := b.types.setIfInBounds index d } := by
  intro e he
  rcases Array.mem_or_eq_of_mem_setIfInBounds he with hold | rfl
  · exact h e hold
  · exact hd

theorem Whole.add (h : b.Whole) {d : Descriptor} (hd : d.Whole) :
    Whole { b with types := b.types.push d } := by
  intro e he
  rcases Array.mem_push.mp he with hold | rfl
  · exact h e hold
  · exact hd

theorem whole_closeAll (h : b.Whole) : b.closeAll.Whole := by
  intro d hd
  obtain ⟨e, he, rfl⟩ := Array.mem_map.mp hd
  exact ⟨(h e he).bodiless, (h e he).remembered⟩

theorem whole_onType {act : Attempt Descriptor α} (t : TypeHandle)
    (h : Maintains Descriptor.Whole act) :
    Maintains Whole (onType t act) := by
  intro b hb
  refine wp_onType (fun _ => hb) fun d hd => ?_
  exact wp_mono (h d (hb.of_find hd)) (fun _ _ hd' => hb.set _ hd') fun _ hd' => hb.set _ hd'

theorem whole_createType (space name : String) (flags : UInt32) (base : Option Signature) :
    Maintains Whole (createType u space name flags base) :=
  fun _ hb => wp_createType (fun _ _ => hb.add (Descriptor.whole_touch fun _ hm =>
    absurd hm (Array.not_mem_empty _))) hb

theorem whole_addNested (outer : TypeHandle) (name : String) (flags : UInt32)
    (base : Option Signature) :
    Maintains Whole (addNested u outer name flags base) := by
  refine fun b hb => wp_addNested (fun d hd _ _ _ => ?_) hb
  let made : Descriptor :=
    { handle := ⟨b.types.size⟩, space := "", name, flags := nestedFlags flags, base,
      declaring := some outer }
  have hmade := hb.add (show made.touch.Whole from Descriptor.whole_touch fun _ hm =>
    absurd hm (Array.not_mem_empty _))
  exact hmade.set outer.index (Descriptor.whole_touch (hb.of_find hd).bodiless)

theorem whole_addBatchInterface (t interface : TypeHandle) :
    Maintains Whole (addBatchInterface t interface) :=
  fun b hb => wp_addBatchInterface (fun _ _ _ =>
    whole_onType t (Descriptor.whole_addDraftInterface interface) b hb) hb

theorem whole_askAlone (t : TypeHandle) : Maintains Whole (askAlone u t) :=
  whole_onType t fun _ hd => Descriptor.whole_askAbstract hd

theorem whole_askAbstract (t : TypeHandle) : Maintains Whole (askAbstract u t) := by
  refine maintains_bind (whole_askAlone t) fun alone => maintains_ite (maintains_pure _) ?_
  exact maintains_bind maintains_get fun b => maintains_bind (maintains_lift _) fun d =>
    maintains_pure _

theorem whole_createProxy (h : b.Whole) (requested : TypeId) (name : String) :
    (b.createProxy u requested name).2.Whole := by
  refine h.add ⟨fun m hm => ?_, fun hmemo => ?_⟩
  · exact absurd hm (by simp [Descriptor.proxy])
  · cases hmemo

theorem whole_perform (e : Edit) : Maintains Whole (e.perform u) :=
  maintains_perform whole_createType whole_addNested whole_addBatchInterface
    (fun t _ operation => whole_onType t (Descriptor.whole_operation operation)) e fun t _ =>
    whole_askAbstract t

end Batch

end TypeLoom
