import TypeLoom.Draft.Edit
import TypeLoom.Proofs.Attempts

/-!
# What operations on descriptors do

An operation that makes one change has passed its checks when it succeeds, and a failure leaves the
descriptor as it was. Each law below says both: what is known after a success, and that the state of
a failure is the one that the operation started from. An operation that is composed of others has no
law of this kind.
-/

namespace TypeLoom

/-! ### Accessors -/

def MethodSignature.Gets (held : Signature) (s : MethodSignature) : Prop :=
  s.types = [] ∧ s.returns = held

def MethodSignature.Sets (held : Signature) (s : MethodSignature) : Prop :=
  s.types = [held] ∧ s.returns = .void

theorem Signature.isVoid_iff {s : Signature} : s.isVoid = true ↔ s = .void := by
  cases s <;> simp [isVoid]

theorem any_eq_iff {α : Type} {items : Array α} {nameOf : α → String} {name : String} :
    (items.any fun item => nameOf item == name) = true ↔ ¬ ∀ item ∈ items, nameOf item ≠ name := by
  rw [Array.any_eq_true']
  simp

namespace Descriptor

open Attempt

variable {α : Type} {u : Universe} {fail : Descriptor → Prop} {d : Descriptor}

theorem wp_ensureMutable {post : PUnit → Descriptor → Prop} (h : d.isSealed = false → post ⟨⟩ d)
    (hfail : d.isSealed = true → fail d) : ensureMutable.wp post fail d := by
  simp only [ensureMutable, wp_bind, wp_get, wp_ite, wp_throw, wp_pure]
  exact ⟨hfail, fun hs => h (by simpa using hs)⟩

/-- Operations refuse sealed descriptors and then look at the descriptor as it is. -/
theorem wp_mutable {post : α → Descriptor → Prop} {next : Descriptor → Attempt Descriptor α}
    (h : d.isSealed = false → (next d).wp post fail d) (hfail : d.isSealed = true → fail d) :
    (ensureMutable >>= fun _ => get >>= next).wp post fail d := by
  rw [wp_bind]
  refine wp_ensureMutable (fun hs => ?_) hfail
  rw [wp_bind, wp_get]
  exact h hs

/-! ### Fields, constructors and initializers -/

structure TakesField (d : Descriptor) (name : String) (signature : Signature) (flags : UInt32) :
    Prop where
  named : name ≠ ""
  solid : signature.isVoid = false
  static : d.isInterface = true → hasBits flags FieldFlags.static = true
  free : ∀ f ∈ d.fields, f.name ≠ name

theorem wp_addField {post : FieldHandle → Descriptor → Prop} {name : String} {signature : Signature}
    {flags : UInt32} (h : d.isSealed = false → d.TakesField name signature flags →
      let handle : FieldHandle := ⟨d.handle, d.fields.size⟩
      post handle (touch { d with fields := d.fields.push { handle, name, signature, flags } }))
    (hfail : ¬ (d.isSealed = false ∧ d.TakesField name signature flags) → fail d) :
    (addField name signature flags).wp post fail d := by
  refine wp_mutable (fun hs => ?_) fun hs => hfail fun hall => by rw [hs] at hall; cases hall.1
  have hfree : (d.fieldNamed? name).isSome = true ↔ ¬ ∀ f ∈ d.fields, f.name ≠ name := by
    rw [fieldNamed?, Array.find?_isSome]
    simp
  simp only [wp_bind, wp_ite, wp_throw, wp_set, wp_pure, hfree, Classical.not_not]
  refine ⟨fun hname => hfail fun hall => hall.2.named (by simpa using hname), fun hname =>
    ⟨fun hvoid => hfail fun hall => ?_, fun hvoid =>
        ⟨fun hinstance => hfail fun hall => ?_, fun hstatic =>
      ⟨fun htaken => hfail fun hall => htaken hall.2.free, fun hfree => ?_⟩⟩⟩⟩
  · rw [hall.2.solid] at hvoid
    cases hvoid
  · rw [Bool.and_eq_true] at hinstance
    rw [hall.2.static hinstance.1] at hinstance
    cases hinstance.2
  · exact h hs ⟨by simpa using hname, by
      simpa using hvoid, fun hi => by simpa [hi] using hstatic, hfree⟩

theorem wp_addConstructor {post : MethodHandle → Descriptor → Prop} {flags : UInt32}
    {parameters : List Parameter} {body : Expr}
    (h : d.isSealed = false → hasBits flags MethodFlags.static = false →
      meetsBits flags (MethodFlags.virtual ||| MethodFlags.abstract) = false →
      d.isInterface = false →
      (∀ c ∈ d.constructors, c.signature.sameParameters ⟨.void, parameters⟩ = false) →
      post d.nextConstructor (touch { d with
        constructors := d.constructors.push
          { handle := d.nextConstructor, name := ".ctor", kind := .constructor,
            flags := flags ||| specialFlags,
            signature := ⟨.void, parameters⟩, body := some body } }))
    (hfail : fail d) : (addConstructor flags parameters body).wp post fail d := by
  refine wp_mutable (fun hs => ?_) fun _ => hfail
  simp only [wp_bind, wp_ite, wp_throw, wp_set, wp_pure]
  refine ⟨fun _ => hfail, fun hstatic =>
    ⟨fun _ => hfail, fun hmeets => ⟨fun _ => hfail, fun hi => ⟨fun _ => hfail,
    fun hfree => ?_⟩⟩⟩⟩
  refine h hs (by simpa using hstatic) (by simpa using hmeets) (by simpa using hi) fun c hc => ?_
  rw [Bool.not_eq_true] at hfree
  simpa using Array.any_eq_false'.mp hfree c hc

/-- What every type initializer looks like before it is given another body or attributes. -/
theorem wp_addTypeInitializer {post : MethodHandle → Descriptor → Prop} {body : Expr}
    (h : d.isSealed = false → d.typeInitializer = none →
      let handle : MethodHandle := ⟨d.handle, .typeInitializer⟩
      post handle (touch { d with
        typeInitializer := some
          { handle, name := ".cctor", kind := .typeInitializer
            flags := MethodFlags.isPrivate ||| MethodFlags.static ||| MethodFlags.hideBySig
            ||| specialFlags
            signature := {}, body := some body } }))
    (hfail : fail d) : (addTypeInitializer body).wp post fail d := by
  refine wp_mutable (fun hs => ?_) fun _ => hfail
  simp only [wp_bind, wp_ite, wp_throw, wp_set, wp_pure]
  exact ⟨fun _ => hfail, fun hnone => h hs (by simpa using hnone)⟩

theorem wp_addTypeInitialization {post : PUnit → Descriptor → Prop} {e : Expr}
    (h : d.isSealed = false →
      post ⟨⟩ (touch { d with typeInitializations := d.typeInitializations.push e }))
    (hfail : fail d) : (addTypeInitialization e).wp post fail d := wp_mutable h fun _ => hfail

theorem wp_addInitialization {post : PUnit → Descriptor → Prop} {e : Expr}
    (h : d.isSealed = false → d.isInterface = false →
      post ⟨⟩ (touch { d with initializations := d.initializations.push e }))
    (hfail : fail d) : (addInitialization e).wp post fail d := by
  refine wp_mutable (fun hs => ?_) fun _ => hfail
  simp only [wp_bind, wp_ite, wp_throw, wp_set]
  exact ⟨fun _ => hfail, fun hi => h hs (by simpa using hi)⟩

/-! ### Methods -/

theorem wp_addMethod {post : MethodHandle → Descriptor → Prop} {name : String} {flags : UInt32}
    {signature : MethodSignature} {body : Option Expr}
    (h : d.isSealed = false → d.checkMethod name flags signature body.isSome = .ok () →
      post d.nextMethod (touch { d with
        methods := d.methods.push
          { handle := d.nextMethod, name, kind := .method, flags, signature, body } }))
    (hfail : ¬ (d.isSealed = false ∧ d.checkMethod name flags signature body.isSome = .ok ()) →
      fail d) :
    (addMethod name flags signature body).wp post fail d := by
  refine wp_mutable (fun hs => ?_) fun hs => hfail fun hall => by rw [hs] at hall; cases hall.1
  simp only [wp_bind, wp_lift, wp_set, wp_pure]
  refine ⟨fun _ check => h hs check, fun f hf => hfail fun hall => ?_⟩
  rw [hall.2] at hf
  cases hf

theorem wp_setMethodBody {post : PUnit → Descriptor → Prop} {handle : MethodHandle} {body : Expr}
    (h : d.isSealed = false → ∀ m, d.method? handle = some m →
      (d.isInterface = true → m.isStatic = true) →
      post ⟨⟩ (d.modifyMethod handle.slot fun m =>
        { m with flags := m.flags &&& ~~~MethodFlags.abstract, body := some body }).touch)
    (hfail : fail d) : (setMethodBody handle body).wp post fail d := by
  refine wp_mutable (fun hs => ?_) fun _ => hfail
  dsimp only
  split
  · exact hfail
  · rename_i m hm
    simp only [wp_bind, wp_ite, wp_throw, wp_set]
    exact ⟨fun _ => hfail, fun hi => h hs m hm fun hd => by simpa [hd] using hi⟩

/-! ### Properties and events -/

/-- The handle names a regular method of the descriptor that is static or not, with a signature
of some kind. -/
def IsAccessor (d : Descriptor) (h : MethodHandle) (isStatic : Bool)
    (kind : MethodSignature → Prop) : Prop :=
  ∃ i m, h = ⟨d.handle, .method i⟩ ∧ d.methods[i]? = some m ∧ m.isStatic = isStatic
    ∧ kind m.signature

theorem accessor_eq_ok {h : MethodHandle} {parameter : String} {m : DraftMethod} :
    d.accessor h parameter = .ok m ↔ ∃ i, h = ⟨d.handle, .method i⟩ ∧ d.methods[i]? = some m := by
  obtain ⟨owner, slot⟩ := h
  unfold accessor
  by_cases howner : owner = d.handle
  · subst howner
    cases slot with
    | method i => cases hm : d.methods[i]? <;> simp [method?, hm]
    | constructor i => simp
    | typeInitializer => simp
  · simp [howner]

theorem takesOnly_iff {m : DraftMethod} {signature : Signature} :
    takesOnly m signature = true ↔ m.signature.Sets signature := by
  rw [takesOnly, MethodSignature.Sets, Bool.and_eq_true, Signature.isVoid_iff, beq_iff_eq, and_comm]

theorem checkGetter_eq_ok {name : String} {signature : Signature} {h : MethodHandle}
    {isStatic : Bool} :
    d.checkGetter u name signature h = .ok isStatic ↔
    d.IsAccessor h isStatic (·.Gets signature) := by
  have hgets : ∀ m : DraftMethod,
      ¬ (m.signature.arity != 0 || m.signature.returns != signature) = true ↔
      m.signature.Gets signature := by
    intro m
    rw [MethodSignature.arity_eq_length_types, MethodSignature.Gets]
    simp
  unfold checkGetter
  simp only [bind_eq_ok, accessor_eq_ok, guard_bind_eq_ok, hgets]
  constructor
  · rintro ⟨m, ⟨i, rfl, hm⟩, hsignature, hstatic⟩
    exact ⟨i, m, rfl, hm, Except.ok.inj hstatic, hsignature⟩
  · rintro ⟨i, m, rfl, hm, rfl, hsignature⟩
    exact ⟨m, ⟨i, rfl, hm⟩, hsignature, rfl⟩

theorem checkSetter_eq_ok {name : String} {signature : Signature} {getterStatic : Option Bool}
    {h : MethodHandle} :
    d.checkSetter u name signature getterStatic h = .ok () ↔
      ∃ isStatic, (∀ s ∈ getterStatic, s = isStatic)
      ∧ d.IsAccessor h isStatic (·.Sets signature) := by
  have hsets : ∀ m : DraftMethod, ¬ (!takesOnly m signature) = true ↔
      m.signature.Sets signature := by
    intro m
    rw [← takesOnly_iff]
    simp
  unfold checkSetter
  simp only [bind_eq_ok, accessor_eq_ok, guard_bind_eq_ok, guard_eq_ok, hsets]
  constructor
  · rintro ⟨m, ⟨i, rfl, hm⟩, hsignature, hstatic⟩
    exact ⟨m.isStatic, fun s hs => by
      simpa [Option.mem_def.mp hs] using hstatic, i, m, rfl, hm, rfl, hsignature⟩
  · rintro ⟨isStatic, hstatic, i, m, rfl, hm, rfl, hsignature⟩
    refine ⟨m, ⟨i, rfl, hm⟩, hsignature, ?_⟩
    cases getterStatic with
    | none => exact Bool.false_ne_true
    | some s => simp [hstatic s rfl]

/-- The accessors of a property: both are static or none is. -/
def Serves (d : Descriptor) (signature : Signature) (getter setter : Option MethodHandle) : Prop :=
  ∃ isStatic, (∀ h ∈ getter, d.IsAccessor h isStatic (·.Gets signature))
    ∧ ∀ h ∈ setter, d.IsAccessor h isStatic (·.Sets signature)

theorem serves_iff (u : Universe) (name : String) {signature : Signature}
    {getter setter : Option MethodHandle} :
    d.Serves signature getter setter ↔
      ∃ getterStatic, getter.mapM (d.checkGetter u name signature) = .ok getterStatic
        ∧ ∀ h ∈ setter, d.checkSetter u name signature getterStatic h = .ok () := by
  simp only [checkSetter_eq_ok]
  cases getter with
  | none =>
    constructor
    · rintro ⟨isStatic, -, hsetter⟩
      exact ⟨none, rfl, fun h hh => ⟨isStatic, nofun, hsetter h hh⟩⟩
    · rintro ⟨getterStatic, -, hsetter⟩
      cases setter with
      | none => exact ⟨false, nofun, nofun⟩
      | some h =>
        obtain ⟨isStatic, -, haccessor⟩ := hsetter h rfl
        exact ⟨isStatic, nofun, fun _ hh => Option.some.inj hh ▸ haccessor⟩
  | some getter =>
    have hget : ∀ getterStatic, Option.mapM (d.checkGetter u name signature) (some getter)
      = .ok getterStatic ↔
        ∃ isStatic, getterStatic = some isStatic
        ∧ d.IsAccessor getter isStatic (·.Gets signature) := by
      intro getterStatic
      have hchecked : ∀ isStatic, d.IsAccessor getter isStatic (·.Gets signature) ↔
          d.checkGetter u name signature getter = .ok isStatic := fun _ => checkGetter_eq_ok.symm
      simp only [hchecked, Option.mapM_some]
      cases d.checkGetter u name signature getter with
      | error f => exact ⟨nofun, fun ⟨_, _, h⟩ => nomatch h⟩
      | ok isStatic =>
        exact ⟨fun h => ⟨isStatic, (Except.ok.inj h).symm, rfl⟩, fun ⟨_, hs, h⟩ => by
          cases h; rw [hs]; rfl⟩
    simp only [hget]
    constructor
    · rintro ⟨isStatic, hgetter, hsetter⟩
      exact ⟨some isStatic, ⟨isStatic, rfl, hgetter getter rfl⟩,
        fun h hh => ⟨isStatic, fun _ hs => (Option.some.inj hs).symm, hsetter h hh⟩⟩
    · rintro ⟨_, ⟨isStatic, rfl, hgetter⟩, hsetter⟩
      refine ⟨isStatic, fun _ hh => Option.some.inj hh ▸ hgetter, fun h hh => ?_⟩
      obtain ⟨_, hsame, haccessor⟩ := hsetter h hh
      exact hsame isStatic rfl ▸ haccessor

theorem wp_addProperty {post : PropertyHandle → Descriptor → Prop} {name : String}
    {signature : Signature} {getter setter : Option MethodHandle}
    (h : d.isSealed = false → signature.isVoid = false → (∀ p ∈ d.properties, p.name ≠ name) →
      d.Serves signature getter setter →
      let handle : PropertyHandle := ⟨d.handle, d.properties.size⟩
      post handle (touch
        { d with properties := d.properties.push { handle, name, signature, getter, setter } }))
    (hfail : ¬ (d.isSealed = false ∧ (getter.isSome ∨ setter.isSome) ∧ signature.isVoid = false
      ∧ (∀ p ∈ d.properties, p.name ≠ name) ∧ d.Serves signature getter setter) → fail d) :
    (addProperty u name signature getter setter).wp post fail d := by
  refine wp_mutable (fun hs => ?_) fun hs => hfail fun hall => by rw [hs] at hall; cases hall.1
  simp only [wp_bind, wp_ite, wp_throw, wp_lift, any_eq_iff, Classical.not_not]
  refine ⟨fun hnone => hfail fun hall => ?_, fun hsome =>
      ⟨fun hvoid => hfail fun hall => ?_, fun hvoid =>
    ⟨fun hany => hfail fun hall => hany hall.2.2.2.1, fun hfree => ⟨fun getterStatic hgetter => ?_,
      fun f hgetter => hfail fun hall => ?_⟩⟩⟩⟩
  · cases getter <;> cases setter <;> simp_all
  · rw [hvoid] at hall
    cases hall.2.2.1
  · have hvoid : signature.isVoid = false := by simpa using hvoid
    cases setter with
    | none =>
      exact h hs hvoid hfree ((serves_iff u name).mpr ⟨getterStatic, hgetter, fun _ hh => by
        cases hh⟩)
    | some setter =>
      simp only [wp_bind, wp_lift]
      refine ⟨fun _ hsetter => h hs hvoid hfree ((serves_iff u name).mpr ⟨getterStatic, hgetter,
        fun _ hh => ?_⟩),
        fun f hsetter => hfail fun hall => ?_⟩
      · rw [← Option.some.inj hh]
        exact hsetter
      · obtain ⟨_, hgetter', hsetter'⟩ := (serves_iff u name).mp hall.2.2.2.2
        rw [hgetter] at hgetter'
        rw [Except.ok.inj hgetter', hsetter' setter rfl] at hsetter
        cases hsetter
  · obtain ⟨_, hgetter', -⟩ := (serves_iff u name).mp hall.2.2.2.2
    rw [hgetter] at hgetter'
    cases hgetter'

/-- The accessors of an event: all are static or none is, and any signature will do for the
method that raises it. -/
def ServesEvent (d : Descriptor) (type : Signature) (add remove : MethodHandle)
    (raise : Option MethodHandle) : Prop :=
  ∃ isStatic, d.IsAccessor add isStatic (·.Sets type) ∧ d.IsAccessor remove isStatic (·.Sets type)
    ∧ ∀ h ∈ raise, d.IsAccessor h isStatic fun _ => True

theorem checkEvent_ok {name : String} {type : Signature} {add remove : MethodHandle}
    {raise : Option MethodHandle} (h : d.checkEvent u name type add remove raise = .ok ()) :
    d.ServesEvent type add remove raise := by
  unfold checkEvent at h
  obtain ⟨adder, hadder, hremoves⟩ := bind_eq_ok.mp h
  obtain ⟨remover, hremover, hchecks⟩ := bind_eq_ok.mp hremoves
  obtain ⟨_, hsignatures, hraises⟩ := bind_eq_ok.mp hchecks
  obtain ⟨raiser, hraiser, hend⟩ := bind_eq_ok.mp hraises
  obtain ⟨i, rfl, hi⟩ := accessor_eq_ok.mp hadder
  obtain ⟨j, rfl, hj⟩ := accessor_eq_ok.mp hremover
  have htakes : takesOnly adder type = true ∧ takesOnly remover type = true := by
    cases ha : takesOnly adder type with
    | false =>
      simp only [List.forIn_cons, ha] at hsignatures
      cases hsignatures
    | true =>
      cases hr : takesOnly remover type with
      | false =>
        simp only [List.forIn_cons, ha, hr] at hsignatures
        cases hsignatures
      | true => exact ⟨rfl, rfl⟩
  have hstatic : ∀ m, m = remover ∨ raiser = some m → m.isStatic = adder.isStatic := by
    dsimp only at hend
    split at hend
    · cases hend
    · rename_i hfind
      rw [List.find?_eq_none] at hfind
      rintro m (rfl | rfl)
      · simpa using hfind ("remove_method", m) (by simp)
      · simpa using hfind ("raise_method", m) (by simp)
  refine ⟨adder.isStatic, ⟨i, adder, rfl, hi, rfl, takesOnly_iff.mp htakes.1⟩,
    ⟨j, remover, rfl, hj, hstatic _ (.inl rfl), takesOnly_iff.mp htakes.2⟩, ?_⟩
  intro handle hh
  cases Option.mem_def.mp hh
  rw [Option.mapM_some] at hraiser
  cases hm : d.accessor handle "raise_method" with
  | error f =>
    rw [hm] at hraiser
    cases hraiser
  | ok m =>
    rw [hm] at hraiser
    cases hraiser
    obtain ⟨k, rfl, hk⟩ := accessor_eq_ok.mp hm
    exact ⟨k, m, rfl, hk, hstatic m (.inr rfl), trivial⟩

theorem wp_addEvent {post : EventHandle → Descriptor → Prop} {name : String} {type : Signature}
    {add remove : MethodHandle} {raise : Option MethodHandle}
    (h : d.isSealed = false → type.isReference = true → (∀ v ∈ d.events, v.name ≠ name) →
      d.ServesEvent type add remove raise →
      let handle : EventHandle := ⟨d.handle, d.events.size⟩
      post handle (touch
        { d with events := d.events.push { handle, name, type, add, remove, raise } }))
    (hfail : fail d) : (addEvent u name type add remove raise).wp post fail d := by
  refine wp_mutable (fun hs => ?_) fun _ => hfail
  simp only [wp_bind, wp_ite, wp_throw, wp_lift, wp_set, wp_pure, any_eq_iff, Classical.not_not]
  exact ⟨fun _ => hfail, fun hreference => ⟨fun _ => hfail, fun hfree => ⟨fun _ check =>
    h hs (by simpa using hreference) hfree (checkEvent_ok check), fun _ _ => hfail⟩⟩⟩

theorem wp_addPropertyAccessors {post : PropertyHandle → Descriptor → Prop} {name : String}
    {signature : Signature} {access : Access} {getterBody setterBody : Option Expr}
    (h : d.isSealed = false → (∀ p ∈ d.properties, p.name ≠ name) →
      (do
        let flags := withAccess (MethodFlags.hideBySig ||| MethodFlags.specialName) access
        let getter ← getterBody.mapM fun body =>
          addMethod ("get_" ++ name) flags (.unnamed signature []) (some body)
        let setter ← setterBody.mapM fun body =>
          addMethod ("set_" ++ name) flags ⟨.void, [⟨"value", signature⟩]⟩ (some body)
        addProperty u name signature getter setter :
          Attempt Descriptor PropertyHandle).wp post fail d)
    (hfail : ¬ (d.isSealed = false ∧ ∀ p ∈ d.properties, p.name ≠ name) → fail d) :
    (addPropertyAccessors u name signature access getterBody setterBody).wp post fail d := by
  refine wp_mutable (fun hs => ?_) fun hs => hfail fun hall => by rw [hs] at hall; cases hall.1
  rw [wp_ite, any_eq_iff, Classical.not_not]
  exact ⟨fun htaken => hfail fun hall => htaken hall.2, fun hfree => h hs hfree⟩

/-! ### Interfaces and attributes -/

theorem wp_addInterface {post : PUnit → Descriptor → Prop} {interface : TypeId} {allow : Bool}
    (h : d.isSealed = false → (u.record interface).isInterface = true →
      (∀ listed ∈ d.interfaceTypes u, (u.record listed).token ≠ (u.record interface).token) →
      post ⟨⟩ (touch { d with interfaces := d.interfaces.push (.ofClass interface) }))
    (hlisted : post ⟨⟩ d) (hfail : fail d) : (addInterface u interface allow).wp post fail d := by
  refine wp_mutable (fun hs => ?_) fun _ => hfail
  simp only [wp_bind, wp_ite, wp_throw, wp_set, wp_pure]
  refine ⟨fun _ => hfail, fun hi => ⟨fun _ => hfail, fun _ => ⟨fun _ => hlisted, fun hnew => ?_⟩⟩⟩
  refine h hs (by simpa using hi) fun listed hmem htoken => hnew ?_
  have hany : ((d.interfaceTypes u).any fun listed => (u.record listed).token
    == (u.record interface).token) = true :=
    List.any_eq_true.mpr ⟨listed, hmem, by rw [htoken, beq_self_eq_true]⟩
  have himplements : d.implementsInterface u interface = true := by
    rw [implementsInterface, Bool.or_eq_true]
    exact .inl (List.any_eq_true.mpr ⟨listed, hmem, by rw [htoken, beq_self_eq_true, Bool.true_or]⟩)
  rw [himplements, hany]
  rfl

theorem wp_addDraftInterface {post : PUnit → Descriptor → Prop} {interface : TypeHandle}
    (h : d.isSealed = false → .draft interface ∉ d.interfaces →
      post ⟨⟩ (touch { d with interfaces := d.interfaces.push (.draft interface) }))
    (hfail : fail d) : (addDraftInterface interface).wp post fail d := by
  refine wp_mutable (fun hs => ?_) fun _ => hfail
  simp only [wp_bind, wp_ite, wp_throw, wp_set]
  exact ⟨fun _ => hfail, fun hnew => h hs (by simpa using hnew)⟩

theorem wp_addAttribute {post : PUnit → Descriptor → Prop} {a : Attribute}
    (h : d.isSealed = false → post ⟨⟩ (touch { d with attributes := d.attributes.push a }))
    (hfail : fail d) :
    (addAttribute a).wp post fail d := wp_mutable h fun _ => hfail

theorem wp_addMethodAttribute {post : PUnit → Descriptor → Prop}
    {handle : MethodHandle} {a : Attribute} (h : d.isSealed = false → (d.method? handle).isSome →
      post ⟨⟩ (d.modifyMethod handle.slot fun m =>
        { m with attributes := m.attributes.push a }).touch)
    (hfail : fail d) : (addMethodAttribute handle a).wp post fail d := by
  refine wp_mutable (fun hs => ?_) fun _ => hfail
  simp only [wp_bind, wp_ite, wp_throw, wp_set]
  exact ⟨fun _ => hfail, fun hsome => h hs (by simpa [Option.isSome_iff_ne_none] using hsome)⟩

theorem wp_addFieldAttribute {post : PUnit → Descriptor → Prop}
    {handle : FieldHandle} {a : Attribute}
    (h : d.isSealed = false → handle.owner = d.handle → (d.field? handle).isSome →
      post ⟨⟩ (touch { d with
        fields := d.fields.modify handle.index fun f =>
          { f with attributes := f.attributes.push a } }))
    (hfail : fail d) : (addFieldAttribute handle a).wp post fail d := by
  refine wp_mutable (fun hs => ?_) fun _ => hfail
  simp only [wp_bind, wp_ite, wp_throw, wp_set]
  exact ⟨fun _ => hfail, fun howner => ⟨fun _ => hfail, fun hsome => h hs (by simpa using howner)
    (by simpa [Option.isSome_iff_ne_none] using hsome)⟩⟩

/-! ### Overrides and implementations -/

/-- The override of a slot is the registered one, an own method that takes the slot, or a new
one. -/
theorem wp_getOrAddOverride {post : MethodHandle × Bool → Descriptor → Prop} {m : MethodId}
    (hregistered : ∀ base existing, d.checkOverride u m = .ok base →
      d.overrides.find? (u.slotToken m) = some existing →
      post (existing, false) d)
    (hown : ∀ base own, d.checkOverride u m = .ok base → d.overrides.find? (u.slotToken m) = none →
      d.methods.find? (fun own => own.takesSlot (u.method m).name (u.method m).signature)
      = some own →
      post (own.handle, false) { d with overrides := d.overrides.put (u.slotToken m) own.handle })
    (hnew : ∀ base access, d.checkOverride u m = .ok base →
      d.overrides.find? (u.slotToken m) = none →
      d.methods.find? (fun own => own.takesSlot (u.method m).name (u.method m).signature) = none →
      d.overrideAccess u (u.resolveVirtual base m) = .ok access →
      post (d.nextMethod, true) (touch { d with
        methods := d.methods.push (newOverride u d.nextMethod m (u.resolveVirtual base m) access)
        overrides := d.overrides.put (u.slotToken m) d.nextMethod }))
    (hfail : fail d) : (getOrAddOverride u m).wp post fail d := by
  refine wp_mutable (fun hs => ?_) fun _ => hfail
  rw [wp_bind, wp_lift]
  refine ⟨fun base check => ?_, fun _ _ => hfail⟩
  cases hrow : d.overrides.find? (u.slotToken m) with
  | some existing =>
    simp only [hrow, wp_pure]
    exact hregistered base existing check hrow
  | none =>
    cases hfound : d.methods.find? fun own =>
      own.takesSlot (u.method m).name (u.method m).signature with
    | some own =>
      simp only [hrow, wp_bind, wp_set, wp_pure]
      exact hown base own check hrow hfound
    | none =>
      simp only [hrow, wp_bind, wp_lift, wp_set, wp_pure]
      exact ⟨fun access haccess => hnew base access check hrow hfound haccess, fun _ _ => hfail⟩

/-- The implementation of an interface method is the registered one, an own public method, the
override of the inherited implementation, or a new abstract method. -/
theorem wp_getOrAddImplementation {post : MethodHandle × Bool → Descriptor → Prop} {m : MethodId}
    (hregistered : ∀ existing, d.checkImplementation u m = .ok () →
      d.implementations.find? (u.method m).token = some existing → post (existing, false) d)
    (hown : ∀ own, d.checkImplementation u m = .ok () →
      d.implementations.find? (u.method m).token = none →
      d.methods.find? (fun own => own.isPublicVirtual (u.method m).name (u.method m).signature)
      = some own →
      post (own.handle,
        false) { d with implementations := d.implementations.put (u.method m).token own.handle })
    (hinherited : ∀ inherited, d.checkImplementation u m = .ok () →
      d.implementations.find? (u.method m).token = none →
      d.methods.find? (fun own => own.isPublicVirtual (u.method m).name (u.method m).signature)
        = none →
      ((d.baseType? u).bind fun base => u.resolveInterfaceMethod base m) = some inherited →
      (u.method inherited).isVirtual = true ∧ (u.method inherited).isFinal = false →
      (getOrAddOverride u inherited).wp (fun answer after => post answer
        { after with
          implementations := after.implementations.put (u.method m).token answer.1 }) fail d)
    (hnew : d.checkImplementation u m = .ok () → d.implementations.find? (u.method m).token = none →
      d.methods.find? (fun own => own.isPublicVirtual (u.method m).name (u.method m).signature)
      = none →
      d.checkMethod (u.method m).name newImplementationFlags (u.method m).signature false = .ok () →
      post (d.nextMethod, true) (touch { d with
        methods := d.methods.push
          { handle := d.nextMethod, name := (u.method m).name, kind := .method,
            flags := newImplementationFlags,
            signature := (u.method m).signature, body := none, explicitOverrides := #[m] }
        implementations := d.implementations.put (u.method m).token d.nextMethod }))
    (hfail : fail d) : (getOrAddImplementation u m).wp post fail d := by
  refine wp_mutable (fun hs => ?_) fun _ => hfail
  rw [wp_bind, wp_lift]
  refine ⟨fun _ check => ?_, fun _ _ => hfail⟩
  cases hrow : d.implementations.find? (u.method m).token with
  | some existing =>
    simp only [hrow, wp_pure]
    exact hregistered existing check hrow
  | none =>
    cases hfound : d.methods.find? fun own =>
      own.isPublicVirtual (u.method m).name (u.method m).signature with
    | some own =>
      simp only [hrow, hfound, wp_bind, wp_set, wp_pure]
      exact hown own check hrow hfound
    | none =>
      cases hbase : (d.baseType? u).bind fun base => u.resolveInterfaceMethod base m with
      | none =>
        simp only [hrow, hfound, wp_bind, wp_lift, wp_set, wp_pure]
        exact ⟨fun _ hcheck => hnew check hrow hfound hcheck, fun _ _ => hfail⟩
      | some inherited =>
        simp only [hrow, hfound, wp_ite, wp_bind, wp_throw]
        refine ⟨fun _ => hfail, fun hpassed => ?_⟩
        have hoverridable : (u.method inherited).isVirtual = true
          ∧ (u.method inherited).isFinal = false := by simpa using hpassed
        exact wp_mono (hinherited inherited check hrow hfound hbase hoverridable)
          (fun _ _ h => h) fun _ h => h

def withOverride (u : Universe) (d : Descriptor) (m : MethodId) (base : TypeId) (access : Access) :
    Descriptor :=
  touch { d with
    methods := d.methods.push (newOverride u d.nextMethod m (u.resolveVirtual base m) access)
    overrides := d.overrides.put (u.slotToken m) d.nextMethod }

/-- How asking for an override ends that can be asked for. -/
theorem start_getOrAddOverride {m : MethodId} {base : TypeId} (hopen : d.isSealed = false)
    (check : d.checkOverride u m = .ok base) :
    (getOrAddOverride u m).start d =
      match d.overrides.find? (u.slotToken m) with
      | some existing => (.ok (existing, false), d)
      | none =>
        match d.methods.find? fun own => own.takesSlot (u.method m).name (u.method m).signature with
        | some own =>
          (.ok (own.handle, false),
            { d with overrides := d.overrides.put (u.slotToken m) own.handle })
        | none =>
          match d.overrideAccess u (u.resolveVirtual base m) with
          | .ok access => (.ok (d.nextMethod, true), d.withOverride u m base access)
          | .error f => (.error f, d) := by
  have hmutable : ensureMutable.start d = (.ok ⟨⟩, d) := by simp [ensureMutable, start_bind, hopen]
  simp only [getOrAddOverride, start_bind, hmutable, start_get, start_lift, check]
  cases d.overrides.find? (u.slotToken m) with
  | some existing => rfl
  | none =>
    cases d.methods.find? fun own => own.takesSlot (u.method m).name (u.method m).signature with
    | some own => rfl
    | none =>
      simp only [start_bind, start_lift]
      cases d.overrideAccess u (u.resolveVirtual base m) <;> rfl

end Descriptor

/-! ### Operations on batches -/

namespace Batch

open Attempt

variable {α : Type} {u : Universe} {b : Batch} {fail : Batch → Prop}

theorem require_eq_ok {h : TypeHandle} {d : Descriptor} :
    b.require h = .ok d ↔ b.find? h = some d := by
  unfold require
  cases b.find? h <;> simp

theorem find?_closeAll (b : Batch) (h : TypeHandle) :
    b.closeAll.find? h = (b.find? h).map Descriptor.close := by
  simp [find?, closeAll]

theorem wp_onType {act : Attempt Descriptor α} {post : α → Batch → Prop} {t : TypeHandle}
    (hmissing : b.find? t = none → fail b)
    (h : ∀ d, b.find? t = some d →
      act.wp (fun v d' => post v { b with types := b.types.setIfInBounds t.index d' })
        (fun d' => fail { b with types := b.types.setIfInBounds t.index d' }) d) :
    (onType t act).wp post fail b := by
  rw [onType, wp_of]
  cases hd : b.find? t with
  | none => exact hmissing hd
  | some d =>
    have hact := h d hd
    unfold wp at hact
    rcases hrun : act.start d with ⟨r | r, d'⟩ <;> rw [hrun] at hact <;> simpa [hrun] using hact

theorem wp_createType {post : TypeHandle → Batch → Prop} {space name : String} {flags : UInt32}
    {base : Option Signature} (h : name ≠ "" → b.checkBase u flags base = .ok () →
      let handle : TypeHandle := ⟨b.types.size⟩
      post handle { b with types := b.types.push (Descriptor.touch { handle, space, name, flags, base }) })
    (hfail : fail b) : (createType u space name flags base).wp post fail b := by
  unfold createType
  simp only [wp_bind, wp_get, wp_ite, wp_throw, wp_lift, wp_set, wp_pure]
  exact ⟨fun _ => hfail, fun hname => ⟨fun _ check => h (by simpa using hname) check,
    fun _ _ => hfail⟩⟩

theorem setIfInBounds_push (items : Array α) (first last : α) :
    (items.push first).setIfInBounds items.size last = items.push last := by
  apply Array.ext_getElem?
  intro i
  rw [Array.getElem?_setIfInBounds, Array.getElem?_push, Array.getElem?_push, Array.size_push]
  by_cases hi : items.size = i
  · rw [if_pos hi, if_pos (by omega), if_pos hi.symm]
  · rw [if_neg hi, if_neg (Ne.symm hi), if_neg (Ne.symm hi)]

/-- An enclosed descriptor is pushed with its enclosing one, which then lists it. -/
theorem wp_addNested {post : TypeHandle → Batch → Prop} {outer : TypeHandle} {name : String}
    {flags : UInt32} {base : Option Signature}
    (h : ∀ d, b.find? outer = some d → d.isSealed = false → name ≠ "" →
      b.checkBase u (nestedFlags flags) base = .ok () →
      let handle : TypeHandle := ⟨b.types.size⟩
      let made := Descriptor.touch
        { handle, space := "", name, flags := nestedFlags flags, base, declaring := some outer }
      post handle { b with
        types := (b.types.push made).setIfInBounds outer.index
          { d with nested := d.nested.push handle }.touch })
    (hfail : fail b) : (addNested u outer name flags base).wp post fail b := by
  have hcreated : ∀ d, b.find? outer = some d → d.isSealed = false →
      (do
        let handle ← createType u "" name (nestedFlags flags) base
        onType handle (modify fun d => { d with declaring := some outer })
        onType outer (modify fun d => { d with nested := d.nested.push handle }.touch)
        return handle : Attempt Batch TypeHandle).wp post fail b := by
    intro d hd hs
    have hlt : outer.index < b.types.size := (Array.getElem?_eq_some_iff.mp hd).1
    rw [wp_bind]
    refine wp_createType (fun hname check => ?_) hfail
    have hpost := h d hd hs hname check
    have hne : b.types.size ≠ outer.index := Nat.ne_of_gt hlt
    rw [wp_bind]
    refine wp_onType (fun hnone => ?_) fun made hmade => ?_
    · simp [find?] at hnone
    · obtain rfl :
          Descriptor.touch
          { handle := ⟨b.types.size⟩, space := "", name, flags := nestedFlags flags, base }
          = made := by
        simpa [find?] using hmade
      rw [wp_modify, wp_bind]
      refine wp_onType (fun hnone => ?_) fun old hold => ?_
      · simp [find?] at hnone
        omega
      · dsimp only at hold ⊢
        rw [setIfInBounds_push] at hold ⊢
        obtain rfl : d = old := by
          have hsame : (b.types.push _)[outer.index]? = some old := hold
          rw [Array.getElem?_push, if_neg hne.symm] at hsame
          exact Option.some.inj (hd.symm.trans hsame)
        exact hpost
  unfold addNested
  rw [wp_bind, wp_get, wp_bind, wp_lift]
  refine ⟨fun d hd => ?_, fun _ _ => hfail⟩
  rw [require_eq_ok] at hd
  simp only [wp_bind, wp_ite, wp_throw]
  refine ⟨fun _ => hfail, fun hs => ?_⟩
  have hrest := hcreated d hd (by simpa using hs)
  simpa only [wp_bind] using hrest

theorem wp_addBatchInterface {post : PUnit → Batch → Prop} {t interface : TypeHandle}
    (h : ∀ i, b.find? interface = some i → i.isInterface = true →
      (onType t (Descriptor.addDraftInterface interface)).wp post fail b) (hfail : fail b) :
    (addBatchInterface t interface).wp post fail b := by
  unfold addBatchInterface
  simp only [wp_bind, wp_get, wp_lift, wp_ite, wp_throw]
  exact ⟨fun i hi => ⟨fun _ => hfail, fun hinterface =>
    h i (require_eq_ok.mp hi) (by simpa using hinterface)⟩,
    fun _ _ => hfail⟩

end Batch

/-! ### Edits -/

/-- The operations that add to a descriptor and register nothing. -/
inductive Descriptor.Addition (u : Universe) : {α : Type} → Attempt Descriptor α → Prop
  | addField (name : String) (signature : Signature) (flags : UInt32) :
  Addition u (addField name signature flags)
  | addConstructor (flags : UInt32) (parameters : List Parameter) (body : Expr) :
      Addition u (addConstructor flags parameters body)
  | addTypeInitializer (body : Expr) : Addition u (addTypeInitializer body)
  | addTypeInitialization (e : Expr) : Addition u (addTypeInitialization e)
  | addInitialization (e : Expr) : Addition u (addInitialization e)
  | addMethod (name : String) (flags : UInt32) (signature : MethodSignature) (body : Option Expr) :
      Addition u (addMethod name flags signature body)
  | setMethodBody (h : MethodHandle) (body : Expr) : Addition u (setMethodBody h body)
  | addProperty (name : String) (signature : Signature) (getter setter : Option MethodHandle) :
      Addition u (addProperty u name signature getter setter)
  | addPropertyAccessors (name : String) (signature : Signature) (access : Access)
    (getterBody setterBody : Option Expr) :
      Addition u (addPropertyAccessors u name signature access getterBody setterBody)
  | addAutoProperty (name : String) (signature : Signature) (access : Access) :
      Addition u (addAutoProperty u name signature access)
  | addEvent (name : String) (type : Signature) (add remove : MethodHandle)
    (raise : Option MethodHandle) :
      Addition u (addEvent u name type add remove raise)
  | addInterface (interface : TypeId) (allow : Bool) : Addition u (addInterface u interface allow)
  | addAttribute (a : Attribute) : Addition u (addAttribute a)
  | addMethodAttribute (h : MethodHandle) (a : Attribute) : Addition u (addMethodAttribute h a)
  | addFieldAttribute (h : FieldHandle) (a : Attribute) : Addition u (addFieldAttribute h a)

inductive Descriptor.Operation (u : Universe) : {α : Type} → Attempt Descriptor α → Prop
  | addition {α : Type} {act : Attempt Descriptor α} (h : Addition u act) : Operation u act
  | getOrAddOverride (m : MethodId) : Operation u (getOrAddOverride u m)
  | getOrAddImplementation (m : MethodId) : Operation u (getOrAddImplementation u m)

open Attempt in
/-- Edits that register something are looked at one by one, and others keep what additions keep. -/
theorem Batch.wp_perform {u : Universe} {P : Batch → Prop} {b : Batch} {e : Edit} (hb : P b)
    (hcreate : ∀ space name flags base, Maintains P (createType u space name flags base))
    (hnested : ∀ outer name flags base, Maintains P (addNested u outer name flags base))
    (hinterface : ∀ t i, Maintains P (addBatchInterface t i))
    (hon : ∀ {α : Type} (t : TypeHandle) {act : Attempt Descriptor α}, Descriptor.Addition u act →
      Maintains P (onType t act))
    (hoverride : ∀ t m, e = .overrideMethod t m →
      (onType t (Descriptor.getOrAddOverride u m)).wp (fun _ => P) P b)
    (himplement : ∀ t m, e = .implementMethod t m →
      (onType t (Descriptor.getOrAddImplementation u m)).wp (fun _ => P) P b)
    (hask : ∀ t, e = .askAbstract t → Maintains P (askAbstract u t)) :
        (e.perform u).wp (fun _ => P) P b := by
  cases e with
  | createType space name flags base => exact maintains_map (hcreate space name flags base) b hb
  | createInterface space name => exact maintains_map (hcreate space name _ none) b hb
  | addNested outer name flags base => exact maintains_map (hnested outer name flags base) b hb
  | addBatchInterface t i => exact maintains_bind (hinterface t i) (fun _ => maintains_pure _) b hb
  | addField t name signature flags =>
    exact maintains_map (hon t (.addField name signature flags)) b hb
  | addConstructor t flags parameters body =>
    exact maintains_map (hon t (.addConstructor flags parameters body)) b hb
  | addTypeInitializer t body => exact maintains_map (hon t (.addTypeInitializer body)) b hb
  | addTypeInitialization t e =>
    exact maintains_bind (hon t (.addTypeInitialization e)) (fun _ => maintains_pure _) b hb
  | addInitialization t e =>
    exact maintains_bind (hon t (.addInitialization e)) (fun _ => maintains_pure _) b hb
  | addMethod t name flags signature body =>
    exact maintains_map (hon t (.addMethod name flags signature body)) b hb
  | setMethodBody t m body =>
    exact maintains_bind (hon t (.setMethodBody m body)) (fun _ => maintains_pure _) b hb
  | addProperty t name signature getter setter =>
    exact maintains_map (hon t (.addProperty name signature getter setter)) b hb
  | addPropertyAccessors t name signature access getterBody setterBody =>
    exact maintains_map (hon t (.addPropertyAccessors name signature access getterBody setterBody))
      b hb
  | addAutoProperty t name signature access =>
    exact maintains_map (hon t (.addAutoProperty name signature access)) b hb
  | addEvent t name eventType add remove raise =>
    exact maintains_map (hon t (.addEvent name eventType add remove raise)) b hb
  | addInterface t interface allow =>
    exact maintains_bind (hon t (.addInterface interface allow)) (fun _ => maintains_pure _) b hb
  | addAttribute t a =>
    exact maintains_bind (hon t (.addAttribute a)) (fun _ => maintains_pure _) b hb
  | addMethodAttribute t m a =>
    exact maintains_bind (hon t (.addMethodAttribute m a)) (fun _ => maintains_pure _) b hb
  | addFieldAttribute t f a =>
    exact maintains_bind (hon t (.addFieldAttribute f a)) (fun _ => maintains_pure _) b hb
  | overrideMethod t m => exact wp_step (hoverride t m rfl) (fun _ _ h => h) fun _ h => h
  | implementMethod t m => exact wp_step (himplement t m rfl) (fun _ _ h => h) fun _ h => h
  | askAbstract t => exact maintains_map (hask t rfl) b hb

open Attempt in
theorem Batch.maintains_perform {u : Universe} {P : Batch → Prop}
    (hcreate : ∀ space name flags base, Maintains P (createType u space name flags base))
    (hnested : ∀ outer name flags base, Maintains P (addNested u outer name flags base))
    (hinterface : ∀ t i, Maintains P (addBatchInterface t i))
    (hon : ∀ {α : Type} (t : TypeHandle) {act : Attempt Descriptor α}, Descriptor.Operation u act →
      Maintains P (onType t act))
    (e : Edit) (hask : ∀ t, e = .askAbstract t → Maintains P (askAbstract u t)) :
      Maintains P (e.perform u) :=
  fun b hb => wp_perform hb hcreate hnested hinterface (fun t _ h => hon t (.addition h))
    (fun t m _ => hon t (.getOrAddOverride m) b hb)
    (fun t m _ => hon t (.getOrAddImplementation m) b hb) hask

end TypeLoom
