import TypeLoom.Proofs.Handles

/-!
# Closed batches

A generation closes the descriptors of its batch, and what is closed stays as it is: every operation
that would change a closed descriptor fails, with the one fault that says so, before it looks at
anything else. What may still be filled in is the remembered answer to whether the type is abstract.
-/

namespace TypeLoom

open Attempt

variable {α β : Type} {u : Universe}

/-! ### Operations on a closed descriptor -/

namespace Descriptor

variable {d mid d' : Descriptor}

def Asked (d d' : Descriptor) : Prop :=
  d' = d ∨ d.abstractMemo = none ∧ ∃ u :
    Universe, d' = { d with abstractMemo := some (d.computeAbstract u) }

theorem Asked.refl (d : Descriptor) : d.Asked d := .inl rfl

theorem Asked.trans (h : d.Asked mid) (h' : mid.Asked d') : d.Asked d' := by
  rcases h with rfl | ⟨hunknown, u, rfl⟩
  · exact h'
  · rcases h' with rfl | ⟨hknown, -⟩
    · exact .inr ⟨hunknown, u, rfl⟩
    · cases hknown

theorem asked_askAbstract (u : Universe) (d : Descriptor) : d.Asked (d.askAbstract u).2 := by
  unfold askAbstract
  cases hmemo : d.abstractMemo with
  | some answer => exact .refl d
  | none => exact .inr ⟨hmemo, u, rfl⟩

theorem Asked.isSealed (h : d.Asked d') : d'.isSealed = d.isSealed := by
  rcases h with rfl | ⟨-, u, rfl⟩ <;> rfl

theorem Asked.fullName (h : d.Asked d') : d'.fullName = d.fullName := by
  rcases h with rfl | ⟨-, u, rfl⟩ <;> rfl

/-- On a closed descriptor the operation does nothing but fail. -/
def Refusing (act : Attempt Descriptor α) : Prop :=
  ∀ d : Descriptor, d.isSealed = true → act.start d = (.error (.descriptorSealed d.fullName), d)

theorem refusing_bind {act : Attempt Descriptor α} {next : α → Attempt Descriptor β}
    (h : Refusing act) :
    Refusing (act >>= next) := fun d hd => start_bind_error.mpr (.inl (h d hd))

theorem refusing_ensureMutable : Refusing ensureMutable := by
  intro d hd
  rw [ensureMutable, start_bind, start_get]
  simp only [hd, if_true, start_throw]

theorem refusing_checked {next : Unit → Attempt Descriptor α} : Refusing (ensureMutable >>= next) :=
  refusing_bind refusing_ensureMutable

theorem refusing_addField (name : String) (signature : Signature) (flags : UInt32) :
    Refusing (addField name signature flags) :=
  refusing_checked

theorem refusing_operation {act : Attempt Descriptor α} (operation : Operation u act) :
    Refusing act := by
  cases operation with
  | addition h =>
    cases h with
    | addAutoProperty name signature access => exact refusing_bind (refusing_addField _ _ _)
    | _ => exact refusing_checked
  | getOrAddOverride m => exact refusing_checked
  | getOrAddImplementation m => exact refusing_checked

theorem refusing_addDraftInterface (interface : TypeHandle) :
    Refusing (addDraftInterface interface) := refusing_checked

end Descriptor

/-! ### Edits of a closed descriptor -/

/-- The descriptor one of whose own operations the edit is. -/
def Edit.mutated? : Edit → Option TypeHandle
  | createType .. | createInterface .. | addNested .. | addBatchInterface .. | askAbstract _ => none
  | e => e.target?

namespace Batch

variable {b mid b' known : Batch} {t h : TypeHandle} {d : Descriptor}

theorem start_onType_refused {act : Attempt Descriptor α} (hact : Descriptor.Refusing act)
    (hd : b.find? t = some d) (hclosed : d.isSealed = true) :
    (onType t act).start b = (.error (.descriptorSealed d.fullName), b) := by
  have hsame : { b with types := b.types.setIfInBounds t.index d } = b := by
    rw [setIfInBounds_same hd]
  rw [onType, start_of, hd]
  simp only [hact d hclosed, hsame]

theorem start_refused {act : Attempt Descriptor α} {next : α → Attempt Batch β}
    (operation : Descriptor.Operation u act) (hd : b.find? t = some d)
    (hclosed : d.isSealed = true) :
    (onType t act >>= next).start b = (.error (.descriptorSealed d.fullName), b) :=
  start_bind_error.mpr
    (.inl (start_onType_refused (Descriptor.refusing_operation operation) hd hclosed))

theorem start_perform_refused {e : Edit} (hmutated : e.mutated? = some t) (hd : b.find? t = some d)
    (hclosed : d.isSealed = true) :
    (e.perform u).start b = (.error (.descriptorSealed d.fullName), b) := by
  have hadded : ∀ {γ : Type} {act : Attempt Descriptor γ} (next : γ → Attempt Batch EditAnswer),
    Descriptor.Addition u act →
      (onType t act >>= next).start b = (.error (.descriptorSealed d.fullName), b) :=
    fun _ addition => start_refused (.addition addition) hd hclosed
  cases e with
  | createType | createInterface | addNested | addBatchInterface | askAbstract => cases hmutated
  | addField t name signature flags =>
    cases hmutated; exact hadded _ (.addField name signature flags)
  | addConstructor t flags parameters body =>
    cases hmutated; exact hadded _ (.addConstructor flags parameters body)
  | addTypeInitializer t body => cases hmutated; exact hadded _ (.addTypeInitializer body)
  | addTypeInitialization t e => cases hmutated; exact hadded _ (.addTypeInitialization e)
  | addInitialization t e => cases hmutated; exact hadded _ (.addInitialization e)
  | addMethod t name flags signature body =>
    cases hmutated; exact hadded _ (.addMethod name flags signature body)
  | setMethodBody t m body => cases hmutated; exact hadded _ (.setMethodBody m body)
  | addProperty t name signature getter setter =>
    cases hmutated; exact hadded _ (.addProperty name signature getter setter)
  | addPropertyAccessors t name signature access getterBody setterBody =>
    cases hmutated
    exact hadded _ (.addPropertyAccessors name signature access getterBody setterBody)
  | addAutoProperty t name signature access =>
    cases hmutated; exact hadded _ (.addAutoProperty name signature access)
  | addEvent t name type add remove raise =>
    cases hmutated; exact hadded _ (.addEvent name type add remove raise)
  | addInterface t interface allow => cases hmutated; exact hadded _ (.addInterface interface allow)
  | addAttribute t a => cases hmutated; exact hadded _ (.addAttribute a)
  | addMethodAttribute t m a => cases hmutated; exact hadded _ (.addMethodAttribute m a)
  | addFieldAttribute t f a => cases hmutated; exact hadded _ (.addFieldAttribute f a)
  | overrideMethod t m => cases hmutated; exact start_refused (.getOrAddOverride m) hd hclosed
  | implementMethod t m =>
    cases hmutated; exact start_refused (.getOrAddImplementation m) hd hclosed

theorem start_addNested_refused (name : String) (flags : UInt32) (base : Option Signature)
    (hd : b.find? t = some d) (hclosed : d.isSealed = true) :
    (addNested u t name flags base).start b = (.error (.descriptorSealed d.fullName), b) := by
  have hfound : b.require t = .ok d := require_eq_ok.mpr hd
  simp only [addNested, start_bind, start_get, start_lift, hfound, hclosed, if_true, start_throw]

theorem start_addBatchInterface_refused (interface : TypeHandle) (hd : b.find? t = some d)
    (hclosed : d.isSealed = true) :
    ∃ fault, (addBatchInterface t interface).start b = (.error fault, b)
      ∧ ∀ i, b.find? interface = some i → i.isInterface = true →
      fault = .descriptorSealed d.fullName := by
  have hrefused := start_onType_refused (Descriptor.refusing_addDraftInterface interface) hd hclosed
  cases hi : b.find? interface with
  | none =>
    refine ⟨unknown interface, ?_, fun i hnone => absurd hnone.symm (Option.some_ne_none i)⟩
    have hmissing : b.require interface = .error (unknown interface) := by rw [require, hi]
    simp only [addBatchInterface, start_bind, start_get, start_lift, hmissing]
  | some i =>
    have hfound : b.require interface = .ok i := require_eq_ok.mpr hi
    by_cases hinterface : i.isInterface = true
    · refine ⟨_, ?_, fun _ _ _ => rfl⟩
      simp only [addBatchInterface, start_bind, start_get, start_lift, hfound, hinterface,
        Bool.not_true, Bool.false_eq_true,
        if_false, hrefused]
    · have hother : (addBatchInterface t interface).start b
          = (.error (.argument "interface" ("'" ++ i.fullName ++ "' is not an interface")), b) := by
        simp only [addBatchInterface, start_bind, start_get, start_lift, hfound, hinterface,
          Bool.not_false, if_true, start_throw]
      refine ⟨_, hother, fun j hj hj' => ?_⟩
      obtain rfl := Option.some.inj hj
      exact absurd hj' hinterface

/-! ### Batches that keep closed descriptors -/

def Closed (b : Batch) : Prop := ∀ h d, b.find? h = some d → d.isSealed = true

theorem closed_closeAll (b : Batch) : b.closeAll.Closed := by
  intro h d hd
  rw [find?_closeAll] at hd
  obtain ⟨_, -, rfl⟩ := Option.map_eq_some_iff.mp hd
  rfl

def Persists (known b : Batch) : Prop := ∀ h d, known.find? h = some d →
    ∃ d', b.find? h = some d' ∧ d.Asked d'

theorem Persists.refl (b : Batch) : b.Persists b := fun _ d hd => ⟨d, hd, .refl d⟩

theorem Persists.trans (h : known.Persists mid) (h' : mid.Persists b) : known.Persists b := by
  intro t d hd
  obtain ⟨d₁, hd₁, hfirst⟩ := h t d hd
  obtain ⟨d₂, hd₂, hsecond⟩ := h' t d₁ hd₁
  exact ⟨d₂, hd₂, hfirst.trans hsecond⟩

theorem Persists.closed (h : known.Persists b) (hclosed : known.Closed) {old : Descriptor}
    (hold : known.find? t = some old) (hd : b.find? t = some d) : d.isSealed = true := by
  obtain ⟨d', hd', hasked⟩ := h t old hold
  obtain rfl : d = d' := Option.some.inj (hd.symm.trans hd')
  rw [hasked.isSealed, hclosed t old hold]

/-- What is put in the place of a descriptor is what may have become of it, or the place is a new
one. -/
theorem Persists.set (h : known.Persists b) {made : Descriptor}
    (hmade : ∀ d, known.find? t = some d → d.Asked made) :
    known.Persists { b with types := b.types.setIfInBounds t.index made } := by
  intro other d hd
  obtain ⟨d', hd', hasked⟩ := h other d hd
  rw [find?_setIfInBounds, hd', Option.map_some]
  split
  · rename_i hsame
    obtain rfl : t = other := hsame
    exact ⟨made, rfl, hmade d hd⟩
  · exact ⟨d', rfl, hasked⟩

theorem Persists.push (h : known.Persists b) (made : Descriptor) :
    known.Persists { b with types := b.types.push made } := by
  intro other d hd
  obtain ⟨d', hd', hasked⟩ := h other d hd
  refine ⟨d', ?_, hasked⟩
  rw [find?_push, if_neg (Nat.ne_of_lt (Array.getElem?_eq_some_iff.mp hd').1), hd']

section Keeping

variable (hclosed : known.Closed)

include hclosed

theorem persists_onType {act : Attempt Descriptor α} (hact : Descriptor.Refusing act) :
    Maintains known.Persists (onType t act) := by
  intro b hb
  refine wp_onType (fun _ => hb) fun d hd => ?_
  cases hold : known.find? t with
  | some old =>
    have hsame : { b with types := b.types.setIfInBounds t.index d } = b := by
      rw [setIfInBounds_same hd]
    rw [wp_const, hact d (hb.closed hclosed hold hd), hsame]
    exact hb
  | none => exact wp_const.mpr (hb.set fun d hd => by rw [hold] at hd; cases hd)

theorem persists_addNested (outer : TypeHandle) (name : String) (flags : UInt32)
    (base : Option Signature) :
    Maintains known.Persists (addNested u outer name flags base) := by
  refine fun b hb => wp_addNested (fun d hd hopen _ _ => (hb.push _).set fun old hold => ?_) hb
  have hsealed := hb.closed hclosed hold hd
  rw [hopen] at hsealed
  cases hsealed

end Keeping

theorem persists_createType (space name : String) (flags : UInt32) (base : Option Signature) :
    Maintains known.Persists (createType u space name flags base) :=
  fun _ hb => wp_createType (fun _ _ => hb.push _) hb

theorem persists_askAlone (t : TypeHandle) : Maintains known.Persists (askAlone u t) := by
  refine fun b hb => wp_onType (fun _ => hb) fun d hd => ?_
  rw [wp_of]
  refine hb.set fun old hold => ?_
  obtain ⟨d', hd', hasked⟩ := hb t old hold
  obtain rfl : d = d' := Option.some.inj (hd.symm.trans hd')
  exact hasked.trans (d.asked_askAbstract u)

theorem persists_askAbstract (t : TypeHandle) : Maintains known.Persists (askAbstract u t) :=
  maintains_bind (persists_askAlone t) fun _ =>
    maintains_ite (maintains_pure _) (maintains_bind maintains_get fun _ =>
      maintains_bind (maintains_lift _) fun _ => maintains_pure _)

theorem persists_perform (hclosed : known.Closed) (e : Edit) :
    Maintains known.Persists (e.perform u) :=
  maintains_perform persists_createType (persists_addNested hclosed)
    (fun _ interface b hb => wp_addBatchInterface
      (fun _ _ _ => persists_onType hclosed (Descriptor.refusing_addDraftInterface interface) b hb)
      hb)
    (fun _ _ operation => persists_onType hclosed (Descriptor.refusing_operation operation)) e fun t
      _ => persists_askAbstract t

theorem persists_closeAll (hclosed : known.Closed) (h : known.Persists b) :
    known.Persists b.closeAll := by
  intro t d hd
  obtain ⟨d', hd', hasked⟩ := h t d hd
  refine ⟨d', ?_, hasked⟩
  have hsealed := h.closed hclosed hd hd'
  have hsame : d'.close = d' := by
    cases d'
    simpa [Descriptor.close] using hsealed.symm
  rw [find?_closeAll, hd', Option.map_some, hsame]

theorem Consulted.persists (h : b.Consulted b') : b.Persists b' := by
  induction h with
  | refl => exact .refl b
  | tail _ hasked ih =>
    obtain ⟨u, t, rfl⟩ := hasked
    exact wp_const.mp (persists_askAbstract t _ ih)

/-! ### Whatever is done after a generation -/

/-- The batch that a generation leaves behind, however it ended. -/
def generated (objectType : TypeId) (w : Workshop) (b : Batch) : Batch :=
  ((Production.generate objectType).start { batch := b, workshop := w }).2.batch

theorem persists_generated (objectType : TypeId) (w : Workshop) (b : Batch) :
    b.closeAll.Persists (b.generated objectType w) :=
  Consulted.persists (wp_const.mp (Production.wp_generate_consulted objectType
    { batch := b, workshop := w }))

theorem closed_generated (objectType : TypeId) (w : Workshop) (b : Batch) :
    (b.generated objectType w).Closed := by
  intro t d hd
  have hremembers :=
    wp_const.mp (Production.wp_generate_remembers objectType { batch := b, workshop := w })
  obtain ⟨old, hold, -⟩ := hremembers.symm.find hd
  exact (persists_generated objectType w b).closed b.closed_closeAll hold hd

/-- One operation on the batch, or one question to a descriptor whether it is abstract by itself. -/
inductive Use : Batch → Batch → Prop
  | step {b b' : Batch} (h : Step b b') : Use b b'
  | ask (u : Universe) (t : TypeHandle) (b : Batch) : Use b ((askAlone u t).start b).2

abbrev Used : Batch → Batch → Prop := Relation.ReflTransGen Use

theorem Use.persists (hclosed : known.Closed) (hb : known.Persists b) (h : Use b b') :
    known.Persists b' := by
  cases h with
  | ask u t b => exact wp_const.mp (persists_askAlone t b hb)
  | step h =>
    cases h with
    | edit u e b => exact wp_const.mp (persists_perform hclosed e b hb)
    | proxy u requested name b => exact hb.push _
    | generate objectType w b =>
      exact (persists_closeAll hclosed hb).trans (persists_generated objectType w b)

theorem Used.persists (hclosed : b.Closed) (h : Used b b') : b.Persists b' := by
  induction h with
  | refl => exact .refl b
  | tail _ huse ih => exact huse.persists hclosed ih

/-- How every attempt to change the descriptor of this name ends. -/
structure Refuses (b : Batch) (h : TypeHandle) (name : String) : Prop where
  mutators : ∀ (u : Universe) (e : Edit), e.mutated? = some h →
    (e.perform u).start b = (.error (.descriptorSealed name), b)
  nesting : ∀ u inner flags base, ((Edit.addNested h inner flags base).perform u).start b
    = (.error (.descriptorSealed name), b)
  listing : ∀ (u : Universe) interface, ∃ fault,
    ((Edit.addBatchInterface h interface).perform u).start b = (.error fault, b)
    ∧ ∀ i, b.find? interface = some i → i.isInterface = true → fault = .descriptorSealed name

theorem refuses (hd : b.find? h = some d) (hclosed : d.isSealed = true) :
    b.Refuses h d.fullName where
  mutators := fun _ _ hmutated => start_perform_refused hmutated hd hclosed
  nesting := fun _ name flags base =>
    start_bind_error.mpr (.inl (start_addNested_refused name flags base hd hclosed))
  listing := fun _ interface => by
    obtain ⟨fault, hfails, hfault⟩ := start_addBatchInterface_refused interface hd hclosed
    exact ⟨fault, start_bind_error.mpr (.inl hfails), hfault⟩

/-- A generation hands descriptors over for good. However it ends, it has closed what there was,
and whatever is done to the batch afterwards, further generations included, a descriptor stays as
it was handed over, except that the answer to whether it is abstract may have been asked for and
is then kept. Every operation of its own fails with the fault for closed descriptors, at any time
and whatever its arguments, also one that would only find what was registered before; so does
enclosing a new descriptor, and listing an interface of the batch. A failure changes nothing. -/
theorem generated_frozen {objectType : TypeId} {w : Workshop} {later : Batch}
    (hd : b.find? h = some d) (hlater : Used (b.generated objectType w) later) :
    ∃ made d', (b.generated objectType w).find? h = some made ∧ d.close.Asked made
      ∧ later.find? h = some d' ∧ made.Asked d' ∧ later.Refuses h d.fullName := by
  obtain ⟨made, hmade, hhanded⟩ :=
    persists_generated objectType w b h d.close (by rw [find?_closeAll, hd, Option.map_some])
  have hclosed := b.closed_generated objectType w
  obtain ⟨d', hd', hkept⟩ := hlater.persists hclosed h made hmade
  have hname : d'.fullName = d.fullName := hkept.fullName.trans hhanded.fullName
  refine ⟨made, d', hmade, hhanded, hd', hkept, ?_⟩
  rw [← hname]
  exact refuses hd' (hkept.isSealed.trans (hclosed h made hmade))

/-- An abstract class is generated; its method can then no longer be given a body. -/
theorem generated_frozen_greeter :
    ∃ made, ((Edit.run {} {} abstractGreeter).generated ⟨0⟩ {}).find? ⟨0⟩ = some made
    ∧ made.isSealed = true
      ∧ ((Edit.setMethodBody ⟨0⟩ ⟨⟨0⟩, .method 0⟩ (.block [])).perform {}).start
      ((Edit.run {} {} abstractGreeter).generated ⟨0⟩ {})
        = (.error (.descriptorSealed "App.Greeter"),
          (Edit.run {} {} abstractGreeter).generated ⟨0⟩ {}) := by
  have hname : ((Edit.run {} {} abstractGreeter).find? ⟨0⟩).map (·.fullName) = some "App.Greeter" :=
    by decide +kernel
  obtain ⟨d, hd, hfullName⟩ := Option.map_eq_some_iff.mp hname
  have hunused : Used ((Edit.run {} {} abstractGreeter).generated ⟨0⟩ {}) _ := .refl
  obtain ⟨made, _, hmade, hhanded, -, -, hrefuses⟩ := generated_frozen hd hunused
  rw [hfullName] at hrefuses
  exact ⟨made, hmade, hhanded.isSealed, hrefuses.mutators {} _ rfl⟩

end Batch

end TypeLoom
