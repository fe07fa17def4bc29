import TypeLoom.Proofs.Duties
import TypeLoom.Proofs.Histories

/-!
# Answers that are remembered

A descriptor remembers whether it is abstract until it is touched. Between the question and the next
touch only rows for overrides and implementations can be registered, so that the answer was the one
for the same methods, the same base and the same interfaces.
-/

namespace TypeLoom

open Attempt

variable {α : Type} {u after : Universe}

/-! ### Descriptors -/

namespace Descriptor

variable {d₀ d mid d' : Descriptor}

structure Predates (d₀ d : Descriptor) : Prop where
  flags : d.flags = d₀.flags
  base : d.base = d₀.base
  interfaces : d.interfaces = d₀.interfaces
  methods : d.methods = d₀.methods
  rows : KeepsRows d₀.implementations d.implementations

theorem Predates.refl (d : Descriptor) : d.Predates d := ⟨rfl, rfl, rfl, rfl, .refl _⟩

theorem Predates.trans (h : d₀.Predates mid) (h' : mid.Predates d) : d₀.Predates d :=
  ⟨h'.flags.trans h.flags, h'.base.trans h.base, h'.interfaces.trans h.interfaces,
    h'.methods.trans h.methods,
    fun slot handle hrow => h'.rows slot handle (h.rows slot handle hrow)⟩

/-- The descriptor was touched, or it remembers the same answer and only rows were registered. -/
structure Mindful (d d' : Descriptor) : Prop where
  isSealed : d'.isSealed = d.isSealed
  memory : d'.abstractMemo = none ∨ d'.abstractMemo = d.abstractMemo ∧ d.Predates d'

theorem Mindful.refl (d : Descriptor) : d.Mindful d := ⟨rfl, .inr ⟨rfl, .refl d⟩⟩

theorem Mindful.trans (h : d₀.Mindful mid) (h' : mid.Mindful d) : d₀.Mindful d := by
  refine ⟨h'.isSealed.trans h.isSealed, ?_⟩
  rcases h'.memory with hnone | ⟨hsame, hp⟩
  · exact .inl hnone
  · rcases h.memory with hnone | ⟨hsame', hp'⟩
    · exact .inl (hsame.trans hnone)
    · exact .inr ⟨hsame.trans hsame', hp'.trans hp⟩

theorem Mindful.overrides (h : d₀.Mindful d) (overrides : Keyed Token MethodHandle) :
    d₀.Mindful { d with overrides } :=
  h.trans ⟨rfl, .inr ⟨rfl, rfl, rfl, rfl, rfl, .refl _⟩⟩

theorem Mindful.implementation (h : d₀.Mindful d) {slot : Token}
    (free : d.implementations.find? slot = none) (handle : MethodHandle) :
    d₀.Mindful { d with implementations := d.implementations.put slot handle } :=
  h.trans ⟨rfl, .inr ⟨rfl, rfl, rfl, rfl, rfl, keepsRows_put handle free⟩⟩

theorem isSealed_modifyMethod (d : Descriptor) (slot : Slot) (change : DraftMethod → DraftMethod) :
    (d.modifyMethod slot change).isSealed = d.isSealed := by
  cases slot <;> rfl

/-! ### Additions -/

def Lenient (P : Descriptor → Prop) : Prop := ∀ ⦃d d' :
    Descriptor⦄, P d → d'.isSealed = d.isSealed → d'.abstractMemo = none → P d'

theorem lenient_mindful (d₀ : Descriptor) : Lenient d₀.Mindful :=
  fun _ _ hd hsealed hnone => ⟨hsealed.trans hd.isSealed, .inl hnone⟩

section Lenient

variable {P : Descriptor → Prop} (hP : Lenient P)
include hP

theorem Lenient.addField (name : String) (signature : Signature) (flags : UInt32) :
    Maintains P (addField name signature flags) :=
  fun _ hd => wp_addField (fun _ _ => hP hd rfl rfl) fun _ => hd

theorem Lenient.addMethod (name : String) (flags : UInt32) (signature : MethodSignature)
    (body : Option Expr) :
    Maintains P (addMethod name flags signature body) :=
  fun _ hd => wp_addMethod (fun _ _ => hP hd rfl rfl) fun _ => hd

theorem Lenient.addProperty (name : String) (signature : Signature)
    (getter setter : Option MethodHandle) :
    Maintains P (addProperty u name signature getter setter) := fun _ hd =>
  wp_addProperty (fun _ _ _ _ => hP hd rfl rfl) fun _ => hd

theorem Lenient.addPropertyAccessors (name : String) (signature : Signature) (access : Access)
    (getterBody setterBody : Option Expr) :
    Maintains P (addPropertyAccessors u name signature access getterBody setterBody) := by
  refine fun d hd => wp_addPropertyAccessors (fun _ _ => ?_) fun _ => hd
  refine maintains_bind (maintains_option getterBody fun body => hP.addMethod _ _ _ _)
    (fun getter => ?_) d hd
  exact maintains_bind (maintains_option setterBody fun body => hP.addMethod _ _ _ _) fun setter =>
    hP.addProperty _ _ _ _

theorem Lenient.addDraftInterface (interface : TypeHandle) :
    Maintains P (addDraftInterface interface) := fun _ hd =>
  wp_addDraftInterface (fun _ _ => hP hd rfl rfl) hd

theorem Lenient.addition {act : Attempt Descriptor α} (addition : Addition u act) :
    Maintains P act := by
  intro d hd
  cases addition with
  | addField name signature flags => exact hP.addField name signature flags d hd
  | addConstructor flags parameters body =>
    exact wp_addConstructor (fun _ _ _ _ _ => hP hd rfl rfl) hd
  | addTypeInitializer body => exact wp_addTypeInitializer (fun _ _ => hP hd rfl rfl) hd
  | addTypeInitialization e => exact wp_addTypeInitialization (fun _ => hP hd rfl rfl) hd
  | addInitialization e => exact wp_addInitialization (fun _ _ => hP hd rfl rfl) hd
  | addMethod name flags signature body => exact hP.addMethod name flags signature body d hd
  | setMethodBody h body =>
    exact wp_setMethodBody (fun _ _ _ _ => hP hd (isSealed_modifyMethod d h.slot _) rfl) hd
  | addProperty name signature getter setter =>
    exact hP.addProperty name signature getter setter d hd
  | addPropertyAccessors name signature access getterBody setterBody =>
    exact hP.addPropertyAccessors name signature access getterBody setterBody d hd
  | addAutoProperty name signature access =>
    exact maintains_bind (hP.addField _ _ _) (fun _ => hP.addPropertyAccessors _ _ _ _ _) d hd
  | addEvent name type add remove raise => exact wp_addEvent (fun _ _ _ _ => hP hd rfl rfl) hd
  | addInterface interface allow => exact wp_addInterface (fun _ _ _ => hP hd rfl rfl) hd hd
  | addAttribute a => exact wp_addAttribute (fun _ => hP hd rfl rfl) hd
  | addMethodAttribute h a =>
    exact wp_addMethodAttribute (fun _ _ => hP hd (isSealed_modifyMethod d h.slot _) rfl) hd
  | addFieldAttribute h a => exact wp_addFieldAttribute (fun _ _ _ => hP hd rfl rfl) hd

end Lenient

/-! ### Registered rows -/

theorem wp_getOrAddOverride_mindful (m : MethodId) (hd : d₀.Mindful d) :
    (getOrAddOverride u m).wp (fun _ d' => d₀.Mindful d'
      ∧ d'.implementations = d.implementations) d₀.Mindful d :=
  wp_getOrAddOverride (fun _ _ _ _ => ⟨hd, rfl⟩) (fun _ _ _ _ _ => ⟨hd.overrides _, rfl⟩)
    (fun _ _ _ _ _ _ => ⟨⟨hd.isSealed, .inl rfl⟩, rfl⟩) hd

theorem mindful_getOrAddOverride (m : MethodId) : Maintains d₀.Mindful (getOrAddOverride u m) :=
  fun _ hd =>
    wp_mono (wp_getOrAddOverride_mindful m hd) (fun _ _ h => h.1) fun _ h => h

theorem mindful_getOrAddImplementation (m : MethodId) :
    Maintains d₀.Mindful (getOrAddImplementation u m) := by
  refine fun d hd => wp_getOrAddImplementation (fun _ _ _ => hd) (fun _ _ free _ =>
    hd.implementation free _)
    (fun inherited _ free _ _ _ => ?_) (fun _ _ _ _ => ⟨hd.isSealed, .inl rfl⟩) hd
  refine wp_mono (wp_getOrAddOverride_mindful inherited hd) (fun _ d' hd' =>
    hd'.1.implementation ?_ _) fun _ h => h
  rw [hd'.2]
  exact free

theorem mindful_operation {act : Attempt Descriptor α} (operation : Operation u act) :
    Maintains d₀.Mindful act := by
  cases operation with
  | addition addition => exact (lenient_mindful d₀).addition addition
  | getOrAddOverride m => exact mindful_getOrAddOverride m
  | getOrAddImplementation m => exact mindful_getOrAddImplementation m

/-! ### What the answer was for -/

/-- What is remembered was the answer at some time for a descriptor with the same methods. -/
def Recalls (u : Universe) (d : Descriptor) : Prop := ∀ answer, d.abstractMemo = some answer →
    ∃ (u₀ : Universe) (d₀ : Descriptor),
  u₀.WellFormed ∧ u₀.types.size ≤ u.types.size ∧ Universe.Agree u₀.types.size u₀ u ∧ d₀.Sound u₀
  ∧ d₀.Implementing u₀
    ∧ d₀.Predates d ∧ d₀.computeAbstract u₀ = answer

theorem recalls_of_none (h : d.abstractMemo = none) : d.Recalls u := fun answer hanswer => by
  rw [h] at hanswer
  cases hanswer

theorem Recalls.grow (h : d.Recalls u) (ha : Universe.Agree u.types.size u after)
    (hle : u.types.size ≤ after.types.size) :
    d.Recalls after := fun answer hanswer => by
  obtain ⟨u₀, d₀, hu₀, hle₀, ha₀, hrest⟩ := h answer hanswer
  exact ⟨u₀, d₀, hu₀, Nat.le_trans hle₀ hle, ha₀.trans (ha.mono hle₀), hrest⟩

theorem Recalls.mindful (h : d.Recalls u) (hm : d.Mindful d') : d'.Recalls u := by
  rcases hm.memory with hnone | ⟨hsame, hp⟩
  · exact recalls_of_none hnone
  · intro answer hanswer
    obtain ⟨u₀, d₀, hu₀, hle₀, ha₀, hs₀, hi₀, hp₀, hanswered⟩ := h answer (hsame ▸ hanswer)
    exact ⟨u₀, d₀, hu₀, hle₀, ha₀, hs₀, hi₀, hp₀.trans hp, hanswered⟩

theorem Recalls.ask (h : d.Recalls u) (hu : u.WellFormed) (hs : d.Sound u) (hi : d.Implementing u) :
    (d.askAbstract u).2.Recalls u := by
  unfold askAbstract
  cases hmemo : d.abstractMemo with
  | some answer => exact h
  | none =>
    intro answer hanswer
    exact ⟨u, d, hu, Nat.le_refl _, .refl _ _, hs, hi, ⟨rfl, rfl, rfl, rfl, .refl _⟩,
      Option.some.inj hanswer⟩

theorem Recalls.answer (h : d.Recalls u) (hu : u.WellFormed) (hs : d.Sound u)
    (hi : d.Implementing u) (hbase : ∀ t, d.base = some (.ofClass t) →
      (u.record t).isInterface = false) (hafter : after.WellFormed)
    (ha : Universe.Agree u.types.size u after) (hle : u.types.size ≤ after.types.size) :
    ∃ d₀ : Descriptor, d₀.Predates d ∧ d₀.Sound u ∧ d₀.Implementing u
        ∧ d₀.computeAbstract u = (d.askAbstract after).1 := by
  unfold askAbstract
  cases hmemo : d.abstractMemo with
  | some answer =>
    obtain ⟨u₀, d₀, hu₀, hle₀, ha₀, hs₀, hi₀, hp₀, hanswered⟩ := h answer hmemo
    refine ⟨d₀, hp₀, hs₀.grow hu₀ ha₀ hle₀, hi₀.grow hs₀ ha₀ hle₀, ?_⟩
    have hbase₀ : ∀ t, d₀.base = some (.ofClass t) → (u₀.record t).isInterface = false :=
        fun t ht => by
      rw [← ha₀.isInterface (hs₀.base t ht)]
      exact hbase t (hp₀.base.trans ht)
    rw [computeAbstract_agree hs₀ hu₀ hu ha₀ hle₀ hbase₀]
    exact hanswered
  | none => exact ⟨d, .refl d, hs, hi, (computeAbstract_agree hs hu hafter ha hle hbase).symm⟩

end Descriptor

/-! ### Batches -/

namespace Batch

variable {b b' : Batch} {h t : TypeHandle} {d : Descriptor}

/-- What the descriptors of a batch remember is from the batch before, or nothing. -/
def Mindful (b b' : Batch) : Prop := ∀ h d', b'.find? h = some d' →
  d'.abstractMemo = none ∨ ∃ d, b.find? h = some d ∧ d.Mindful d'

theorem Mindful.refl (b : Batch) : b.Mindful b := fun _ d hd => .inr ⟨d, hd, .refl d⟩

theorem find?_push_cases {made : Descriptor}
    (hd : find? { b with types := b.types.push made } h = some d) :
    d = made ∨ b.find? h = some d := by
  simp only [find?, Array.getElem?_push] at hd
  split at hd
  · exact .inl (Option.some.inj hd).symm
  · exact .inr hd

theorem find?_set_cases {made : Descriptor}
    (hd : find? { b with types := b.types.setIfInBounds t.index made } h = some d) :
    h = t ∧ d = made ∨ b.find? h = some d := by
  simp only [find?, Array.getElem?_setIfInBounds] at hd
  split at hd
  · rename_i heq
    split at hd
    · exact .inl ⟨by cases h; cases t; simp_all, (Option.some.inj hd).symm⟩
    · cases hd
  · exact .inr hd

theorem Mindful.push (hm : b.Mindful b') {made : Descriptor} (hmade : made.abstractMemo = none) :
    b.Mindful { b' with types := b'.types.push made } := fun h d hd => by
  rcases find?_push_cases hd with rfl | hold
  · exact .inl hmade
  · exact hm h d hold

theorem mindful_onType {act : Attempt Descriptor α}
    (hact : ∀ d₀ : Descriptor, Maintains d₀.Mindful act) (t : TypeHandle) :
    Maintains b.Mindful (onType t act) := by
  intro b' hb'
  refine wp_onType (fun _ => hb') fun d hd => ?_
  have hset : ∀ d', d.Mindful d' →
      b.Mindful { b' with types := b'.types.setIfInBounds t.index d' } := by
    intro d' hd' h last hlast
    rcases find?_set_cases hlast with ⟨rfl, rfl⟩ | hold
    · rcases hb' h d hd with hnone | ⟨first, hfirst, hm⟩
      · rcases hd'.memory with hnone' | ⟨hsame, -⟩
        · exact .inl hnone'
        · exact .inl (hsame.trans hnone)
      · exact .inr ⟨first, hfirst, hm.trans hd'⟩
    · exact hb' h last hold
  exact wp_mono (hact d d (.refl d)) (fun _ d' hd' => hset d' hd') fun d' hd' => hset d' hd'

theorem mindful_createType (space name : String) (flags : UInt32) (base : Option Signature) :
    Maintains b.Mindful (createType u space name flags base) :=
  fun _ hb => wp_createType (fun _ _ => hb.push rfl) hb

theorem mindful_addNested (outer : TypeHandle) (name : String) (flags : UInt32)
    (base : Option Signature) :
    Maintains b.Mindful (addNested u outer name flags base) := by
  refine fun b' hb' => wp_addNested (fun d hd _ _ _ => ?_) hb'
  intro handle made h last hlast
  rcases find?_set_cases (b := { b' with types := b'.types.push _ }) hlast with ⟨-, rfl⟩ | hold
  · exact .inl rfl
  · exact hb'.push rfl h last hold

theorem mindful_addBatchInterface (t i : TypeHandle) :
    Maintains b.Mindful (addBatchInterface t i) := fun b' hb' =>
  wp_addBatchInterface (fun _ _ _ =>
    mindful_onType (fun d₀ => (Descriptor.lenient_mindful d₀).addDraftInterface i) t b' hb') hb'

theorem mindful_perform {e : Edit} (hask : ∀ t, e ≠ .askAbstract t) :
    Maintains b.Mindful (e.perform u) :=
  maintains_perform mindful_createType mindful_addNested mindful_addBatchInterface
    (fun t _ operation => mindful_onType (fun _ => Descriptor.mindful_operation operation) t) e
    fun t h => absurd h (hask t)

/-- What is open remembers answers that were given at some time. -/
def Recalls (u : Universe) (b : Batch) : Prop :=
  ∀ h d, b.find? h = some d → d.isSealed = false → d.Recalls u

theorem Recalls.grow (hr : b.Recalls u) (ha : Universe.Agree u.types.size u after)
    (hle : u.types.size ≤ after.types.size) :
    b.Recalls after := fun h d hd hopen => (hr h d hd hopen).grow ha hle

theorem Recalls.mindful (hr : b.Recalls u) (hm : b.Mindful b') : b'.Recalls u :=
    fun h d' hd' hopen => by
  rcases hm h d' hd' with hnone | ⟨d, hd, hmindful⟩
  · exact Descriptor.recalls_of_none hnone
  · exact (hr h d hd (hmindful.isSealed ▸ hopen)).mindful hmindful

/-- Sound descriptors with true rows, that remember answers that were given. -/
structure Minds (u : Universe) (b : Batch) : Prop where
  recalls : b.Recalls u
  facts : ∀ h d, b.find? h = some d → d.Sound u ∧ d.Implementing u

theorem minds_askAlone (hu : u.WellFormed) (t : TypeHandle) : Maintains (Minds u)
    (askAlone u t) := by
  intro b hb
  refine wp_onType (fun _ => hb) fun d hd => ?_
  rw [wp_of]
  obtain ⟨hs, hi⟩ := hb.facts t d hd
  have hforget := d.forget_askAbstract u
  have halike := Descriptor.alike_of_forget hforget
  have hsealed : (d.askAbstract u).2.isSealed = d.isSealed := by
    unfold Descriptor.askAbstract
    cases d.abstractMemo <;> rfl
  refine ⟨fun h last hlast hopen => ?_, fun h last hlast => ?_⟩
  · rcases find?_set_cases hlast with ⟨rfl, rfl⟩ | hold
    · exact (hb.recalls h d hd (hsealed ▸ hopen)).ask hu hs hi
    · exact hb.recalls h last hold hopen
  · rcases find?_set_cases hlast with ⟨rfl, rfl⟩ | hold
    · exact ⟨hs.alike halike, hi.of_same halike.base halike.methods halike.implementations⟩
    · exact hb.facts h last hold

theorem minds_askAbstract (hu : u.WellFormed) (t : TypeHandle) : Maintains (Minds u)
    (askAbstract u t) := by
  refine maintains_bind (minds_askAlone hu t) fun alone => ?_
  refine maintains_ite (maintains_pure _) (maintains_bind maintains_get fun b =>
    maintains_bind (maintains_lift _) fun d => maintains_pure _)

theorem Recalls.perform (hr : b.Recalls u) (hu : u.WellFormed) (hs : b.Sound u)
    (hi : b.Implementing u) (e : Edit) :
    Recalls u ((e.perform u).start b).2 := by
  by_cases hask : ∃ t, e = .askAbstract t
  · obtain ⟨t, rfl⟩ := hask
    have hminds : b.Minds u := ⟨hr, fun h d hd => ⟨hs.sound h.index d hd, hi h.index d hd⟩⟩
    exact (wp_const.mp (maintains_map (minds_askAbstract hu t) b hminds)).recalls
  · have hmindful : b.Mindful ((e.perform u).start b).2 :=
      wp_const.mp (mindful_perform (fun t h => hask ⟨t, h⟩) b (.refl b))
    exact hr.mindful hmindful

end Batch

/-! ### Worlds -/

namespace World

variable {w w' : World}

/-- What open descriptors remember are answers that were given. -/
def Recalling (w : World) : Prop := ∀ (i : Nat) (b : Batch), w.batches[i]? = some b →
    b.Recalls w.program

theorem isSealed_of_generation (hw : w.Sound) {place : Nat} {b : Batch}
    (hb : w.batches[place]? = some b) {output : Array TypeId} {h : TypeHandle} {d : Descriptor}
    (hd : (w.generation b output).2.batch.find? h = some d) : d.isSealed = true := by
  obtain ⟨closed, hclosed, hforget⟩ :=
    (intact_generation hw (hw.batches place b hb) output).batch.symm.find hd
  have hfind : b.closeAll.find? h = some closed := hclosed
  rw [Batch.find?_closeAll] at hfind
  obtain ⟨e, -, rfl⟩ := Option.map_eq_some_iff.mp hfind
  exact (congrArg Descriptor.isSealed hforget).symm

theorem step_recalling (hw : w.Sound) (hi : w.Implementing) (hr : w.Recalling) (hstep : Step w w') :
    Recalling w' := by
  have hsince := (step_sound hw hstep).2
  obtain ⟨move, hfits, rfl⟩ := hstep
  refine Each.after hr (fun i b _ hb => hb.grow hsince.agree hsince.size) (fun _ _ _ hd =>
    absurd hd (by simp [Batch.find?]))
    (fun place _ _ b _ hb => (hr place b hb).mindful ((Batch.Mindful.refl b).push rfl))
    (fun place e b _ hb => (hr place b hb).perform hw.space.wellFormed (hw.batches place b hb)
      (hi place b hb) e)
    fun place output b _ hb h d hd hopen => ?_
  rw [isSealed_of_generation hw hb hd] at hopen
  cases hopen

theorem Later.recalling (hlater : Later w w') (hw : w.Sound) (hi : w.Implementing)
    (hr : w.Recalling) : Recalling w' := by
  induction hlater with
  | refl => exact hr
  | tail hsteps hstep ih =>
    exact step_recalling (Later.sound hsteps hw).1 (Later.implementing hsteps hw hi).1 ih hstep

theorem recalling_of_space (space : TypeSpace) : Recalling { space } :=
  fun _ _ hb => absurd hb (by simp)

end World

end TypeLoom
