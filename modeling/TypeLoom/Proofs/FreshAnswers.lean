import TypeLoom.Proofs.AbstractFlags
import TypeLoom.Proofs.Implementations
import TypeLoom.Proofs.Overloads
import TypeLoom.Proofs.Vetting

/-!
# Answers that are not stale

A row for an override or an implementation is registered without touching the descriptor. That
changes nothing for a slot that an own method takes anyway. It does when an override that is already
there implements an interface method that the base leaves abstract: if this was all that made the
descriptor abstract, what it remembers is stale.
-/

namespace TypeLoom

open Attempt

theorem Keyed.hasKey_put {κ ν : Type} [DecidableEq κ] (rows : Keyed κ ν)
    (key other : κ) (value : ν) :
    (rows.put key value).hasKey other = (decide (key = other) || rows.hasKey other) := by
  by_cases h : key = other
  · rw [← h, Keyed.hasKey, Keyed.find?_put_self, decide_eq_true rfl, Bool.true_or,
      Option.isSome_some]
  · rw [Keyed.hasKey, Keyed.find?_put_of_ne _ _ _ _ h, decide_eq_false h,
      Bool.false_or, Keyed.hasKey]

namespace Descriptor

open Universe

variable {u after : Universe} {d d' : Descriptor} {m inherited k : MethodId} {handle : MethodHandle}
  {own : DraftMethod}

/-! ### What makes a descriptor abstract -/

theorem owesInterface_iff : d.owesInterface u = true ↔ ∃ listed ∈ d.interfaceTypes u,
    ∃ i ∈ u.interfaceClosure listed,
    ∃ k ∈ u.methodsOf i, (u.method k).isStatic = false ∧ d.implementsMethod u k = false := by
  simp only [owesInterface, List.any_eq_true, Bool.and_eq_true, Bool.not_eq_true']

theorem inheritsAbstract_congr (hu : u.WellFormed) (htokens : u.DistinctTokens) (hd : d.Sound u)
    (hd' : d'.Sound u) (hbase : d'.base = d.base) (hmethods : d'.methods = d.methods)
    (hclass : ∀ t, d.base = some (.ofClass t) → (u.record t).isInterface = false) :
        d'.inheritsAbstract u = d.inheritsAbstract u := by
  have hbaseType : d'.baseType? u = d.baseType? u := by rw [baseType?, hbase, baseType?]
  rw [inheritsAbstract, inheritsAbstract, hbaseType]
  cases hb : d.baseType? u with
  | none => rfl
  | some base =>
    rw [Option.any_some, Option.any_some, Bool.eq_iff_iff, List.any_eq_true, List.any_eq_true]
    refine exists_congr fun level => and_congr_right fun hlevel => ?_
    rw [List.any_eq_true, List.any_eq_true]
    refine exists_congr fun k => and_congr_right fun hk => ?_
    have hkClass : (u.record k.owner).isInterface = false := by
      rw [u.owner_of_mem_methodsOf hk]
      exact hu.class_of_mem_hierarchy (hclass base (baseType?_eq_some hb).1) hlevel
    have hkSome := u.isSome_of_mem_methodsOf hk
    have hslot : d'.overridesSlot u k = d.overridesSlot u k := by
      rw [Bool.eq_iff_iff, hd'.overridesSlot_iff hu htokens hkSome hkClass,
        hd.overridesSlot_iff hu htokens hkSome hkClass, hmethods]
    rw [hslot]

def withImplementation (u : Universe) (d : Descriptor) (m : MethodId) (handle : MethodHandle) :
    Descriptor :=
  { d with implementations := d.implementations.put (u.method m).token handle }

section Implementation

variable (htokens : u.DistinctTokens) (hm : (u.method? m).isSome)
include htokens hm

theorem implementsMethod_withImplementation (hk : (u.method? k).isSome) :
    (d.withImplementation u m handle).implementsMethod u k
    = (decide (m = k) || d.implementsMethod u k) := by
  have hsame : decide ((u.method m).token = (u.method k).token) = decide (m = k) :=
    decide_eq_decide.mpr ⟨htokens m k hm hk, fun h => by rw [h]⟩
  rw [implementsMethod, implementsMethod, ← Bool.or_assoc, ← Bool.or_assoc, ← hsame,
    ← Keyed.hasKey_put]
  rfl

theorem computeAbstract_of_withImplementation
    (h : (d.withImplementation u m handle).computeAbstract u = true) :
    d.computeAbstract u = true := by
  rw [computeAbstract, Bool.or_eq_true] at h ⊢
  refine h.imp_right fun howes => ?_
  obtain ⟨listed, hlisted, i, hi, k, hk, hstatic, hmissing⟩ := owesInterface_iff.mp howes
  rw [implementsMethod_withImplementation htokens hm (u.isSome_of_mem_methodsOf hk),
    Bool.or_eq_false_iff] at hmissing
  exact owesInterface_iff.mpr ⟨listed, hlisted, i, hi, k, hk, hstatic, hmissing.2⟩

/-- The row of a method that is implemented anyway changes nothing. -/
theorem computeAbstract_withImplementation (himplemented : d.implementsMethod u m = true) :
    (d.withImplementation u m handle).computeAbstract u = d.computeAbstract u := by
  rw [Bool.eq_iff_iff]
  refine ⟨computeAbstract_of_withImplementation htokens hm, fun h => ?_⟩
  rw [computeAbstract, Bool.or_eq_true] at h ⊢
  refine h.imp_right fun howes => ?_
  obtain ⟨listed, hlisted, i, hi, k, hk, hstatic, hmissing⟩ := owesInterface_iff.mp howes
  refine owesInterface_iff.mpr ⟨listed, hlisted, i, hi, k, hk, hstatic, ?_⟩
  rw [implementsMethod_withImplementation htokens hm (u.isSome_of_mem_methodsOf hk), hmissing,
    Bool.or_false, decide_eq_false_iff_not]
  rintro rfl
  rw [himplemented] at hmissing
  cases hmissing

end Implementation

theorem Inherits.implementsMethod (h : d.Inherits u m inherited) :
    d.implementsMethod u m = !(u.method inherited).isAbstract := by
  have hpublic : d.hasPublicVirtual (u.method m).name (u.method m).signature = false := by
    rw [hasPublicVirtual, Bool.eq_false_iff]
    intro hany
    obtain ⟨own, hown, hmatches⟩ := Array.any_eq_true'.mp hany
    exact absurd hmatches (Array.find?_eq_none.mp h.missing own hown)
  rw [Descriptor.implementsMethod, Keyed.hasKey, h.free, hpublic, h.found]
  rfl

/-! ### Fresh answers -/

/-- The answer is the one for the descriptor as it stands. -/
def Fresh (u : Universe) (d : Descriptor) : Prop := (d.askAbstract u).1 = d.computeAbstract u

instance (u : Universe) (d : Descriptor) : Decidable (d.Fresh u) :=
  inferInstanceAs (Decidable (_ = _))

theorem fresh_iff : d.Fresh u ↔ ∀ answer, d.abstractMemo = some answer →
    answer = d.computeAbstract u := by
  unfold Fresh askAbstract
  cases d.abstractMemo <;> simp

theorem fresh_of_none (h : d.abstractMemo = none) :
    d.Fresh u := fresh_iff.mpr fun answer hanswer => by
  rw [h] at hanswer
  cases hanswer

theorem Fresh.ask (h : d.Fresh u) : (d.askAbstract u).2.Fresh u := by
  unfold askAbstract
  cases hmemo : d.abstractMemo with
  | some answer => exact h
  | none => rfl

theorem Fresh.of_same (h : d.Fresh u) (hmemo : d'.abstractMemo = d.abstractMemo)
    (hsame : d'.computeAbstract u = d.computeAbstract u) :
    d'.Fresh u := by
  rw [fresh_iff] at h ⊢
  rw [hmemo, hsame]
  exact h

/-- A descriptor that can be edited gives the answer for what it is. -/
def OpenFresh (u : Universe) (d : Descriptor) : Prop := d.isSealed = false → d.Fresh u

theorem lenient_openFresh (u : Universe) : Lenient (OpenFresh u) :=
  fun _ _ _ _ hnone _ => fresh_of_none hnone

theorem OpenFresh.grow (h : d.OpenFresh u) (hd : d.Sound u) (hu : u.WellFormed)
    (hu' : after.WellFormed) (ha : Agree u.types.size u after)
    (hle : u.types.size ≤ after.types.size) (hclass : ∀ t, d.base = some (.ofClass t) →
        (u.record t).isInterface = false) : d.OpenFresh after := by
  intro hopen
  rw [fresh_iff, computeAbstract_agree hd hu hu' ha hle hclass]
  exact fresh_iff.mp (h hopen)

/-- The implementation of the interface method is registered through an override of an abstract
method that is there already, and nothing else makes the descriptor abstract, which it is
remembered to be. -/
structure Spoils (u : Universe) (d : Descriptor) (m inherited : MethodId) (handle : MethodHandle) :
    Prop where
  inherits : d.Inherits u m inherited
  bodiless : (u.method inherited).isAbstract = true
  overridden : ((getOrAddOverride u inherited).start d).1 = .ok (handle, false)
  remembered : d.abstractMemo = some true
  last : (d.withImplementation u m handle).computeAbstract u = false

theorem wp_getOrAddOverride_rows : (getOrAddOverride u m).wp
    (fun answer d' => answer.2 = true ∧ d'.abstractMemo = none
      ∨ answer.2 = false ∧ Evolution u d d' ∧ ∃ overrides, d' = { d with overrides })
      (fun d' => d' = d) d := by
  refine wp_getOrAddOverride (fun _ _ _ _ => .inr ⟨rfl, .refl, d.overrides, rfl⟩)
    (fun base own check free found => ?_)
    (fun _ _ _ _ _ _ => .inl ⟨rfl, rfl⟩) rfl
  exact .inr ⟨rfl, .single (.reuse m base own check free found (.refl _)), _, rfl⟩

section Operations

variable (hu : u.WellFormed) (htokens : u.DistinctTokens) (hd : d.Sound u)
  (hclass : ∀ t, d.base = some (.ofClass t) → (u.record t).isInterface = false)
include hu htokens hd hclass

/-- Rows for slots that own methods take change nothing, whatever is implemented. -/
theorem computeAbstract_overrides {overrides : Keyed Token MethodHandle}
    (he : Evolution u d { d with overrides }) (implementations : Keyed Token MethodHandle) :
    computeAbstract u { d with overrides, implementations }
        = computeAbstract u { d with implementations } := by
  have hsame : inheritsAbstract u { d with overrides } = d.inheritsAbstract u :=
    inheritsAbstract_congr hu htokens hd (hd.evolution hu he) rfl rfl hclass
  have hinherits : inheritsAbstract u { d with overrides, implementations }
    = inheritsAbstract u { d with implementations } := hsame
  rw [computeAbstract, computeAbstract, hinherits]
  rfl

theorem openFresh_getOrAddOverride (h : d.OpenFresh u) :
    (getOrAddOverride u m).wp (fun _ => OpenFresh u) (OpenFresh u) d := by
  refine wp_mono wp_getOrAddOverride_rows (fun answer d' hcases => ?_) fun d' hsame => hsame ▸ h
  rcases hcases with ⟨-, hnone⟩ | ⟨-, he, overrides, rfl⟩
  · exact fun _ => fresh_of_none hnone
  · exact fun hopen => (h hopen).of_same rfl (computeAbstract_overrides hu htokens hd hclass he
      d.implementations)

variable (hm : (u.method? m).isSome)
include hm

theorem openFresh_getOrAddImplementation (hnot : ∀ inherited handle,
      ¬ d.Spoils u m inherited handle) (h : d.OpenFresh u) :
    (getOrAddImplementation u m).wp (fun _ => OpenFresh u) (OpenFresh u) d := by
  cases hopen : d.isSealed with
  | true => exact wp_mutable (fun hs => absurd (hopen.symm.trans hs) Bool.noConfusion) fun _ => h
  | false =>
    refine wp_getOrAddImplementation (fun _ _ _ => h) (fun own check free found => ?_)
      (fun inherited check free missing found overridable => ?_) (fun _ _ _ _ _ =>
        fresh_of_none rfl) h
    · -- An own public method implements the interface method without a row.
      intro _
      refine (h hopen).of_same rfl (computeAbstract_withImplementation htokens hm ?_)
      rw [Descriptor.implementsMethod, hasPublicVirtual, Bool.or_eq_true, Bool.or_eq_true]
      have hmatches : own.isPublicVirtual (u.method m).name (u.method m).signature = true := by
        have := Array.find?_some found
        exact this
      exact .inl (.inr (Array.any_eq_true'.mpr ⟨own, Array.mem_of_find?_eq_some found, hmatches⟩))
    · have hinherits : d.Inherits u m inherited := ⟨hopen, check, free, missing, found, overridable⟩
      have hrows := wp_iff.mp (wp_getOrAddOverride_rows (u := u) (d := d) (m := inherited))
      refine wp_iff.mpr ⟨fun answer d' hrun => ?_, fun _ _ hrun => hrows.2 _ _ hrun ▸ h⟩
      rcases hrows.1 _ _ hrun with ⟨-, hnone⟩ | ⟨hfound, he, overrides, rfl⟩
      · exact fun _ => fresh_of_none hnone
      intro _
      -- The override was there: what counts is the row for the interface method.
      have hlast := computeAbstract_overrides hu htokens hd hclass he
        (d.implementations.put (u.method m).token answer.1)
      rw [fresh_iff]
      intro remembered hmemo
      have hwas : remembered = d.computeAbstract u := fresh_iff.mp (h hopen) remembered hmemo
      refine Eq.trans ?_ hlast.symm
      cases hbody : (u.method inherited).isAbstract with
      | false =>
        have himplemented : d.implementsMethod u m = true := by
          rw [hinherits.implementsMethod, hbody, Bool.not_false]
        rw [hwas]
        exact (computeAbstract_withImplementation htokens hm himplemented).symm
      | true =>
        cases hnow : (d.withImplementation u m answer.1).computeAbstract u with
        | true =>
          exact (hwas.trans (computeAbstract_of_withImplementation htokens hm hnow)).trans hnow.symm
        | false =>
          cases remembered with
          | false => exact hnow.symm
          | true =>
            refine absurd ?_ (hnot inherited answer.1)
            have hanswer : answer = (answer.1, false) := by rw [← hfound]
            exact ⟨hinherits, hbody, by rw [hrun, ← hanswer], hmemo, hnow⟩

omit hm in
theorem stale_getOrAddImplementation (h : d.Spoils u m inherited handle) :
    (getOrAddImplementation u m).wp (fun _ d' => ¬ d'.OpenFresh u) (fun _ => False) d := by
  have hrows := wp_iff.mp (wp_getOrAddOverride_rows (u := u) (d := d) (m := inherited))
  obtain ⟨d', hrun⟩ : ∃ d', (getOrAddOverride u inherited).start d = (.ok (handle, false), d') :=
    ⟨_, Prod.ext h.overridden rfl⟩
  obtain ⟨he, overrides, rfl⟩ : Evolution u d d' ∧ ∃ overrides, d' = { d with overrides } := by
    rcases hrows.1 _ _ hrun with ⟨hmade, -⟩ | ⟨-, hkept⟩
    · cases hmade
    · exact hkept
  unfold wp
  simp only [start_getOrAddImplementation h.inherits, start_bind, hrun]
  intro hfresh
  have hnow := fresh_iff.mp (hfresh h.inherits.isOpen) true h.remembered
  have hlast :=
    computeAbstract_overrides hu htokens hd hclass he
    (d.implementations.put (u.method m).token handle)
  have hfalse : (d.withImplementation u m handle).computeAbstract u = true :=
    (hnow.trans hlast).symm
  rw [h.last] at hfalse
  cases hfalse

end Operations

end Descriptor

/-! ### Edits -/

/-- The edit registers an implementation that makes an answer stale. -/
def Edit.Spoils (u : Universe) (b : Batch) : Edit → Prop
  | .implementMethod t m => ∃ d inherited handle, b.find? t = some d ∧ d.Spoils u m inherited handle
  | _ => False

namespace Batch

variable {α : Type} {u after : Universe} {b : Batch} {e : Edit} {t : TypeHandle} {d : Descriptor}

/-- Descriptors that can be edited give the answers for what they are. -/
def Fresh (u : Universe) (b : Batch) : Prop := ∀ h d, b.find? h = some d → d.OpenFresh u

theorem Fresh.set (hb : b.Fresh u) (hd : d.OpenFresh u) :
    Fresh u { b with types := b.types.setIfInBounds t.index d } :=
  fun h last hlast => by
    rcases find?_set_cases hlast with ⟨-, rfl⟩ | hold
    · exact hd
    · exact hb h last hold

theorem Fresh.push (hb : b.Fresh u) (hmade : d.abstractMemo = none) :
    Fresh u { b with types := b.types.push d } :=
  fun h last hlast => by
    rcases find?_push_cases hlast with rfl | hold
    · exact fun _ => Descriptor.fresh_of_none hmade
    · exact hb h last hold

theorem fresh_onType {act : Attempt Descriptor α} (t : TypeHandle) (hb : b.Fresh u)
    (h : ∀ d, b.find? t = some d → d.OpenFresh u →
      act.wp (fun _ => Descriptor.OpenFresh u) (Descriptor.OpenFresh u) d) :
    (onType t act).wp (fun _ => Fresh u) (Fresh u) b :=
  wp_onType (fun _ => hb) fun d hd => wp_mono (h d hd (hb t d hd)) (fun _ _ hd' => hb.set hd') fun _
    hd' => hb.set hd'

theorem fresh_createType (space name : String) (flags : UInt32) (base : Option Signature) :
    Maintains (Fresh u) (createType u space name flags base) :=
  fun _ hb => wp_createType (fun _ _ => hb.push rfl) hb

theorem fresh_addNested (outer : TypeHandle) (name : String) (flags : UInt32)
    (base : Option Signature) :
    Maintains (Fresh u) (addNested u outer name flags base) := by
  refine fun b hb => wp_addNested (fun d hd _ _ _ => ?_) hb
  have hpushed := hb.push (d := Descriptor.touch
    { handle := ⟨b.types.size⟩, space := "", name, flags := nestedFlags flags, base,
      declaring := some outer }) rfl
  exact hpushed.set (Descriptor.lenient_openFresh u (hb outer d hd) rfl rfl)

theorem fresh_addBatchInterface (t i : TypeHandle) : Maintains (Fresh u)
    (addBatchInterface t i) := fun _ hb =>
  wp_addBatchInterface (fun _ _ _ => fresh_onType t hb fun d _ hd =>
    (Descriptor.lenient_openFresh u).addDraftInterface i d hd) hb

theorem fresh_askAbstract (t : TypeHandle) : Maintains (Fresh u) (askAbstract u t) := by
  refine maintains_bind (fun b hb => ?_) fun _ => maintains_ite (maintains_pure _)
    (maintains_bind maintains_get fun b => maintains_bind (maintains_lift _) fun d =>
      maintains_pure _)
  refine fresh_onType t hb fun d _ hd => ?_
  rw [wp_of]
  intro hopen
  refine (hd ?_).ask
  unfold Descriptor.askAbstract at hopen
  cases hmemo : d.abstractMemo <;> rw [hmemo] at hopen <;> exact hopen

section Perform

variable (hu : u.WellFormed) (htokens : u.DistinctTokens) (hs : b.Sound u) (hv : b.Vetted u)
include hu htokens hs hv

/-- An edit keeps answers fresh unless it spoils one. -/
theorem fresh_perform (hnot : ¬ e.Spoils u b)
    (hexists : ∀ t m, e = .implementMethod t m → (u.method? m).isSome) (hb : b.Fresh u) :
    Fresh u ((e.perform u).start b).2 := by
  refine wp_const.mp (wp_perform hb fresh_createType fresh_addNested fresh_addBatchInterface
    (fun t _ addition _ hnow => fresh_onType t hnow fun d _ hd =>
      (Descriptor.lenient_openFresh u).addition addition d hd) ?_ ?_
    fun t _ => fresh_askAbstract t)
  · rintro t m rfl
    refine fresh_onType t hb fun d hd hfresh => ?_
    exact Descriptor.openFresh_getOrAddOverride hu htokens (hs.sound t.index d hd) (fun _ hbase =>
      ((hv t d hd).base _ hbase).2.2) hfresh
  · rintro t m rfl
    refine fresh_onType t hb fun d hd hfresh => ?_
    exact Descriptor.openFresh_getOrAddImplementation hu htokens (hs.sound t.index d hd)
      (fun _ hbase => ((hv t d hd).base _ hbase).2.2) (hexists t m rfl) (fun inherited handle h =>
        hnot ⟨d, inherited, handle, hd, h⟩) hfresh

theorem stale_perform (h : e.Spoils u b) : ¬ Fresh u ((e.perform u).start b).2 := by
  cases e with
  | implementMethod t m =>
    obtain ⟨d, inherited, handle, hd, hspoils⟩ := h
    have hstale := Descriptor.stale_getOrAddImplementation hu htokens (hs.sound t.index d hd)
      (fun _ hbase => ((hv t d hd).base _ hbase).2.2) hspoils
    have hends : ((Edit.implementMethod t m).perform u).wp (fun _ after => ¬ after.Fresh u)
        (fun _ => False) b := by
      refine wp_step (wp_onType (fun hnone => ?_) fun old hold => ?_) (fun _ _ h => h) fun _ h => h
      · rw [hd] at hnone
        cases hnone
      · obtain rfl : d = old := Option.some.inj (hd.symm.trans hold)
        refine wp_mono hstale (fun _ after hafter hfresh => hafter (hfresh t after ?_)) fun _
          hfalse => hfalse
        exact find?_set (Array.getElem?_eq_some_iff.mp hd).1
    exact wp_const.mp (wp_mono hends (fun _ _ h => h) fun _ hfalse => hfalse.elim)
  | _ => exact h.elim

end Perform

end Batch

/-! ### Worlds -/

namespace World

open Universe

variable {w w' : World} {move : Move} {place : Nat} {b : Batch} {t : TypeHandle} {d : Descriptor}
  {output : Array TypeId} {g : Generated}

/-- Whoever asks whether a descriptor that can be edited is abstract gets the answer for what it
is. -/
def Fresh (w : World) : Prop :=
  ∀ place t d, w.descriptor? place t = some d → d.isSealed = false →
    (d.askAbstract w.program).1 = d.computeAbstract w.program

def Spoils (w : World) : Move → Prop
  | .edit place e => ∃ b, w.batches[place]? = some b ∧ e.Spoils w.program b
  | _ => False

def Implementable (w : World) : Edit → Bool
  | .implementMethod _ m => (w.program.method? m).isSome
  | _ => true

/-- Proxies are proposed of types that can be a base, and methods exist that are implemented. -/
def Proper (w : World) : Move → Prop
  | .propose _ requested _ => TypeFlags.Derivable (w.program.record requested).flags
  | .edit _ e => w.Implementable e
  | _ => True

instance (w : World) : (move : Move) → Decidable (w.Proper move)
  | .propose _ requested _ =>
    inferInstanceAs (Decidable (TypeFlags.Derivable (w.program.record requested).flags))
  | .edit _ e => inferInstanceAs (Decidable (w.Implementable e = true))
  | .build _ | .openBatch | .generate _ _ => isTrue trivial

/-- Each move is proper when its turn comes. -/
def ProperAll (w : World) : List Move → Prop
  | [] => True
  | move :: moves => w.Proper move ∧ (w.after move).ProperAll moves

instance decidableProperAll : (moves : List Move) → (w : World) → Decidable (w.ProperAll moves)
  | [], _ => isTrue trivial
  | move :: moves, w => @instDecidableAnd _ _ _ (decidableProperAll moves (w.after move))

theorem fresh_iff : w.Fresh ↔ w.Each Batch.Fresh := by
  constructor
  · exact fun h place b hb t d hd => h place t d (by rw [descriptor?, hb, Option.bind_some, hd])
  · intro h place t d hd
    obtain ⟨b, hb, hfind⟩ := Option.bind_eq_some_iff.mp hd
    exact h place b hb t d hfind

/-! ### Moves -/

theorem vetted_after (hw : w.Sound) (hv : w.Each Batch.Vetted) (hfits : w.Fits move)
    (hproper : w.Proper move) :
    (w.after move).Each Batch.Vetted := by
  have hsince := (step_sound hw ⟨move, hfits, rfl⟩).2
  refine hv.after (fun _ _ _ hb => hb.later (hsince.agree.continues hsince.size)) (fun _ =>
    Batch.vetted_empty _) ?_
    (fun place e b _ hb => Attempt.wp_const.mp (Batch.vetted_perform e b (hv place b hb))) ?_
  · rintro place requested name b rfl hb
    exact (hv place b hb).createProxy hfits hproper name
  · rintro place output b rfl hb
    have hintact := intact_generation hw (hw.batches place b hb) output
    exact ((hv place b hb).closeAll.remembers hintact.batch).later
      (hintact.agree.continues hintact.size)

section Moves

variable (hw : w.Sound) (hv : w.Each Batch.Vetted) (htokens : w.program.DistinctTokens)
  (hproper : w.Proper move)
include hw hv htokens

include hproper in
/-- A move keeps answers fresh unless it spoils one. -/
theorem fresh_after (hfits : w.Fits move) (hf : w.Fresh) (hnot : ¬ w.Spoils move) :
    (w.after move).Fresh := by
  have hfresh := fresh_iff.mp hf
  obtain ⟨hafter, hsince⟩ := step_sound hw ⟨move, hfits, rfl⟩
  refine fresh_iff.mpr (hfresh.after (fun place b hb hbatch t d hd => ?_) (fun _ _ _ hd =>
    absurd hd (by simp [Batch.find?]))
    (fun place _ _ b _ hb => (hfresh place b hb).push rfl) ?_ ?_)
  · exact (hbatch t d hd).grow ((hw.batches place b hb).sound t.index d hd) hw.space.wellFormed
      hafter.space.wellFormed
      hsince.agree hsince.size fun _ hbase => ((hv place b hb t d hd).base _ hbase).2.2
  · rintro place e b rfl hb
    refine Batch.fresh_perform hw.space.wellFormed htokens (hw.batches place b hb) (hv place b hb)
      (fun h => hnot ⟨b, hb, h⟩) ?_
      (hfresh place b hb)
    rintro t m rfl
    exact hproper
  · intro place output b _ hb t d hd hopen
    rw [isSealed_of_generation hw hb hd] at hopen
    cases hopen

theorem stale_after (h : w.Spoils move) : ¬ (w.after move).Fresh := by
  intro hf
  cases move with
  | edit place e =>
    obtain ⟨b, hb, hspoils⟩ := h
    have hlt : place < w.batches.size := (Array.getElem?_eq_some_iff.mp hb).1
    have hafter : (w.after (.edit place e)).batches[place]?
        = some ((e.perform w.program).start b).2 := by
      simp only [after, hb, putBatch]
      exact Array.getElem?_setIfInBounds_self_of_lt hlt
    have hprogram : (w.after (.edit place e)).program = w.program := by
      simp only [after, hb]
      rfl
    have hfresh := fresh_iff.mp hf place _ hafter
    rw [hprogram] at hfresh
    exact Batch.stale_perform hw.space.wellFormed htokens (hw.batches place b hb)
      (hv place b hb) hspoils hfresh
  | _ => exact h

end Moves

/-! ### Runs -/

theorem run_fresh_iff {moves : List Move} (hw : w.Sound) (hv : w.Each Batch.Vetted) (hf : w.Fresh)
    (hfits : w.FitsAll moves) (hproper : w.ProperAll moves)
    (htokens : (w.run moves).program.DistinctTokens) :
    (∀ before later, moves = before ++ later → (w.run before).Fresh) ↔
      ∀ before move later, moves = before ++ move :: later → ¬ (w.run before).Spoils move := by
  induction moves generalizing w with
  | nil =>
    refine iff_of_true (fun before later hsplit => ?_) fun before _ _ hsplit => by simp at hsplit
    rw [(List.append_eq_nil_iff.mp hsplit.symm).1]
    exact hf
  | cons first moves ih =>
    have hnow : w.program.DistinctTokens :=
      ((later_run (first :: moves) hfits).sound hw).2.agree.distinctTokens htokens
    rw [forall_moves_cons (P := fun w move => ¬ w.Spoils move)]
    by_cases hspoils : w.Spoils first
    · refine iff_of_false (fun h => ?_) fun h => h.1 hspoils
      exact stale_after hw hv hnow hspoils (h [first] moves rfl)
    · have hnext := fresh_after hw hv hnow hproper.1 hfits.1 hf hspoils
      rw [and_iff_right hspoils]
      refine Iff.trans ?_ (ih (step_sound hw ⟨first, hfits.1, rfl⟩).1
        (vetted_after hw hv hfits.1 hproper.1) hnext hfits.2 hproper.2 htokens)
      constructor
      · exact fun h before later hsplit =>
          h (first :: before) later (by rw [hsplit, List.cons_append])
      · intro h before later hsplit
        cases before with
        | nil => exact hf
        | cons _ before =>
          cases hsplit
          exact h before later rfl

/-- Where answers are fresh, a generated class is marked as if nothing had been asked before. -/
theorem isAbstract_of_fresh (hf : w.Fresh) (hrun : ClassRun w place b t d output g) :
    ∃ P, g.emitted.types.find? t = some P
      ∧ ((w.after (.generate place output)).program.record P).isAbstract
      = (d.computeAbstract w.program || b.owesDrafts w.program d) := by
  obtain ⟨P, u, hP, hu, hsize, hagree, hbase, hflag⟩ := hrun.isAbstract_eq
  refine ⟨P, hP, hflag.trans ?_⟩
  have hw := hrun.produced.1
  have hd : w.descriptor? place t = some d := by
    rw [descriptor?, hrun.batch, Option.bind_some, hrun.found]
  -- The answer is remembered, or given while the class is generated.
  have hanswer : (d.askAbstract u).1 = d.computeAbstract w.program := by
    have hfresh :=
      Descriptor.OpenFresh.grow (hf place t d hd)
      ((hw.batches place b hrun.batch).sound t.index d hrun.found)
      hw.space.wellFormed hu hagree hsize hbase hrun.isOpen
    exact hfresh.trans (Descriptor.computeAbstract_agree
      ((hw.batches place b hrun.batch).sound t.index d hrun.found)
      hw.space.wellFormed hu hagree hsize hbase)
  have hsaid : hasBits d.flags TypeFlags.abstract = true → d.computeAbstract w.program = true :=
      fun h => by
    rw [Descriptor.computeAbstract, h]
    simp
  rw [hanswer, Bool.eq_iff_iff, Bool.or_eq_true (_ || _)]
  refine or_iff_left_of_imp fun h => ?_
  rw [hsaid h, Bool.true_or]

/-- Through a run answers are fresh exactly if no implementation was registered that spoils one.
Where they are, a generated class is marked as if nothing had been asked before. -/
theorem answers_fresh_iff {space : TypeSpace} {moves : List Move} (hspace : space.Sound)
    (hfits : FitsAll { space } moves) (hproper : ProperAll { space } moves)
    (htokens : (run { space } moves).program.DistinctTokens) :
    ((∀ before later, moves = before ++ later → (run { space } before).Fresh) ↔
      ∀ before move later, moves = before ++ move :: later → ¬ (run { space } before).Spoils move)
    ∧ ∀ before later, moves = before ++ later → (run { space } before).Fresh →
      ∀ place b t d output g, ClassRun (run { space } before) place b t d output g →
        ∃ P, g.emitted.types.find? t = some P
          ∧ (((run { space } before).after (.generate place output)).program.record P).isAbstract
            = (d.computeAbstract (run { space } before).program || b.owesDrafts
              (run { space } before).program d) := by
  refine ⟨run_fresh_iff (sound_of_space hspace) (fun _ _ hb => absurd hb (by simp))
    (fresh_iff.mpr fun _ _ hb => absurd hb (by simp))
    hfits hproper htokens, fun before later _ hf place b t d output g hrun =>
    isAbstract_of_fresh hf hrun⟩

/-! ### A stale answer -/

/-- A class implements an interface, and a class above it takes the body away again. A class
above that one overrides the method with a body and lists the interface anew, and what it was
asked before stands when the override is registered for the interface method. -/
def spoilingMoves : List Move :=
  [.build interfaceWithM, .build ((classWithM "B" none).implementing ⟨3⟩),
    .build ((({ space := "App", name := "C" } : ClassSpec).isPublic.abstract.extending ⟨4⟩).method
      "M"
      (({} : MethodSpec).access .family).abstract.overrides),
    .openBatch, .edit 0 (.createType "App" "D" TypeFlags.isPublic (some (.ofClass ⟨5⟩))),
    .edit 0 (.overrideMethod ⟨0⟩ ⟨⟨5⟩, .method 0⟩),
      .edit 0 (.setMethodBody ⟨0⟩ ⟨⟨0⟩, .method 0⟩ .empty),
    .edit 0 (.addInterface ⟨0⟩ ⟨3⟩ true), .edit 0 (.askAbstract ⟨0⟩),
      .edit 0 (.implementMethod ⟨0⟩ methodOfFirst)]

set_option maxRecDepth 10000 in
theorem stale : ¬ (fresh.run spoilingMoves).Fresh := by
  intro h
  have hstale : ((fresh.run spoilingMoves).descriptor? 0 ⟨0⟩).any
      (fun d => !d.isSealed && !decide (d.Fresh (fresh.run spoilingMoves).program)) = true := by
        decide +kernel
  obtain ⟨d, hd, hnot⟩ := (Option.any_eq_true _ _).mp hstale
  rw [Bool.and_eq_true, Bool.not_eq_true', Bool.not_eq_true', decide_eq_false_iff_not] at hnot
  exact hnot.2 (h 0 ⟨0⟩ d hd hnot.1)

set_option maxRecDepth 10000 in
theorem spoiling_move : ∃ before move later, spoilingMoves = before ++ move :: later
    ∧ (fresh.run before).Spoils move := by
  by_contra hnone
  have hfits : fresh.FitsAll spoilingMoves := by decide +kernel
  have hiff :=
    (answers_fresh_iff (TypeSpace.sound_fresh Universe.wellFormed_empty) hfits (by decide +kernel)
    (by decide +kernel)).1
  refine stale (hiff.mpr (fun before move later hsplit hspoils =>
    hnone ⟨before, move, later, hsplit, hspoils⟩) spoilingMoves [] ?_)
  rw [List.append_nil]

def AnswersStayFresh : Prop := ∀ w, Reachable w → w.Fresh

set_option maxRecDepth 10000 in
theorem not_answersStayFresh : ¬ AnswersStayFresh :=
  fun h => stale (h _ (later_run spoilingMoves (by decide +kernel)))

end World

end TypeLoom
