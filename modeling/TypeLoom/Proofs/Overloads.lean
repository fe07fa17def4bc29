import TypeLoom.Proofs.Formed
import TypeLoom.Proofs.Overriding
import TypeLoom.Proofs.Recalling

/-!
# Methods that can be told apart

Methods of a descriptor are told apart by their names and parameter types. Whatever adds a method
looks whether these are taken, except for the override of a base method. So two methods that cannot
be told apart come of nothing but an override that was made for a base method when its name and
parameters were taken.
-/

namespace TypeLoom

open Attempt

variable {α : Type} {u : Universe}

namespace Descriptor

variable {d d' : Descriptor} {m inherited : MethodId}

def keys (d : Descriptor) : List (String × List Signature) :=
  d.methods.toList.map fun own => (own.name, own.signature.types)

/-- No two methods have the same name and the same parameter types. -/
def Distinct (d : Descriptor) : Prop := d.keys.Nodup

instance (d : Descriptor) : Decidable d.Distinct := inferInstanceAs (Decidable d.keys.Nodup)

/-! ### Keys -/

theorem keys_push {own : DraftMethod} (h : d'.methods = d.methods.push own) :
    d'.keys = d.keys ++ [(own.name, own.signature.types)] := by
  rw [keys, h, Array.toList_push, List.map_append, keys]
  rfl

theorem keys_modifyMethod (d : Descriptor) (slot : Slot) {change : DraftMethod → DraftMethod}
    (revised : ∀ own : DraftMethod, own.Revised (change own)) :
    (d.modifyMethod slot change).keys = d.keys := by
  cases slot with
  | method index =>
    apply List.ext_getElem?
    intro i
    simp only [keys, modifyMethod, List.getElem?_map, Array.getElem?_toList, Array.getElem?_modify]
    split
    · rw [Option.map_map]
      refine Option.map_congr fun own _ => ?_
      rw [Function.comp_apply, (revised own).name, (revised own).signature]
    · rfl
  | constructor index => rfl
  | typeInitializer => rfl

theorem Distinct.push {own : DraftMethod} (hd : d.Distinct) (h : d'.methods = d.methods.push own)
    (hfree : (own.name, own.signature.types) ∉ d.keys) : d'.Distinct := by
  rw [Distinct, keys_push h]
  exact List.nodup_append.mpr ⟨hd, List.nodup_singleton _, fun key hkey other hother heq =>
    hfree (by rw [List.mem_singleton.mp hother] at heq; exact heq ▸ hkey)⟩

theorem not_distinct_push {own : DraftMethod} (h : d'.methods = d.methods.push own)
    (htaken : (own.name, own.signature.types) ∈ d.keys) : ¬ d'.Distinct := by
  rw [Distinct, keys_push h]
  exact fun hnodup => (List.nodup_append.mp hnodup).2.2 _ htaken _ (List.mem_singleton_self _) rfl

theorem Keeps.distinct (h : d.Keeps d') (hd' : d'.Distinct) : d.Distinct := by
  have hkept : d.keys <+: d'.keys := by
    rw [List.prefix_iff_getElem?]
    intro i hi
    have hlt : i < d.methods.size := by simpa [keys] using hi
    obtain ⟨own, hown, hrevised⟩ := h.methods i d.methods[i] (Array.getElem?_eq_getElem hlt)
    simp [keys, hown, hrevised.name, hrevised.signature]
  exact hd'.sublist hkept.sublist

theorem free_of_checkMethod {name : String} {flags : UInt32} {s : MethodSignature} {hasBody : Bool}
    (h : d.checkMethod name flags s hasBody = .ok ()) : (name, s.types) ∉ d.keys := by
  intro htaken
  obtain ⟨own, hown, hkey⟩ := List.mem_map.mp htaken
  obtain ⟨hname, htypes⟩ := Prod.mk.inj hkey
  have hfree := (checkMethod_ok h).2 own (Array.mem_toList_iff.mp hown) hname
  rw [(MethodSignature.sameParameters_iff _ _).mpr htypes] at hfree
  cases hfree

/-! ### Overrides that are made -/

/-- Asking for the override of the method makes one. -/
structure Makes (u : Universe) (d : Descriptor) (m : MethodId) (base : TypeId) (access : Access) :
    Prop where
  isOpen : d.isSealed = false
  check : d.checkOverride u m = .ok base
  free : d.overrides.find? (u.slotToken m) = none
  missing : d.methods.find? (fun own => own.takesSlot (u.method m).name (u.method m).signature)
    = none
  allowed : d.overrideAccess u (u.resolveVirtual base m) = .ok access

/-- Asking for the override of the method makes one, and its name and parameters are taken. -/
def Doubles (u : Universe) (d : Descriptor) (m : MethodId) : Prop :=
  (∃ base access, d.Makes u m base access)
    ∧ ((u.method m).name, (u.method m).signature.types) ∈ d.keys

/-- Asking for the implementation of the interface method asks for the override of an inherited
one. -/
structure Inherits (u : Universe) (d : Descriptor) (m inherited : MethodId) : Prop where
  isOpen : d.isSealed = false
  check : d.checkImplementation u m = .ok ()
  free : d.implementations.find? (u.method m).token = none
  missing : d.methods.find? (fun own =>
    own.isPublicVirtual (u.method m).name (u.method m).signature) = none
  found : ((d.baseType? u).bind fun base => u.resolveInterfaceMethod base m) = some inherited
  overridable : (u.method inherited).isVirtual = true ∧ (u.method inherited).isFinal = false

theorem Makes.start {base : TypeId} {access : Access} (h : d.Makes u m base access) :
    (getOrAddOverride u m).start d = (.ok (d.nextMethod, true),
      d.withOverride u m base access) := by
  simp only [start_getOrAddOverride h.isOpen h.check, h.free, h.missing, h.allowed]

theorem start_getOrAddImplementation (h : d.Inherits u m inherited) :
    (getOrAddImplementation u m).start d = (do
      let answer ← getOrAddOverride u inherited
      modify fun d =>
        { d with implementations := d.implementations.put (u.method m).token answer.1 }
      return answer : Attempt Descriptor (MethodHandle × Bool)).start d := by
  obtain ⟨hopen, hcheck, hfree, hmissing, hfound, hvirtual, hfinal⟩ := h
  simp only [getOrAddImplementation, ensureMutable, start_bind, start_get, start_lift, start_pure,
    hopen, Bool.false_eq_true,
    if_false, hcheck, hfree, hmissing, hfound, hvirtual, hfinal, Bool.not_true, Bool.or_false]

/-! ### Operations that look first -/

theorem distinct_addMethod (name : String) (flags : UInt32) (signature : MethodSignature)
    (body : Option Expr) :
    Maintains Distinct (addMethod name flags signature body) :=
  fun _ hd => wp_addMethod (fun _ check => hd.push rfl (free_of_checkMethod check)) fun _ => hd

theorem Distinct.modifyMethod (hd : d.Distinct) (slot : Slot) {change : DraftMethod → DraftMethod}
    (revised : ∀ own : DraftMethod, own.Revised (change own)) :
    (d.modifyMethod slot change).touch.Distinct := by
  have hkeys : (d.modifyMethod slot change).touch.keys = d.keys := keys_modifyMethod d slot revised
  rw [Distinct, hkeys]
  exact hd

theorem distinct_addProperty (name : String) (signature : Signature)
    (getter setter : Option MethodHandle) :
    Maintains Distinct (addProperty u name signature getter setter) :=
  fun _ hd => wp_addProperty (fun _ _ _ _ => hd) fun _ => hd

theorem distinct_addPropertyAccessors (name : String) (signature : Signature) (access : Access)
    (getterBody setterBody : Option Expr) :
    Maintains Distinct (addPropertyAccessors u name signature access getterBody setterBody) := by
  refine fun d hd => wp_addPropertyAccessors (fun _ _ => ?_) fun _ => hd
  refine maintains_bind (maintains_option getterBody fun body => distinct_addMethod _ _ _ _)
    (fun getter => ?_) d hd
  exact maintains_bind (maintains_option setterBody fun body =>
      distinct_addMethod _ _ _ _) fun setter =>
    distinct_addProperty _ _ _ _

theorem distinct_addDraftInterface (interface : TypeHandle) :
    Maintains Distinct (addDraftInterface interface) :=
  fun _ hd => wp_addDraftInterface (fun _ _ => hd) hd

/-- An addition adds no method, or one whose key is not taken. -/
theorem distinct_addition {act : Attempt Descriptor α} (addition : Addition u act) :
    Maintains Distinct act := by
  intro d hd
  cases addition with
  | addField name signature flags => exact wp_addField (fun _ _ => hd) fun _ => hd
  | addConstructor flags parameters body => exact wp_addConstructor (fun _ _ _ _ _ => hd) hd
  | addTypeInitializer body => exact wp_addTypeInitializer (fun _ _ => hd) hd
  | addTypeInitialization e => exact wp_addTypeInitialization (fun _ => hd) hd
  | addInitialization e => exact wp_addInitialization (fun _ _ => hd) hd
  | addMethod name flags signature body => exact distinct_addMethod name flags signature body d hd
  | setMethodBody h body =>
    exact wp_setMethodBody (fun _ _ _ _ => hd.modifyMethod _ fun own => revised_body own body) hd
  | addProperty name signature getter setter =>
    exact distinct_addProperty name signature getter setter d hd
  | addPropertyAccessors name signature access getterBody setterBody =>
    exact distinct_addPropertyAccessors name signature access getterBody setterBody d hd
  | addAutoProperty name signature access =>
    exact maintains_bind (fun _ hd => wp_addField (fun _ _ => hd) fun _ => hd) (fun _ =>
      distinct_addPropertyAccessors _ _ _ _ _) d hd
  | addEvent name type add remove raise => exact wp_addEvent (fun _ _ _ _ => hd) hd
  | addInterface interface allow => exact wp_addInterface (fun _ _ _ => hd) hd hd
  | addAttribute a => exact wp_addAttribute (fun _ => hd) hd
  | addMethodAttribute h a =>
    exact wp_addMethodAttribute (fun _ _ => hd.modifyMethod _ fun own =>
      revised_attributes own _) hd
  | addFieldAttribute h a => exact wp_addFieldAttribute (fun _ _ _ => hd) hd

/-! ### Overrides -/

theorem distinct_getOrAddOverride (hnot : ¬ d.Doubles u m) (hd : d.Distinct) :
    (getOrAddOverride u m).wp (fun _ => Distinct) Distinct d := by
  cases hopen : d.isSealed with
  | true => exact wp_mutable (fun hs => absurd (hopen.symm.trans hs) Bool.noConfusion) fun _ => hd
  | false =>
    refine wp_getOrAddOverride (fun _ _ _ _ => hd) (fun _ _ _ _ _ => hd)
      (fun base access check free missing allowed => ?_) hd
    have hmakes : d.Makes u m base access := ⟨hopen, check, free, missing, allowed⟩
    exact hd.push rfl fun htaken => hnot ⟨⟨base, access, hmakes⟩, htaken⟩

theorem not_distinct_getOrAddOverride (h : d.Doubles u m) :
    (getOrAddOverride u m).wp (fun _ after => ¬ after.Distinct) (fun _ => False) d := by
  obtain ⟨⟨base, access, hmakes⟩, htaken⟩ := h
  unfold wp
  rw [hmakes.start]
  exact not_distinct_push rfl htaken

theorem distinct_getOrAddImplementation (hnot : ∀ inherited, d.Inherits u m inherited →
      ¬ d.Doubles u inherited)
    (hd : d.Distinct) : (getOrAddImplementation u m).wp (fun _ => Distinct) Distinct d := by
  cases hopen : d.isSealed with
  | true => exact wp_mutable (fun hs => absurd (hopen.symm.trans hs) Bool.noConfusion) fun _ => hd
  | false =>
    refine wp_getOrAddImplementation (fun _ _ _ => hd) (fun _ _ _ _ => hd)
      (fun inherited check free missing found overridable => ?_) (fun _ _ _ check =>
        hd.push rfl (free_of_checkMethod check)) hd
    have hinherits : d.Inherits u m inherited := ⟨hopen, check, free, missing, found, overridable⟩
    exact wp_mono (distinct_getOrAddOverride (hnot inherited hinherits) hd) (fun _ _ hafter =>
      hafter) fun _ h => h

theorem not_distinct_getOrAddImplementation (hinherits : d.Inherits u m inherited)
    (h : d.Doubles u inherited) :
    (getOrAddImplementation u m).wp (fun _ after => ¬ after.Distinct) (fun _ => False) d := by
  unfold wp
  rw [start_getOrAddImplementation hinherits]
  refine wp_step (not_distinct_getOrAddOverride h) (fun answer after hafter => ?_) fun _ h => h
  exact hafter

end Descriptor

/-! ### Edits -/

/-- The edit makes an override, as such or as an implementation, whose name and parameters are
taken. -/
inductive Edit.Doubles (u : Universe) (b : Batch) : Edit → Prop
  | override {t : TypeHandle} {m : MethodId} {d : Descriptor} (found : b.find? t = some d)
  (doubles : d.Doubles u m) :
      Doubles u b (.overrideMethod t m)
  | implementation {t : TypeHandle} {m inherited : MethodId} {d : Descriptor}
    (found : b.find? t = some d)
      (inherits : d.Inherits u m inherited) (doubles : d.Doubles u inherited) :
      Doubles u b (.implementMethod t m)

namespace Batch

variable {b b' : Batch} {e : Edit} {t : TypeHandle} {d d' : Descriptor}

def Distinct (b : Batch) : Prop := ∀ h d, b.find? h = some d → d.Distinct

theorem Distinct.set (hb : b.Distinct) (hd' : d'.Distinct) :
    Distinct { b with types := b.types.setIfInBounds t.index d' } := fun h last hlast => by
  rcases find?_set_cases hlast with ⟨-, rfl⟩ | hold
  · exact hd'
  · exact hb h last hold

theorem Distinct.push (hb : b.Distinct) (hmade : d'.methods = #[]) :
    Distinct { b with types := b.types.push d' } :=
  fun h last hlast => by
    rcases find?_push_cases hlast with rfl | hold
    · rw [Descriptor.Distinct, Descriptor.keys, hmade]
      exact List.nodup_nil
    · exact hb h last hold

theorem Distinct.remembers (hb : b.Distinct) (hr : b.Remembers b') : b'.Distinct := fun h d hd => by
  obtain ⟨known, hknown, hforget⟩ := hr.symm.find hd
  have hmethods := Production.methods_of_forget hforget
  have hdistinct := hb h known hknown
  rwa [Descriptor.Distinct, Descriptor.keys, hmethods] at hdistinct

theorem Distinct.closeAll (hb : b.Distinct) : b.closeAll.Distinct := fun h d hd => by
  rw [find?_closeAll] at hd
  obtain ⟨old, hold, rfl⟩ := Option.map_eq_some_iff.mp hd
  exact hb h old hold

theorem distinct_onType {act : Attempt Descriptor α} (t : TypeHandle)
    (h : ∀ d, b.find? t = some d → d.Distinct →
      act.wp (fun _ => Descriptor.Distinct) Descriptor.Distinct d) (hb : b.Distinct) :
    (onType t act).wp (fun _ => Distinct) Distinct b :=
  wp_onType (fun _ => hb) fun d hd => wp_mono (h d hd (hb t d hd)) (fun _ _ hd' => hb.set hd') fun _
    hd' => hb.set hd'

theorem not_distinct_onType {act : Attempt Descriptor α} (hd : b.find? t = some d)
    (h : act.wp (fun _ after => ¬ after.Distinct) (fun _ => False) d) :
    (onType t act).wp (fun _ after => ¬ after.Distinct) (fun _ => False) b := by
  refine wp_onType (fun hnone => by rw [hd] at hnone; cases hnone) fun old hold => ?_
  obtain rfl : d = old := Option.some.inj (hd.symm.trans hold)
  refine wp_mono h (fun _ after hafter hdistinct => hafter (hdistinct t after ?_)) fun _ hfalse =>
    hfalse
  exact find?_set (Array.getElem?_eq_some_iff.mp hd).1

theorem distinct_addBatchInterface (t interface : TypeHandle) :
    Maintains Distinct (addBatchInterface t interface) :=
  fun _ hb => wp_addBatchInterface
    (fun _ _ _ => distinct_onType t (fun d _ hd =>
      Descriptor.distinct_addDraftInterface interface d hd) hb) hb

theorem distinct_createType (space name : String) (flags : UInt32) (base : Option Signature) :
    Maintains Distinct (createType u space name flags base) :=
  fun _ hb => wp_createType (fun _ _ => hb.push rfl) hb

theorem distinct_addNested (outer : TypeHandle) (name : String) (flags : UInt32)
    (base : Option Signature) :
    Maintains Distinct (addNested u outer name flags base) := by
  refine fun b hb => wp_addNested (fun d hd _ _ _ => ?_) hb
  exact (hb.push rfl).set (hb outer d hd)

theorem distinct_askAbstract (t : TypeHandle) : Maintains Distinct (askAbstract u t) :=
  fun b hb => wp_mono (b.remembers_askAbstract u t b (.refl b)) (fun _ _ hr => hb.remembers hr)
    fun _ hr => hb.remembers hr

/-- An edit that doubles no method keeps methods apart. -/
theorem distinct_perform (hnot : ¬ e.Doubles u b) (hb : b.Distinct) :
    Distinct ((e.perform u).start b).2 := by
  refine wp_const.mp (wp_perform hb distinct_createType distinct_addNested
    distinct_addBatchInterface
    (fun t _ addition _ hnow =>
      distinct_onType t (fun d _ => Descriptor.distinct_addition addition d) hnow) ?_ ?_
    fun t _ => distinct_askAbstract t)
  · rintro t m rfl
    exact distinct_onType t (fun d hd => Descriptor.distinct_getOrAddOverride fun h =>
      hnot (.override hd h)) hb
  · rintro t m rfl
    refine distinct_onType t (fun d hd => Descriptor.distinct_getOrAddImplementation fun _
      hinherits h => ?_) hb
    exact hnot (.implementation hd hinherits h)

theorem not_distinct_perform (h : e.Doubles u b) : ¬ Distinct ((e.perform u).start b).2 := by
  have hends : (e.perform u).wp (fun _ after => ¬ after.Distinct) (fun _ => False) b := by
    cases h with
    | override found doubles =>
      exact wp_step (not_distinct_onType found (Descriptor.not_distinct_getOrAddOverride doubles))
        (fun _ _ h => h) fun _ h => h
    | implementation found inherits doubles =>
      exact wp_step (not_distinct_onType found (Descriptor.not_distinct_getOrAddImplementation
        inherits doubles))
        (fun _ _ h => h) fun _ h => h
  exact wp_const.mp (wp_mono hends (fun _ _ h => h) fun _ hfalse => hfalse.elim)

end Batch

/-! ### Worlds -/

namespace World

variable {w : World} {move : Move}

/-- No descriptor has two methods that cannot be told apart. -/
def Distinct (w : World) : Prop := ∀ place t d, w.descriptor? place t = some d → d.Distinct

def Doubles (w : World) : Move → Prop
  | .edit place e => ∃ b, w.batches[place]? = some b ∧ e.Doubles w.program b
  | _ => False

theorem distinct_iff : w.Distinct ↔ w.Each fun _ b => b.Distinct := by
  constructor
  · exact fun h place b hb t d hd => h place t d (by rw [descriptor?, hb, Option.bind_some, hd])
  · intro h place t d hd
    obtain ⟨b, hb, hfind⟩ := Option.bind_eq_some_iff.mp hd
    exact h place b hb t d hfind

/-- A move keeps methods apart that are apart, unless it makes an override whose name and
parameters are taken. -/
theorem distinct_after (hw : w.Distinct) (hnot : ¬ w.Doubles move) : (w.after move).Distinct := by
  have hbatch := distinct_iff.mp hw
  refine distinct_iff.mpr (hbatch.after (fun _ _ _ hb => hb) (fun _ _ _ hd =>
    absurd hd (by simp [Batch.find?]))
    (fun place _ _ b _ hb => (hbatch place b hb).push rfl) ?_ ?_)
  · rintro place e b rfl hb
    exact Batch.distinct_perform (fun h => hnot ⟨b, hb, h⟩) (hbatch place b hb)
  · rintro place output b rfl hb
    have hremembers :=
      wp_const.mp (Production.wp_generate_remembers w.space.registry.core.object
      (w.production b output))
    exact (hbatch place b hb).closeAll.remembers hremembers

/-- Descriptors that can be told apart after a move could be before, and the move doubled
nothing. -/
theorem distinct_before (hw : w.Sound) (hfits : w.Fits move) (h : (w.after move).Distinct) :
    w.Distinct ∧ ¬ w.Doubles move := by
  constructor
  · intro place t d hd
    obtain ⟨b, hb, hfind⟩ := Option.bind_eq_some_iff.mp hd
    obtain ⟨b', hb', hkept⟩ := (step_sound hw ⟨move, hfits, rfl⟩).2.batches place b hb
    obtain ⟨d', hd', hkeeps⟩ := hkept t d hfind
    exact hkeeps.distinct (distinct_iff.mp h place b' hb' t d' hd')
  · intro hdoubles
    cases move with
    | edit place e =>
      obtain ⟨b, hb, hdoubled⟩ := hdoubles
      have hlt : place < w.batches.size := (Array.getElem?_eq_some_iff.mp hb).1
      refine Batch.not_distinct_perform hdoubled (distinct_iff.mp h place _ ?_)
      simp only [after, hb, putBatch]
      exact Array.getElem?_setIfInBounds_self_of_lt hlt
    | _ => exact hdoubles

theorem run_distinct_iff {moves : List Move} (hw : w.Sound) (hfits : w.FitsAll moves) :
    (w.run moves).Distinct ↔
      w.Distinct ∧ ∀ before move later, moves = before ++ move :: later →
      ¬ (w.run before).Doubles move := by
  induction moves generalizing w with
  | nil => exact ⟨fun h => ⟨h, fun before _ _ hsplit => by simp at hsplit⟩, fun h => h.1⟩
  | cons first moves ih =>
    rw [forall_moves_cons (P := fun w move => ¬ w.Doubles move)]
    refine (ih (w := w.after first) (step_sound hw ⟨first, hfits.1, rfl⟩).1 hfits.2).trans ?_
    constructor
    · rintro ⟨hafter, hrest⟩
      obtain ⟨hdistinct, hfirst⟩ := distinct_before hw hfits.1 hafter
      exact ⟨hdistinct, hfirst, hrest⟩
    · rintro ⟨hdistinct, hfirst, hrest⟩
      exact ⟨distinct_after hdistinct hfirst, hrest⟩

/-- Methods can be told apart after a run exactly if no override was made, as such or as an
implementation, when the name and the parameters of its base method were taken. -/
theorem methods_distinct_iff {space : TypeSpace} {moves : List Move} (hspace : space.Sound)
    (hfits : FitsAll { space } moves) :
    (run { space } moves).Distinct ↔
      ∀ before move later, moves = before ++ move :: later →
      ¬ (run { space } before).Doubles move := by
  rw [run_distinct_iff (sound_of_space hspace) hfits, and_iff_right]
  exact distinct_iff.mpr fun _ _ hb => absurd hb (by simp)

/-! ### A doubled method -/

/-- A proxy gets a method with the name of an inherited one, which is not virtual, and then the
override of the inherited one. -/
def doublingMoves : List Move :=
  plainMoves ++ [.edit 0 (.addMethod ⟨0⟩ "M" (MethodFlags.isPublic ||| MethodFlags.hideBySig)
    {} (some .empty)),
    .edit 0 (.overrideMethod ⟨0⟩ methodOfFirst)]

theorem doubled : ¬ (fresh.run doublingMoves).Distinct := by
  intro h
  have hdoubled : ((fresh.run doublingMoves).descriptor? 0 ⟨0⟩).any (fun d => !decide d.Distinct)
    = true := by decide +kernel
  cases hd : (fresh.run doublingMoves).descriptor? 0 ⟨0⟩ with
  | none =>
    rw [hd] at hdoubled
    cases hdoubled
  | some d =>
    rw [hd, Option.any_some, decide_eq_true (h 0 ⟨0⟩ d hd)] at hdoubled
    cases hdoubled

theorem doubling_move : ∃ before move later, doublingMoves = before ++ move :: later
    ∧ (fresh.run before).Doubles move := by
  by_contra hnone
  refine doubled ((methods_distinct_iff (TypeSpace.sound_fresh Universe.wellFormed_empty)
    (by decide +kernel)).mpr ?_)
  exact fun before move later hsplit hdoubles => hnone ⟨before, move, later, hsplit, hdoubles⟩

/-- In every world that can be reached methods can be told apart. -/
def MethodsStayDistinct : Prop := ∀ w, Reachable w → w.Distinct

theorem not_methodsStayDistinct : ¬ MethodsStayDistinct :=
  fun h => doubled (h _ (later_run doublingMoves (by decide +kernel)))

end World

end TypeLoom
