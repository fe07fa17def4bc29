import Mathlib.Data.List.Nodup
import TypeLoom.Emit.Lower
import TypeLoom.Proofs.DraftSteps

/-!
# Places of descriptors

The descriptors of a batch become types one after the other, in the order of the batch and after all
types that were there. Lowering replaces each descriptor by the type at its place, and since
different descriptors have different places, lowered signatures agree just when the signatures did.
-/

namespace TypeLoom

/-- Where descriptors are going to stand: the number of the first type, and the order. -/
structure Layout where
  start : Nat
  order : List TypeHandle

namespace Layout

variable {l : Layout} {h h' : TypeHandle}

/-- The type at the place of a handle. Handles that are not ordered get places of their own
behind. -/
def place (l : Layout) (h : TypeHandle) : TypeId :=
  ⟨l.start + if h ∈ l.order then l.order.idxOf h else l.order.length + h.index⟩

theorem place_of_mem (hmem : h ∈ l.order) : l.place h = ⟨l.start + l.order.idxOf h⟩ := by
  rw [place, if_pos hmem]

theorem start_le_place (l : Layout) (h : TypeHandle) : l.start ≤ (l.place h).index :=
  Nat.le_add_right _ _

theorem place_lt (hmem : h ∈ l.order) : (l.place h).index < l.start + l.order.length := by
  rw [place_of_mem hmem]
  exact Nat.add_lt_add_left (List.idxOf_lt_length_of_mem hmem) _

theorem place_of_getElem? {i : Nat} (hnodup : l.order.Nodup) (hi : l.order[i]? = some h) :
    l.place h = ⟨l.start + i⟩ := by
  obtain ⟨hlt, rfl⟩ := List.getElem?_eq_some_iff.mp hi
  rw [place_of_mem (List.getElem_mem hlt), hnodup.idxOf_getElem]

theorem exists_place {t : TypeId} (hnodup : l.order.Nodup) (hle : l.start ≤ t.index)
    (hlt : t.index < l.start + l.order.length) : ∃ h ∈ l.order, l.place h = t := by
  have hi : t.index - l.start < l.order.length := by omega
  refine ⟨l.order[t.index - l.start], List.getElem_mem hi, ?_⟩
  rw [place_of_getElem? hnodup (List.getElem?_eq_getElem hi), Nat.add_sub_cancel' hle]

theorem place_injective (l : Layout) : Function.Injective l.place := by
  intro h h' heq
  have hindex := congrArg TypeId.index heq
  by_cases hmem : h ∈ l.order <;> by_cases hmem' : h' ∈ l.order <;>
    simp only [place, if_pos, if_neg, hmem, hmem', not_false_eq_true] at hindex
  · exact (List.idxOf_inj hmem).mp (by omega)
  · have := List.idxOf_lt_length_of_mem hmem
    omega
  · have := List.idxOf_lt_length_of_mem hmem'
    omega
  · cases h
    cases h'
    simp_all

end Layout

/-! ### Placed signatures -/

def Signature.placed (l : Layout) : Signature → Signature
  | .draft h => .ofClass (l.place h)
  | s => s

def MethodSignature.placed (l : Layout) (s : MethodSignature) : MethodSignature :=
  ⟨s.returns.placed l, s.parameters.map fun p => ⟨p.name, p.type.placed l⟩⟩

namespace Signature

variable {l : Layout} {s s' : Signature}

theorem placed_of_settled {size : Nat} (h : s.Settled size) : s.placed l = s := by
  cases s with
  | draft _ => exact h.elim
  | _ => rfl

theorem placed_inj (h : s.Known l.start) (h' : s'.Known l.start) :
    s.placed l = s'.placed l ↔ s = s' := by
  refine ⟨fun heq => ?_, fun heq => by rw [heq]⟩
  cases s <;> cases s' <;> simp only [placed, reduceCtorEq, ofClass.injEq] at heq ⊢
  · exact heq
  · rename_i t handle
    have hlt : t.index < l.start := h
    have := l.start_le_place handle
    rw [heq] at hlt
    omega
  · rename_i handle t
    have hlt : t.index < l.start := h'
    have := l.start_le_place handle
    rw [← heq] at hlt
    omega
  · rw [l.place_injective heq]

end Signature

namespace MethodSignature

variable {l : Layout} {s s' : MethodSignature}

theorem types_placed (l : Layout) (s : MethodSignature) :
    (s.placed l).types = s.types.map (·.placed l) := by
  simp [types, placed]

theorem placed_of_settled {size : Nat} (h : s.Settled size) : s.placed l = s := by
  obtain ⟨returns, parameters⟩ := s
  have hparameters : (parameters.map fun p => ⟨p.name, p.type.placed l⟩) = parameters := by
    refine (List.map_congr_left fun p hp => ?_).trans (List.map_id _)
    rw [Signature.placed_of_settled (h.2 p.type (List.mem_map_of_mem hp))]
    rfl
  simp only [placed, Signature.placed_of_settled h.1, hparameters]

theorem agrees_placed (h : s.Known l.start) (h' : s'.Known l.start) :
    (s.placed l).agrees (s'.placed l) ↔ s.agrees s' := by
  have htypes : ∀ types types' : List Signature, (∀ t ∈ types, t.Known l.start) →
      (∀ t ∈ types', t.Known l.start) → (types.map (·.placed l) = types'.map (·.placed l) ↔
        types = types') := by
    intro types
    induction types with
    | nil => intro types' _ _; cases types' <;> simp
    | cons t types ih =>
      intro types' hk hk'
      cases types' with
      | nil => simp
      | cons t' types' =>
        simp only [List.map_cons, List.cons.injEq]
        rw [Signature.placed_inj (hk t List.mem_cons_self) (hk' t' List.mem_cons_self),
          ih types' (fun x hx => hk x (List.mem_cons_of_mem _ hx)) fun x hx =>
          hk' x (List.mem_cons_of_mem _ hx)]
  rw [agrees_iff, agrees_iff, types_placed, types_placed, htypes _ _ h.2 h'.2]
  exact and_congr_left fun _ => Signature.placed_inj h.1 h'.1

end MethodSignature

/-! ### Lowering -/

namespace Emitted

/-- Each emitted type stands at the place of its handle. -/
def Follows (l : Layout) (e : Emitted) : Prop := ∀ h t, e.types.find? h = some t →
    h ∈ l.order ∧ t = l.place h

variable {l : Layout} {e : Emitted}

theorem require_ok {κ ν : Type} [DecidableEq κ] {kind : String} {text : κ → String}
    {rows : Keyed κ ν} {key : κ} {value : ν} (h : require kind text rows key = .ok value) :
    rows.find? key = some value := by
  unfold require at h
  split at h
  · rename_i found
    cases h
    exact found
  · cases h

theorem Follows.type_ok (he : e.Follows l) {h : TypeHandle} {t : TypeId} (ht : e.type h = .ok t) :
    h ∈ l.order ∧ t = l.place h := he h t (require_ok ht)

/-- The signature becomes one whose types all stand in the table. -/
theorem Follows.signature_ok (he : e.Follows l) {s s' : Signature}
    (hs : Lower.signature e s = .ok s') :
    s' = s.placed l ∧ (s.Known l.start → s'.Settled (l.start + l.order.length)) := by
  cases s with
  | draft h =>
    simp only [Lower.signature] at hs
    cases ht : e.type h with
    | error f => rw [ht] at hs; cases hs
    | ok t =>
      rw [ht] at hs
      cases hs
      obtain ⟨hmem, rfl⟩ := he.type_ok ht
      exact ⟨rfl, fun _ => Layout.place_lt hmem⟩
  | ofClass t =>
    cases hs
    exact ⟨rfl, fun hk => Nat.lt_of_lt_of_le hk (Nat.le_add_right _ _)⟩
  | _ =>
    cases hs
    exact ⟨rfl, fun _ => trivial⟩

theorem Follows.parameters_ok (he : e.Follows l) {parameters lowered : List Parameter}
    (hs : parameters.mapM (Lower.parameter e) = .ok lowered) :
    lowered = parameters.map (fun p => ⟨p.name, p.type.placed l⟩)
      ∧ ((∀ t ∈ parameters.map (·.type), t.Known l.start) →
        ∀ p ∈ lowered, p.type.Settled (l.start + l.order.length)) := by
  induction parameters generalizing lowered with
  | nil =>
    rw [List.mapM_nil] at hs
    cases hs
    exact ⟨rfl, fun _ p hp => by cases hp⟩
  | cons p parameters ih =>
    rw [List.mapM_cons] at hs
    obtain ⟨first, hfirst, hrest⟩ := bind_eq_ok.mp hs
    obtain ⟨others, hothers, hend⟩ := bind_eq_ok.mp hrest
    cases hend
    obtain ⟨type, htype, hmade⟩ := bind_eq_ok.mp hfirst
    cases hmade
    obtain ⟨rfl, hsettled⟩ := he.signature_ok htype
    obtain ⟨rfl, hsettled'⟩ := ih hothers
    refine ⟨rfl, fun hk q hq => ?_⟩
    rcases List.mem_cons.mp hq with rfl | hq
    · exact hsettled (hk p.type List.mem_cons_self)
    · exact hsettled' (fun t ht => hk t (List.mem_cons_of_mem _ ht)) q hq

theorem Follows.methodSignature_ok (he : e.Follows l) {s s' : MethodSignature}
    (hs : Lower.methodSignature e s = .ok s') :
    s' = s.placed l ∧ (s.Known l.start → s'.Settled (l.start + l.order.length)) := by
  obtain ⟨parameters, hparameters, hrest⟩ := bind_eq_ok.mp hs
  obtain ⟨returns, hreturns, hend⟩ := bind_eq_ok.mp hrest
  cases hend
  obtain ⟨rfl, hsettled⟩ := he.signature_ok hreturns
  obtain ⟨rfl, hsettled'⟩ := he.parameters_ok hparameters
  refine ⟨rfl, fun hk => ⟨hsettled hk.1, fun t ht => ?_⟩⟩
  obtain ⟨p, hp, rfl⟩ := List.mem_map.mp ht
  exact hsettled' hk.2 p hp

theorem Follows.namedType_ok (he : e.Follows l) {u : Universe} {s : Signature} {t : TypeId}
    (ht : Lower.namedType u e s = .ok t) :
    s.placed l = .ofClass t ∧ (∀ h, s = .draft h → h ∈ l.order)
        ∧ (∀ t', s = .ofClass t' → u.isPresent t') := by
  cases s with
  | draft h =>
    obtain ⟨hmem, rfl⟩ := he.type_ok ht
    exact ⟨rfl, fun _ heq => by cases heq; exact hmem, nofun⟩
  | ofClass t' =>
    simp only [Lower.namedType] at ht
    split at ht
    · rename_i hp
      cases ht
      exact ⟨rfl, nofun, fun _ heq => by cases heq; exact hp⟩
    · cases ht
  | _ => cases ht

end Emitted

end TypeLoom
