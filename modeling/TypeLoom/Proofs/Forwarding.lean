import Mathlib.Data.List.Forall2
import TypeLoom.Proofs.CallDepth

/-!
# Methods that forward

A method that only passes its receiver and its arguments on to another method cannot be told from
it: a call ends like a call of the other method one level deeper, with the same value or the same
fault, and leaves the same heap.
-/

namespace TypeLoom

open Attempt Watching Evaluation

/-! ### Arguments that are passed on -/

namespace Evaluation

variable {u : Universe} {ω : Type} {watch : Occurrence → ω → ω} {calls : Calls ω}
  {frame : Frame} {s : Watched ω}

def forwarded (index : Nat) : Expr := .argument (if index < 65536 then index.toUInt16 else 65535)

theorem start_evaluate_forwarded {index : Nat} (hfits : index < 65536) {value : Value}
    (hvalue : frame.arguments[index]? = some value) :
    (evaluate u watch calls frame (forwarded index)).start s = (.ok value, s) := by
  have hplace : index.toUInt16.toNat = index := by
    rw [UInt16.toNat_ofNat']
    exact Nat.mod_eq_of_lt hfits
  rw [forwarded, if_pos hfits, evaluate, hplace, hvalue]
  rfl

theorem start_evaluateAll_forwarded (places : List Nat) (values : List Value)
    (h : List.Forall₂ (fun index value => index < 65536 ∧ frame.arguments[index]? = some value)
      places values) :
    (evaluateAll u watch calls frame (places.map forwarded)).start s = (.ok values, s) := by
  induction h with
  | nil =>
    rw [List.map_nil, evaluateAll]
    rfl
  | cons hplace _ ih =>
    rw [List.map_cons, evaluateAll, start_bind, start_evaluate_forwarded hplace.1 hplace.2]
    simp only [start_bind, ih]
    rfl

theorem start_evaluateAll_forwardArguments (hfits : frame.arguments.length ≤ 65536) :
    (evaluateAll u watch calls frame (Expr.forwardArguments frame.arguments.length)).start s
    = (.ok frame.arguments, s) := by
  refine start_evaluateAll_forwarded (List.range frame.arguments.length) frame.arguments ?_
  refine List.forall₂_iff_get.mpr ⟨List.length_range, fun i hi hi' => ?_⟩
  rw [List.get_eq_getElem, List.getElem_range, List.get_eq_getElem]
  exact ⟨Nat.lt_of_lt_of_le hi' hfits, List.getElem?_eq_getElem hi'⟩

end Evaluation

/-! ### Calls that are passed on -/

section Levels

variable {u : Universe} {m target : MethodId} {o : ObjectRef} {arguments : List Value}

/-- The method does nothing but call the other one, which is there, with its own receiver and
arguments. It takes as many, no more than sixteen bits can count, and has no result only if the
other one has none. -/
structure Universe.Forwards (u : Universe) (m target : MethodId) : Prop where
  body : (u.method m).body
    = some (.callBase .this (.member target)
      (Expr.forwardArguments (u.method target).signature.arity))
  isAbstract : (u.method m).isAbstract = false
  isStatic : (u.method m).isStatic = false
  arity : (u.method m).signature.arity = (u.method target).signature.arity
  fits : (u.method target).signature.arity ≤ 65536
  returns : (u.method m).signature.returns.isVoid = true →
    (u.method target).signature.returns.isVoid = true
  present : u.isPresent target.owner = true
  isSome : (u.method? target).isSome = true

/-- A method without a result gives the empty value. -/
theorem value_of_isVoid {ω : Type} {watch : Occurrence → ω → ω} {below : Calls ω}
    {initialized : TypeId → Watching ω Unit} {remaining : Nat} {this : Option ObjectRef}
    {s after : Watched ω} {value : Value}
    (h : (invokeOver u watch below initialized remaining m this arguments).start s
      = (.ok value, after))
    (hvoid : (u.method m).signature.returns.isVoid = true) : value = .void := by
  obtain ⟨-, checked, -, hready⟩ := start_bind_ok.mp h
  obtain ⟨ready, hbody⟩ : ∃ ready, (runBody u watch below m { this, arguments }).start ready
      = (.ok value, after) := by
    split at hready
    · split at hready
      · obtain ⟨_, ready, -, hbody⟩ := start_bind_ok.mp hready
        exact ⟨ready, hbody⟩
      · exact ⟨checked, hready⟩
    · exact ⟨checked, hready⟩
  obtain ⟨_, opened, -, hrun⟩ := start_bind_ok.mp hbody
  obtain ⟨found, closed, -, hend⟩ := start_bind_ok.mp hrun
  rw [if_pos hvoid, start_pure] at hend
  cases hend
  rfl

/-- A call that passes on the receiver and all arguments ends like the call below. -/
theorem start_evaluate_callBase (hpresent : u.isPresent target.owner = true)
    (hsome : (u.method? target).isSome = true) (hfits : arguments.length ≤ 65536) {ω : Type}
    {watch : Occurrence → ω → ω} {below : Calls ω} (s : Watched ω) :
    (evaluate u watch below { this := some o, arguments }
        (.callBase .this (.member target) (Expr.forwardArguments arguments.length))).start s
      = (below.invoke target (some o) arguments).start s := by
  have hrequired : Evaluation.requireMethod u (.member target) = .ok target := by
    rw [Evaluation.requireMethod, hpresent, hsome]
    rfl
  have hvalues :
    (evaluateAll u watch below { this := some o, arguments }
    (Expr.forwardArguments arguments.length)).start s
      = (.ok arguments, s) := start_evaluateAll_forwardArguments hfits
  rw [Expr.callBase, evaluate, hrequired]
  simp only [evaluateReceiver, evaluate, requireObject, start_bind, start_lift, start_pure, hvalues]

/-- One level: the body of a method that forwards ends like the call below. -/
theorem Universe.Forwards.start_evaluate (h : u.Forwards m target) {ω : Type}
    {watch : Occurrence → ω → ω} {below : Calls ω}
    (hlength : arguments.length = (u.method m).signature.arity) (s : Watched ω) :
    (evaluate u watch below { this := some o, arguments }
        (.callBase .this (.member target)
          (Expr.forwardArguments (u.method target).signature.arity))).start s
      = (below.invoke target (some o) arguments).start s := by
  have hcount : (u.method target).signature.arity = arguments.length := by rw [hlength, h.arity]
  rw [hcount]
  exact start_evaluate_callBase h.present h.isSome (by rw [← hcount]; exact h.fits) s

theorem start_body_unwatched {α : Type} (m : MethodId) (act : Watching Unit α) (s : Watched Unit) :
    (body (fun _ _ => ()) m act).start s = act.start s := rfl

/-- One level: a method that forwards ends like the call below, if that keeps to the results of
the other method. -/
theorem Universe.Forwards.start_invokeOver (h : u.Forwards m target) {below : Calls Unit}
    {initialized : TypeId → Watching Unit Unit} {remaining : Nat}
    (hlength : arguments.length = (u.method m).signature.arity) (s : Watched Unit)
    (hresult : ∀ value after, (below.invoke target (some o) arguments).start s
      = (.ok value, after) →
      (u.method target).signature.returns.isVoid = true → value = .void) :
    (invokeOver u (fun _ _ => ()) below initialized (remaining + 1) m (some o) arguments).start s
      = (below.invoke target (some o) arguments).start s := by
  have hcheck : checkCall u (remaining + 1) m (some o) arguments = .ok () := by
    simp [checkCall, hlength, h.isAbstract]
  have hbody : requireBody u m
      = .ok (.callBase .this (.member target)
        (Expr.forwardArguments (u.method target).signature.arity)) := by
    rw [requireBody, h.body]
  have hrun : (evaluate u (fun _ _ => ()) below { this := some o, arguments }
      (.callBase .this (.member target)
        (Expr.forwardArguments (u.method target).signature.arity))).start s
        = (below.invoke target (some o) arguments).start s := h.start_evaluate hlength s
  simp only [invokeOver, hcheck, h.isStatic, Bool.false_eq_true, if_false, runBody, hbody,
    start_bind, start_lift,
    start_body_unwatched, hrun, start_pure]
  rcases hcall : (below.invoke target (some o) arguments).start s with ⟨fault | value, after⟩
  · rfl
  · cases hvoid : (u.method m).signature.returns.isVoid with
    | false => rfl
    | true =>
      rw [hresult value after hcall (h.returns hvoid)]
      rfl

/-- The calls of a level give the empty value for methods without a result. -/
theorem callsWithin_value_of_isVoid {ω : Type} {watch : Occurrence → ω → ω} (remaining : Nat)
    {this : Option ObjectRef} {s after : Watched ω} {value : Value}
    (h : ((callsWithin u watch remaining).invoke m this arguments).start s = (.ok value, after))
    (hvoid : (u.method m).signature.returns.isVoid = true) : value = .void := by
  cases remaining with
  | zero => exact value_of_isVoid h hvoid
  | succ remaining => exact value_of_isVoid h hvoid

/-- A call of a method that forwards ends like a call of the other method one level deeper: with
the same value or the same fault, and with the same heap. -/
theorem Universe.Forwards.start_invokeAt (h : u.Forwards m target) {depth : Nat}
    (hdepth : depth < callDepthLimit) (hlength : arguments.length = (u.method m).signature.arity)
    (heap : Heap) :
    (u.invokeAt depth m (some o) arguments).start heap
        = (u.invokeAt (depth + 1) target (some o) arguments).start heap := by
  obtain ⟨remaining, hremaining⟩ : ∃ remaining, callDepthLimit - depth = remaining + 1 :=
    ⟨callDepthLimit - depth - 1, by omega⟩
  have hdeeper : callDepthLimit - (depth + 1) = remaining := by omega
  unfold Universe.invokeAt unwatched Universe.calls callsAt
  rw [start_within, start_within, hremaining, hdeeper]
  have hlevel : ((callsWithin u (fun _ _ => ()) (remaining + 1)).invoke m (some o) arguments).start
    ⟨heap, ()⟩
      = ((callsWithin u (fun _ _ => ()) remaining).invoke target (some o) arguments).start ⟨heap,
        ()⟩ :=
    h.start_invokeOver hlength ⟨heap, ()⟩ fun _ _ => callsWithin_value_of_isVoid remaining
  exact congrArg (fun r : Except Fault Value × Watched Unit => (r.1, r.2.heap)) hlevel

end Levels

end TypeLoom
