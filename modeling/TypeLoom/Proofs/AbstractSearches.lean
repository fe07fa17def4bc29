import TypeLoom.Draft.Abstract
import TypeLoom.Proofs.DispatchSearches

/-!
# Abstractness without a bound

Whether a descriptor is abstract is asked of its base chain and of all interfaces that are reached
from the ones it lists. The interfaces wait on a stack, and nothing remembers which of them have
been there: where an interface is reached from itself, there is an answer only if a method is
missing. In a sound graph of types all of this ends, and the answer is the one that is found within
the bounds.
-/

namespace TypeLoom

namespace Universe

open Grounded

variable {u : Universe} {t i : TypeId} {m : MethodId}

/-- The implementation of an interface method on a type. What was found by name is resolved
again. -/
inductive ResolvesInterface (u : Universe) (t : TypeId) (m : MethodId) : Option MethodId → Prop
  | absent (search : u.Climb (fun level found => found = u.interfaceBody? level m) (some t) none) :
  ResolvesInterface u t m none
  | explicit {body : MethodId}
      (search : u.Climb (fun level found => found = u.interfaceBody? level m) (some t)
        (some (body, false))) :
      ResolvesInterface u t m (some body)
  | named {found body : MethodId}
      (search : u.Climb (fun level found => found = u.interfaceBody? level m) (some t)
        (some (found, true)))
      (again : u.Resolves t found body) : ResolvesInterface u t m (some body)

theorem SoundGraph.resolvesInterface (h : u.SoundGraph) (ht : (u.record t).isInterface = false)
    (m : MethodId) :
    u.ResolvesInterface t m (u.resolveInterfaceMethod t m) := by
  have hsearch : u.Climb (fun level found => found = u.interfaceBody? level m) (some t)
      ((u.hierarchy t).findSome? fun level => u.interfaceBody? level m) :=
    (chain_hierarchy (h.grounded_bases t)).climb fun _ _ => rfl
  rw [resolveInterfaceMethod, resolveInterfaceWithin]
  cases hfound : (u.hierarchy t).findSome? fun level => u.interfaceBody? level m with
  | none => exact .absent (hfound ▸ hsearch)
  | some found =>
    obtain ⟨o, byName⟩ := found
    rw [hfound] at hsearch
    cases byName with
    | false => exact .explicit hsearch
    | true =>
      obtain ⟨level, hlevel, hbody⟩ := List.exists_of_findSome?_eq_some hfound
      obtain ⟨hagain, hclass⟩ := h.named_class ht hlevel hbody
      simp only [Option.map_some, Bool.not_true, Bool.false_eq_true, ↓reduceIte, hclass]
      exact .named hsearch (h.resolves_class hagain hclass)

/-- Further than the paths are long, the bound does not matter. -/
theorem interfaceClosureWithin_eq {depth depth' : Nat} (h : Grounded u.Lists i)
    (hdepth : (reached u.Lists u.types.size i).card < depth)
    (hdepth' : (reached u.Lists u.types.size i).card < depth') :
    u.interfaceClosureWithin depth i = u.interfaceClosureWithin depth' i := by
  induction depth generalizing i depth' with
  | zero => omega
  | succ depth ih =>
    cases depth' with
    | zero => omega
    | succ depth' =>
      rw [interfaceClosureWithin, interfaceClosureWithin]
      congr 1
      refine List.flatMap_congr fun j hj => ?_
      have hlists : u.Lists i j := Array.mem_toList_iff.mp hj
      have hlt := card_reached_lt (lt_of_lists hlists) hlists h.not_again
      exact ih (h.next hlists) (by omega) (by omega)

theorem interfaceClosure_eq (h : Grounded u.Lists i) :
    u.interfaceClosure i = i :: (u.record i).interfaces.toList.flatMap u.interfaceClosure := by
  rw [interfaceClosure, interfaceClosureWithin]
  congr 1
  refine List.flatMap_congr fun j hj => ?_
  have hlists : u.Lists i j := Array.mem_toList_iff.mp hj
  have hlt := card_reached_lt (lt_of_lists hlists) hlists h.not_again
  have hle : (reached u.Lists u.types.size i).card ≤ u.types.size := card_reached_le
  exact interfaceClosureWithin_eq (h.next hlists) (by omega) (by omega)

end Universe

namespace Descriptor

open Universe

variable {u : Universe} {d : Descriptor} {base : TypeId} {m : MethodId}
  {rest : List TypeId} {answer : Bool}

/-! ### Searches -/

/-- A method of the base chain has no body on the base, and the descriptor does not override it. -/
inductive Leaves (u : Universe) (d : Descriptor) (base : TypeId) (m : MethodId) : Bool → Prop
  | concrete (h : (u.method m).isAbstract = false) : Leaves u d base m false
  | filled {k : MethodId} (h : (u.method m).isAbstract = true) (runs : u.Resolves base m k)
      (hk : (u.method k).isAbstract = false) : Leaves u d base m false
  | abstract {k root : MethodId} (h : (u.method m).isAbstract = true) (runs : u.Resolves base m k)
      (hk : (u.method k).isAbstract = true) (hroot : u.Rooted m root) :
      Leaves u d base m (!(d.overrides.hasKey (u.method root).token
        || d.methods.any fun own => own.takesSlot (u.method m).name (u.method m).signature))

/-- Each type of the base chain is asked for a method that is left. -/
inductive LeavesAbstract (u : Universe) (d : Descriptor) : Bool → Prop
  | root (h : d.baseType? u = none) : LeavesAbstract u d false
  | base {base : TypeId} {found : Option MethodId} (h : d.baseType? u = some base)
      (search : u.Climb (fun level => First (d.Leaves u base) (u.methodsOf level))
        (some base) found) :
      LeavesAbstract u d found.isSome

/-- The descriptor is asked for a body of an interface method, and then its base. -/
inductive Supplies (u : Universe) (d : Descriptor) (m : MethodId) : Bool → Prop
  | own (h : (d.implementations.hasKey (u.method m).token || d.hasPublicVirtual (u.method m).name
    (u.method m).signature) = true) :
      Supplies u d m true
  | alone (h : (d.implementations.hasKey (u.method m).token || d.hasPublicVirtual (u.method m).name
    (u.method m).signature) = false)
      (hbase : d.baseType? u = none) : Supplies u d m false
  | inherited {base : TypeId} {found : Option MethodId}
      (h : (d.implementations.hasKey (u.method m).token || d.hasPublicVirtual (u.method m).name
        (u.method m).signature) = false)
      (hbase : d.baseType? u = some base) (search : u.ResolvesInterface base m found) :
      Supplies u d m (found.any fun k => !(u.method k).isAbstract)

inductive Lacks (u : Universe) (d : Descriptor) (m : MethodId) : Bool → Prop
  | static (h : (u.method m).isStatic = true) : Lacks u d m false
  | instance {supplied : Bool} (h : (u.method m).isStatic = false)
    (search : d.Supplies u m supplied) : Lacks u d m (!supplied)

/-- The interface on top of the stack is looked at, and then the ones that it lists take its
place, the last on top. -/
inductive Owes (u : Universe) (d : Descriptor) : List TypeId → Bool → Prop
  | done : Owes u d [] false
  | found {i : TypeId} {rest : List TypeId} {m : MethodId}
    (here : First (d.Lacks u) (u.methodsOf i) (some m)) :
      Owes u d (i :: rest) true
  | on {i : TypeId} {rest : List TypeId} {answer : Bool}
    (here : First (d.Lacks u) (u.methodsOf i) none)
      (next : Owes u d ((u.record i).interfaces.toList.reverse ++ rest) answer) :
      Owes u d (i :: rest) answer

/-- The descriptor is asked by itself, then its base chain, then the interfaces. -/
inductive Asks (u : Universe) (d : Descriptor) : Bool → Prop
  | own (h : (d.isInterface || hasBits d.flags TypeFlags.abstract || d.methods.any
    DraftMethod.isAbstract) = true) : Asks u d true
  | inherited (h : (d.isInterface || hasBits d.flags TypeFlags.abstract || d.methods.any
    DraftMethod.isAbstract) = false)
      (base : d.LeavesAbstract u true) : Asks u d true
  | owed {answer : Bool} (h : (d.isInterface || hasBits d.flags TypeFlags.abstract || d.methods.any
    DraftMethod.isAbstract) = false)
      (base : d.LeavesAbstract u false)
      (interfaces : d.Owes u (d.interfaceTypes u).reverse answer) : Asks u d answer

/-- What is asked to tell whether the descriptor is abstract has an answer, the one that is found
within the bounds. -/
structure Settles (u : Universe) (d : Descriptor) : Prop where
  asks : d.Asks u (d.computeAbstract u)
  supplies : ∀ m, d.Supplies u m (d.implementsMethod u m)

/-! ### Sound graphs -/

theorem supplies_of_base (h : ∀ base, d.baseType? u = some base →
      u.ResolvesInterface base m (u.resolveInterfaceMethod base m)) :
    d.Supplies u m (d.implementsMethod u m) := by
  unfold implementsMethod
  cases hown : d.implementations.hasKey (u.method m).token || d.hasPublicVirtual (u.method m).name
    (u.method m).signature with
  | true => exact .own hown
  | false =>
    rw [Bool.false_or]
    cases hbase : d.baseType? u with
    | none => exact .alone hown hbase
    | some base => exact .inherited hown hbase (h base hbase)

theorem lacks_of_supplies (h : ∀ m, d.Supplies u m (d.implementsMethod u m)) (m : MethodId) :
    d.Lacks u m (!(u.method m).isStatic && !d.implementsMethod u m) := by
  cases hstatic : (u.method m).isStatic with
  | true => exact .static hstatic
  | false => exact .instance hstatic (h m)

section Stack

def owesFrom (u : Universe) (d : Descriptor) (i : TypeId) : Bool :=
  (u.interfaceClosure i).any fun j => (u.methodsOf j).any fun m =>
    !(u.method m).isStatic && !d.implementsMethod u m

variable (hlacks : ∀ m, d.Lacks u m (!(u.method m).isStatic && !d.implementsMethod u m))
include hlacks

/-- What is owed to an interface and to the rest of the stack. The interfaces that it lists are
looked at before the rest is. -/
theorem owes_cons {i : TypeId} (hi : Grounded u.Lists i) (hrest : d.Owes u rest answer) :
    d.Owes u (i :: rest) (d.owesFrom u i || answer) := by
  induction hi generalizing rest answer with
  | intro i hnext ih =>
    have hfirst := first_find? (u.methodsOf i) fun m _ => hlacks m
    have hclosure := interfaceClosure_eq (Acc.intro i hnext : Grounded u.Lists i)
    cases hfind : (u.methodsOf i).find? fun m =>
      !(u.method m).isStatic && !d.implementsMethod u m with
    | some m =>
      rw [hfind] at hfirst
      have hhere : d.owesFrom u i = true := by
        rw [owesFrom, hclosure, List.any_cons,
          List.any_eq_true.mpr ⟨m, List.mem_of_find?_eq_some hfind, List.find?_some hfind⟩]
        rfl
      rw [hhere]
      exact .found hfirst
    | none =>
      rw [hfind] at hfirst
      have hhere : ((u.methodsOf i).any fun m => !(u.method m).isStatic && !d.implementsMethod u m)
          = false := by
        rw [List.any_eq_false]
        exact List.find?_eq_none.mp hfind
      have howes : d.owesFrom u i = (u.record i).interfaces.toList.any (d.owesFrom u) := by
        rw [owesFrom, hclosure, List.any_cons, hhere, Bool.false_or, List.any_flatMap]
        rfl
      have hlisted : ∀ items : List TypeId, (∀ j ∈ items, u.Lists i j) →
          d.Owes u (items ++ rest) (items.any (d.owesFrom u) || answer) := by
        intro items hitems
        induction items with
        | nil => exact hrest
        | cons j items ihitems =>
          obtain ⟨hj, hitems⟩ := List.forall_mem_cons.mp hitems
          rw [List.any_cons, Bool.or_assoc]
          exact ih j hj (ihitems hitems)
      refine .on hfirst ?_
      rw [howes, ← List.any_reverse]
      exact hlisted _ fun j hj => Array.mem_toList_iff.mp (List.mem_reverse.mp hj)

theorem owes_stack (hgrounded : ∀ i, Grounded u.Lists i) (stack : List TypeId) :
    d.Owes u stack (stack.any (d.owesFrom u)) := by
  induction stack with
  | nil => exact .done
  | cons i stack ih => exact owes_cons hlacks (hgrounded i) ih

end Stack

section Sound

variable (h : u.SoundGraph) (hbase : d.baseType? u = some base)
  (hclass : (u.record base).isInterface = false)
include h

include hclass in
theorem leaves (m : MethodId) :
    d.Leaves u base m ((u.method m).isAbstract && (u.method (u.resolveVirtual base m)).isAbstract &&
      !d.overridesSlot u m) := by
  have hruns := h.resolves hclass m
  cases habstract : (u.method m).isAbstract with
  | false => exact .concrete habstract
  | true =>
    cases hfilled : (u.method (u.resolveVirtual base m)).isAbstract with
    | false => exact .filled habstract hruns hfilled
    | true => exact .abstract habstract hruns hfilled (h.rooted m)

include hbase hclass in
theorem leavesAbstract_of_base : d.LeavesAbstract u (d.inheritsAbstract u) := by
  have hsearch : u.Climb (fun level => First (d.Leaves u base) (u.methodsOf level)) (some base) _ :=
    (chain_hierarchy (h.grounded_bases base)).climb fun level _ =>
      first_find? (u.methodsOf level) fun m _ => leaves h hclass m
  have hanswer : d.inheritsAbstract u = ((u.hierarchy base).findSome? fun level =>
      (u.methodsOf level).find? fun m =>
      (u.method m).isAbstract && (u.method (u.resolveVirtual base m)).isAbstract && !d.overridesSlot
          u m).isSome := by
    rw [inheritsAbstract, hbase, Option.any_some, Bool.eq_iff_iff, List.findSome?_isSome_iff]
    simp only [List.any_eq_true, List.find?_isSome]
  rw [hanswer]
  exact .base hbase hsearch

end Sound

/-- A search that misses nothing has followed every path to its end. -/
theorem Owes.grounded (h : d.Owes u rest answer) (hfalse : answer = false) :
    ∀ i ∈ rest, Grounded u.Lists i := by
  induction h with
  | done => exact fun _ hi => absurd hi List.not_mem_nil
  | found => cases hfalse
  | on _ _ ih =>
    refine List.forall_mem_cons.mpr ⟨Acc.intro _ fun j hj => ?_, fun i hi =>
      ih hfalse i (List.mem_append_right _ hi)⟩
    exact ih hfalse j (List.mem_append_left _ (List.mem_reverse.mpr (Array.mem_toList_iff.mpr hj)))

/-- A descriptor with an interface from which paths go on forever is never found not to be
abstract. -/
theorem Asks.grounded (h : d.Asks u answer) (hfalse : answer = false) :
    ∀ i ∈ d.interfaceTypes u, Grounded u.Lists i := by
  cases h with
  | own => cases hfalse
  | inherited => cases hfalse
  | owed _ _ interfaces => exact fun i hi => interfaces.grounded hfalse i (List.mem_reverse.mpr hi)

/-- Where the graph of types is sound and the base is a class, the answer is found. -/
theorem settles_of_soundGraph (h : u.SoundGraph)
    (hclass : ∀ base, d.baseType? u = some base → (u.record base).isInterface = false) :
    d.Settles u := by
  have hsupplies : ∀ m, d.Supplies u m (d.implementsMethod u m) := fun m =>
    supplies_of_base fun base hbase => h.resolvesInterface (hclass base hbase) m
  refine ⟨?_, hsupplies⟩
  have hinherits : d.LeavesAbstract u (d.inheritsAbstract u) := by
    cases hbase : d.baseType? u with
    | none =>
      rw [inheritsAbstract, hbase]
      exact .root hbase
    | some base => exact leavesAbstract_of_base h hbase (hclass base hbase)
  have howes : d.Owes u (d.interfaceTypes u).reverse (d.owesInterface u) := by
    rw [owesInterface, ← List.any_reverse]
    exact owes_stack (lacks_of_supplies hsupplies) h.grounded_interfaces _
  unfold computeAbstract
  cases hown : d.isInterface || hasBits d.flags TypeFlags.abstract || d.methods.any
    DraftMethod.isAbstract with
  | true => exact .own hown
  | false =>
    rw [Bool.false_or]
    cases habstract : d.inheritsAbstract u with
    | true => exact .inherited hown (habstract ▸ hinherits)
    | false => exact .owed hown (habstract ▸ hinherits) howes

end Descriptor

end TypeLoom
