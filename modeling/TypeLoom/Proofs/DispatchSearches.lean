import TypeLoom.Proofs.Searches
import TypeLoom.Proofs.Slots

/-!
# Dispatch without a bound

Slot roots and the methods that answer virtual calls, looked for as long as it takes. In a sound
graph of types, where neither bases nor interfaces lead back and explicit overrides name methods of
proper bases, all of these searches end, and the answer is the one that is found within the bounds.
-/

namespace TypeLoom

open Relation (TransGen ReflTransGen)

/-! ### First matches -/

inductive First {α : Type} (test : α → Bool → Prop) : List α → Option α → Prop
  | done : First test [] none
  | found {a : α} {others : List α} (here : test a true) : First test (a :: others) (some a)
  | next {a : α} {others : List α} {answer : Option α} (here : test a false)
    (rest : First test others answer) :
      First test (a :: others) answer

theorem first_find? {α : Type} {test : α → Bool → Prop} {passes : α → Bool} (items : List α)
    (h : ∀ a ∈ items, test a (passes a)) : First test items (items.find? passes) := by
  induction items with
  | nil => exact .done
  | cons a others ih =>
    obtain ⟨hhere, hothers⟩ := List.forall_mem_cons.mp h
    rw [List.find?_cons]
    cases hpasses : passes a with
    | true => exact .found (hpasses ▸ hhere)
    | false => exact .next (hpasses ▸ hhere) (ih hothers)

theorem Grounded.card_reached_lt_of_path {r : TypeId → TypeId → Prop} {size : Nat} {a b : TypeId}
    (h : Grounded r a) (hsource : ∀ a b, r a b → a.index < size) (hpath : TransGen r a b) :
    (reached r size b).card < (reached r size a).card := by
  induction h with
  | intro a hnext ih =>
    have hground : Grounded r a := Acc.intro a hnext
    rcases TransGen.head'_iff.mp hpath with ⟨c, hac, hcb⟩
    have hlt := card_reached_lt (hsource a c hac) hac hground.not_again
    rcases Relation.reflTransGen_iff_eq_or_transGen.mp hcb with heq | hrest
    · exact heq ▸ hlt
    · exact Nat.lt_trans (ih c hac hrest) hlt

namespace Universe

open Grounded

variable {u : Universe} {t level owner : TypeId} {m o : MethodId} {slot : Token}

/-! ### Searches -/

/-- What a method overrides directly: what an explicit override of its type names, or else the
nearest virtual method of the same name and signature on the bases. -/
inductive Overrides (u : Universe) (m : MethodId) : Option MethodId → Prop
  | apart (h : (u.method m).isVirtual = false ∨ (u.method m).isNewSlot = true) : Overrides u m none
  | gone (howner : u.methodOwner? m = none) : Overrides u m none
  | explicit {owner : TypeId} {o : MethodId} (h : (u.method m).isVirtual = true
    ∧ (u.method m).isNewSlot = false)
      (howner : u.methodOwner? m = some owner) (named : u.explicitDeclaration? owner m = some o) :
      Overrides u m (some o)
  | implicit {owner : TypeId} {o : Option MethodId} (h : (u.method m).isVirtual = true
    ∧ (u.method m).isNewSlot = false)
      (howner : u.methodOwner? m = some owner) (named : u.explicitDeclaration? owner m = none)
      (search : u.Climb (fun base o =>
        o = u.findVirtual? base (u.method m).name (u.method m).signature)
        (u.record owner).base o) : Overrides u m o

/-- From override to overridden method until there is none. -/
inductive Rooted (u : Universe) : MethodId → MethodId → Prop
  | root {m : MethodId} (h : u.Overrides m none) : Rooted u m m
  | up {m o root : MethodId} (h : u.Overrides m (some o)) (rest : Rooted u o root) : Rooted u m root

/-- The root of the method is looked for, and its token compared. -/
def InSlot (u : Universe) (slot : Token) (m : MethodId) (answer : Bool) : Prop :=
  ∃ root, u.Rooted m root ∧ answer = ((u.method root).token == slot)

/-- The virtual methods of a type are the ones whose roots are looked for. -/
def MethodInSlot (u : Universe) (slot : Token) (m : MethodId) (answer : Bool) : Prop :=
  (u.method m).isVirtual = false ∧ answer = false ∨ (u.method m).isVirtual = true
    ∧ u.InSlot slot m answer

/-- What a type gives to a slot: its overrides are tried first, then its methods. -/
inductive GivesBody (u : Universe) (slot : Token) (level : TypeId) : Option MethodId → Prop
  | explicit {v : Override}
      (search : First (fun v => u.InSlot slot v.declaration) (u.record level).overrides.toList
        (some v)) :
      GivesBody u slot level (some v.body)
  | implicit {found : Option MethodId}
      (search : First (fun v => u.InSlot slot v.declaration) (u.record level).overrides.toList none)
      (rest : First (u.MethodInSlot slot) (u.methodsOf level) found) : GivesBody u slot level found

/-- The method that a call runs on a type. A body of an interface method that was found by name
is resolved again. -/
inductive Resolves (u : Universe) (t : TypeId) : MethodId → MethodId → Prop
  | plain {m : MethodId} (h : (u.method m).isVirtual = false) : Resolves u t m m
  | slot {m root : MethodId} {found : Option MethodId} (h : (u.method m).isVirtual = true)
      (hclass : u.isInterfaceMethod m = false) (hroot : u.Rooted m root)
      (search : u.Climb (u.GivesBody (u.method root).token) (some t) found) :
        Resolves u t m (found.getD m)
  | absent {m : MethodId} (h : (u.method m).isVirtual = true)
    (hinterface : u.isInterfaceMethod m = true)
      (search : u.Climb (fun level found => found = u.interfaceBody? level m) (some t) none) :
      Resolves u t m m
  | explicit {m body : MethodId} (h : (u.method m).isVirtual = true)
    (hinterface : u.isInterfaceMethod m = true)
      (search : u.Climb (fun level found => found = u.interfaceBody? level m) (some t)
        (some (body, false))) :
      Resolves u t m body
  | named {m found body : MethodId} (h : (u.method m).isVirtual = true)
    (hinterface : u.isInterfaceMethod m = true)
      (search : u.Climb (fun level found => found = u.interfaceBody? level m) (some t)
        (some (found, true)))
      (again : Resolves u t found body) : Resolves u t m body

/-! ### Sound graphs -/

/-- The base can be derived from, what is listed are interfaces, and explicit overrides of class
methods name virtual methods of proper bases. -/
structure Regular (u : Universe) (t : TypeId) : Prop where
  base : ∀ b, u.HasBase t b → (u.record b).isSealed = false ∧ (u.record b).isInterface = false
  interfaces : ∀ i, u.Lists t i → (u.record i).isInterface = true
  overrides : ∀ v ∈ (u.record t).overrides, (u.record v.declaration.owner).isInterface = false →
    (u.method v.declaration).isVirtual = true ∧ TransGen u.HasBase t v.declaration.owner

/-- All types are regular, and neither bases nor interfaces lead back to a type. -/
structure SoundGraph (u : Universe) : Prop where
  regular : ∀ t, u.Regular t
  bases : ∀ t, ¬ TransGen u.HasBase t t
  interfaces : ∀ t, ¬ TransGen u.Lists t t

/-- Every search that starts from the type ends, with the answer that is found within the bounds. -/
structure Settles (u : Universe) (t : TypeId) : Prop where
  hierarchy : u.Chain (some t) (u.hierarchy t)
  subclass : ∀ other, u.Descending (u.record other).token (u.record t).base (u.isSubclassOf t other)
  implements : ∀ other, u.Implementing (u.record other).token t (u.implements t other)
  roots : ∀ m : MethodId, m.owner = t → u.Rooted m (u.slotRoot m)
  resolves : (u.record t).isInterface = false → ∀ m, u.Resolves t m (u.resolveVirtual t m)

namespace SoundGraph

variable (h : u.SoundGraph)
include h

theorem grounded_bases (t : TypeId) : Grounded u.HasBase t :=
  Grounded.of_acyclic (fun _ _ => lt_of_hasBase) h.bases t

theorem grounded_interfaces (t : TypeId) : Grounded u.Lists t :=
  Grounded.of_acyclic (fun _ _ => lt_of_lists) h.interfaces t

theorem traversable (t : TypeId) : u.Traversable t :=
  ⟨h.grounded_bases t, fun level _ => h.grounded_interfaces level⟩

theorem class_of_path (ht : (u.record t).isInterface = false)
    (hpath : ReflTransGen u.HasBase t level) :
    (u.record level).isInterface = false := by
  cases hpath with
  | refl => exact ht
  | tail _ hlast => exact ((h.regular _).base _ hlast).2

/-! ### Slots -/

theorem path_of_overridden (ho : u.overriddenBy? m = some o) :
    TransGen u.HasBase m.owner o.owner := by
  obtain ⟨-, -, hexplicit | himplicit⟩ := overriddenBy?_eq_some ho
  · obtain ⟨hclass, v, hv, -, rfl⟩ := explicit_of_eq_some hexplicit
    exact ((h.regular m.owner).overrides v hv hclass).2
  · exact (mem_bases_iff (h.grounded_bases m.owner)).mp (implicit_of_eq_some himplicit).1

theorem overrides (m : MethodId) : u.Overrides m (u.overriddenBy? m) := by
  unfold overriddenBy?
  split
  · rename_i hapart
    exact .apart (by simpa using hapart)
  · rename_i hguard
    have hvirtual : (u.method m).isVirtual = true ∧ (u.method m).isNewSlot = false := by
      simpa using hguard
    split
    · rename_i hgone
      exact .gone hgone
    · rename_i owner howner
      cases hnamed : u.explicitDeclaration? owner m with
      | some o => exact .explicit hvirtual howner hnamed
      | none =>
        exact .implicit hvirtual howner hnamed
          ((chain_bases (h.grounded_bases owner)).climb fun _ _ => rfl)

theorem rooted_slotRootWithin {steps : Nat}
    (hsteps : (reached u.HasBase u.types.size m.owner).card ≤ steps) :
    u.Rooted m (u.slotRootWithin steps m) := by
  have hless : ∀ o, u.overriddenBy? m = some o →
      (reached u.HasBase u.types.size o.owner).card
      < (reached u.HasBase u.types.size m.owner).card := fun o ho =>
    (h.grounded_bases m.owner).card_reached_lt_of_path (fun _ _ => lt_of_hasBase)
      (h.path_of_overridden ho)
  have hover := h.overrides m
  induction steps generalizing m with
  | zero =>
    cases ho : u.overriddenBy? m with
    | none => exact .root (ho ▸ hover)
    | some o =>
      have hlt := hless o ho
      omega
  | succ steps ih =>
    rw [slotRootWithin]
    cases ho : u.overriddenBy? m with
    | none => exact .root (ho ▸ hover)
    | some o =>
      have hlt := hless o ho
      refine .up (ho ▸ hover) (ih (by omega) (fun o' ho' => ?_) (h.overrides o))
      exact (h.grounded_bases o.owner).card_reached_lt_of_path (fun _ _ => lt_of_hasBase)
        (h.path_of_overridden ho')

theorem rooted (m : MethodId) : u.Rooted m (u.slotRoot m) :=
  h.rooted_slotRootWithin (card_reached_le.trans u.size_le_methodCount)

theorem inSlot (slot : Token) (m : MethodId) : u.InSlot slot m (u.slotToken m == slot) :=
  ⟨u.slotRoot m, h.rooted m, rfl⟩

theorem methodInSlot (slot : Token) (m : MethodId) :
    u.MethodInSlot slot m ((u.method m).isVirtual && u.slotToken m == slot) := by
  cases hvirtual : (u.method m).isVirtual with
  | false => exact .inl ⟨hvirtual, rfl⟩
  | true => exact .inr ⟨hvirtual, h.inSlot slot m⟩

theorem givesBody (slot : Token) (level : TypeId) :
    u.GivesBody slot level (u.slotBody? level slot) := by
  have hexplicit := first_find? (u.record level).overrides.toList
    fun v _ => h.inSlot slot v.declaration
  have himplicit := first_find? (u.methodsOf level) fun m _ => h.methodInSlot slot m
  rw [Array.find?_toList] at hexplicit
  unfold slotBody?
  cases hfind : (u.record level).overrides.find? fun v => u.slotToken v.declaration == slot with
  | some v => exact .explicit (hfind ▸ hexplicit)
  | none => exact .implicit (hfind ▸ hexplicit) himplicit

/-! ### Calls -/

theorem resolves_class (hvirtual : (u.method m).isVirtual = true)
    (hclass : u.isInterfaceMethod m = false) :
    u.Resolves t m (u.resolveSlot t m) :=
  .slot hvirtual hclass (h.rooted m) ((chain_hierarchy (h.grounded_bases t)).climb fun level _ =>
    h.givesBody _ level)

theorem named_class (ht : (u.record t).isInterface = false) (hlevel : level ∈ u.hierarchy t)
    (hfound : u.interfaceBody? level m = some (o, true)) :
    (u.method o).isVirtual = true ∧ u.isInterfaceMethod o = false := by
  unfold interfaceBody? at hfound
  cases hexplicit : (u.record level).overrides.find? fun v => (u.method v.declaration).token
    == (u.method m).token with
  | some v =>
    rw [hexplicit] at hfound
    cases hfound
  | none =>
    rw [hexplicit, Option.map_none, Option.none_or] at hfound
    obtain ⟨_, hfind, heq⟩ := Option.map_eq_some_iff.mp hfound
    cases heq
    have hpasses := List.find?_some hfind
    simp only [Bool.and_eq_true] at hpasses
    have howner := u.owner_of_mem_methodsOf (List.mem_of_find?_eq_some hfind)
    refine ⟨hpasses.1.1.1, ?_⟩
    unfold isInterfaceMethod
    split
    · rename_i declaring hdeclaring
      rw [owner_of_methodOwner? hdeclaring, howner]
      exact h.class_of_path ht ((mem_hierarchy_iff (h.grounded_bases t)).mp hlevel)
    · rfl

theorem resolves (ht : (u.record t).isInterface = false) (m : MethodId) :
    u.Resolves t m (u.resolveVirtual t m) := by
  have hsearch : u.Climb (fun level found => found = u.interfaceBody? level m) (some t)
      ((u.hierarchy t).findSome? fun level => u.interfaceBody? level m) :=
    (chain_hierarchy (h.grounded_bases t)).climb fun _ _ => rfl
  unfold resolveVirtual
  cases hvirtual : (u.method m).isVirtual with
  | false => exact .plain hvirtual
  | true =>
    cases hinterface : u.isInterfaceMethod m with
    | false => exact h.resolves_class hvirtual hinterface
    | true =>
      show u.Resolves t m ((u.resolveInterfaceMethod t m).getD m)
      rw [resolveInterfaceMethod, resolveInterfaceWithin]
      cases hfound : (u.hierarchy t).findSome? fun level => u.interfaceBody? level m with
      | none => exact .absent hvirtual hinterface (hfound ▸ hsearch)
      | some found =>
        obtain ⟨o, byName⟩ := found
        cases byName with
        | false => exact .explicit hvirtual hinterface (hfound ▸ hsearch)
        | true =>
          obtain ⟨level, hlevel, hbody⟩ := List.exists_of_findSome?_eq_some hfound
          obtain ⟨hagain, hclass⟩ := h.named_class ht hlevel hbody
          simp only [Option.map_some, Bool.not_true, Bool.false_eq_true, ↓reduceIte, hclass,
            Option.getD_some]
          exact .named hvirtual hinterface (hfound ▸ hsearch) (h.resolves_class hagain hclass)

theorem settles (t : TypeId) : u.Settles t where
  hierarchy := chain_hierarchy (h.grounded_bases t)
  subclass := (h.traversable t).descending
  implements := (h.traversable t).implementing
  roots := fun m _ => h.rooted m
  resolves := h.resolves

end SoundGraph

end Universe

end TypeLoom
