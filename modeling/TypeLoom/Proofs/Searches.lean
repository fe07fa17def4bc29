import Mathlib.Data.Finset.Card
import Mathlib.Data.Finset.Range
import Mathlib.Logic.Relation
import TypeLoom.Proofs.Chains

/-!
# Searches without a bound

Base chains and interfaces are followed for as many steps as there are types. Here they are followed
for as long as it takes, and there is an answer only where that comes to an end. It does where no
type is reached again, and the answer is the one that is found within the bound.
-/

namespace TypeLoom

/-! ### Paths that end -/

def Grounded (r : TypeId → TypeId → Prop) (t : TypeId) : Prop := Acc (fun b a => r a b) t

namespace Grounded

variable {r : TypeId → TypeId → Prop} {size : Nat} {t a b : TypeId}

theorem next (h : Grounded r a) (hab : r a b) : Grounded r b := Acc.inv h hab

theorem not_again (h : Grounded r t) : ¬ Relation.TransGen r t t := by
  induction h with
  | intro a _ ih =>
    intro hcycle
    obtain ⟨b, hab, hback⟩ := Relation.TransGen.head'_iff.mp hcycle
    exact ih b hab (.tail' hback hab)

open Classical in
noncomputable def reached (r : TypeId → TypeId → Prop) (size : Nat) (t : TypeId) : Finset Nat :=
  (Finset.range size).filter fun i => Relation.ReflTransGen r t ⟨i⟩

theorem mem_reached {i : Nat} :
    i ∈ reached r size t ↔ i < size ∧ Relation.ReflTransGen r t ⟨i⟩ := by
  simp [reached]

theorem card_reached_le : (reached r size t).card ≤ size := by
  classical
  exact (Finset.card_le_card (Finset.filter_subset _ _)).trans (Finset.card_range size).le

/-- Fewer types are reached from the next type, unless the way leads back. -/
theorem card_reached_lt (hsource : a.index < size) (hab : r a b)
    (hcycle : ¬ Relation.TransGen r a a) :
    (reached r size b).card < (reached r size a).card := by
  have hself : a.index ∈ reached r size a := mem_reached.mpr ⟨hsource, .refl⟩
  refine Finset.card_lt_card ((Finset.ssubset_iff_of_subset fun i hi => ?_).mpr ⟨a.index, hself,
    fun hback => ?_⟩)
  · obtain ⟨hlt, hpath⟩ := mem_reached.mp hi
    exact mem_reached.mpr ⟨hlt, .head hab hpath⟩
  · exact hcycle (.head' hab (mem_reached.mp hback).2)

/-- In a table, paths end unless they come back. -/
theorem of_acyclic (hsource : ∀ a b, r a b → a.index < size)
    (hcycle : ∀ t, ¬ Relation.TransGen r t t) (t : TypeId) :
    Grounded r t := by
  induction hn : (reached r size t).card using Nat.strongRecOn generalizing t with
  | ind n ih =>
    refine Acc.intro t fun b hab => ih _ ?_ b rfl
    rw [← hn]
    exact card_reached_lt (hsource t b hab) hab (hcycle t)

end Grounded

/-- No path comes back when each step goes to an earlier type. -/
theorem not_transGen_of_lt {r : TypeId → TypeId → Prop} (h : ∀ a b, r a b → b.index < a.index)
    (t : TypeId) :
    ¬ Relation.TransGen r t t := by
  have hlt : ∀ x, Relation.TransGen r t x → x.index < t.index := by
    intro x hx
    induction hx with
    | single hone => exact h _ _ hone
    | tail _ hlast ih => exact Nat.lt_trans (h _ _ hlast) ih
  exact fun hcycle => Nat.lt_irrefl _ (hlt t hcycle)

namespace Universe

open Grounded

variable {u : Universe} {t level other : TypeId} {token : Token} {α : Type}

/-- The second type is the base of the first one. -/
def HasBase (u : Universe) (t b : TypeId) : Prop := (u.record t).base = some b

/-- The first type lists the second one. -/
def Lists (u : Universe) (t i : TypeId) : Prop := i ∈ (u.record t).interfaces

theorem lt_of_hasBase {b : TypeId} (h : u.HasBase t b) : t.index < u.types.size := by
  by_contra hge
  rw [HasBase, u.record_of_le t (by omega), noType] at h
  cases h

theorem lt_of_lists {i : TypeId} (h : u.Lists t i) : t.index < u.types.size := by
  by_contra hge
  rw [Lists, u.record_of_le t (by omega), noType] at h
  exact absurd h (Array.not_mem_empty _)

/-- Bases and interfaces of types are types of the universe. -/
structure RefersWithin (u : Universe) : Prop where
  bases : ∀ t b, u.HasBase t b → b.index < u.types.size
  interfaces : ∀ t i, u.Lists t i → i.index < u.types.size

theorem record_mem {t : TypeId} (ht : t.index < u.types.size) : u.record t ∈ u.types.toList := by
  rw [record, Array.getD, dif_pos ht]
  exact Array.mem_toList_iff.mpr (Array.getElem_mem ht)

theorem refersWithin_of_types {u : Universe}
    (h : ∀ r ∈ u.types.toList, (∀ b ∈ r.base, b.index < u.types.size) ∧ ∀ i ∈ r.interfaces.toList,
      i.index < u.types.size) :
    u.RefersWithin where
  bases := fun _ b hb => (h _ (record_mem (lt_of_hasBase hb))).1 b hb
  interfaces := fun _ i hi => (h _ (record_mem (lt_of_lists hi))).2 i (Array.mem_toList_iff.mpr hi)

/-! ### Base chains -/

/-- From base to base as long as there is one, these are the types on the way. -/
inductive Chain (u : Universe) : Option TypeId → List TypeId → Prop
  | done : Chain u none []
  | up {t : TypeId} {bases : List TypeId} (rest : Chain u (u.record t).base bases) :
    Chain u (some t) (t :: bases)

inductive Climb (u : Universe) (answer : TypeId → Option α → Prop) : Option TypeId → Option α → Prop
  | done : Climb u answer none none
  | found {t : TypeId} {a : α} (here : answer t (some a)) : Climb u answer (some t) (some a)
  | up {t : TypeId} {a : Option α} (here : answer t none)
    (rest : Climb u answer (u.record t).base a) :
      Climb u answer (some t) a

theorem Chain.climb {answer : TypeId → Option α → Prop} {find : TypeId → Option α}
    {start : Option TypeId} {types : List TypeId} (h : u.Chain start types)
    (hfind : ∀ t ∈ types, answer t (find t)) :
    u.Climb answer start (types.findSome? find) := by
  induction h with
  | done => exact .done
  | @up t bases _ ih =>
    obtain ⟨hhere, hbases⟩ := List.forall_mem_cons.mp hfind
    rw [List.findSome?_cons]
    cases hanswer : find t with
    | some a => exact .found (hanswer ▸ hhere)
    | none => exact .up (hanswer ▸ hhere) (ih hbases)

theorem Chain.reaches {types : List TypeId} {start : Option TypeId} (h : u.Chain start types)
    {t level : TypeId} (hstart : start = some t) (hlevel : level ∈ types) :
    Relation.ReflTransGen u.HasBase t level := by
  induction h generalizing t with
  | done => cases hstart
  | @up t' bases rest ih =>
    obtain rfl := Option.some.inj hstart
    rcases List.mem_cons.mp hlevel with rfl | hrest
    · exact .refl
    · cases hbase : (u.record t').base with
      | none =>
        rw [hbase] at rest
        cases rest
        cases hrest
      | some b => exact .head hbase (ih hbase hrest)

theorem Chain.isSome_of_mem {types : List TypeId} {start : Option TypeId} (h : u.Chain start types)
    {level : TypeId} (hlevel : level ∈ types) : start.isSome := by
  cases h with
  | done => exact absurd hlevel List.not_mem_nil
  | up rest => rfl

theorem chain_chainWithin {depth : Nat} (h : Grounded u.HasBase t)
    (hdepth : (reached u.HasBase u.types.size t).card < depth) :
    u.Chain (some t) (u.chainWithin depth t) := by
  induction depth generalizing t with
  | zero => omega
  | succ depth ih =>
    refine .up ?_
    cases hbase : (u.record t).base with
    | none => exact .done
    | some b =>
      have hlt := card_reached_lt (lt_of_hasBase hbase) hbase h.not_again
      exact ih (h.next hbase) (by omega)

theorem chain_hierarchy (h : Grounded u.HasBase t) : u.Chain (some t) (u.hierarchy t) :=
  chain_chainWithin h (Nat.lt_succ_of_le card_reached_le)

theorem chain_bases (h : Grounded u.HasBase t) : u.Chain (u.record t).base (u.bases t) := by
  have hchain := chain_hierarchy h
  rw [hierarchy, chainWithin] at hchain
  rw [bases, hierarchy, chainWithin]
  cases hchain with
  | up rest => exact rest

theorem Chain.mem_of_path {types : List TypeId} (h : u.Chain (some t) types)
    (hpath : Relation.ReflTransGen u.HasBase t level) :
    level ∈ types := by
  induction hpath using Relation.ReflTransGen.head_induction_on generalizing types with
  | refl =>
    cases h with
    | up rest => simp
  | @head t b hbase _ ih =>
    cases h with
    | up rest =>
      rw [HasBase] at hbase
      rw [hbase] at rest
      exact List.mem_cons_of_mem _ (ih rest)

theorem mem_hierarchy_iff (h : Grounded u.HasBase t) :
    level ∈ u.hierarchy t ↔ Relation.ReflTransGen u.HasBase t level :=
  ⟨(chain_hierarchy h).reaches rfl, (chain_hierarchy h).mem_of_path⟩

theorem mem_bases_iff (h : Grounded u.HasBase t) :
    level ∈ u.bases t ↔ Relation.TransGen u.HasBase t level := by
  have hchain := chain_bases h
  rw [Relation.TransGen.head'_iff]
  constructor
  · intro hlevel
    obtain ⟨b, hbase⟩ := Option.isSome_iff_exists.mp (hchain.isSome_of_mem hlevel)
    exact ⟨b, hbase, hchain.reaches hbase hlevel⟩
  · rintro ⟨b, hbase, hpath⟩
    rw [HasBase] at hbase
    rw [hbase] at hchain
    exact hchain.mem_of_path hpath

/-! ### Interfaces -/

/-- The interfaces are looked at one after the other, and each one's own before the next. -/
inductive Search (u : Universe) (token : Token) : List TypeId → Bool → Prop
  | done : Search u token [] false
  | found {i : TypeId} {others : List TypeId} (here : (u.record i).token = token) :
    Search u token (i :: others) true
  | within {i : TypeId} {others : List TypeId} (here : (u.record i).token ≠ token)
      (own : Search u token (u.record i).interfaces.toList true) : Search u token (i :: others) true
  | next {i : TypeId} {others : List TypeId} {answer : Bool} (here : (u.record i).token ≠ token)
      (own : Search u token (u.record i).interfaces.toList false)
      (rest : Search u token others answer) :
      Search u token (i :: others) answer

theorem search_any {listed : List TypeId} {below : TypeId → Bool}
    (h : ∀ i ∈ listed, u.Search token (u.record i).interfaces.toList (below i)) :
    u.Search token listed (listed.any fun i => (u.record i).token == token || below i) := by
  induction listed with
  | nil => exact .done
  | cons i rest ih =>
    obtain ⟨hi, hrest⟩ := List.forall_mem_cons.mp h
    rw [List.any_cons]
    by_cases hhere : (u.record i).token = token
    · rw [beq_iff_eq.mpr hhere]
      exact .found hhere
    · rw [beq_eq_false_iff_ne.mpr hhere, Bool.false_or]
      cases hbelow : below i with
      | true => exact .within hhere (hbelow ▸ hi)
      | false => exact .next hhere (hbelow ▸ hi) (ih hrest)

theorem search_listsInterfaceWithin {depth : Nat} (h : Grounded u.Lists t)
    (hdepth : (reached u.Lists u.types.size t).card ≤ depth) :
    u.Search token (u.record t).interfaces.toList (u.listsInterfaceWithin token depth t) := by
  have hless : ∀ i ∈ (u.record t).interfaces.toList, (reached u.Lists u.types.size i).card
      < depth := fun i hi =>
    have hlists : u.Lists t i := Array.mem_toList_iff.mp hi
    (card_reached_lt (lt_of_lists hlists) hlists h.not_again).trans_le hdepth
  induction depth generalizing t with
  | zero =>
    cases hlisted : (u.record t).interfaces.toList with
    | nil => exact .done
    | cons i rest =>
      exact absurd (hless i (by rw [hlisted]; exact List.mem_cons_self)) (Nat.not_lt_zero _)
  | succ depth ih =>
    rw [listsInterfaceWithin, ← Array.any_toList]
    refine search_any fun i hi => ?_
    have hi' : Grounded u.Lists i := h.next (Array.mem_toList_iff.mp hi)
    have hcard : (reached u.Lists u.types.size i).card ≤ depth := Nat.lt_succ_iff.mp (hless i hi)
    refine ih hi' hcard fun j hj => ?_
    have hlists : u.Lists i j := Array.mem_toList_iff.mp hj
    exact (card_reached_lt (lt_of_lists hlists) hlists hi'.not_again).trans_le hcard

theorem Search.reaches {listed : List TypeId} {answer : Bool} (h : u.Search token listed answer)
    (htrue : answer = true) :
    ∃ i ∈ listed, ∃ found, Relation.ReflTransGen u.Lists i found
    ∧ (u.record found).token = token := by
  induction h with
  | done => cases htrue
  | @found i _ here => exact ⟨i, List.mem_cons_self, i, .refl, here⟩
  | @within i _ _ _ ih =>
    obtain ⟨j, hj, found, hpath, hfound⟩ := ih rfl
    exact ⟨i, List.mem_cons_self, found, .head (Array.mem_toList_iff.mp hj) hpath, hfound⟩
  | @next i _ _ _ _ _ _ ih =>
    obtain ⟨j, hj, hrest⟩ := ih htrue
    exact ⟨j, List.mem_cons_of_mem i hj, hrest⟩

/-- A search that has found nothing has met no type with the token. -/
theorem Search.misses {listed : List TypeId} {answer : Bool} {i s : TypeId}
    (h : u.Search token listed answer) (hfalse : answer = false) (hi : i ∈ listed)
    (hpath : Relation.ReflTransGen u.Lists i s) : (u.record s).token ≠ token := by
  induction h generalizing i with
  | done => simp at hi
  | found => cases hfalse
  | within => cases hfalse
  | next here _ _ ihown ihrest =>
    rcases List.mem_cons.mp hi with rfl | hrest
    · cases hpath.cases_head with
      | inl hsame => exact hsame ▸ here
      | inr hfurther =>
        obtain ⟨j, hj, hrest⟩ := hfurther
        exact ihown rfl (Array.mem_toList_iff.mpr hj) hrest
    · exact ihrest hfalse hrest hpath

theorem listsInterface_iff (h : Grounded u.Lists t) :
    u.listsInterfaceWithin token (u.types.size + 1) t = true ↔ ∃ s, Relation.TransGen u.Lists t s
    ∧ (u.record s).token = token := by
  have hsearch : u.Search token (u.record t).interfaces.toList
    (u.listsInterfaceWithin token (u.types.size + 1) t) :=
    search_listsInterfaceWithin h (card_reached_le.trans (Nat.le_succ _))
  constructor
  · intro htrue
    obtain ⟨i, hi, s, hpath, hs⟩ := hsearch.reaches htrue
    exact ⟨s, .head' (Array.mem_toList_iff.mp hi) hpath, hs⟩
  · rintro ⟨s, hpath, hs⟩
    obtain ⟨i, hi, hrest⟩ := Relation.TransGen.head'_iff.mp hpath
    by_contra hfalse
    exact hsearch.misses (by simpa using hfalse) (Array.mem_toList_iff.mpr hi) hrest hs

theorem Search.grounded {listed : List TypeId} {answer : Bool} (h : u.Search token listed answer)
    (hfalse : answer = false) :
    ∀ i ∈ listed, Grounded u.Lists i := by
  induction h with
  | done => exact fun _ hi => absurd hi List.not_mem_nil
  | found => cases hfalse
  | within => cases hfalse
  | next _ _ _ ihown ihrest =>
    refine List.forall_mem_cons.mpr ⟨?_, ihrest hfalse⟩
    exact Acc.intro _ fun j hj => ihown rfl j (Array.mem_toList_iff.mpr hj)

/-- The type's own interfaces are searched, then those of its base. -/
inductive Implementing (u : Universe) (token : Token) : TypeId → Bool → Prop
  | listed {t : TypeId} (own : u.Search token (u.record t).interfaces.toList true) :
  Implementing u token t true
  | root {t : TypeId} (own : u.Search token (u.record t).interfaces.toList false)
    (base : (u.record t).base = none) :
      Implementing u token t false
  | base {t b : TypeId} {answer : Bool} (own : u.Search token (u.record t).interfaces.toList false)
      (base : (u.record t).base = some b) (rest : Implementing u token b answer) :
      Implementing u token t answer

theorem Chain.implementing {start : Option TypeId} {types : List TypeId} {answer : TypeId → Bool}
    (h : u.Chain start types)
    (hanswer : ∀ level ∈ types, u.Search token (u.record level).interfaces.toList (answer level))
    {t : TypeId} (hstart : start = some t) : u.Implementing token t (types.any answer) := by
  induction h generalizing t with
  | done => cases hstart
  | @up t' bases rest ih =>
    obtain rfl := Option.some.inj hstart
    obtain ⟨hown, hbases⟩ := List.forall_mem_cons.mp hanswer
    rw [List.any_cons]
    cases hlisted : answer t' with
    | true => exact .listed (hlisted ▸ hown)
    | false =>
      rw [Bool.false_or]
      cases hbase : (u.record t').base with
      | none =>
        rw [hbase] at rest
        cases rest
        exact .root (hlisted ▸ hown) hbase
      | some b => exact .base (hlisted ▸ hown) hbase (ih hbases hbase)

/-- The types from which subtypes are told: the type itself and its bases, and all interfaces of
these. -/
structure Traversable (u : Universe) (t : TypeId) : Prop where
  bases : Grounded u.HasBase t
  interfaces : ∀ level, Relation.ReflTransGen u.HasBase t level → Grounded u.Lists level

theorem Traversable.implementing (h : u.Traversable t) (other : TypeId) :
    u.Implementing (u.record other).token t (u.implements t other) :=
  (chain_hierarchy h.bases).implementing
    (fun _ hlevel => search_listsInterfaceWithin
      (h.interfaces _ ((mem_hierarchy_iff h.bases).mp hlevel))
      (card_reached_le.trans (Nat.le_succ _))) rfl

/-- The second type is met when all interfaces of the first one and of its bases are looked at. -/
def Meets (u : Universe) (t s : TypeId) : Prop :=
  ∃ level, Relation.ReflTransGen u.HasBase t level ∧ Relation.TransGen u.Lists level s

theorem Implementing.meets {answer : Bool} (h : u.Implementing token t answer)
    (htrue : answer = true) :
    ∃ s, u.Meets t s ∧ (u.record s).token = token := by
  induction h with
  | @listed t own =>
    obtain ⟨i, hi, s, hpath, hs⟩ := own.reaches rfl
    exact ⟨s, ⟨t, .refl, .head' (Array.mem_toList_iff.mp hi) hpath⟩, hs⟩
  | root => cases htrue
  | base _ hbase _ ih =>
    obtain ⟨s, ⟨level, hlevel, hpath⟩, hs⟩ := ih htrue
    exact ⟨s, ⟨level, .head hbase hlevel, hpath⟩, hs⟩

/-- A search that has found nothing has followed every path to its end. -/
theorem Implementing.traversable {answer : Bool} (h : u.Implementing token t answer)
    (hfalse : answer = false) : u.Traversable t := by
  have hown : ∀ t, u.Search token (u.record t).interfaces.toList false → Grounded u.Lists t :=
      fun t own =>
        Acc.intro t fun i hi => own.grounded rfl i (Array.mem_toList_iff.mpr hi)
  induction h with
  | listed => cases hfalse
  | @root t own hbase =>
    have hnone : ∀ b, ¬ u.HasBase t b := fun b hb => by
      rw [HasBase, hbase] at hb
      cases hb
    refine ⟨Acc.intro t fun b hb => absurd hb (hnone b), fun level hlevel => ?_⟩
    cases hlevel.cases_head with
    | inl hself => exact hself ▸ hown t own
    | inr hup =>
      obtain ⟨b, hb, -⟩ := hup
      exact absurd hb (hnone b)
  | @base t b _ own hbase _ ih =>
    have hrest := ih hfalse
    have hsame : ∀ b', u.HasBase t b' → b' = b :=
      fun b' hb' => Option.some.inj (hb'.symm.trans hbase)
    refine ⟨Acc.intro t fun b' hb' => hsame b' hb' ▸ hrest.bases, fun level hlevel => ?_⟩
    cases hlevel.cases_head with
    | inl hself => exact hself ▸ hown t own
    | inr hup =>
      obtain ⟨b', hb', hpath⟩ := hup
      exact hrest.interfaces level (hsame b' hb' ▸ hpath)

/-! ### Subtypes -/

inductive Descending (u : Universe) (token : Token) : Option TypeId → Bool → Prop
  | done : Descending u token none false
  | found {t : TypeId} (here : (u.record t).token = token) : Descending u token (some t) true
  | up {t : TypeId} {answer : Bool} (here : (u.record t).token ≠ token)
      (rest : Descending u token (u.record t).base answer) : Descending u token (some t) answer

theorem Chain.descending {start : Option TypeId} {types : List TypeId} (h : u.Chain start types) :
    u.Descending token start (types.any fun t => (u.record t).token == token) := by
  induction h with
  | done => exact .done
  | @up t bases _ ih =>
    rw [List.any_cons]
    by_cases hhere : (u.record t).token = token
    · rw [beq_iff_eq.mpr hhere]
      exact .found hhere
    · rw [beq_eq_false_iff_ne.mpr hhere, Bool.false_or]
      exact .up hhere ih

/-- The type itself is asked, then its bases, then the interfaces. -/
inductive Assigning (u : Universe) (t other : TypeId) : Bool → Prop
  | same (here : (u.record t).token = (u.record other).token) : Assigning u t other true
  | derived (here : (u.record t).token ≠ (u.record other).token)
      (bases : u.Descending (u.record other).token (u.record t).base true) :
      Assigning u t other true
  | interfaces {answer : Bool} (here : (u.record t).token ≠ (u.record other).token)
      (bases : u.Descending (u.record other).token (u.record t).base false)
      (rest : u.Implementing (u.record other).token t answer) : Assigning u t other answer

theorem Traversable.descending (h : u.Traversable t) (other : TypeId) :
    u.Descending (u.record other).token (u.record t).base (u.isSubclassOf t other) :=
  (chain_bases h.bases).descending

theorem Traversable.assigning (h : u.Traversable t) (other : TypeId) :
    u.Assigning t other (u.isAssignableTo t other) := by
  have hbases := h.descending other
  have hinterfaces := h.implementing other
  unfold isAssignableTo
  by_cases hhere : (u.record t).token = (u.record other).token
  · rw [beq_iff_eq.mpr hhere]
    exact .same hhere
  · rw [beq_eq_false_iff_ne.mpr hhere, Bool.false_or]
    cases hsubclass : u.isSubclassOf t other with
    | true => exact .derived hhere (hsubclass ▸ hbases)
    | false =>
      rw [Bool.false_or]
      exact .interfaces hhere (hsubclass ▸ hbases) hinterfaces

/-- A test for a type that is not met on any way has an answer just when no way goes on forever. -/
theorem exists_assigning_iff (hself : (u.record t).token ≠ (u.record other).token)
    (hbases : ∀ b, Relation.TransGen u.HasBase t b → (u.record b).token ≠ (u.record other).token)
    (hmeets : ∀ s, u.Meets t s → (u.record s).token ≠ (u.record other).token) :
    (∃ answer, u.Assigning t other answer) ↔ u.Traversable t := by
  refine ⟨fun ⟨answer, h⟩ => ?_, fun h => ⟨_, h.assigning other⟩⟩
  have hclimb : ∀ {start answer}, u.Descending (u.record other).token start answer → answer = true →
      ∃ t, start = some t ∧ ∃ b, Relation.ReflTransGen u.HasBase t b
      ∧ (u.record b).token = (u.record other).token := by
    intro start answer h htrue
    induction h with
    | done => cases htrue
    | @found t here => exact ⟨t, rfl, t, .refl, here⟩
    | @up t _ _ _ ih =>
      obtain ⟨b, hb, c, hpath, hc⟩ := ih htrue
      exact ⟨t, rfl, c, .head hb hpath, hc⟩
  cases h with
  | same here => exact absurd here hself
  | derived _ bases =>
    obtain ⟨b, hb, c, hpath, hc⟩ := hclimb bases rfl
    exact absurd hc (hbases c (.head' hb hpath))
  | interfaces _ _ rest =>
    cases hanswer : answer with
    | false => exact rest.traversable hanswer
    | true =>
      obtain ⟨s, hs, htoken⟩ := rest.meets hanswer
      exact absurd htoken (hmeets s hs)

end Universe

end TypeLoom
