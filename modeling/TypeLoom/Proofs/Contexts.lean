import Mathlib.Data.List.Nodup
import Mathlib.Data.List.Perm.Subperm
import Mathlib.Data.List.Range
import Mathlib.Logic.ExistsUnique
import Mathlib.Logic.Relation
import TypeLoom.Pool.Context
import TypeLoom.Proofs.Attempts

/-!
# Contexts of a pool

Threads lease contexts, give leases back on any thread, take all contexts at once and give them
back, in any order. What is free, what is leased and what was taken is then, all together, each
context that was made, once. The pool counts the leases of a thread as they are granted and come
back, so a lease that is still out can always be given back.
-/

namespace TypeLoom

namespace Keyed

variable {κ ν β : Type} [DecidableEq κ] {rows : Keyed κ ν} {key : κ} {old v : ν}

/-- What does not change when a value is replaced does not change in the rows. -/
theorem map_put_of_eq (f : ν → β) (h : rows.find? key = some old) (hf : f v = f old) :
    (rows.put key v).map (fun row => f row.2) = rows.map fun row => f row.2 := by
  induction rows with
  | nil => cases h
  | cons row rows ih =>
    simp only [find?, List.find?_cons] at ih h
    rw [put]
    by_cases hrow : row.1 = key
    · rw [beq_iff_eq.mpr hrow, Option.map_some, Option.some.injEq] at h
      rw [if_pos hrow, List.map_cons, List.map_cons, hf, h]
    · rw [beq_eq_false_iff_ne.mpr hrow] at h
      rw [if_neg hrow, List.map_cons, List.map_cons, ih h]

theorem perm_cons_erase (hrows : (rows.map (·.1)).Nodup) (h : rows.find? key = some v) :
    rows.Perm ((key, v) :: Keyed.erase rows key) := by
  induction rows with
  | nil => cases h
  | cons row rows ih =>
    rw [List.map_cons, List.nodup_cons] at hrows
    simp only [find?, List.find?_cons] at ih h
    by_cases hrow : row.1 = key
    · have hrest : Keyed.erase rows key = rows := by
        refine List.filter_eq_self.mpr fun other hother => bne_iff_ne.mpr fun heq => hrows.1 ?_
        exact List.mem_map.mpr ⟨other, hother, heq.trans hrow.symm⟩
      rw [beq_iff_eq.mpr hrow, Option.map_some, Option.some.injEq] at h
      have hsame : (key, v) = row := by rw [← h, ← hrow]
      rw [erase, List.filter_cons_of_neg (by simp [hrow]), ← erase, hrest, hsame]
    · rw [beq_eq_false_iff_ne.mpr hrow] at h
      rw [erase, List.filter_cons_of_pos (by simp [hrow]), ← erase]
      exact ((ih hrows.2 h).cons row).trans (List.Perm.swap _ _ _)

end Keyed

namespace Pool

/-! ### Pools in use -/

/-- A pool, the leases that it granted and that are not back, and the contexts that were taken
all at once and are not back. -/
structure Use where
  pool : Pool
  outstanding : List Lease := []
  taken : List ContextId := []

/-- What a thread can do with a pool. -/
inductive Event
  | dequeue (thread : Thread)
  | enqueue (thread : Thread) (lease : Lease)
  | dequeueAll (thread : Thread)
  | enqueueAll (contexts : List ContextId)

inductive Place
  | free
  | leased (thread : Thread)
  | taken
  deriving DecidableEq

def Made (p : Pool) (c : ContextId) : Prop := c.maker = p.id ∧ c.index < p.created

/-- How many leases the pool counts for a thread. -/
def depth (p : Pool) (t : Thread) : Nat := ((p.leases.find? t).map (·.2)).getD 0

namespace Use

def Fits (u : Use) : Event → Prop
  | .enqueue _ lease => lease ∈ u.outstanding
  | .enqueueAll contexts => contexts.Subperm u.taken
  | _ => True

instance (u : Use) : (e : Event) → Decidable (u.Fits e)
  | .enqueue _ lease => inferInstanceAs (Decidable (lease ∈ u.outstanding))
  | .enqueueAll contexts => inferInstanceAs (Decidable (contexts.Subperm u.taken))
  | .dequeue _ => isTrue trivial
  | .dequeueAll _ => isTrue trivial

/-- What an operation leaves. One that would have to wait, or that takes no contexts, leaves all
as it is; a lease is spent when it is given back, whatever the answer. -/
def after (u : Use) : Event → Use
  | .dequeue t =>
    match u.pool.dequeue t with
    | some (lease, pool) => { u with pool, outstanding := lease :: u.outstanding }
    | none => u
  | .enqueue t lease =>
    { u with
      pool := ((Pool.enqueue t lease).start u.pool).2, outstanding := u.outstanding.erase lease }
  | .dequeueAll t =>
    match u.pool.dequeueAll t with
    | .ok (some (contexts, pool)) => { u with pool, taken := contexts ++ u.taken }
    | _ => u
  | .enqueueAll contexts =>
    { u with pool := u.pool.enqueueAll contexts, taken := u.taken.diff contexts }

def Step (u u' : Use) : Prop := ∃ e, u.Fits e ∧ u' = u.after e

/-- One operation after the other, of whatever threads. -/
def Later : Use → Use → Prop := Relation.ReflTransGen Step

def At (u : Use) (c : ContextId) : Place → Prop
  | .free => c ∈ u.pool.free
  | .leased t => ∃ depth, u.pool.leases.find? t = some (c, depth)
  | .taken => c ∈ u.taken

/-! ### What every operation keeps -/

def held (u : Use) : List ContextId := u.pool.leases.map fun row => row.2.1

/-- The contexts in the order in which they were made. -/
def made (u : Use) : List ContextId := (List.range u.pool.created).map (ContextId.mk u.pool.id)

structure Sound (u : Use) : Prop where
  bounded : u.pool.created ≤ u.pool.capacity
  threads : (u.pool.leases.map (·.1)).Nodup
  placed : (u.pool.free ++ (u.held ++ u.taken)).Perm u.made
  /-- A thread holds as many leases as are out, of the context that the pool notes. -/
  counted : ∀ t c n, u.pool.leases.find? t = some (c, n) → 0 < n ∧ u.outstanding.count ⟨c, t⟩ = n
  granted : ∀ lease ∈ u.outstanding, ∃ n, u.pool.leases.find? lease.owner = some (lease.context, n)

variable {u u' : Use} {t : Thread} {c : ContextId} {n : Nat} {lease : Lease}

theorem mem_made : c ∈ u.made ↔ u.pool.Made c := by
  simp only [made, List.mem_map, List.mem_range, Made]
  constructor
  · rintro ⟨i, hi, rfl⟩
    exact ⟨rfl, hi⟩
  · rintro ⟨hmaker, hi⟩
    exact ⟨c.index, hi, by rw [← hmaker]⟩

theorem nodup_made : u.made.Nodup :=
  List.nodup_range.map fun _ _ h => (ContextId.mk.inj h).2

theorem sound_new (id : PoolId) (capacity : Nat) : Sound { pool := { id, capacity } } where
  bounded := Nat.zero_le _
  threads := List.nodup_nil
  placed := .nil
  counted := nofun
  granted := nofun

/-! ### Granting leases -/

/-- The thread holds more or fewer leases of its context than before. -/
theorem Sound.recount (hu : u.Sound) (hfind : u.pool.leases.find? t = some (c, n))
    {m : Nat} (hm : 0 < m) {out : List Lease} (hcount : out.count ⟨c, t⟩ = m)
    (hothers : ∀ other, other ≠ ⟨c, t⟩ → out.count other = u.outstanding.count other) :
    Sound { u with pool := { u.pool with leases := u.pool.leases.put t (c, m) }, outstanding := out } where
  bounded := hu.bounded
  threads := Keyed.nodup_put hu.threads _ _
  placed := by
    have hheld : (u.pool.leases.put t (c, m)).map (fun row => row.2.1) = u.held :=
      Keyed.map_put_of_eq (v := (c, m)) (·.1) hfind rfl
    show (u.pool.free ++ ((u.pool.leases.put t (c, m)).map (fun row => row.2.1) ++ u.taken)).Perm
      u.made
    rw [hheld]
    exact hu.placed
  counted := fun t' c' m' hfind' => by
    by_cases ht : t = t'
    · subst ht
      obtain ⟨rfl, rfl⟩ : c = c' ∧ m = m' := by simpa [Keyed.find?_put_self] using hfind'
      exact ⟨hm, hcount⟩
    · rw [Keyed.find?_put_of_ne _ _ _ _ ht] at hfind'
      rw [hothers _ fun heq => ht (congrArg Lease.owner heq).symm]
      exact hu.counted t' c' m' hfind'
  granted := fun other hother => by
    by_cases hown : other = ⟨c, t⟩
    · rw [hown]
      exact ⟨m, Keyed.find?_put_self _ _ _⟩
    · rw [← List.count_pos_iff, hothers other hown, List.count_pos_iff] at hother
      obtain ⟨k, hk⟩ := hu.granted other hother
      have ht : t ≠ other.owner := by
        rintro rfl
        rw [hfind] at hk
        exact hown (congrArg (Lease.mk · other.owner) (congrArg Prod.fst (Option.some.inj hk)).symm)
      exact ⟨k, (Keyed.find?_put_of_ne _ _ _ _ ht).trans hk⟩

theorem Sound.again (hu : u.Sound) (h : u.pool.leases.find? t = some (c, n)) :
    Sound { u with
      pool := { u.pool with leases := u.pool.leases.put t (c, n + 1) }
      outstanding := ⟨c, t⟩ :: u.outstanding } :=
  hu.recount h (Nat.succ_pos n) (by rw [List.count_cons_self, (hu.counted t c n h).2]) fun _
      hother =>
    List.count_cons_of_ne (Ne.symm hother)

/-- A first lease, of a context that was free or is new. -/
theorem Sound.grant (hu : u.Sound) (h : u.pool.leases.find? t = none) {p : Pool}
    (hleases : p.leases = u.pool.leases) (hbounded : p.created ≤ p.capacity)
    (hplaced : (c :: (p.free ++ (u.held ++ u.taken))).Perm
      ((List.range p.created).map (ContextId.mk p.id))) :
    Sound { u with pool := (p.grant t c).2, outstanding := (p.grant t c).1 :: u.outstanding } := by
  have hnew : t ∉ u.pool.leases.map (·.1) := Keyed.find?_eq_none_iff.mp h
  have hnone : ∀ lease ∈ u.outstanding, t ≠ lease.owner := by
    rintro lease hlease rfl
    obtain ⟨n, hn⟩ := hu.granted lease hlease
    rw [h] at hn
    cases hn
  have hput : p.leases.put t (c, 1) = u.pool.leases ++ [(t, c, 1)] := by
    rw [hleases, Keyed.put_of_not_mem _ hnew]
  refine ⟨hbounded, ?_, ?_, fun t' c' n' h' => ?_, fun lease hlease => ?_⟩
  · show ((p.leases.put t (c, 1)).map (·.1)).Nodup
    rw [hleases]
    exact Keyed.nodup_put hu.threads _ _
  · show (p.free ++ ((p.leases.put t (c, 1)).map (fun row => row.2.1) ++ u.taken)).Perm
      ((List.range p.created).map (ContextId.mk p.id))
    rw [hput, List.map_append, List.append_assoc, ← List.append_assoc p.free]
    have hmoved : (p.free ++ u.held ++ c :: u.taken).Perm (c :: (p.free ++ u.held ++ u.taken)) :=
      List.perm_middle
    refine hmoved.trans ?_
    rw [List.append_assoc]
    exact hplaced
  · replace h' : (p.leases.put t (c, 1)).find? t' = some (c', n') := h'
    by_cases ht : t = t'
    · subst ht
      obtain ⟨rfl, rfl⟩ : c = c' ∧ 1 = n' := by simpa [Keyed.find?_put_self] using h'
      have hcount : u.outstanding.count ⟨c, t⟩ = 0 :=
        List.count_eq_zero.mpr fun hmem => hnone _ hmem rfl
      exact ⟨Nat.one_pos, by rw [Pool.grant, List.count_cons_self, hcount]⟩
    · rw [Keyed.find?_put_of_ne _ _ _ _ ht, hleases] at h'
      rw [List.count_cons_of_ne fun heq => ht (congrArg Lease.owner heq)]
      exact hu.counted t' c' n' h'
  · show ∃ n, (p.leases.put t (c, 1)).find? lease.owner = some (lease.context, n)
    rcases List.mem_cons.mp hlease with rfl | hold
    · exact ⟨1, Keyed.find?_put_self _ _ _⟩
    · rw [Keyed.find?_put_of_ne _ _ _ _ (hnone lease hold), hleases]
      exact hu.granted lease hold

theorem Sound.dequeue (hu : u.Sound) {p : Pool} (h : u.pool.dequeue t = some (lease, p)) :
    Sound { u with pool := p, outstanding := lease :: u.outstanding } := by
  unfold Pool.dequeue at h
  cases hfind : u.pool.leases.find? t with
  | some row =>
    obtain ⟨c, n⟩ := row
    rw [hfind] at h
    cases h
    exact hu.again hfind
  | none =>
    rw [hfind] at h
    cases hfree : u.pool.free with
    | cons c rest =>
      rw [hfree] at h
      have hplaced := hu.placed
      rw [hfree] at hplaced
      cases h
      exact hu.grant hfind (p := { u.pool with free := rest }) rfl hu.bounded hplaced
    | nil =>
      simp only [hfree] at h
      split at h
      · rename_i hroom
        have hplaced : (⟨u.pool.id, u.pool.created⟩ :: (u.pool.free ++ (u.held ++ u.taken))).Perm
            ((List.range (u.pool.created + 1)).map (ContextId.mk u.pool.id)) := by
          rw [List.range_succ, List.map_append]
          exact (hu.placed.cons _).trans (List.perm_append_singleton _ _).symm
        rw [hfree] at hplaced
        cases h
        exact hu.grant hfind (p := { u.pool with created := u.pool.created + 1, free := [] })
          rfl hroom hplaced
      · cases h

/-! ### Giving leases back -/

/-- A lease that is out can be taken back. One of several leaves the context with its thread, the
last one frees it. -/
theorem Sound.release (hu : u.Sound) (h : lease ∈ u.outstanding) :
    ∃ n, u.pool.leases.find? lease.owner = some (lease.context, n + 1)
      ∧ u.pool.release lease = .ok (if n = 0
        then { u.pool with leases := u.pool.leases.erase lease.owner, free := lease.context :: u.pool.free }
        else { u.pool with leases := u.pool.leases.put lease.owner (lease.context, n) }) := by
  obtain ⟨m, hfind⟩ := hu.granted lease h
  obtain ⟨hpos, -⟩ := hu.counted _ _ _ hfind
  obtain ⟨n, rfl⟩ : ∃ n, m = n + 1 := ⟨m - 1, by omega⟩
  refine ⟨n, hfind, ?_⟩
  simp only [Pool.release, hfind, ne_eq, not_true_eq_false, if_false, Nat.add_sub_cancel]
  by_cases hn : n = 0
  · rw [if_pos (by omega), if_pos hn]
  · rw [if_neg (by omega), if_neg hn]

theorem Sound.less (hu : u.Sound)
    (hfind : u.pool.leases.find? lease.owner = some (lease.context, n + 1)) (hn : 0 < n) :
    Sound { u with
      pool := { u.pool with leases := u.pool.leases.put lease.owner (lease.context, n) }
      outstanding := u.outstanding.erase lease } :=
  hu.recount hfind hn (by rw [List.count_erase_self, (hu.counted _ _ _ hfind).2,
      Nat.add_sub_cancel]) fun _ hother =>
    List.count_erase_of_ne hother

theorem Sound.last (hu : u.Sound)
    (hfind : u.pool.leases.find? lease.owner = some (lease.context, 1)) :
    Sound { u with
      pool := { u.pool with leases := u.pool.leases.erase lease.owner, free := lease.context :: u.pool.free }
      outstanding := u.outstanding.erase lease } where
  bounded := hu.bounded
  threads := hu.threads.sublist (List.filter_sublist.map _)
  placed := by
    have hheld :
      u.held.Perm (lease.context :: (Keyed.erase u.pool.leases lease.owner).map fun row =>
      row.2.1) :=
      (Keyed.perm_cons_erase hu.threads hfind).map fun row : Thread × ContextId × Nat => row.2.1
    refine List.Perm.trans ?_ hu.placed
    show (lease.context :: (u.pool.free
      ++ ((Keyed.erase u.pool.leases lease.owner).map (fun row => row.2.1) ++ u.taken))).Perm _
    refine List.perm_middle.symm.trans (List.Perm.append_left _ ?_)
    rw [← List.cons_append]
    exact hheld.symm.append_right _
  counted := fun t c m hfind' => by
    by_cases ht : lease.owner = t
    · subst ht
      rw [Keyed.find?_erase_self] at hfind'
      cases hfind'
    · rw [Keyed.find?_erase_of_ne _ ht] at hfind'
      rw [List.count_erase_of_ne fun heq => ht (congrArg Lease.owner heq).symm]
      exact hu.counted t c m hfind'
  granted := fun other hother => by
    obtain ⟨m, hm⟩ := hu.granted other (List.mem_of_mem_erase hother)
    by_cases ht : lease.owner = other.owner
    · rw [← ht, hfind] at hm
      obtain ⟨context, owner⟩ := other
      obtain rfl : lease.context = context := congrArg Prod.fst (Option.some.inj hm)
      obtain rfl : lease.owner = owner := ht
      have hcount := (hu.counted _ _ _ hfind).2
      have hleft : 0 < (u.outstanding.erase lease).count lease := List.count_pos_iff.mpr hother
      rw [List.count_erase_self, hcount] at hleft
      exact absurd hleft (Nat.lt_irrefl 0)
    · exact ⟨m, (Keyed.find?_erase_of_ne _ ht).trans hm⟩

theorem start_enqueue {p after : Pool} (t : Thread) (h : p.release lease = .ok after) :
    (Pool.enqueue t lease).start p
      = (if lease.owner = t then .ok () else .error (.poolAffinity lease.owner.text t.text),
        after) := by
  simp only [Pool.enqueue, Attempt.start_bind, Attempt.start_get, Attempt.start_lift, h,
    Attempt.start_set]
  by_cases ht : lease.owner = t
  · rw [if_neg (not_not_intro ht), if_pos ht]
    rfl
  · rw [if_pos ht, if_neg ht]
    rfl

theorem Sound.enqueue (hu : u.Sound) (h : lease ∈ u.outstanding) (t : Thread) :
    (u.after (.enqueue t lease)).Sound := by
  obtain ⟨n, hfind, hrelease⟩ := hu.release h
  rw [after, start_enqueue t hrelease]
  by_cases hn : n = 0
  · subst hn
    exact hu.last hfind
  · rw [if_neg hn]
    exact hu.less hfind (Nat.pos_of_ne_zero hn)

/-! ### Taking all -/

theorem Sound.idle (hu : u.Sound) (h : u.pool.created ≤ u.pool.free.length) :
    u.pool.leases = [] ∧ u.taken = [] := by
  have hlength := hu.placed.length_eq
  simp only [held, made, List.length_append, List.length_map, List.length_range] at hlength
  exact ⟨List.length_eq_zero_iff.mp (by omega), List.length_eq_zero_iff.mp (by omega)⟩

theorem Sound.dequeueAll (hu : u.Sound) {contexts : List ContextId} {p : Pool}
    (h : u.pool.dequeueAll t = .ok (some (contexts, p))) :
    Sound { u with pool := p, taken := contexts ++ u.taken } := by
  unfold Pool.dequeueAll at h
  split at h
  · cases h
  · split at h
    · cases h
    · rename_i hall
      obtain ⟨hleases, htaken⟩ := hu.idle (Nat.not_lt.mp hall)
      have hplaced := hu.placed
      rw [held, hleases, htaken] at hplaced
      cases h
      refine ⟨hu.bounded, hu.threads, ?_, hu.counted, hu.granted⟩
      rw [htaken]
      show ([] ++ (u.held ++ (u.pool.free.mergeSort _ ++ []))).Perm u.made
      rw [held, hleases, List.nil_append, List.map_nil, List.nil_append, List.append_nil]
      rw [List.map_nil, List.append_nil, List.append_nil] at hplaced
      exact (List.mergeSort_perm _ _).trans hplaced

theorem Sound.enqueueAll (hu : u.Sound) {contexts : List ContextId} (h : contexts.Subperm u.taken) :
    Sound { u with pool := u.pool.enqueueAll contexts, taken := u.taken.diff contexts } where
  bounded := hu.bounded
  threads := hu.threads
  placed := by
    have htaken : (contexts ++ u.taken.diff contexts).Perm u.taken :=
      List.subperm_append_diff_self_of_count_le (List.subperm_ext_iff.mp h)
    refine List.Perm.trans ?_ hu.placed
    show (contexts.reverse ++ u.pool.free ++ (u.held ++ u.taken.diff contexts)).Perm _
    rw [List.append_assoc]
    refine ((List.reverse_perm contexts).append_right _).trans ?_
    refine (List.perm_append_comm_assoc _ _ _).trans (List.Perm.append_left _ ?_)
    exact (List.perm_append_comm_assoc _ _ _).trans (htaken.append_left _)
  counted := hu.counted
  granted := hu.granted

/-! ### Runs -/

/-- No operation changes whose contexts a pool makes, or how many there can be. -/
theorem Step.same (hstep : Step u u') (hu : u.Sound) :
    u'.pool.id = u.pool.id ∧ u'.pool.capacity = u.pool.capacity := by
  obtain ⟨e, hfits, rfl⟩ := hstep
  cases e with
  | dequeue t =>
    simp only [after, Pool.dequeue, Pool.grant]
    cases u.pool.leases.find? t with
    | some row => exact ⟨rfl, rfl⟩
    | none =>
      cases u.pool.free with
      | cons c rest => exact ⟨rfl, rfl⟩
      | nil =>
        by_cases hroom : u.pool.created < u.pool.capacity
        · simp only [hroom, if_true, and_self]
        · simp only [hroom, if_false, and_self]
  | enqueue t lease =>
    obtain ⟨n, -, hrelease⟩ := hu.release hfits
    rw [after, start_enqueue t hrelease]
    by_cases hn : n = 0
    · rw [if_pos hn]
      exact ⟨rfl, rfl⟩
    · rw [if_neg hn]
      exact ⟨rfl, rfl⟩
  | dequeueAll t =>
    simp only [after, Pool.dequeueAll]
    by_cases hheld : u.pool.leases.hasKey t = true
    · simp only [hheld, if_true, and_self]
    · by_cases hout : u.pool.free.length < u.pool.created
      · simp only [hheld, hout, Bool.false_eq_true, if_true, if_false, and_self]
      · simp only [hheld, hout, Bool.false_eq_true, if_false, and_self]
  | enqueueAll contexts => exact ⟨rfl, rfl⟩

theorem Step.sound (hstep : Step u u') (hu : u.Sound) : u'.Sound := by
  obtain ⟨e, hfits, rfl⟩ := hstep
  cases e with
  | dequeue t =>
    simp only [after]
    cases h : u.pool.dequeue t with
    | none => exact hu
    | some granted => exact hu.dequeue h
  | enqueue t lease => exact hu.enqueue hfits t
  | dequeueAll t =>
    simp only [after]
    cases h : u.pool.dequeueAll t with
    | error f => exact hu
    | ok taken =>
      cases taken with
      | none => exact hu
      | some taken => exact hu.dequeueAll h
  | enqueueAll contexts => exact hu.enqueueAll hfits

theorem Later.sound (hlater : Later u u') (hu : u.Sound) :
    u'.Sound ∧ u'.pool.id = u.pool.id ∧ u'.pool.capacity = u.pool.capacity := by
  induction hlater with
  | refl => exact ⟨hu, rfl, rfl⟩
  | tail _ hstep ih =>
    obtain ⟨hsound, hid, hcapacity⟩ := ih
    obtain ⟨hid', hcapacity'⟩ := hstep.same hsound
    exact ⟨hstep.sound hsound, hid'.trans hid, hcapacity'.trans hcapacity⟩

/-! ### Where contexts are -/

theorem Sound.at_leased_iff (hu : u.Sound) : u.At c (.leased t) ↔ ∃ n, (t, c, n) ∈ u.pool.leases :=
  exists_congr fun _ => Keyed.find?_eq_some_iff hu.threads

theorem Sound.mem_held_iff (hu : u.Sound) : c ∈ u.held ↔ ∃ t, u.At c (.leased t) := by
  simp only [held, List.mem_map, hu.at_leased_iff]
  constructor
  · rintro ⟨⟨t, c, n⟩, hrow, rfl⟩
    exact ⟨t, n, hrow⟩
  · rintro ⟨t, n, hrow⟩
    exact ⟨(t, c, n), hrow, rfl⟩

theorem Sound.made_iff (hu : u.Sound) : u.pool.Made c ↔ ∃ place, u.At c place := by
  rw [← mem_made, ← hu.placed.mem_iff, List.mem_append, List.mem_append, hu.mem_held_iff]
  constructor
  · rintro (hfree | ⟨t, hleased⟩ | htaken)
    · exact ⟨.free, hfree⟩
    · exact ⟨.leased t, hleased⟩
    · exact ⟨.taken, htaken⟩
  · rintro ⟨_ | t | _, hat⟩
    · exact .inl hat
    · exact .inr (.inl ⟨t, hat⟩)
    · exact .inr (.inr hat)

theorem Sound.nodup (hu : u.Sound) : (u.pool.free ++ (u.held ++ u.taken)).Nodup :=
  hu.placed.nodup_iff.mpr nodup_made

theorem Sound.at_unique (hu : u.Sound) {place place' : Place} (h : u.At c place)
    (h' : u.At c place') : place = place' := by
  obtain ⟨-, hrest, hfree⟩ := List.nodup_append.mp hu.nodup
  obtain ⟨hheld, -, htaken⟩ := List.nodup_append.mp hrest
  have hfreeHeld : ∀ t, c ∈ u.pool.free → ¬ u.At c (.leased t) := fun t hc hat =>
    hfree c hc c (List.mem_append_left _ (hu.mem_held_iff.mpr ⟨t, hat⟩)) rfl
  have hfreeTaken : c ∈ u.pool.free → ¬ c ∈ u.taken :=
    fun hc hat => hfree c hc c (List.mem_append_right _ hat) rfl
  have hheldTaken : ∀ t, u.At c (.leased t) → ¬ c ∈ u.taken := fun t hat hc =>
    htaken c (hu.mem_held_iff.mpr ⟨t, hat⟩) c hc rfl
  have hthread : ∀ t t', u.At c (.leased t) → u.At c (.leased t') → t = t' := by
    intro t t' hat hat'
    obtain ⟨n, hrow⟩ := hu.at_leased_iff.mp hat
    obtain ⟨n', hrow'⟩ := hu.at_leased_iff.mp hat'
    exact congrArg Prod.fst (List.inj_on_of_nodup_map hheld hrow hrow' rfl)
  cases place with
  | free =>
    cases place' with
    | free => rfl
    | leased t => exact absurd h' (hfreeHeld t h)
    | taken => exact absurd h' (hfreeTaken h)
  | leased t =>
    cases place' with
    | free => exact absurd h (hfreeHeld t h')
    | leased t' => rw [hthread t t' h h']
    | taken => exact absurd h' (hheldTaken t h)
  | taken =>
    cases place' with
    | free => exact absurd h (hfreeTaken h')
    | leased t => exact absurd h (hheldTaken t h')
    | taken => rfl

theorem Sound.depth_eq (hu : u.Sound) (t : Thread) :
    u.pool.depth t = u.outstanding.countP fun lease => lease.owner = t := by
  unfold depth
  cases hfind : u.pool.leases.find? t with
  | none =>
    symm
    refine List.countP_eq_zero.mpr fun lease hlease howner => ?_
    obtain ⟨n, hn⟩ := hu.granted lease hlease
    rw [of_decide_eq_true howner, hfind] at hn
    cases hn
  | some row =>
    obtain ⟨c, n⟩ := row
    have hsame : ∀ lease ∈ u.outstanding, (decide (lease.owner = t) = true ↔
        (lease == ⟨c, t⟩) = true) := by
      intro lease hlease
      rw [decide_eq_true_iff, beq_iff_eq]
      constructor
      · rintro rfl
        obtain ⟨m, hm⟩ := hu.granted lease hlease
        rw [hfind] at hm
        exact congrArg (Lease.mk · lease.owner) (congrArg Prod.fst (Option.some.inj hm)).symm
      · rintro rfl
        rfl
    rw [List.countP_congr hsame]
    exact (hu.counted t c n hfind).2.symm

/-- A thread waits only where it holds nothing, nothing is free and nothing more can be made. -/
theorem Sound.waits_iff (hu : u.Sound) (t : Thread) :
    u.pool.dequeue t = none ↔ u.pool.depth t = 0 ∧ u.pool.free = []
    ∧ u.pool.created = u.pool.capacity := by
  have hbounded := hu.bounded
  unfold Pool.dequeue depth
  cases hfind : u.pool.leases.find? t with
  | some row =>
    have hpos := (hu.counted t row.1 row.2 hfind).1
    simp only [Option.map_some, Option.getD_some]
    exact ⟨nofun, fun h => by omega⟩
  | none =>
    cases hfree : u.pool.free with
    | cons c rest => exact ⟨nofun, nofun⟩
    | nil =>
      by_cases hroom : u.pool.created < u.pool.capacity
      · simp only [hroom, if_true, reduceCtorEq, false_iff]
        omega
      · simp only [hroom, if_false, Option.map_none, Option.getD_none, true_and, true_iff]
        omega

/-- What giving back a lease on a thread does: it is counted no more for its owner, whose context
is free after the last one; nobody else's leases are touched, and only a thread that is not the
owner gets a fault. -/
structure Returns (u : Use) (t : Thread) (lease : Lease) (answer : Except Fault Unit)
    (p : Pool) : Prop where
  answer : answer = if lease.owner = t then .ok ()
    else .error (.poolAffinity lease.owner.text t.text)
  owner : p.depth lease.owner + 1 = u.pool.depth lease.owner
  others : ∀ other, lease.owner ≠ other → p.leases.find? other = u.pool.leases.find? other
  free : p.free = if u.pool.depth lease.owner = 1 then lease.context :: u.pool.free else u.pool.free

theorem Sound.returns (hu : u.Sound) (h : lease ∈ u.outstanding) (t : Thread) :
    Returns u t lease ((Pool.enqueue t lease).start u.pool).1
    ((Pool.enqueue t lease).start u.pool).2 := by
  obtain ⟨n, hfind, hrelease⟩ := hu.release h
  have hdepth : u.pool.depth lease.owner = n + 1 := by
    rw [depth, hfind, Option.map_some, Option.getD_some]
  rw [start_enqueue t hrelease]
  by_cases hn : n = 0
  · subst hn
    refine ⟨rfl, ?_, fun other hother => ?_, ?_⟩
    · rw [hdepth, if_pos rfl, depth, Keyed.find?_erase_self, Option.map_none, Option.getD_none]
    · rw [if_pos rfl]
      exact Keyed.find?_erase_of_ne _ hother
    · rw [hdepth, if_pos rfl, if_pos rfl]
  · refine ⟨rfl, ?_, fun other hother => ?_, ?_⟩
    · rw [hdepth, if_neg hn, depth, Keyed.find?_put_self, Option.map_some, Option.getD_some]
    · rw [if_neg hn]
      exact Keyed.find?_put_of_ne _ _ _ _ hother
    · rw [hdepth, if_neg hn, if_neg fun heq => hn (Nat.succ.inj heq)]

/-- No context of the pool is shared or lost. -/
structure Orderly (capacity : Nat) (u : Use) : Prop where
  bounded : u.pool.created ≤ capacity
  /-- A context that was made is at one place, and no other contexts are anywhere. -/
  placed : ∀ c, u.pool.Made c → ∃! place, u.At c place
  known : ∀ c place, u.At c place → u.pool.Made c
  once : u.pool.free.Nodup ∧ u.taken.Nodup
  counted : ∀ t, u.pool.depth t = u.outstanding.countP fun lease => lease.owner = t
  leased : ∀ lease ∈ u.outstanding, u.At lease.context (.leased lease.owner)
  together : ∀ lease ∈ u.outstanding, ∀ lease' ∈ u.outstanding, lease.owner = lease'.owner →
    lease.context = lease'.context
  returned : ∀ lease ∈ u.outstanding, ∀ t,
    Returns u t lease ((Pool.enqueue t lease).start u.pool).1
    ((Pool.enqueue t lease).start u.pool).2
  waits : ∀ t, u.pool.dequeue t = none ↔ u.pool.depth t = 0 ∧ u.pool.free = []
    ∧ u.pool.created = capacity

theorem Sound.orderly (hu : u.Sound) : u.Orderly u.pool.capacity where
  bounded := hu.bounded
  placed := fun c hc => by
    obtain ⟨place, hat⟩ := hu.made_iff.mp hc
    exact ⟨place, hat, fun place' hat' => hu.at_unique hat' hat⟩
  known := fun c place hat => hu.made_iff.mpr ⟨place, hat⟩
  once := by
    obtain ⟨hfree, hrest, -⟩ := List.nodup_append.mp hu.nodup
    obtain ⟨-, htaken, -⟩ := List.nodup_append.mp hrest
    exact ⟨hfree, htaken⟩
  counted := hu.depth_eq
  leased := hu.granted
  together := fun lease h lease' h' howner => by
    obtain ⟨n, hn⟩ := hu.granted lease h
    obtain ⟨n', hn'⟩ := hu.granted lease' h'
    rw [howner, hn'] at hn
    exact (congrArg Prod.fst (Option.some.inj hn)).symm
  returned := fun _ h t => hu.returns h t
  waits := hu.waits_iff

/-- Whatever threads do with a pool, each context that was made is free, leased by one thread or
taken, and a lease that is out can be given back on any thread. -/
theorem orderly_of_later {id : PoolId} {capacity : Nat} {p : Pool}
    (hp : Pool.ofCapacity id capacity = .ok p) (hlater : Later { pool := p } u) :
    u.Orderly capacity := by
  obtain rfl : ({ id, capacity } : Pool) = p := by
    unfold Pool.ofCapacity at hp
    split at hp
    · cases hp
    · exact Except.ok.inj hp
  obtain ⟨hsound, -, hcapacity⟩ := hlater.sound (sound_new id capacity)
  replace hcapacity : u.pool.capacity = capacity := hcapacity
  rw [← hcapacity]
  exact hsound.orderly

/-- The pool after some operations. -/
def run (u : Use) (events : List Event) : Use := events.foldl after u

/-- What is given back is out when its turn comes. -/
def FitsAll (u : Use) : List Event → Prop
  | [] => True
  | e :: events => u.Fits e ∧ (u.after e).FitsAll events

instance decidableFitsAll : (events : List Event) → (u : Use) → Decidable (u.FitsAll events)
  | [], _ => isTrue trivial
  | e :: events, u => @instDecidableAnd _ _ _ (decidableFitsAll events (u.after e))

theorem later_run (events : List Event) (h : u.FitsAll events) : Later u (u.run events) := by
  induction events generalizing u with
  | nil => exact .refl
  | cons e events ih => exact .head ⟨e, h.1, rfl⟩ (ih h.2)

/-- A thread leases twice while two others lease or wait; one of them gives all leases back and
takes everything. -/
def sharing : List Event :=
  let lease : Lease := ⟨⟨⟨0⟩, 0⟩, ⟨1⟩⟩
  [.dequeue ⟨1⟩, .dequeue ⟨1⟩, .dequeue ⟨2⟩, .dequeue ⟨3⟩, .enqueue ⟨2⟩ lease, .enqueue ⟨2⟩ lease,
    .enqueue ⟨2⟩ ⟨⟨⟨0⟩, 1⟩, ⟨2⟩⟩, .dequeueAll ⟨2⟩]

theorem orderly_sharing :
    Pool.ofCapacity ⟨0⟩ 2 = .ok { id := ⟨0⟩, capacity := 2 }
      ∧ Later { pool := { id := ⟨0⟩, capacity := 2 } }
      (run { pool := { id := ⟨0⟩, capacity := 2 } } sharing)
      ∧ Orderly 2 (run { pool := { id := ⟨0⟩, capacity := 2 } } sharing)
      ∧ (run { pool := { id := ⟨0⟩, capacity := 2 } } sharing).outstanding = [] := by
  have hp : Pool.ofCapacity ⟨0⟩ 2 = .ok { id := ⟨0⟩, capacity := 2 } := rfl
  have hlater := later_run (u := { pool := { id := ⟨0⟩, capacity := 2 } }) sharing
    (by decide +kernel)
  exact ⟨hp, hlater, orderly_of_later hp hlater, by decide +kernel⟩

end Use

end Pool

end TypeLoom
