import TypeLoom.Fault
import TypeLoom.Keyed
import TypeLoom.Pool.Thread

/-!
# Pools of module contexts

A pool leases module contexts to threads and makes new ones until its capacity is reached. A thread
that asks again while it holds a lease gets the same context once more; the context is free again
when all its leases are back. All contexts can be taken at once when none is leased.
-/

namespace TypeLoom

structure PoolId where
  index : Nat
  deriving DecidableEq, Repr, Inhabited

/-- A module context by the pool that made it; a pool numbers its contexts in the order in which
it makes them. -/
structure ContextId where
  maker : PoolId
  index : Nat
  deriving DecidableEq, Repr, Inhabited

/-- The right of a thread to use a context. -/
structure Lease where
  context : ContextId
  owner : Thread
  deriving DecidableEq, Repr, Inhabited

structure Pool where
  id : PoolId
  capacity : Nat
  /-- How many contexts were made. -/
  created : Nat := 0
  /-- Free contexts; the one that came back last is leased first. -/
  free : List ContextId := []
  /-- The context of each thread that holds one, and how many leases it holds. -/
  leases : Keyed Thread (ContextId × Nat) := []
  deriving Repr, Inhabited

namespace Pool

def ofCapacity (id : PoolId) (capacity : Nat) : Except Fault Pool :=
  if capacity = 0 then .error (.configuration "Module context pool capacity must be greater than 0")
  else .ok { id, capacity }

/-- How many contexts could be leased now, those that are not made yet included. -/
def available (p : Pool) : Nat := p.free.length + (p.capacity - p.created)

/-! ### Leasing -/

def grant (p : Pool) (t : Thread) (c : ContextId) : Lease × Pool :=
  (⟨c, t⟩, { p with leases := p.leases.put t (c, 1) })

/-- A lease for the thread; nothing when it would have to wait. -/
def dequeue (p : Pool) (t : Thread) : Option (Lease × Pool) :=
  match p.leases.find? t with
  | some (c, depth) => some (⟨c, t⟩, { p with leases := p.leases.put t (c, depth + 1) })
  | none =>
    match p.free with
    | c :: rest => some ({ p with free := rest }.grant t c)
    | [] =>
      if p.created < p.capacity then
        some ({ p with created := p.created + 1 }.grant t ⟨p.id, p.created⟩)
      else none

/-- Takes a lease back from its owner. -/
def release (p : Pool) (lease : Lease) : Except Fault Pool :=
  match p.leases.find? lease.owner with
  | none =>
    .error (.invalidOperation ("Thread " ++ lease.owner.text ++ " holds no module context lease"))
  | some (c, depth) =>
    if c ≠ lease.context then
      .error (.invalidOperation ("Module context " ++ toString lease.context.index
        ++ " is not leased by thread " ++ lease.owner.text))
    else if depth ≤ 1 then
      .ok { p with leases := p.leases.erase lease.owner, free := c :: p.free }
    else .ok { p with leases := p.leases.put lease.owner (c, depth - 1) }

/-- Takes a lease back on a thread. On another thread than the owner's this is a fault, but the
lease is taken back all the same. -/
def enqueue (t : Thread) (lease : Lease) : Attempt Pool Unit := do
  set (← Attempt.lift ((← get).release lease))
  if lease.owner ≠ t then throw (.poolAffinity lease.owner.text t.text)

/-! ### Taking all -/

/-- Takes all contexts, in the order in which they were made; nothing when the thread would have
to wait. -/
def dequeueAll (p : Pool) (t : Thread) : Except Fault (Option (List ContextId × Pool)) :=
  if p.leases.hasKey t then
    .error (.invalidOperation ("Thread " ++ t.text
      ++ " cannot take all module contexts while holding one"))
  else if p.free.length < p.created then .ok none
  else .ok (some (p.free.mergeSort fun a b => a.index ≤ b.index, { p with free := [] }))

/-- Gives contexts back; the last one is leased first. -/
def enqueueAll (p : Pool) (contexts : List ContextId) : Pool :=
  { p with free := contexts.reverse ++ p.free }

/-! ### Small laws -/

end Pool

end TypeLoom
