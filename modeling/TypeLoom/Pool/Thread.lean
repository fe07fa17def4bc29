/-!
# Threads and their lock

A thread is known by a number. The lock for code generation is held by one thread at a time, which
may enter it again and must leave it as often as it entered.
-/

namespace TypeLoom

structure Thread where
  number : Nat
  deriving DecidableEq, Repr, Inhabited

namespace Thread

def main : Thread := ⟨1⟩

def text (t : Thread) : String := "ThreadId(" ++ toString t.number ++ ")"

end Thread

/-! ### Reentrant locks -/

/-- The holder of a lock and how often it has entered. -/
structure ReentrantLock where
  holder : Option (Thread × Nat) := none
  deriving DecidableEq, Repr, Inhabited

namespace ReentrantLock

def isHeldBy (l : ReentrantLock) (t : Thread) : Bool :=
  match l.holder with
  | some (owner, _) => owner == t
  | none => false

/-- The lock after the thread entered, unless another thread holds it. -/
def enter? (l : ReentrantLock) (t : Thread) : Option ReentrantLock :=
  match l.holder with
  | none => some ⟨some (t, 1)⟩
  | some (owner, depth) => if owner = t then some ⟨some (t, depth + 1)⟩ else none

def leave (l : ReentrantLock) (t : Thread) : ReentrantLock :=
  match l.holder with
  | some (owner, depth + 2) => if owner = t then ⟨some (t, depth + 1)⟩ else l
  | some (owner, _) => if owner = t then ⟨none⟩ else l
  | none => l

/-- The lock after the thread entered so many times, as far as it could. -/
def enterTimes (l : ReentrantLock) (t : Thread) : Nat → ReentrantLock
  | 0 => l
  | depth + 1 => ((l.enterTimes t depth).enter? t).getD (l.enterTimes t depth)

def leaveTimes (l : ReentrantLock) (t : Thread) : Nat → ReentrantLock
  | 0 => l
  | depth + 1 => (l.leaveTimes t depth).leave t

end ReentrantLock

end TypeLoom
