import TypeLoom.Fault

/-!
# Plans

A plan is a tree of actions: each action has answers of its own type, and the plan goes on by the
answer. Whoever carries a plan out says what the actions do.
-/

namespace TypeLoom

/-- What to do, action by action, up to a value or a fault. -/
inductive Plan (Action : Type) (Answer : Action → Type) (α : Type) : Type
  | done (value : α)
  | fail (fault : Fault)
  | act (action : Action) (next : Answer action → Plan Action Answer α)

namespace Plan

variable {Action : Type} {Answer : Action → Type} {α β σ : Type}

def bind : Plan Action Answer α → (α → Plan Action Answer β) → Plan Action Answer β
  | done value, next => next value
  | fail fault, _ => fail fault
  | act action rest, next => act action fun answer => (rest answer).bind next

instance : Monad (Plan Action Answer) where
  pure := done
  bind := bind

/-- The outcome as a value; the plan itself no longer fails. -/
def outcome : Plan Action Answer α → Plan Action Answer (Except Fault α)
  | done value => done (.ok value)
  | fail fault => done (.error fault)
  | act action rest => act action fun answer => (rest answer).outcome

def single (action : Action) : Plan Action Answer (Answer action) := act action done

def ofExcept : Except Fault α → Plan Action Answer α
  | .ok value => done value
  | .error fault => fail fault

def run (handle : (action : Action) → Attempt σ (Answer action)) :
    Plan Action Answer α → Attempt σ α
  | done value => return value
  | fail fault => throw fault
  | act action rest => do (rest (← handle action)).run handle

end Plan

end TypeLoom
