/-!
# Faults

Everything that can go wrong, with the text that reports it. An `Attempt` over a state is an action
that may fail; what it did to the state before it failed stays done.
-/

namespace TypeLoom

/-- The ways in which an operation fails. -/
inductive Fault
  | argument (parameter message : String)
  | invalidOperation (message : String)
  | notSupported (message : String)
  | duplicateMember (kind name typeName : String)
  | descriptorSealed (name : String)
  | configuration (message : String)
  | typeAssembly (message : String) (source : Fault)
  | poolAffinity (owner current : String)
  | missingMember (typeName member : String)
  | nullReference (action : String)
  | abstractInstantiation (typeName : String)
  | recursionLimit (limit : Nat)
  | typeNotFound (name : String)
  | persistence (text : String)
  | fileFault
  deriving DecidableEq, Repr, Inhabited

namespace Fault

def message : Fault → String
  | argument parameter message => "Invalid argument '" ++ parameter ++ "': " ++ message
  | invalidOperation message => message
  | notSupported message => message
  | duplicateMember kind name typeName =>
    kind ++ " '" ++ name ++ "' already exists on type '" ++ typeName ++ "'"
  | descriptorSealed name =>
    "Type '" ++ name ++ "' has been handed to code generation and can no longer be modified"
  | configuration message => "Invalid pipeline configuration: " ++ message
  | typeAssembly message _ => message
  | poolAffinity owner current =>
    "Module context leased by thread " ++ owner ++ " was returned on thread " ++ current
  | missingMember typeName member =>
    "Member '" ++ member ++ "' was not found on type '" ++ typeName ++ "'"
  | nullReference action => "Null reference encountered while " ++ action
  | abstractInstantiation typeName =>
    "Cannot create an instance of abstract type '" ++ typeName ++ "'"
  | recursionLimit limit => "Reach the maximum recursion level allowed - " ++ toString limit
  | typeNotFound name => "Failed to find type in registry - " ++ name
  | persistence text => "Failed to persist or load generated code - " ++ text
  | fileFault => "The file system refused the operation"

def quotedNames : List String → String
  | [] => "<none>"
  | names => ", ".intercalate (names.map fun name => "'" ++ name ++ "'")

def assemblyLine (typeName : String) (participants : List String) : String :=
  "Code generation for requested type '" ++ typeName ++ "' failed. Configured participants: "
    ++ quotedNames participants ++ "."

/-- The fault told from outside an assembly: kinds that carry a text keep their kind and get the
line in front; the others become the source of an assembly fault. -/
def duringAssembly (typeName : String) (participants : List String) (fault : Fault) : Fault :=
  let line := assemblyLine typeName participants
  match fault with
  | invalidOperation message => invalidOperation (line ++ "\n" ++ message)
  | notSupported message => notSupported (line ++ "\n" ++ message)
  | configuration message => configuration (line ++ "\n" ++ message)
  | descriptorSealed name => descriptorSealed (name ++ " (" ++ line ++ ")")
  | argument parameter message => argument parameter (line ++ "\n" ++ message)
  | other => typeAssembly line other

end Fault

/-! ### Attempts -/

/-- An action on a state that may fail; the state it reached is kept either way. -/
abbrev Attempt (σ α : Type) := ExceptT Fault (StateM σ) α

namespace Attempt

variable {σ τ α : Type}

def start (act : Attempt σ α) (state : σ) : Except Fault α × σ := act.run.run state

def of (f : σ → Except Fault α × σ) : Attempt σ α := ExceptT.mk (fun state => f state)

def lift (outcome : Except Fault α) : Attempt σ α := ExceptT.mk (pure outcome)

def within (part : σ → τ) (restore : τ → σ → σ) (act : Attempt τ α) : Attempt σ α :=
  of fun state =>
    let (outcome, inner) := act.start (part state)
    (outcome, restore inner state)

/-- The outcome as a value; the attempt itself no longer fails. -/
def outcome (act : Attempt σ α) : Attempt σ (Except Fault α) :=
  of fun state =>
    let (result, after) := act.start state
    (.ok result, after)

/-- Tells the fault of a failing attempt in other words. -/
def recast (change : Fault → Fault) (act : Attempt σ α) : Attempt σ α :=
  of fun state =>
    match act.start state with
    | (.ok value, after) => (.ok value, after)
    | (.error fault, after) => (.error (change fault), after)

def onFault (repair : σ → σ) (act : Attempt σ α) : Attempt σ α :=
  of fun state =>
    match act.start state with
    | (.ok value, after) => (.ok value, after)
    | (.error fault, after) => (.error fault, repair after)

theorem start_of (f : σ → Except Fault α × σ) (state : σ) : (of f).start state = f state := rfl

theorem start_lift (result : Except Fault α) (state : σ) :
    (lift result : Attempt σ α).start state = (result, state) := rfl

theorem start_outcome (act : Attempt σ α) (state : σ) :
    act.outcome.start state = (.ok (act.start state).1, (act.start state).2) := rfl

end Attempt

end TypeLoom
