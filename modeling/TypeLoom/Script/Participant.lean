import TypeLoom.Script.Draft

/-!
# Scripted participants

A participant described by data: its name, its part of identifiers, and the steps it takes for
proxies and for additional types. Each step leaves a note; a step that fails ends the contribution
unless it is only tried.
-/

namespace TypeLoom.Script

open Reading

/-! ### Errands -/

def lookAround : Errand Session := Errand.take .look

def leaveNote (d : Datum) : Errand Unit := Errand.take (.note d)

def failWith (d : Option Datum) : Errand Unit :=
  match d.bind fault? with
  | some fault => .fail fault
  | none => .done ()

/-- What a batch became, or what one of its handles became. -/
def generatedPart (u : Universe) (g : Generated) (d : Datum) : Reading Datum := do
  match ← textAt d "kind" with
  | "all" => return Report.generated u g
  | "type" => return Report.type u (← ofExcept (g.emitted.type (← typeHandleAt d "h")))
  | "method" =>
    return Report.method u (← ofExcept (g.emitted.method (← methodHandle (← valueAt d "h"))))
  | "field" =>
    return Report.field u (← ofExcept (g.emitted.field (← fieldHandle (← valueAt d "h"))))
  | "property" =>
    return Report.property u (← ofExcept (g.emitted.property (← propertyHandle (← valueAt d "h"))))
  | "event" =>
    return Report.event u (← ofExcept (g.emitted.event (← eventHandle (← valueAt d "h"))))
  | _ => malformed

def told (outcome : Except Trouble (Datum × Nat)) : Datum :=
  match outcome with
  | .ok (answer, _) => answer
  | .error (.fault fault) => fault.report
  | .error .malformed => .nothing

def completion (d : Datum) (g : Generated) : Errand Unit := do
  (d.itemsAt "lookups").forM fun lookup => do
    let u := (← lookAround).program
    leaveNote (.record [("completed", told ((generatedPart u g lookup).start {} 0))])
  failWith (d.member? "fail")

/-! ### States -/

def stateValue (d : Datum) : Reading StateValue :=
  match d with
  | .text value => return .text value
  | .number value => return .number (Int64.ofInt value)
  | _ => malformed

def stateDatum : StateValue → Datum
  | .text value => .text value
  | .number value => .number value.toInt

def stateKindAt (d : Datum) (key : String) : Reading StateKind := do
  match ← textAt d key with
  | "int" => return .number
  | "str" => return .text
  | _ => malformed

def stateStep (d : Datum) (s : ParticipantState) : Reading (Datum × ParticipantState) := do
  let key := (d.textAt? "key").getD ""
  let tell (r : Option StateValue × ParticipantState) : Datum × ParticipantState :=
    (.ofOption stateDatum r.1, r.2)
  match ← textAt d "op" with
  | "insert" => return (.nothing, s.insert key (← stateValue (← valueAt d "value")))
  | "get" => return (.ofOption stateDatum (s.get? key (← stateKindAt d "as")), s)
  | "remove" => return tell (s.remove key (← stateKindAt d "as"))
  | "add" =>
    let amount ← need (← valueAt d "value").number?
    return tell (s.update key .number fun
      | .number n => .number (n + Int64.ofInt amount)
      | other => other)
  | "append" =>
    let more ← textAt d "value"
    return tell (s.update key .text fun
      | .text t => .text (t ++ more)
      | other => other)
  | "get_or_insert" => return tell (s.getOrInsert key (← stateValue (← valueAt d "value")))
  | "contains" => return (.truth (s.contains key), s)
  | "info" => return (.list [.ofNat s.size, .truth (s.size == 0), .text s.text], s)
  | _ => malformed

/-! ### Steps -/

/-- Where a participant takes its steps. -/
structure Stage where
  scope : Scope
  pipeline : PipelineId
  /-- What the participant was told. -/
  told : Contribution Datum

def pipelineAt (d : Datum) (key : String) : Reading PipelineId := do
  need ((← read).pipelines.find? (← textAt d key))

def requestStep (stage : Stage) (d : Datum) : Contribution Datum := do
  let command ← reading stage.scope do
    return Command.requested (← pipelineAt d "p") (← typeAt d "type")
  match ← send command with
  | .type t => return Report.type (← look).program t
  | _ => .fail malformedStep

def flushStep (stage : Stage) (d : Datum) : Contribution Datum := do
  match ← send (.flush (← reading stage.scope (pipelineAt d "p"))) with
  | .modules modules => return .ofNat modules.length
  | _ => .fail malformedStep

def sharedStateStep (stage : Stage) (d : Datum) : Contribution Datum := do
  let before ← Contribution.take .readState
  let (answer, after) ← reading stage.scope (stateStep d before)
  Contribution.take (.writeState after)
  return answer

def participantStep (stage : Stage) (d : Datum) : Contribution Datum := do
  match d.textAt? "do" with
  | some "context" => stage.told
  | some "fail" => .fail (← reading stage.scope (faultAt d "with"))
  | some "state" => sharedStateStep stage d
  | some "registry_len" =>
    let s ← look
    return .ofNat (s.registry (s.pipeline stage.pipeline).registry).size
  | some "request" => requestStep stage d
  | some "flush" => flushStep stage d
  | some "completed" =>
    Contribution.take (.whenGenerated (completion d))
    return .nothing
  | _ => draftStep stage.scope d

def takeSteps (name : String) (stage : Stage) : List Datum → Contribution Unit
  | [] => .done ()
  | d :: rest => do
    match ← (participantStep stage d).outcome with
    | .ok answer => note (.record [("participant", .text name), ("ok", answer)])
    | .error fault =>
      if d.flag "try" then note (.record [("participant", .text name), ("tried", fault.report)])
      else .fail fault
    takeSteps name stage rest

/-! ### Participants -/

def part? (scope : Scope) (d : Datum) : Option Part :=
  match (part d).start scope 0 with
  | .ok (found, _) => some found
  | .error _ => none

/-- The share of an identifier: the name of the type, by its full name, or always the same. -/
def sharePart (scope : Scope) (d : Datum) (s : Session) (t : TypeId) : Option Part :=
  if d.flag "name" then some (.text (s.program.record t).name)
  else
    match d.member? "map" with
    | some table => (table.member? (s.program.fullName t)).bind (part? scope)
    | none => (d.member? "const").bind (part? scope)

def tellTurn (turn : Turn) : Contribution Datum := do
  let u := (← look).program
  return .record [("id", Report.identifier u turn.id), ("own", .ofOption Report.part turn.ownPart),
    ("proxy", Report.typeHandle turn.proxy), ("modified", .truth (← view).isModified)]

def additionalEntry (name : String) (scope : Scope) (p : PipelineId)
    (entries : List Datum) (id : Part) :
    Contribution (Option AdditionalType) := do
  match entries.find? fun entry => (entry.member? "id").bind (part? scope) == some id with
  | none => return none
  | some entry =>
    takeSteps name ⟨scope, p, .done (.record [("additional_id", Report.part id)])⟩
      (entry.itemsAt "steps")
    match entry.natAt? "created", entry.member? "existing" with
    | some h, _ => return some (.created ⟨h⟩)
    | none, some _ => return some (.existing (← reading scope (typeAt entry "existing")))
    | none, none => return none

def tellLoaded (name : String) (proxies : List LoadedProxy) (additional : List TypeId) :
    Errand Unit := do
  let u := (← lookAround).program
  leaveNote (.record [("participant", .text name),
    ("rebuild", .list (proxies.map fun proxy =>
      .record [("requested", Report.type u proxy.requested),
        ("generated", Report.type u proxy.generated),
        ("id", Report.identifier u proxy.id)])),
    ("additional", Report.types u additional)])

def participant (scope : Scope) (p : PipelineId) (d : Datum) : Participant :=
  let name := (d.textAt? "name").getD ""
  { name
    part := fun s t => (d.member? "part").bind fun provider => sharePart scope provider s t
    participate := fun turn =>
      takeSteps name ⟨{ scope with self? := some turn.id.requested }, p, tellTurn turn⟩
        (d.itemsAt "steps")
    handleUnsubclassable := fun t => do
      leaveNote (.record [("participant", .text name),
        ("non_subclassable", Report.type (← lookAround).program t)])
      failWith (d.member? "non_subclassable_fail")
    additionalType := additionalEntry name scope p (d.itemsAt "additional")
    rebuild := fun proxies additional => do
      tellLoaded name proxies additional
      failWith (d.member? "rebuild_fail")
    additionalId := fun s t =>
      ((d.member? "additional_ids").bind fun table => table.member? (s.program.fullName t)).bind
        (part? scope) }

end TypeLoom.Script
