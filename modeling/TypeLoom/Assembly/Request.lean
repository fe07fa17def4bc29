import TypeLoom.Assembly.Assemble
import TypeLoom.Assembly.Selection
import TypeLoom.Assembly.Settings

/-!
# Requests

How a pipeline answers commands. Types and constructors are made once and then found in its caches;
modules are written and loaded; commands of participants nest up to a limit.
-/

namespace TypeLoom

namespace Session

variable (cast : Cast) (requests : Requests)

/-! ### Types -/

/-- Assembles with a leased generator and a state of its own. -/
def withAssembler {α : Type} (p : PipelineId) (act : Assembler → Attempt Scene α) :
    Attempt Session α := do
  withLease ((← get).pipeline p).pool Thread.main fun generator =>
    (act { requests, participants := cast p, pipeline := p, generator }).within
      (fun session => { session }) fun scene _ => scene.session

def getType (p : PipelineId) (id : Identifier) : Attempt Session TypeId := do
  match ((← get).pipeline p).types.find? id with
  | some t => return t
  | none =>
    let t ← withAssembler cast requests p fun assembler => assembler.assemble id
    editPipeline p fun line => { line with types := line.types.put id t }
    return t

/-- The additional type for an identifier: the cached one, or a new one that is cached. -/
def getAdditional (p : PipelineId) (id : Part) : Attempt Session TypeId := do
  match ((← get).pipeline p).additional.find? id with
  | some t => return t
  | none =>
    let t ← withAssembler cast requests p fun assembler => assembler.assembleAdditional id
    editPipeline p fun line => { line with additional := line.additional.put id t }
    return t

/-- The chosen constructor: the cached one, or a new choice that is cached. -/
def getConstructor (p : PipelineId) (key : ConstructorKey) : Attempt Session MethodId := do
  match ((← get).pipeline p).constructors.find? key with
  | some c => return c
  | none =>
    let t ← getType cast requests p key.id
    let c ← ask fun s => s.program.selectConstructor t key.parameters key.nonPublic
    editPipeline p fun line => { line with constructors := line.constructors.put key c }
    return c

/-! ### Rows for the caches -/

def addRows {κ : Type} [DecidableEq κ] (rows : Keyed κ TypeId) : List (κ × TypeId) → Keyed κ TypeId
  | [] => rows
  | (key, t) :: rest => addRows (if rows.hasKey key then rows else rows.put key t) rest

/-- Puts types into the cache; the answer is how many were new. -/
def insertTypes (p : PipelineId) (rows : List (Identifier × TypeId)) : Attempt Session Nat := do
  let before := ((← get).pipeline p).types
  let after := addRows before rows
  editPipeline p fun line => { line with types := after }
  return after.length - before.length

/-- Puts additional types into the cache; the answer is how many were new. -/
def insertAdditional (p : PipelineId) (rows : List (Part × TypeId)) : Attempt Session Nat := do
  let before := ((← get).pipeline p).additional
  let after := addRows before rows
  editPipeline p fun line => { line with additional := after }
  return after.length - before.length

/-! ### Writing and loading -/

/-- Writes the modules of the contexts in order, up to the first fault. -/
def flushContexts (p : PipelineId) : List ContextId → Attempt Session (List WrittenModule)
  | [] => return []
  | c :: rest => do
    let s ← get
    let written ← flushGenerator (s.contextGenerator c) (s.pipeline p).configuration
    return written.toList ++ (← flushContexts p rest)

def flush (p : PipelineId) : Attempt Session (List WrittenModule) := do
  let pool := ((← get).pipeline p).pool
  let contexts ← dequeueAll pool Thread.main
  let outcome ← (flushContexts p contexts).outcome
  enqueueAll pool contexts
  Attempt.lift outcome

def requireDocument : Option String → Except Fault String
  | some text => .ok text
  | none => .error .fileFault

def checkDocument (configuration : String) (document : Option String) : Except Fault Unit := do
  let header ← Artifact.Header.read (← requireDocument document)
  if header.configuration ≠ configuration then
    throw (.configuration ("Module '" ++ header.name
      ++ "' was generated with participant configuration '"
      ++ header.configuration ++ "', this pipeline uses '" ++ configuration ++ "'"))

structure Loaded where
  proxies : List LoadedProxy := []
  additional : List TypeId := []

def classify (p : PipelineId) (loaded : Loaded) (t : TypeId) : Attempt Session Loaded := do
  if (← get).isAssembled p t then
    let requested ← ask fun s => s.requestedType p t
    let id ← extractId p t
    return { loaded with proxies := loaded.proxies ++ [⟨requested, t, id⟩] }
  else return { loaded with additional := loaded.additional ++ [t] }

def readDocument (p : PipelineId) (loaded : Loaded) (document : Option String) :
    Attempt Session Loaded := do
  let text ← Attempt.lift (requireDocument document)
  let (_, types) ← inRegistry ((← get).pipeline p).registry (Artifact.decode text)
  types.foldlM (classify p) loaded

/-- Loads written modules; the answer is how many types they have. -/
def load (p : PipelineId) (documents : List (Option String)) : Attempt Session Nat := do
  let configuration := ((← get).pipeline p).configuration
  documents.forM fun document => Attempt.lift (checkDocument configuration document)
  let loaded ← documents.foldlM (readDocument p) {}
  let _ ← insertTypes p (loaded.proxies.map fun proxy => (proxy.id, proxy.generated))
  (cast p).forM fun participant =>
    (participant.rebuild loaded.proxies loaded.additional).run (Action.perform requests)
  let s ← get
  let _ ← insertAdditional p (loaded.additional.filterMap fun t =>
    ((cast p).findSome? fun participant => participant.additionalId s t).map fun id => (id, t))
  return loaded.proxies.length + loaded.additional.length

/-! ### Commands -/

/-- Carries out a command, given who carries out the commands of participants. -/
def performOver : Command → Attempt Session Reply
  | .assembled p id => return .type (← getType cast requests p id)
  | .requested p t => do
    return .type (← getType cast requests p (identifierFor (← get) (cast p) t))
  | .additional p id => return .type (← getAdditional cast requests p id)
  | .constructor p id parameters nonPublic =>
    return .constructor (← getConstructor cast requests p ⟨id, parameters, nonPublic⟩)
  | .flush p => return .modules (← flush p)
  | .load p documents => return .count (← load cast requests p documents)
  | .insertTypes p rows => return .count (← insertTypes p rows)
  | .insertAdditional p rows => return .count (← insertAdditional p rows)

def nestingLimit : Nat := 1000

/-- Carries out a command whose nested commands go at most so deep. -/
def performWithin : Nat → Command → Attempt Session Reply
  | 0, _ => throw (.recursionLimit nestingLimit)
  | depth + 1, command => performOver cast (performWithin depth) command

def perform (command : Command) : Attempt Session Reply := performWithin cast nestingLimit command

end Session

/-! ### Setting up -/

namespace Session

def checkParticipants (configuration : String) (names : List String) : Except Fault Unit :=
  if configuration.isEmpty then
    .error (.configuration "Participant configuration id must not be empty")
  else
    match firstRepeated? names with
    | some name =>
      .error (.configuration ("Participant '" ++ name ++ "' is registered more than once"))
    | none => .ok ()

def openPipeline (registry : RegistryId) (configuration : String) (parallelism : Nat)
    (naming : Naming) (names : List String) : Attempt Session PipelineId := do
  Attempt.lift (checkParticipants configuration names)
  let pool ← addPool parallelism registry (← addNaming naming)
  let p : PipelineId := ⟨(← get).pipelines.size⟩
  modify fun s => { s with pipelines := s.pipelines.push { configuration, registry, pool } }
  return p

def addPipeline (registry : RegistryId) (settings : Settings) (directory : DirectoryId)
    (names : List String) : Attempt Session PipelineId := do
  Attempt.lift settings.validate
  openPipeline registry settings.configuration settings.parallelism
    { directory, pattern := settings.pattern } names

/-! ### Instances of assembled types -/

/-- Makes an object by the chosen constructor of the type for an identifier. -/
def instantiateWith (cast : Cast) (p : PipelineId) (id : Identifier) (parameters : List Signature)
    (arguments : List Value) (nonPublic : Bool) : Attempt Session ObjectRef := do
  let c ← getConstructor cast (perform cast) p ⟨id, parameters, nonPublic⟩
  evaluate fun u => u.instantiate c arguments

def instantiate (cast : Cast) (p : PipelineId) (id : Identifier) (arguments : List Value)
    (nonPublic : Bool) : Attempt Session ObjectRef :=
  instantiateWith cast p id (arguments.map Value.signature) arguments nonPublic

end Session

end TypeLoom
