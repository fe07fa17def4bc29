import TypeLoom.Assembly.Identity

/-!
# Assembly

A requested type gets a proxy in a batch of its own, the participants contribute to the batch in
turn, and if any of them changed it the batch is stamped with the identifier and generated.
Additional types are made by the first participant that knows their identifier.
-/

namespace TypeLoom

/-- One assembly: the session it takes place in, the shared state, the batch and who is to be
told of it. -/
structure Scene where
  session : Session
  state : ParticipantState := {}
  batch : Batch := {}
  callbacks : Array (Generated → Errand Unit) := #[]

abbrev Requests := Command → Attempt Session Reply

/-- Who assembles, for which pipeline, in which module. -/
structure Assembler where
  requests : Requests
  participants : List Participant
  pipeline : PipelineId
  generator : GeneratorId

namespace Scene

variable {α : Type}

def inSession (act : Attempt Session α) : Attempt Scene α :=
  act.within (·.session) fun session scene => { scene with session }

def inBatch (act : Attempt Batch α) : Attempt Scene α :=
  act.within (·.batch) fun batch scene => { scene with batch }

end Scene

open Scene

/-! ### Carrying plans out -/

def Action.perform (requests : Requests) : (action : Action) → Attempt Session action.Answer
  | .look => get
  | .note datum => modify fun s => { s with notes := s.notes.push datum }
  | .countAbsent total => modify fun s => { s with absent := total }
  | .send command => (requests command).outcome

def DraftAction.perform (requests : Requests) : (action : DraftAction) → Attempt Scene action.Answer
  | .general action => inSession (action.perform requests)
  | .readState => do return (← get).state
  | .writeState state => modify fun scene => { scene with state }
  | .view => do return (← get).batch
  | .edit e => do inBatch (e.perform (← get).session.program).outcome
  | .whenGenerated callback =>
    modify fun scene => { scene with callbacks := scene.callbacks.push callback }

/-! ### Proxies -/

namespace Session

def numberedProxyName (s : Session) (requested : TypeId) (number : Nat) : String :=
  (s.program.record requested).name ++ "_Proxy_" ++ toString number

/-- Tries numbers until the name is not taken, at most so many. -/
def proxyNameWithin (p : PipelineId) (requested : TypeId) : Nat → Attempt Session String
  | 0 => do return (← get).numberedProxyName requested ((← get).pipeline p).proxyNames
  | tries + 1 => do
    editPipeline p fun line => { line with proxyNames := line.proxyNames + 1 }
    let s ← get
    let name := s.numberedProxyName requested (s.pipeline p).proxyNames
    let space := (s.program.record requested).space
    let fullName := if space.isEmpty then name else space ++ "." ++ name
    if (s.registry (s.pipeline p).registry).hasName fullName then proxyNameWithin p requested tries
    else return name

def proxyName (p : PipelineId) (requested : TypeId) : Attempt Session String := do
  let s ← get
  proxyNameWithin p requested ((s.registry (s.pipeline p).registry).size + 1)

end Session

def identifierFieldFlags : UInt32 :=
  FieldFlags.isPrivate ||| FieldFlags.static ||| FieldFlags.initOnly

namespace Assembler

variable (a : Assembler)

def draftProxy (id : Identifier) : Attempt Scene TypeHandle := do
  let name ← inSession (Session.proxyName a.pipeline id.requested)
  let scene ← get
  let (proxy, batch) := Batch.createProxy scene.session.program {} id.requested name
  set { scene with batch }
  a.participants.zipIdx.forM fun (participant, index) =>
    (participant.participate ⟨id, index, proxy⟩).run (DraftAction.perform a.requests)
  return proxy

/-- Marks a proxy as assembled and stores the identifier in it. -/
def stamp (id : Identifier) (proxy : TypeHandle) : Attempt Scene Unit := do
  let field ← inBatch (Batch.onType proxy
    (Descriptor.addField identifierFieldName .object identifierFieldFlags))
  inBatch (Batch.onType proxy
    (Descriptor.addTypeInitialization (.storeStatic (.draft field) (.constant (.identifier id)))))
  let s := (← get).session
  let constructor ← Attempt.lift ((s.coreTypes a.pipeline).markConstructor s.program)
  let mark ← Attempt.lift (Attribute.check s.program ⟨constructor, [], []⟩)
  inBatch (Batch.onType proxy (Descriptor.addAttribute mark))

def generateBatch : Attempt Scene Generated := do
  let scene ← get
  let (outcome, batch) ← inSession
    (Session.generate a.generator (scene.session.coreTypes a.pipeline).object scene.batch)
  modify fun scene => { scene with batch }
  let generated ← Attempt.lift outcome
  scene.callbacks.toList.forM fun callback =>
    inSession ((callback generated).run (Action.perform a.requests))
  return generated

/-- The proxy of a type, or the type itself if nobody changed the proxy. -/
def assembleProxy (id : Identifier) : Attempt Scene TypeId := do
  let proxy ← a.draftProxy id
  if !(← get).batch.isModified then return id.requested
  a.stamp id proxy
  let generated ← a.generateBatch
  Attempt.lift (generated.emitted.type proxy)

def participantNames : List String := a.participants.map (·.name)

/-- The type for an identifier. Types that cannot have a proxy are shown to the participants and
stand for themselves. -/
def assemble (id : Identifier) : Attempt Scene TypeId := do
  let u := (← get).session.program
  if u.isSubclassable id.requested then
    (a.assembleProxy id).recast (Fault.duringAssembly (u.fullName id.requested) a.participantNames)
  else
    a.participants.forM fun participant =>
      inSession ((participant.handleUnsubclassable id.requested).run (Action.perform a.requests))
    return id.requested

/-! ### Additional types -/

def provideAdditional (id : Part) : List Participant → Attempt Scene TypeId
  | [] =>
    throw (.notSupported ("No participant provides an additional type for identifier "
      ++ id.display))
  | participant :: rest => do
    match ← (participant.additionalType id).run (DraftAction.perform a.requests) with
    | some (.existing t) => return t
    | some (.created h) =>
      let generated ← a.generateBatch
      Attempt.lift (generated.emitted.type h)
    | none => provideAdditional id rest

def assembleAdditional (id : Part) : Attempt Scene TypeId :=
  (a.provideAdditional id a.participants).recast
    (Fault.duringAssembly id.display a.participantNames)

end Assembler

end TypeLoom
