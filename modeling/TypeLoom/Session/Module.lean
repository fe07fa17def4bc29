import TypeLoom.Artifact.Decode
import TypeLoom.Artifact.Encode
import TypeLoom.Session.State

/-!
# Modules of a session

A generator declares the types of its module and writes the finished ones to a file of the directory
of its naming. After that it goes on with the next module.
-/

namespace TypeLoom.Session

variable {α : Type}

/-! ### Generators -/

def nextModuleName (n : NamingId) : Attempt Session String := do
  let naming := (← get).naming n
  modify fun s =>
    { s with
      namings := s.namings.setIfInBounds n.index { naming with counter := naming.counter + 1 } }
  return naming.name

def addGenerator (registry : RegistryId) (naming : NamingId) : Attempt Session GeneratorId := do
  let moduleName ← nextModuleName naming
  let id : GeneratorId := ⟨(← get).generators.size⟩
  modify fun s => { s with generators := s.generators.push { registry, naming, moduleName } }
  return id

def workshop (s : Session) (g : GeneratorId) : Workshop :=
  { space := { program := s.program, registry := s.registry (s.generator g).registry }
    output := (s.generator g).types }

def putWorkshop (s : Session) (g : GeneratorId) (w : Workshop) : Session :=
  let s := { s with program := w.space.program }
  let s := s.setRegistry (s.generator g).registry w.space.registry
  s.setGenerator g { s.generator g with types := w.output }

def inGenerator (g : GeneratorId) (act : Attempt Workshop α) : Attempt Session α :=
  act.within (·.workshop g) fun w s => s.putWorkshop g w

def generate (g : GeneratorId) (objectType : TypeId) (batch : Batch) :
    Attempt Session (Except Fault Generated × Batch) :=
  Attempt.of fun s =>
    let (outcome, production) :=
      (Production.generate objectType).start { batch, workshop := s.workshop g }
    (.ok (outcome, production.batch), s.putWorkshop g production.workshop)

def generatedTypes (s : Session) (g : GeneratorId) : List TypeId := (s.workshop g).finished

/-! ### Writing modules -/

/-- A module that was written: the name of its file and the text in it. -/
structure WrittenModule where
  file : String
  text : String
  deriving DecidableEq, Repr, Inhabited

def moduleId : String := "00000000-0000-4000-8000-000000000000"

def longestFileName : Nat := 255

/-- Whether a directory can hold a file of this name. The directories of a session hold files and
nothing else, so a name with a slash is refused: paths through other directories, and spellings
such as `./Gen.1` for a file of this one, are left out. -/
def isFileName (name : String) : Bool :=
  !name.toList.contains '/' && !name.toList.contains '\x00' && name.utf8ByteSize ≤ longestFileName

def writeFile (d : DirectoryId) (name text : String) : Attempt Session Unit := do
  if !isFileName name then throw .fileFault
  modify fun s =>
    { s with directories := s.directories.modify d.index fun dir =>
        { dir with files := dir.files.put name text } }

/-- The unfinished types of a module are given up, unless they are held. -/
def giveUpUnfinished (s : Session) (g : GeneratorId) : Session :=
  { s with program := ((s.generator g).types.toList.filter fun t =>
      !(s.program.record t).complete && !s.held.contains t).foldl Universe.drop s.program }

def startModule (g : GeneratorId) : Attempt Session Unit := do
  let moduleName ← nextModuleName ((← get).generator g).naming
  modify fun s =>
    (s.giveUpUnfinished g).setGenerator g { s.generator g with moduleName, types := #[] }

/-- Writes the module under construction, if it has finished types, and begins the next one. -/
def flushGenerator (g : GeneratorId) (configuration : String) :
    Attempt Session (Option WrittenModule) := do
  let s ← get
  let types := s.generatedTypes g
  if types.isEmpty then return none
  let generator := s.generator g
  let d := (s.naming generator.naming).directory
  if (s.directory d).blocked then throw .fileFault
  let header : Artifact.Header := ⟨moduleId, generator.moduleName, configuration⟩
  let text ← Attempt.lift (Artifact.encode s.program header types)
  let file := generator.moduleName ++ ".xml"
  writeFile d file text
  startModule g
  return some ⟨file, text⟩

/-! ### Pools of generators -/

/-- A new pool whose contexts list their types in a registry. -/
def addPool (capacity : Nat) (registry : RegistryId) (naming : NamingId) :
    Attempt Session PoolId := do
  let id : PoolId := ⟨(← get).pools.size⟩
  let pool ← Attempt.lift (Pool.ofCapacity id capacity)
  modify fun s => { s with pools := s.pools.push { pool, registry, naming } }
  return id

def contextGenerator (s : Session) (c : ContextId) : GeneratorId :=
  (s.pool c.maker).generators.getD c.index default

def noFreeContext : Fault := .invalidOperation "Every module context is in use"

/-- Leases a context to a thread; a new context gets a generator. -/
def dequeue (p : PoolId) (t : Thread) : Attempt Session Lease := do
  match ((← get).pool p).pool.dequeue t with
  | none => throw noFreeContext
  | some (lease, pool) =>
    let before := (← get).pool p
    modify fun s => s.setPool p { before with pool }
    if before.generators.size < pool.created then
      let g ← addGenerator before.registry before.naming
      modify fun s => s.setPool p { s.pool p with generators := before.generators.push g }
    return lease

def enqueue (p : PoolId) (t : Thread) (lease : Lease) : Attempt Session Unit :=
  (Pool.enqueue t lease).within (fun s => (s.pool p).pool) fun pool s =>
    s.setPool p { s.pool p with pool }

def dequeueAll (p : PoolId) (t : Thread) : Attempt Session (List ContextId) := do
  match ← ask fun s => (s.pool p).pool.dequeueAll t with
  | none => throw noFreeContext
  | some (contexts, pool) =>
    modify fun s => s.setPool p { s.pool p with pool }
    return contexts

def enqueueAll (p : PoolId) (contexts : List ContextId) : Attempt Session Unit :=
  modify fun s => s.setPool p { s.pool p with pool := (s.pool p).pool.enqueueAll contexts }

/-- Works with the generator of a lease, which goes back afterwards; a fault of giving it back
wins. -/
def withLease (p : PoolId) (t : Thread) (act : GeneratorId → Attempt Session α) :
    Attempt Session α := do
  let lease ← dequeue p t
  let g := (← get).contextGenerator lease.context
  let outcome ← (act g).outcome
  enqueue p t lease
  Attempt.lift outcome

end TypeLoom.Session
