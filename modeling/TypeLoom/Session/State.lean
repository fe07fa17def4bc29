import TypeLoom.Datum
import TypeLoom.Emit.Generate
import TypeLoom.Pool.Context
import TypeLoom.Run.Evaluate

/-!
# Sessions

A session holds one program with its heap, and what works on it: registries, the directories and
names of modules, module generators, context pools and pipelines. Each kind is numbered and only
grows.
-/

namespace TypeLoom

/-! ### Numbers of the parts -/

structure RegistryId where
  index : Nat
  deriving DecidableEq, Repr, Inhabited

structure DirectoryId where
  index : Nat
  deriving DecidableEq, Repr, Inhabited

structure NamingId where
  index : Nat
  deriving DecidableEq, Repr, Inhabited

structure GeneratorId where
  index : Nat
  deriving DecidableEq, Repr, Inhabited

structure PipelineId where
  index : Nat
  deriving DecidableEq, Repr, Inhabited

/-! ### The parts -/

/-- A directory for modules; a blocked one takes no files. -/
structure Directory where
  blocked : Bool := false
  files : Keyed String String := []
  deriving Repr, Inhabited

/-- Names modules by a pattern and a counter, which all generators with this naming share. -/
structure Naming where
  directory : DirectoryId
  pattern : String
  counter : Nat := 1
  deriving Repr, Inhabited

def counterPlaceholder : String := "\x7bcounter\x7d"

/-- The text between the places where a mark stands; so many characters are skipped first. -/
def piecesAfter (mark : List Char) : Nat → List Char → List (List Char)
  | _, [] => [[]]
  | skip + 1, _ :: rest => piecesAfter mark skip rest
  | 0, c :: rest =>
    if mark.isPrefixOf (c :: rest) then [] :: piecesAfter mark (mark.length - 1) rest
    else
      match piecesAfter mark 0 rest with
      | first :: others => (c :: first) :: others
      | [] => [[c]]

def patternPieces (pattern : String) : List (List Char) :=
  piecesAfter counterPlaceholder.toList 0 pattern.toList

def Naming.nameAt (n : Naming) (counter : Nat) : String :=
  String.ofList ((toString counter).toList.intercalate (patternPieces n.pattern))

def Naming.name (n : Naming) : String := n.nameAt n.counter

/-- Declares the types of one module after another. -/
structure Generator where
  registry : RegistryId
  naming : NamingId
  /-- The name of the module that is under construction. -/
  moduleName : String
  /-- Its types, finished or not, in the order in which they were declared. -/
  types : Array TypeId := #[]
  deriving Repr, Inhabited

/-- A pool with the generator of each context, and how new ones are made. -/
structure GeneratorPool where
  pool : Pool
  registry : RegistryId
  naming : NamingId
  generators : Array GeneratorId := #[]
  deriving Repr, Inhabited

/-- What a delegate for a constructor is filed under. -/
structure ConstructorKey where
  id : Identifier
  parameters : List Signature
  nonPublic : Bool
  deriving DecidableEq, Repr, Inhabited

/-- An assembler of types with its caches. -/
structure Pipeline where
  configuration : String
  registry : RegistryId
  pool : PoolId
  /-- How many proxy names were tried. -/
  proxyNames : Nat := 0
  types : Keyed Identifier TypeId := []
  additional : Keyed Part TypeId := []
  constructors : Keyed ConstructorKey MethodId := []
  deriving Repr, Inhabited

structure Session where
  program : Universe := {}
  heap : Heap := {}
  registries : Array Registry := #[]
  directories : Array Directory := #[]
  namings : Array Naming := #[]
  generators : Array Generator := #[]
  pools : Array GeneratorPool := #[]
  pipelines : Array Pipeline := #[]
  /-- Unfinished types that are kept when their module is written. -/
  held : List TypeId := []
  /-- What participants noted, oldest first. -/
  notes : Array Datum := #[]
  /-- How many references to types that do not exist any more were numbered. -/
  absent : Nat := 0
  deriving Repr, Inhabited

namespace Session

/-! ### Looking up parts -/

def registry (s : Session) (r : RegistryId) : Registry := s.registries.getD r.index default

def directory (s : Session) (d : DirectoryId) : Directory := s.directories.getD d.index default

def naming (s : Session) (n : NamingId) : Naming := s.namings.getD n.index default

def generator (s : Session) (g : GeneratorId) : Generator := s.generators.getD g.index default

def pool (s : Session) (p : PoolId) : GeneratorPool := s.pools.getD p.index default

def pipeline (s : Session) (p : PipelineId) : Pipeline := s.pipelines.getD p.index default

def setRegistry (s : Session) (r : RegistryId) (registry : Registry) : Session :=
  { s with registries := s.registries.setIfInBounds r.index registry }

def setGenerator (s : Session) (g : GeneratorId) (generator : Generator) : Session :=
  { s with generators := s.generators.setIfInBounds g.index generator }

def setPool (s : Session) (p : PoolId) (pool : GeneratorPool) : Session :=
  { s with pools := s.pools.setIfInBounds p.index pool }

/-! ### Working on parts -/

variable {α : Type}

def inRegistry (r : RegistryId) (act : Attempt TypeSpace α) : Attempt Session α :=
  act.within (fun s => { program := s.program, registry := s.registry r })
    fun space s => { s.setRegistry r space.registry with program := space.program }

def evaluate (act : Universe → Evaluation α) : Attempt Session α := do
  let u := (← get).program
  (act u).within (·.heap) fun heap s => { s with heap }

def applyChange (change : Universe → Except Fault Universe) : Attempt Session Unit := do
  let program ← Attempt.lift (change (← get).program)
  modify fun s => { s with program }

def ask (query : Session → Except Fault α) : Attempt Session α := do Attempt.lift (query (← get))

def editPipeline (p : PipelineId) (change : Pipeline → Pipeline) : Attempt Session Unit :=
  modify fun s => { s with pipelines := s.pipelines.modify p.index change }

/-! ### New parts -/

def addRegistry : Attempt Session RegistryId := do
  let r : RegistryId := ⟨(← get).registries.size⟩
  let space := TypeSpace.fresh (← get).program
  modify fun s =>
    { s with program := space.program, registries := s.registries.push space.registry }
  return r

def addDirectory (d : Directory) : Attempt Session DirectoryId := do
  let id : DirectoryId := ⟨(← get).directories.size⟩
  modify fun s => { s with directories := s.directories.push d }
  return id

def addNaming (n : Naming) : Attempt Session NamingId := do
  let id : NamingId := ⟨(← get).namings.size⟩
  modify fun s => { s with namings := s.namings.push n }
  return id

end Session

end TypeLoom
