import TypeLoom.Assembly.Participant

/-!
# Identity of assembled types

What a requested type is called for a pipeline, whether a proxy can be made of it, and how an
assembled type tells what it was assembled for: by an attribute, its base, and an identifier in a
static field.
-/

namespace TypeLoom

/-! ### Requested types -/

namespace Universe

/-- The type and all its enclosing types can be seen, following at most so many. -/
def isVisibleWithin (u : Universe) : Nat → TypeId → Bool
  | 0, _ => false
  | depth + 1, t =>
    TypeFlags.isVisible (u.record t).flags && (u.declaring? t).all (u.isVisibleWithin depth)

/-- A visible class that is not sealed and has a constructor that subclasses can call. -/
def isSubclassable (u : Universe) (t : TypeId) : Bool :=
  !(u.record t).isSealed && !(u.record t).isInterface && u.isVisibleWithin (u.types.size + 1) t
    && (u.constructorsOf t).any fun c => (u.method c).access.openToSubclasses

end Universe

def identifierFor (s : Session) (participants : List Participant) (requested : TypeId) :
    Identifier :=
  { requested, parts := participants.map fun participant => participant.part s requested }

def partOf (participants : List Participant) (id : Identifier) (name : String) :
    Except Fault (Option Part) :=
  match participants.findIdx? fun participant => participant.name == name with
  | some index => .ok (id.part? index)
  | none => .error (.argument "participant" ("Participant '" ++ name ++ "' is not configured"))

/-! ### Assembled types -/

def identifierFieldName : String := "__typeID"

namespace Session

def coreTypes (s : Session) (p : PipelineId) : CoreTypes :=
  (s.registry (s.pipeline p).registry).core

def isAssembled (s : Session) (p : PipelineId) (t : TypeId) : Bool :=
  !(s.program.attributesOf t (s.coreTypes p).assembledTypeAttribute).isEmpty

def notAssembled (s : Session) (t : TypeId) : Fault :=
  .argument "assembled" ("'" ++ s.program.fullName t ++ "' is not an assembled type")

def requestedType (s : Session) (p : PipelineId) (t : TypeId) : Except Fault TypeId :=
  if !s.isAssembled p t then .error (s.notAssembled t)
  else
    match (s.program.record t).base with
    | some base => .ok base
    | none => .error (.argument "assembled" ("'" ++ s.program.fullName t ++ "' has no base type"))

def identifierField (s : Session) (p : PipelineId) (t : TypeId) : Except Fault FieldId :=
  match s.program.findField? t identifierFieldName with
  | some f =>
    if (s.program.field f).isStatic && s.isAssembled p t then .ok f else .error (s.notAssembled t)
  | none => .error (s.notAssembled t)

/-- The identifier in the static field, once the type is initialized. -/
def extractId (p : PipelineId) (t : TypeId) : Attempt Session Identifier := do
  let f ← ask fun s => s.identifierField p t
  evaluate fun u => u.ensureInitialized t
  let s ← get
  match s.heap.staticValue s.program t f with
  | .identifier id => return id
  | other =>
    throw (.invalidOperation ("Field '" ++ identifierFieldName ++ "' of '" ++ s.program.fullName t
      ++ "' holds " ++ other.detail s.program ++ " instead of an identifier"))

end Session

end TypeLoom
