import TypeLoom.Draft.Abstract

/-!
# Batches

A batch holds the descriptors that are generated together. A handle is the place of its descriptor,
and descriptors are never taken out.
-/

namespace TypeLoom

structure Batch where
  types : Array Descriptor := #[]
  deriving Repr, Inhabited

namespace Batch

/-! ### Reading -/

def find? (b : Batch) (h : TypeHandle) : Option Descriptor := b.types[h.index]?

def unknown (h : TypeHandle) : Fault := .argument "handle" ("Unknown descriptor " ++ h.text)

def require (b : Batch) (h : TypeHandle) : Except Fault Descriptor :=
  match b.find? h with
  | some d => .ok d
  | none => .error (unknown h)

def handles (b : Batch) : List TypeHandle := b.types.toList.map (·.handle)

def isModified (b : Batch) : Bool := b.types.any (·.modified)

def fullNameWithin (b : Batch) : Nat → TypeHandle → String
  | 0, h => h.text
  | depth + 1, h =>
    match b.find? h with
    | none => h.text
    | some d =>
      match d.declaring with
      | some outer => b.fullNameWithin depth outer ++ "+" ++ d.name
      | none => d.fullName

def fullName (b : Batch) (h : TypeHandle) : String := b.fullNameWithin (b.types.size + 1) h

/-! ### Working on one descriptor -/

def onType {α : Type} (h : TypeHandle) (act : Attempt Descriptor α) : Attempt Batch α :=
  Attempt.of fun b =>
    match b.find? h with
    | none => (.error (unknown h), b)
    | some d =>
      let (outcome, after) := act.start d
      (outcome, { b with types := b.types.setIfInBounds h.index after })

/-! ### New descriptors -/

def checkBase (u : Universe) (b : Batch) (flags : UInt32) : Option Signature → Except Fault Unit
  | none => .ok ()
  | some base =>
    let refused (name : String) : Except Fault Unit :=
      .error (.argument "base" ("'" ++ name ++ "' cannot be used as a base type"))
    if hasBits flags TypeFlags.interface then
      .error (.argument "base" "Interfaces cannot have a base type")
    else
      match base with
      | .ofClass t =>
        if !u.isPresent t then .error (.argument "base" "Base type has been dropped")
        else if (u.record t).isSealed || (u.record t).isInterface then refused (u.fullName t)
        else .ok ()
      | .draft h =>
        match b.find? h with
        | some d =>
          if d.isInterface || hasBits d.flags TypeFlags.isSealed then refused d.fullName else .ok ()
        | none => .error (.argument "base" ("Unknown descriptor " ++ h.text))
      | other => refused (other.display u)

def createType (u : Universe) (space name : String) (flags : UInt32) (base : Option Signature) :
    Attempt Batch TypeHandle := do
  let b ← get
  if name.isEmpty then throw (.argument "name" "Type name must not be empty")
  Attempt.lift (b.checkBase u flags base)
  let handle : TypeHandle := ⟨b.types.size⟩
  let d : Descriptor := { handle, space, name, flags, base }
  set { b with types := b.types.push d.touch }
  return handle

def interfaceFlags : UInt32 := TypeFlags.isPublic ||| TypeFlags.interface ||| TypeFlags.abstract

def createInterface (u : Universe) (space name : String) : Attempt Batch TypeHandle :=
  createType u space name interfaceFlags none

/-- The visibility of an enclosed type: what is not said to be open is closed. -/
def nestedFlags (flags : UInt32) : UInt32 :=
  if TypeFlags.visibility flags ≤ TypeFlags.isPublic then
    (flags &&& ~~~TypeFlags.isPublic)
      ||| (if TypeFlags.isVisible flags then TypeFlags.nestedPublic else TypeFlags.nestedPrivate)
  else flags

def addNested (u : Universe) (outer : TypeHandle) (name : String) (flags : UInt32)
    (base : Option Signature) : Attempt Batch TypeHandle := do
  let d ← Attempt.lift ((← get).require outer)
  if d.isSealed then throw (.descriptorSealed d.fullName)
  let handle ← createType u "" name (nestedFlags flags) base
  onType handle (modify fun d => { d with declaring := some outer })
  onType outer (modify fun d => { d with nested := d.nested.push handle }.touch)
  return handle

def addBatchInterface (h interface : TypeHandle) : Attempt Batch Unit := do
  let d ← Attempt.lift ((← get).require interface)
  if !d.isInterface then throw (.argument "interface" ("'" ++ d.fullName ++ "' is not an interface"))
  onType h (Descriptor.addDraftInterface interface)

def createProxy (u : Universe) (b : Batch) (requested : TypeId) (name : String) :
    TypeHandle × Batch :=
  let handle : TypeHandle := ⟨b.types.size⟩
  (handle, { b with types := b.types.push (Descriptor.proxy u handle requested name) })

def closeAll (b : Batch) : Batch := { b with types := b.types.map Descriptor.close }

/-! ### Abstractness within the batch -/

def reachInterfaces (b : Batch) : Nat → List TypeHandle → List TypeHandle → List TypeHandle
  | 0, _, seen => seen
  | _ + 1, [], seen => seen
  | fuel + 1, h :: rest, seen =>
    if seen.contains h then reachInterfaces b fuel rest seen
    else
      match b.find? h with
      | none => reachInterfaces b fuel rest seen
      | some d => reachInterfaces b fuel (d.interfaceDrafts ++ rest) (seen ++ [h])

def walkBound (b : Batch) : Nat :=
  b.types.foldl (fun total d => total + 2 * d.interfaces.size + 1) 1

/-- Some instance method of an interface, or of an existing interface it lists, is missing on the
type. -/
def owesInterface (u : Universe) (d interface : Descriptor) : Bool :=
  (interface.methods.any fun m => !m.isStatic && !d.hasPublicVirtual m.name m.signature)
  || (interface.interfaceTypes u).any fun listed =>
    (u.methodsOf listed).any fun m => !(u.method m).isStatic && !d.implementsMethod u m

def askAlone (u : Universe) (h : TypeHandle) : Attempt Batch Bool :=
  onType h (Attempt.of fun d => (.ok (d.askAbstract u).1, (d.askAbstract u).2))

/-- Whether the type is abstract, its duties to interfaces of the batch included. -/
def askAbstract (u : Universe) (h : TypeHandle) : Attempt Batch Bool := do
  let alone ← askAlone u h
  if alone then return true
  let b ← get
  let d ← Attempt.lift (b.require h)
  return (b.reachInterfaces b.walkBound d.interfaceDrafts []).any fun i =>
    (b.find? i).any fun interface => owesInterface u d interface

end Batch

end TypeLoom
