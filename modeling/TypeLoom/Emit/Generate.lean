import TypeLoom.Draft.Dependency
import TypeLoom.Emit.Lower
import TypeLoom.Emit.Builder

/-!
# Generation

A batch becomes types in four passes over its ordered descriptors: all types are declared, all
members are defined, bodies and overrides are attached, and the types are created. Bodies can thus
name members of every type of the batch.
-/

namespace TypeLoom

/-- What is attached when all members are defined. -/
inductive Attachment
  | body (type : TypeId) (method : MethodId) (body : Expr)
  | override (type : TypeId) (body declaration : MethodId)

/-- A batch on its way into the types of a module. -/
structure Production where
  batch : Batch
  workshop : Workshop
  emitted : Emitted := {}
  attachments : Array Attachment := #[]

namespace Production

variable {α : Type}

/-! ### Working on the parts -/

def inWorkshop (act : Attempt Workshop α) : Attempt Production α :=
  act.within (·.workshop) fun workshop p => { p with workshop }

def inSpace (act : Attempt TypeSpace α) : Attempt Production α := inWorkshop (Workshop.inSpace act)

def inBatch (act : Attempt Batch α) : Attempt Production α :=
  act.within (·.batch) fun batch p => { p with batch }

def emit (add : Emitted → Except Fault Emitted) : Attempt Production Unit := do
  let p ← get
  let emitted ← Attempt.lift (add p.emitted)
  set { p with emitted }

def lookUp (find : Emitted → Except Fault α) : Attempt Production α := do
  Attempt.lift (find (← get).emitted)

def attach (a : Attachment) : Attempt Production Unit :=
  modify fun p => { p with attachments := p.attachments.push a }

def descriptor (h : TypeHandle) : Attempt Production Descriptor := do
  Attempt.lift ((← get).batch.require h)

/-! ### Declaring -/

/-- Declares the type of a descriptor; a type that lacks a body is declared abstract. -/
def declare (h : TypeHandle) : Attempt Production Unit := do
  let d ← descriptor h
  let isAbstract ← inBatch (Batch.askAbstract (← get).workshop.space.program h)
  let flags := if isAbstract then d.flags ||| TypeFlags.abstract else d.flags
  let declaring ← d.declaring.mapM fun outer => lookUp (·.type outer)
  let t ← inWorkshop (Workshop.defineType d.space d.name flags declaring)
  emit (·.addType h t)

/-! ### Defining members -/

def namedType (s : Signature) : Attempt Production TypeId := do
  let p ← get
  Attempt.lift (Lower.namedType p.workshop.space.program p.emitted s)

/-- A type without a base gets the root class, unless it is an interface. -/
def defineBase (objectType : TypeId) (d : Descriptor) (t : TypeId) : Attempt Production Unit := do
  match d.base with
  | some base =>
    let base ← namedType base
    inSpace (TypeSpace.setParent t base)
  | none => if !d.isInterface then inSpace (TypeSpace.setParent t objectType)

def defineField (t : TypeId) (f : DraftField) : Attempt Production Unit := do
  let signature ← lookUp fun e => Lower.signature e f.signature
  let field ← inSpace (TypeSpace.defineField t f.name signature f.flags)
  inSpace (modify fun space =>
    { space with program := space.program.modifyField field fun r =>
        { r with attributes := r.attributes ++ f.attributes } })
  emit (·.addField f.handle field)

def registerMethod (m : DraftMethod) (method : MethodId) : Attempt Production Unit := do
  inSpace (modify fun space =>
    { space with program := space.program.modifyMethod method fun r =>
        { r with attributes := r.attributes ++ m.attributes } })
  emit (·.addMethod m.handle method)

def defineConstructor (d : Descriptor) (t : TypeId) (c : DraftMethod) :
    Attempt Production Attachment := do
  let signature ← lookUp fun e => Lower.methodSignature e c.signature
  let method ← inSpace (TypeSpace.defineConstructor t c.flags signature)
  registerMethod c method
  return .body t method (.block (d.initializations.toList ++ c.body.toList))

/-- The type initializer first runs the type initializations. -/
def defineInitializer (d : Descriptor) (t : TypeId) : Attempt Production (List Attachment) := do
  if d.typeInitializer.isNone && d.typeInitializations.isEmpty then return []
  let method ← inSpace (TypeSpace.defineInitializer t)
  match d.typeInitializer with
  | some m => registerMethod m method
  | none => emit (·.addMethod ⟨d.handle, .typeInitializer⟩ method)
  let body := d.typeInitializations.toList ++ (d.typeInitializer.bind (·.body)).toList
  return [.body t method (.block body)]

def defineMethod (t : TypeId) (m : DraftMethod) :
    Attempt Production (List Attachment × List Attachment) := do
  let signature ← lookUp fun e => Lower.methodSignature e m.signature
  let method ← inSpace (TypeSpace.defineMethod t m.name m.flags signature)
  registerMethod m method
  let declarations := m.baseMethod.toList ++ m.explicitOverrides.toList
  return (m.body.toList.map fun body => .body t method body,
    declarations.map fun declaration => .override t method declaration)

def emittedMethod? (h : Option MethodHandle) : Attempt Production (Option MethodId) :=
  h.mapM fun h => lookUp (·.method h)

def defineProperty (t : TypeId) (p : DraftProperty) : Attempt Production Unit := do
  let getter ← emittedMethod? p.getter
  let setter ← emittedMethod? p.setter
  let signature ← lookUp fun e => Lower.signature e p.signature
  let property ← inSpace (TypeSpace.defineProperty t p.name signature getter setter)
  emit (·.addProperty p.handle property)

def defineEvent (t : TypeId) (v : DraftEvent) : Attempt Production Unit := do
  let raise ← emittedMethod? v.raise
  let type ← lookUp fun e => Lower.signature e v.type
  let add ← lookUp (·.method v.add)
  let remove ← lookUp (·.method v.remove)
  let event ← inSpace (TypeSpace.defineEvent t v.name type add remove raise)
  emit (·.addEvent v.handle event)

/-- Defines the members of a declared type and notes what is to be attached: first bodies, then
overrides. -/
def define (objectType : TypeId) (h : TypeHandle) : Attempt Production Unit := do
  let d ← descriptor h
  let t ← lookUp (·.type h)
  defineBase objectType d t
  for interface in d.interfaces.toList do
    let interface ← namedType interface
    inSpace (TypeSpace.implementInterface t interface)
  for a in d.attributes.toList do inSpace (TypeSpace.setAttribute t a)
  for f in d.fields.toList do defineField t f
  let constructors ← d.constructors.toList.mapM (defineConstructor d t)
  let initializers ← defineInitializer d t
  let methods ← d.methods.toList.mapM (defineMethod t)
  for p in d.properties.toList do defineProperty t p
  for v in d.events.toList do defineEvent t v
  for a in constructors ++ initializers ++ methods.flatMap (·.1)
    ++ methods.flatMap (·.2) do attach a

/-! ### Attaching and creating -/

def attachOne : Attachment → Attempt Production Unit
  | .body t method body => do
    let lowered ← lookUp fun e => Lower.expr e body
    inSpace (TypeSpace.defineBody t method lowered)
  | .override t body declaration => inSpace (TypeSpace.defineOverride t body declaration)

def create (h : TypeHandle) : Attempt Production (TypeHandle × TypeId) := do
  let t ← lookUp (·.type h)
  return (h, ← inSpace (TypeSpace.createType t))

/-- The whole way of a batch, which is closed whatever happens. -/
def generate (objectType : TypeId) : Attempt Production Generated := do
  modify fun p => { p with batch := p.batch.closeAll }
  let order ← Attempt.lift (← get).batch.order
  for h in order do declare h
  for h in order do define objectType h
  for a in (← get).attachments.toList do attachOne a
  let types ← order.mapM create
  return { emitted := (← get).emitted, types }

end Production

end TypeLoom
