import TypeLoom.Registry

/-!
# Adding members to a type

Each step takes a token from the registry and appends the member to the record of its type.
-/

namespace TypeLoom.TypeSpace

def newType (space name : String) (flags : UInt32) (origin : Origin) :
    Attempt TypeSpace TypeId := do
  let token ← nextToken .type
  addType { token, space, name, flags, origin }

def nestIn (t outer : TypeId) : Attempt TypeSpace Unit := do
  apply fun u => u.setDeclaring t outer
  edit outer fun r => { r with nested := r.nested.push t }

def appendField (t : TypeId) (name : String) (signature : Signature) (flags : UInt32) :
    Attempt TypeSpace FieldId := do
  let token ← nextToken .field
  let index := ((← currentProgram).record t).fields.size
  edit t fun r => { r with fields := r.fields.push { token, name, signature, flags } }
  return ⟨t, index⟩

def appendMethod (t : TypeId) (name : String) (flags : UInt32) (signature : MethodSignature) :
    Attempt TypeSpace MethodId := do
  let token ← nextToken .method
  let index := ((← currentProgram).record t).methods.size
  edit t fun r =>
    { r with methods := r.methods.push { token, name, kind := .method, flags, signature } }
  return ⟨t, .method index⟩

def appendConstructor (t : TypeId) (name : String) (flags : UInt32) (signature : MethodSignature) :
    Attempt TypeSpace MethodId := do
  let token ← nextToken .method
  let index := ((← currentProgram).record t).constructors.size
  edit t fun r =>
    { r with
      constructors := r.constructors.push { token, name, kind := .constructor, flags, signature } }
  return ⟨t, .constructor index⟩

def placeInitializer (t : TypeId) (name : String) (flags : UInt32) (signature : MethodSignature) :
    Attempt TypeSpace MethodId := do
  let token ← nextToken .method
  apply fun u => u.setInitializer t ⟨t, .typeInitializer⟩
  edit t fun r =>
    { r with ownInitializer := some { token, name, kind := .typeInitializer, flags, signature } }
  return ⟨t, .typeInitializer⟩

def appendProperty (t : TypeId) (name : String) (signature : Signature)
    (getter setter : Option MethodId) :
    Attempt TypeSpace PropertyId := do
  let token ← nextToken .property
  let index := ((← currentProgram).record t).properties.size
  edit t fun r =>
    { r with
      properties := r.properties.push { token, name, signature, flags := 0, getter, setter } }
  return ⟨t, index⟩

def appendEvent (t : TypeId) (name : String) (type : Signature) (add remove : MethodId)
    (raise : Option MethodId) : Attempt TypeSpace EventId := do
  let token ← nextToken .event
  let index := ((← currentProgram).record t).events.size
  edit t fun r =>
    { r with events := r.events.push { token, name, type, flags := 0, add, remove, raise } }
  return ⟨t, index⟩

def setBody (m : MethodId) (body : Expr) : Attempt TypeSpace Unit := apply fun u => u.setBody m body

def markComplete (t : TypeId) : Attempt TypeSpace Unit :=
  edit t fun r => { r with complete := true }

def drop (types : List TypeId) (space : TypeSpace) : TypeSpace :=
  { space with program := types.foldl Universe.drop space.program }

end TypeLoom.TypeSpace
