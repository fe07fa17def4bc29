import TypeLoom.Program.Lookup

/-!
# Checked attributes

An attribute that is declared on a descriptor must be a constructor call that would succeed: a
constructor of a concrete class derived from `System.Attribute`, arguments that its parameters
accept, and named values that instance fields of the class accept.
-/

namespace TypeLoom.Attribute

def isAttributeType (u : Universe) (t : TypeId) : Bool :=
  (u.hierarchy t).any fun level => u.fullName level == "System.Attribute"

def checkConstructor (u : Universe) (c : MethodId) : Except Fault TypeId :=
  if !(u.method c).isConstructor then
    .error (.argument "constructor" ("'" ++ u.methodName c ++ "' is not a constructor"))
  else
    match u.methodOwner? c with
    | none => .error (.argument "constructor" "declaring type has been dropped")
    | some t =>
      if !isAttributeType u t then
        .error (.argument "constructor" ("'" ++ u.fullName t
          ++ "' does not derive from System.Attribute"))
      else if (u.record t).isAbstract then
        .error (.argument "constructor" ("attribute type '" ++ u.fullName t ++ "' is abstract"))
      else .ok t

def checkArguments (u : Universe) (c : MethodId) (arguments : List Value) : Except Fault Unit := do
  let signature := (u.method c).signature
  if signature.arity != arguments.length then
    throw (.argument "arguments" ("'" ++ u.methodName c ++ "' expects " ++ toString signature.arity
      ++ " arguments, " ++ toString arguments.length ++ " were supplied"))
  (signature.parameters.zip arguments).forM fun (parameter, value) =>
    if parameter.type.accepts u value then .ok ()
    else .error (.argument parameter.name ("value " ++ value.detail u
      ++ " does not match parameter type "
      ++ parameter.type.display u))

/-- An instance field of the attribute class accepts the named value. -/
def checkNamed (u : Universe) (t : TypeId) (name : String) (value : Value) : Except Fault Unit :=
  match (u.findField? t name).filter fun f => !(u.field f).isStatic with
  | some f =>
    if (u.field f).signature.accepts u value then .ok ()
    else .error (.argument name ("value " ++ value.detail u ++ " does not match field type "
      ++ (u.field f).signature.display u))
  | none =>
    .error (.argument name ("'" ++ u.fullName t ++ "' has no instance field with this name"))

/-- The attribute, if the call it stands for would succeed. -/
def check (u : Universe) (a : Attribute) : Except Fault Attribute := do
  let t ← checkConstructor u a.constructor
  checkArguments u a.constructor a.arguments
  a.named.forM fun (name, value) => checkNamed u t name value
  return a

end TypeLoom.Attribute
