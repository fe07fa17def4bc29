import TypeLoom.Script.Body

/-!
# Scripts for classes

A class is described by a list of calls; some of them describe methods by calls of their own. Bodies
can be read at once or when the class exists.
-/

namespace TypeLoom.Script

open Reading

def firstAbsentInBody : Nat := 700000000

def lateBody (scope : Scope) (d : Datum) (u : Universe) (t : TypeId) : Except Fault Expr :=
  let scope := { scope with session := { scope.session with program := u }, self? := some t }
  match (expression d).start scope firstAbsentInBody with
  | .ok (body, _) => .ok body
  | .error (.fault fault) => .error fault
  | .error .malformed => .error (.invalidOperation "Malformed body")

def methodCall (scope : Scope) (spec : MethodSpec) (d : Datum) : Reading MethodSpec :=
  match d with
  | .list [.text "public"] => return spec.access .isPublic
  | .list [.text "protected"] => return spec.access .family
  | .list [.text "private"] => return spec.access .isPrivate
  | .list [.text "internal"] => return spec.access .assembly
  | .list [.text "virtual"] => return spec.virtual
  | .list [.text "override"] => return spec.overrides
  | .list [.text "abstract"] => return spec.abstract
  | .list [.text "final"] => return spec.final
  | .list [.text "returns", s] => do return spec.returning (← signature s)
  | .list [.text "param", .text name, s] => do return spec.parameter name (← signature s)
  | .list [.text "body", e] => do return spec.withBody (.fixed (← expression e))
  | .list [.text "lazy", e] => return spec.withBody (.deferred (lateBody scope e))
  | _ => malformed

def methodSpec (scope : Scope) (calls : List Datum) : Reading MethodSpec :=
  calls.foldlM (methodCall scope) {}

def classCall (scope : Scope) (spec : ClassSpec) (d : Datum) : Reading ClassSpec :=
  match d with
  | .list [.text "public"] => return spec.isPublic
  | .list [.text "sealed"] => return spec.isSealed
  | .list [.text "abstract"] => return spec.abstract
  | .list [.text "interface"] => return spec.interface
  | .list [.text "nested_in", t] => do return spec.nestedIn (← type t)
  | .list [.text "extends", t] => do return spec.extending (← type t)
  | .list [.text "implements", t] => do return spec.implementing (← type t)
  | .list [.text "field", .text name, s] => do return spec.field name (← signature s)
  | .list [.text "static_field", .text name, s] => do return spec.staticField name (← signature s)
  | .list [.text "default_ctor"] => return spec.constructor {}
  | .list [.text "auto_property", .text name, s] => do return spec.autoProperty name (← signature s)
  | .list [.text "cctor", e] => return spec.initializer (lateBody scope e)
  | .list [.text "ctor", .list calls] => do return spec.constructor (← methodSpec scope calls)
  | .list [.text "method", .text name, .list calls] => do
    return spec.method name (← methodSpec scope calls)
  | .list [.text "static_method", .text name, .list calls] => do
    return spec.method name (← methodSpec scope calls).static
  | .list [.text "attr", m, .list arguments] => do
    let constructor ← method m
    return spec.withAttribute constructor (← arguments.mapM value)
  | _ => malformed

def classSpec (d : Datum) : Reading ClassSpec := do
  let start : ClassSpec := { space := ← textAt d "ns", name := ← textAt d "name" }
  (d.itemsAt "calls").foldlM (classCall (← read)) start

end TypeLoom.Script
