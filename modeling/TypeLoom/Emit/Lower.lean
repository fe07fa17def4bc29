import TypeLoom.Emit.Emitted
import TypeLoom.Program.Display

/-!
# Lowering

Handles in signatures and expressions are replaced by what came out of them. Nothing else changes,
and a handle that nothing came out of stops the replacement.
-/

namespace TypeLoom.Lower

/-! ### Signatures -/

def namedType (u : Universe) (e : Emitted) : Signature → Except Fault TypeId
  | .draft h => e.type h
  | .ofClass t =>
    if u.isPresent t then .ok t else .error (.invalidOperation "Referenced type has been dropped")
  | other =>
    .error (.argument "signature" ("'" ++ other.display u
      ++ "' does not denote a class or interface"))

def signature (e : Emitted) : Signature → Except Fault Signature
  | .draft h => (e.type h).map .ofClass
  | other => .ok other

def parameter (e : Emitted) (p : Parameter) : Except Fault Parameter := do
  return ⟨p.name, ← signature e p.type⟩

def methodSignature (e : Emitted) (s : MethodSignature) : Except Fault MethodSignature := do
  let parameters ← s.parameters.mapM (parameter e)
  return ⟨← signature e s.returns, parameters⟩

/-! ### Expressions -/

def methodTarget (e : Emitted) : MethodTarget → Except Fault MethodTarget
  | .draft h => (e.method h).map .member
  | other => .ok other

def fieldTarget (e : Emitted) : FieldTarget → Except Fault FieldTarget
  | .draft h => (e.field h).map .member
  | other => .ok other

mutual

def expr (e : Emitted) : Expr → Except Fault Expr
  | .constant value => .ok (.constant value)
  | .this => .ok .this
  | .argument index => .ok (.argument index)
  | .block items => do return .block (← exprAll e items)
  | .call receiver method arguments dispatch => do
    let receiver ← exprOpt e receiver
    let method ← methodTarget e method
    let arguments ← exprAll e arguments
    return .call receiver method arguments dispatch
  | .new constructor arguments => do
    let constructor ← methodTarget e constructor
    let arguments ← exprAll e arguments
    return .new constructor arguments
  | .load receiver field => do
    let receiver ← exprOpt e receiver
    let field ← fieldTarget e field
    return .load receiver field
  | .store receiver field value => do
    let receiver ← exprOpt e receiver
    let field ← fieldTarget e field
    let value ← expr e value
    return .store receiver field value
  | .binary op left right => do
    let left ← expr e left
    let right ← expr e right
    return .binary op left right
  | .choose condition positive negative => do
    let condition ← expr e condition
    let positive ← expr e positive
    let negative ← expr e negative
    return .choose condition positive negative

def exprAll (e : Emitted) : List Expr → Except Fault (List Expr)
  | [] => .ok []
  | item :: items => do
    let item ← expr e item
    let items ← exprAll e items
    return item :: items

def exprOpt (e : Emitted) : Option Expr → Except Fault (Option Expr)
  | none => .ok none
  | some item => do return some (← expr e item)

end

end TypeLoom.Lower
