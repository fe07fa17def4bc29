import TypeLoom.Program.Lookup

/-!
# Selection of constructors

A constructor is chosen by the signatures of its arguments. Each parameter scores by how well it
fits, and the constructor with the highest sum is chosen if it is the only one.
-/

namespace TypeLoom.Universe

def parameterScore (u : Universe) (declared supplied : Signature) : Option Nat :=
  if declared = supplied then some 2
  else
    match declared, supplied with
    | .object, supplied => if supplied.isVoid then none else some 1
    | .ofClass d, .ofClass s =>
      if u.isPresent d && u.isPresent s && u.isAssignableTo s d then some 1 else none
    | _, _ => none

def scoreParameters (u : Universe) (declared supplied : List Signature) : Option Nat :=
  if declared.length = supplied.length then
    ((declared.zip supplied).mapM fun (d, s) => u.parameterScore d s).map fun scores =>
      List.foldl (· + ·) 0 scores
  else none

def constructorCandidates (u : Universe) (t : TypeId) (supplied : List Signature)
    (nonPublic : Bool) :
    List (Nat × MethodId) :=
  (u.constructorsOf t).filterMap fun c =>
    if nonPublic || (u.method c).access == .isPublic then
      (u.scoreParameters (u.method c).signature.types supplied).map fun score => (score, c)
    else none

/-- The best candidate so far, and whether another one is as good. -/
structure Choice where
  score : Nat
  constructor : MethodId
  tied : Bool

def Choice.consider : Option Choice → Nat × MethodId → Option Choice
  | none, (score, c) => some ⟨score, c, false⟩
  | some best, (score, c) =>
    if score < best.score then some best
    else if score = best.score then some { best with tied := true }
    else some ⟨score, c, false⟩

def selectConstructor (u : Universe) (t : TypeId) (supplied : List Signature) (nonPublic : Bool) :
    Except Fault MethodId :=
  if (u.record t).isAbstract then .error (.abstractInstantiation (u.fullName t))
  else
    match (u.constructorCandidates t supplied nonPublic).foldl Choice.consider none with
    | none => .error (u.missing t (".ctor(" ++ displaySignatures u supplied ++ ")"))
    | some best =>
      if best.tied then
        .error (.argument "parameters" ("Constructor call '" ++ u.fullName t ++ "("
          ++ displaySignatures u supplied ++ ")' is ambiguous"))
      else .ok best.constructor

end TypeLoom.Universe
