import TypeLoom.Program.Display

/-!
# Operators

Whole numbers wrap around at their width, doubles follow their standard, and any two values can be
concatenated or compared.
-/

namespace TypeLoom.Operator

/-- The value of an operator on two values; arithmetic needs two numbers of one kind. -/
def apply (u : Universe) : Operator → Value → Value → Except Fault Value
  | concat, a, b => .ok (.string (a.display u ++ b.display u))
  | equal, a, b => .ok (.boolean (a.same u b))
  | add, .i4 a, .i4 b => .ok (.i4 (a + b))
  | add, .i8 a, .i8 b => .ok (.i8 (a + b))
  | add, .r8 a, .r8 b => .ok (.r8 (a.add b))
  | subtract, .i4 a, .i4 b => .ok (.i4 (a - b))
  | subtract, .i8 a, .i8 b => .ok (.i8 (a - b))
  | subtract, .r8 a, .r8 b => .ok (.r8 (a.subtract b))
  | multiply, .i4 a, .i4 b => .ok (.i4 (a * b))
  | multiply, .i8 a, .i8 b => .ok (.i8 (a * b))
  | multiply, .r8 a, .r8 b => .ok (.r8 (a.multiply b))
  | op, a, b =>
    .error (.invalidOperation ("Operator " ++ op.text ++ " is not defined for "
      ++ a.detail u ++ " and "
      ++ b.detail u))

end TypeLoom.Operator
