import TypeLoom.Program.Lookup

/-!
# Virtual dispatch

A virtual method belongs to a slot, named by the method that first declared it. The most derived
override of the slot on a type answers a call, explicit overrides before those found by name and
signature.
-/

namespace TypeLoom

namespace Universe

/-! ### Slots -/

/-- The number of methods that can follow each other towards the root of a slot. -/
def methodCount (u : Universe) : Nat :=
  u.types.foldl (fun total t => total + t.methods.size + t.constructors.size + 1) 0

/-- The declaration that a method overrides explicitly: a method of a class, named by an override
of the type that declares the method. -/
def explicitDeclaration? (u : Universe) (owner : TypeId) (m : MethodId) : Option MethodId :=
  ((u.record owner).overrides.find? fun o => (u.method o.body).token == (u.method m).token).bind
      fun o =>
    match u.methodOwner? o.declaration with
    | some declaring => if (u.record declaring).isInterface then none else some o.declaration
    | none => none

/-- The method that a method overrides by name and signature: the first virtual one on the base
chain. -/
def implicitDeclaration? (u : Universe) (owner : TypeId) (m : MethodId) : Option MethodId :=
  (u.bases owner).findSome? fun base => u.findVirtual? base (u.method m).name (u.method m).signature

def overriddenBy? (u : Universe) (m : MethodId) : Option MethodId :=
  if !(u.method m).isVirtual || (u.method m).isNewSlot then none
  else
    match u.methodOwner? m with
    | none => none
    | some owner => (u.explicitDeclaration? owner m).or (u.implicitDeclaration? owner m)

/-- The method reached by at most so many steps from override to overridden method. -/
def slotRootWithin (u : Universe) : Nat → MethodId → MethodId
  | 0, m => m
  | steps + 1, m =>
    match u.overriddenBy? m with
    | some overridden => u.slotRootWithin steps overridden
    | none => m

def slotRoot (u : Universe) (m : MethodId) : MethodId := u.slotRootWithin u.methodCount m

def slotToken (u : Universe) (m : MethodId) : Token := (u.method (u.slotRoot m)).token

/-! ### Resolution -/

/-- The body that a type's own overrides or methods give to a slot. -/
def slotBody? (u : Universe) (level : TypeId) (slot : Token) : Option MethodId :=
  (((u.record level).overrides.find? fun o => u.slotToken o.declaration == slot).map (·.body)).or
    ((u.methodsOf level).find? fun m => (u.method m).isVirtual && u.slotToken m == slot)

def resolveSlot (u : Universe) (t : TypeId) (declared : MethodId) : MethodId :=
  let slot := u.slotToken declared
  ((u.hierarchy t).findSome? fun level => u.slotBody? level slot).getD declared

/-- The body that a type gives to an interface method: by an explicit override, or by a public
virtual method of the same name and signature. The second component says that it was found by
name. -/
def interfaceBody? (u : Universe) (level : TypeId) (wanted : MethodId) : Option (MethodId × Bool) :=
  (((u.record level).overrides.find? fun o => (u.method o.declaration).token
    == (u.method wanted).token).map
    fun o => (o.body, false)).or
  (((u.methodsOf level).find? fun m =>
    (u.method m).isVirtual && (u.method m).access == .isPublic && (u.method m).name
      == (u.method wanted).name
      && (u.method m).signature.agrees (u.method wanted).signature).map fun m => (m, true))

def isInterfaceMethod (u : Universe) (m : MethodId) : Bool :=
  match u.methodOwner? m with
  | some owner => (u.record owner).isInterface
  | none => false

/-- The implementation of an interface method on a type. A method found by name gives way to its
most derived override; resolving it may come back here when the method itself belongs to an
interface. -/
def resolveInterfaceWithin (u : Universe) : Nat → TypeId → MethodId → Option MethodId
  | 0, _, _ => none
  | steps + 1, t, wanted =>
    ((u.hierarchy t).findSome? fun level => u.interfaceBody? level wanted).map
        fun (found, byName) =>
      if !byName then found
      else if u.isInterfaceMethod found then
        (u.resolveInterfaceWithin steps t found).getD found
      else u.resolveSlot t found

def resolveInterfaceMethod (u : Universe) (t : TypeId) (wanted : MethodId) : Option MethodId :=
  u.resolveInterfaceWithin (u.methodCount + 1) t wanted

/-- The method that a call of the declared method runs on a type. -/
def resolveVirtual (u : Universe) (t : TypeId) (declared : MethodId) : MethodId :=
  if !(u.method declared).isVirtual then declared
  else if u.isInterfaceMethod declared then (u.resolveInterfaceMethod t declared).getD declared
  else u.resolveSlot t declared

theorem resolveVirtual_of_not_virtual (u : Universe) (t : TypeId) (m : MethodId)
    (h : (u.method m).isVirtual = false) : u.resolveVirtual t m = m := by
  simp [resolveVirtual, h]

end Universe

end TypeLoom
