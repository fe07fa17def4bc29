import TypeLoom.Datum
import TypeLoom.Fault

/-!
# Reports of faults

A fault is reported by its kind and its text. Texts that name threads, come from the file system or
tell what a reader of documents found are left out, because they can differ from run to run.
-/

namespace TypeLoom

namespace Fault

def kind : Fault → String
  | argument .. => "Argument"
  | invalidOperation .. => "InvalidOperation"
  | notSupported .. => "NotSupported"
  | duplicateMember .. => "DuplicateMember"
  | descriptorSealed .. => "DescriptorSealed"
  | configuration .. => "Configuration"
  | typeAssembly .. => "TypeAssembly"
  | poolAffinity .. => "PoolAffinity"
  | missingMember .. => "MissingMember"
  | nullReference .. => "NullReference"
  | abstractInstantiation .. => "AbstractInstantiation"
  | recursionLimit .. => "RecursionLimit"
  | typeNotFound .. => "TypeNotFound"
  | persistence .. => "Persistence"
  | fileFault => "FileError"

def artifactTexts : List String :=
  ["<", "Document ", "Unbalanced ", "Unexpected root ", "Unknown ", "Invalid flags ",
    "Invalid value ",
    "Invalid base ", "Invalid interface ", "List parts ", "Signature ", "Body ",
    "Method '", "Instances ",
    "Field '"]

def namesThread (text : String) : Bool := (text.splitOn "ThreadId(").length != 1

def hasSteadyText (f : Fault) : Bool :=
  !namesThread f.message &&
    match f with
    | fileFault => false
    | persistence text => artifactTexts.any fun start => start.isPrefixOf text
    | _ => true

def steadyText (f : Fault) : List (String × Datum) :=
  if f.hasSteadyText then [("message", .text f.message)] else []

/-- Kind and text, and the fault behind an assembly fault. -/
def report : Fault → Datum
  | typeAssembly text source =>
    .record ([("error", .text "TypeAssembly"), ("source", report source)]
      ++ steadyText (typeAssembly text source))
  | f => .record (("error", .text f.kind) :: f.steadyText)

end Fault

end TypeLoom
