import TypeLoom.Session.State

/-!
# Settings of pipelines

What a pipeline is told when it is set up, and which settings are refused.
-/

namespace TypeLoom

structure Settings where
  configuration : String := "default"
  pattern : String := "TypeForge.Generated.\x7bcounter\x7d"
  /-- How many modules may be under construction at the same time. -/
  parallelism : Nat := 1
  deriving DecidableEq, Repr, Inhabited

namespace Settings

def hasPlaceholder (s : Settings) : Bool := (patternPieces s.pattern).length != 1

/-- The first thing that is wrong with the settings. -/
def validate (s : Settings) : Except Fault Unit :=
  if s.configuration.isEmpty then
    .error (.configuration "Participant configuration id must not be empty")
  else if !s.hasPlaceholder then
    .error (.configuration ("Module name pattern '" ++ s.pattern
      ++ "' must contain the placeholder '"
      ++ counterPlaceholder ++ "'"))
  else if s.parallelism = 0 then
    .error (.configuration "Degree of parallelism must be greater than 0")
  else .ok ()

end Settings

def firstRepeated? (names : List String) : Option String :=
  names.zipIdx.findSome? fun (name, index) => if (names.take index).contains name then some name
    else none

end TypeLoom
