import TypeLoom.Assembly.ParticipantState
import TypeLoom.Assembly.Plan
import TypeLoom.Draft.Edit
import TypeLoom.Session.Module

/-!
# Participants

A participant contributes to the types that a pipeline assembles. What it does is a plan: it looks
around, leaves notes and sends commands to pipelines, also to the one it works for; while a batch is
drafted it edits the batch and the shared state, and asks to be told when the batch has been
generated.
-/

namespace TypeLoom

/-! ### Commands -/

/-- What a pipeline can be told. -/
inductive Command
  /-- The type for an identifier. -/
  | assembled (pipeline : PipelineId) (id : Identifier)
  /-- The type for a requested type. -/
  | requested (pipeline : PipelineId) (type : TypeId)
  /-- The additional type for an identifier of its own. -/
  | additional (pipeline : PipelineId) (id : Part)
  /-- The constructor of the type for an identifier that takes these parameters. -/
  | constructor (pipeline : PipelineId) (id : Identifier) (parameters : List Signature)
    (nonPublic : Bool)
  /-- Write all modules. -/
  | flush (pipeline : PipelineId)
  /-- Load written modules; a document that is not there is none. -/
  | load (pipeline : PipelineId) (documents : List (Option String))
  /-- Put types into the cache, as far as their identifiers are new. -/
  | insertTypes (pipeline : PipelineId) (rows : List (Identifier × TypeId))
  /-- Put additional types into the cache, as far as their identifiers are new. -/
  | insertAdditional (pipeline : PipelineId) (rows : List (Part × TypeId))
  deriving Repr, Inhabited

/-- What a pipeline answers. -/
inductive Reply
  | type (type : TypeId)
  | constructor (method : MethodId)
  | modules (modules : List Session.WrittenModule)
  | count (value : Nat)
  deriving Repr, Inhabited

/-! ### Actions of participants -/

/-- What participants can do at any time. -/
inductive Action
  | look
  | note (datum : Datum)
  /-- Remember how many references to absent types were numbered. -/
  | countAbsent (total : Nat)
  | send (command : Command)

abbrev Action.Answer : Action → Type
  | look => Session
  | note _ => Unit
  | countAbsent _ => Unit
  | send _ => Except Fault Reply

abbrev Errand := Plan Action Action.Answer

def Errand.take (action : Action) : Errand action.Answer := Plan.single action

/-- What participants can do while a batch is drafted. -/
inductive DraftAction
  | general (action : Action)
  | readState
  | writeState (state : ParticipantState)
  | view
  | edit (edit : Edit)
  | whenGenerated (callback : Generated → Errand Unit)

abbrev DraftAction.Answer : DraftAction → Type
  | general action => action.Answer
  | readState => ParticipantState
  | writeState _ => Unit
  | view => Batch
  | edit _ => Except Fault EditAnswer
  | whenGenerated _ => Unit

abbrev Contribution := Plan DraftAction DraftAction.Answer

def Contribution.take (action : DraftAction) : Contribution action.Answer := Plan.single action

/-! ### Participants -/

/-- What a participant is told when a proxy is drafted. -/
structure Turn where
  id : Identifier
  /-- The place of the participant. -/
  index : Nat
  proxy : TypeHandle
  deriving Repr, Inhabited

def Turn.ownPart (t : Turn) : Option Part := t.id.part? t.index

inductive AdditionalType
  | existing (type : TypeId)
  | created (handle : TypeHandle)
  deriving DecidableEq, Repr, Inhabited

/-- An assembled type that was loaded. -/
structure LoadedProxy where
  requested : TypeId
  generated : TypeId
  id : Identifier
  deriving DecidableEq, Repr, Inhabited

structure Participant where
  name : String
  /-- Its share of the identifier of a requested type. -/
  part : Session → TypeId → Option Part := fun _ _ => none
  participate : Turn → Contribution Unit
  handleUnsubclassable : TypeId → Errand Unit := fun _ => return ()
  additionalType : Part → Contribution (Option AdditionalType) := fun _ => return none
  rebuild : List LoadedProxy → List TypeId → Errand Unit := fun _ _ => return ()
  /-- The identifier under which a loaded type is an additional type. -/
  additionalId : Session → TypeId → Option Part := fun _ _ => none

abbrev Cast := PipelineId → List Participant

end TypeLoom
