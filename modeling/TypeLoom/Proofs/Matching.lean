import Mathlib.Data.List.Forall2
import TypeLoom.Assembly.Request
import TypeLoom.Proofs.Attempts
import TypeLoom.Proofs.Selections

/-!
# Arguments and parameters

An object is made from arguments in two ways. A type asks the parameters of its public constructors
for the arguments themselves, a pipeline asks them for the signatures of the arguments. The two
differ for `null`, whose signature is that of any object, and for `void`, which has that signature
too.
-/

namespace TypeLoom

/-! ### One parameter -/

/-- The parameter takes the argument, but not its signature. -/
inductive Signature.Misjudges : Signature → Value → Prop
  | null {declared : Signature} (reference : declared.isReference = true)
  (narrow : declared ≠ .object) : Misjudges declared .null
  | void : Misjudges .void .void

/-- The parameter takes the signature of the argument, but not the argument. -/
inductive Signature.Overrates : Signature → Value → Prop
  | void : Overrates .object .void

namespace Universe

variable {u : Universe} {t : TypeId} {c : MethodId} {arguments : List Value}
  {declared : Signature} {v : Value}

/-- The value is no object of a type that is gone. -/
def Lasting (u : Universe) (v : Value) : Prop := ∀ o, v = .object o → u.isPresent o.type = true

theorem accepts_of_parameterScore (hv : u.Lasting v)
    (hscore : (u.parameterScore declared v.signature).isSome) (hrated : ¬ declared.Overrates v) :
    declared.accepts u v = true := by
  cases v with
  | object o =>
    have hpresent : u.isPresent o.type = true := hv o rfl
    cases declared with
    | object => rfl
    | ofClass d =>
      by_cases hsame : d = o.type
      · subst hsame
        simp [Signature.accepts, hpresent, isAssignableTo_refl]
      · have hnarrow : Signature.ofClass d ≠ .ofClass o.type :=
          fun heq => hsame (Signature.ofClass.inj heq)
        unfold parameterScore at hscore
        simpa [Signature.accepts, Value.signature, hnarrow, hsame, hpresent] using hscore
    | _ => simp [parameterScore, Value.signature] at hscore
  | void =>
    cases declared with
    | object => exact absurd .void hrated
    | _ => simp [parameterScore, Value.signature] at hscore
  | _ => cases declared <;> first | rfl | simp [parameterScore, Value.signature] at hscore

theorem not_accepts_of_overrates (h : declared.Overrates v) : declared.accepts u v = false := by
  cases h with
  | void => rfl

theorem parameterScore_of_accepts (hv : u.Lasting v) (haccepts : declared.accepts u v = true)
    (hjudged : ¬ declared.Misjudges v) : (u.parameterScore declared v.signature).isSome := by
  cases v with
  | object o =>
    cases declared with
    | object => rfl
    | ofClass d =>
      simp only [Signature.accepts, Bool.and_eq_true] at haccepts
      by_cases hsame : Signature.ofClass d = .ofClass o.type
      · simp [parameterScore, Value.signature, hsame]
      · simp [parameterScore, Value.signature, hsame, haccepts, hv o rfl]
    | _ => cases haccepts
  | null =>
    by_cases hobject : declared = .object
    · simp [parameterScore, Value.signature, hobject]
    · refine absurd (.null ?_ hobject) hjudged
      cases declared <;> first | rfl | cases haccepts
  | void =>
    cases declared with
    | void => exact absurd .void hjudged
    | _ => cases haccepts
  | _ => cases declared <;> first | rfl | cases haccepts

theorem not_parameterScore_of_misjudges (h : declared.Misjudges v) :
    u.parameterScore declared v.signature = none := by
  cases h with
  | null reference narrow =>
    cases declared with
    | object => exact absurd rfl narrow
    | _ => rfl
  | void => rfl

/-! ### One constructor -/

/-- The constructor is public, and its parameters take the arguments. -/
structure Accepting (u : Universe) (t : TypeId) (arguments : List Value) (c : MethodId) : Prop where
  declared : c ∈ u.constructorsOf t
  visible : (u.method c).access = .isPublic
  accepts : u.acceptsArguments (u.method c).signature arguments = true

/-- The constructor is public, and its parameters take the signatures of the arguments. -/
def Matching (u : Universe) (t : TypeId) (arguments : List Value) (c : MethodId) : Prop :=
  ∃ score, u.Candidate t (arguments.map Value.signature) false c score

/-- The parameters of the constructor with the arguments at their places. -/
def places (u : Universe) (c : MethodId) (arguments : List Value) : List (Signature × Value) :=
  (u.method c).signature.types.zip arguments

theorem exists_scores_iff {types : List Signature} :
    (∃ score, u.Scores types (arguments.map Value.signature) score)
      ↔ List.Forall₂ (fun declared v => (u.parameterScore declared v.signature).isSome)
      types arguments := by
  constructor
  · rintro ⟨score, hscores⟩
    generalize hsupplied : arguments.map Value.signature = supplied at hscores
    induction hscores generalizing arguments with
    | nil =>
      rw [List.map_eq_nil_iff.mp hsupplied]
      exact .nil
    | cons first more ih =>
      obtain ⟨v, rest, rfl, rfl, hrest⟩ := List.map_eq_cons_iff.mp hsupplied
      exact .cons (Option.isSome_of_eq_some first) (ih hrest)
  · intro hall
    induction hall with
    | nil => exact ⟨0, .nil⟩
    | cons first _ ih =>
      obtain ⟨score, hscore⟩ := Option.isSome_iff_exists.mp first
      obtain ⟨total, htotal⟩ := ih
      exact ⟨score + total, .cons hscore htotal⟩

theorem acceptsArguments_iff {signature : MethodSignature} :
    u.acceptsArguments signature arguments = true
      ↔ List.Forall₂ (fun declared v => declared.accepts u v = true) signature.types arguments := by
  rw [acceptsArguments, Bool.and_eq_true, beq_iff_eq, MethodSignature.arity_eq_length_types,
    List.forall₂_iff_zip]
  refine and_congr_right fun _ => ?_
  rw [MethodSignature.types, List.zip_map_left, List.all_eq_true]
  constructor
  · intro hall declared v hmem
    obtain ⟨⟨parameter, argument⟩, hplace, heq⟩ := List.mem_map.mp hmem
    cases heq
    exact hall _ hplace
  · intro hall place hplace
    exact hall (List.mem_map_of_mem hplace)

/-- Where the parameters take the signatures, they take the arguments unless one overrates its
argument. -/
theorem Matching.accepting_iff (hlasting : ∀ v ∈ arguments, u.Lasting v)
    (h : u.Matching t arguments c) :
    u.Accepting t arguments c ↔ ∀ place ∈ u.places c arguments, ¬ place.1.Overrates place.2 := by
  obtain ⟨score, hcandidate⟩ := h
  obtain ⟨hlength, hscores⟩ :=
    List.forall₂_iff_zip.mp (exists_scores_iff.mp ⟨score, hcandidate.scores⟩)
  constructor
  · rintro ⟨-, -, haccepts⟩ ⟨declared, v⟩ hplace hrates
    have htaken := (List.forall₂_iff_zip.mp (acceptsArguments_iff.mp haccepts)).2 hplace
    rw [not_accepts_of_overrates hrates] at htaken
    cases htaken
  · intro hrated
    refine ⟨hcandidate.declared, by
      simpa using hcandidate.visible,
        acceptsArguments_iff.mpr (List.forall₂_iff_zip.mpr ⟨hlength, ?_⟩)⟩
    intro declared v hplace
    exact accepts_of_parameterScore (hlasting v (List.of_mem_zip hplace).2) (hscores hplace)
      (hrated _ hplace)

/-- Where the parameters take the arguments, they take the signatures unless one misjudges its
argument. -/
theorem Accepting.matching_iff (hlasting : ∀ v ∈ arguments, u.Lasting v)
    (h : u.Accepting t arguments c) :
    u.Matching t arguments c ↔ ∀ place ∈ u.places c arguments, ¬ place.1.Misjudges place.2 := by
  obtain ⟨hlength, htaken⟩ := List.forall₂_iff_zip.mp (acceptsArguments_iff.mp h.accepts)
  constructor
  · rintro ⟨score, hcandidate⟩ ⟨declared, v⟩ hplace hmisjudges
    have hscore :=
      (List.forall₂_iff_zip.mp (exists_scores_iff.mp ⟨score, hcandidate.scores⟩)).2 hplace
    rw [not_parameterScore_of_misjudges hmisjudges] at hscore
    cases hscore
  · intro hjudged
    obtain ⟨score, hscores⟩ :=
        exists_scores_iff.mpr (List.forall₂_iff_zip.mpr ⟨hlength, fun {declared v} hplace =>
      parameterScore_of_accepts (hlasting v (List.of_mem_zip hplace).2) (htaken hplace)
        (hjudged _ hplace)⟩)
    exact ⟨score, h.declared, .inr h.visible, hscores⟩

/-! ### Both ways together -/

theorem constructorFor?_eq_none_iff :
    u.constructorFor? t arguments = none ↔ ∀ c, ¬ u.Accepting t arguments c := by
  rw [constructorFor?, List.find?_eq_none]
  constructor
  · rintro hnone c ⟨hdeclared, hvisible, haccepts⟩
    exact hnone c hdeclared (by rw [hvisible, haccepts]; rfl)
  · intro hnone c hdeclared hfits
    rw [Bool.and_eq_true, beq_iff_eq] at hfits
    exact hnone c ⟨hdeclared, hfits.1, hfits.2⟩

/-- The fault when no constructor takes the signatures of the arguments. -/
def unmatched (u : Universe) (t : TypeId) (arguments : List Value) : Fault :=
  u.missing t (".ctor(" ++ displaySignatures u (arguments.map Value.signature) ++ ")")

theorem selectConstructor_eq_unmatched_iff (hconcrete : (u.record t).isAbstract = false) :
    u.selectConstructor t (arguments.map Value.signature) false = .error (u.unmatched t arguments)
      ↔ ∀ c, ¬ u.Matching t arguments c := by
  have hbest : u.BestMatch t (arguments.map Value.signature) false
    (u.selectConstructor t (arguments.map Value.signature) false) :=
    bestMatch_selectConstructor hconcrete
  constructor
  · intro hunmatched
    rw [hunmatched] at hbest
    rcases hbest with _ | _ | hnone
    exact fun c ⟨score, hcandidate⟩ => hnone c score hcandidate
  · intro hnone
    exact hbest.answer_eq (.missing fun c score hcandidate => hnone c ⟨score, hcandidate⟩)

theorem start_getType_cached (cast : Cast) (requests : Requests) {p : PipelineId}
    {id : Identifier} {s : Session} (hcached : (s.pipeline p).types.find? id = some t) :
    (Session.getType cast requests p id).start s = (.ok t, s) := by
  simp only [Session.getType, Attempt.start_bind, Attempt.start_get, hcached, Attempt.start_pure]

theorem start_getConstructor (cast : Cast) (requests : Requests) {p : PipelineId}
    {key : ConstructorKey} {s s' : Session} (hnew : (s.pipeline p).constructors.find? key = none)
    (htype : (Session.getType cast requests p key.id).start s = (.ok t, s')) :
    ((Session.getConstructor cast requests p key).start s).1 = s'.program.selectConstructor t
        key.parameters key.nonPublic := by
  simp only [Session.getConstructor, Attempt.start_bind, Attempt.start_get, hnew, htype,
    Session.ask, Attempt.start_lift]
  cases s'.program.selectConstructor t key.parameters key.nonPublic <;> rfl

/-- A public constructor takes the arguments just if it takes their signatures, unless it takes
one of both and a parameter overrates or misjudges its argument. Where none does, a pipeline
misses a constructor just if the type does. -/
theorem matching_agrees_iff (hlasting : ∀ v ∈ arguments, u.Lasting v) :
    (∀ c, (u.Matching t arguments c ↔ u.Accepting t arguments c) ↔
        (u.Matching t arguments c → ∀ place ∈ u.places c arguments, ¬ place.1.Overrates place.2)
        ∧ (u.Accepting t arguments c → ∀ place ∈ u.places c arguments, ¬ place.1.Misjudges place.2))
      ∧ ((u.record t).isAbstract = false →
        (∀ c, u.Matching t arguments c → ∀ place ∈ u.places c arguments,
          ¬ place.1.Overrates place.2) →
        (∀ c, u.Accepting t arguments c → ∀ place ∈ u.places c arguments,
          ¬ place.1.Misjudges place.2) →
        ∀ (cast : Cast) (requests : Requests) (p : PipelineId) (id : Identifier) (s s' : Session),
          (s.pipeline p).constructors.find? ⟨id, arguments.map Value.signature, false⟩ = none →
          (Session.getType cast requests p id).start s = (.ok t, s') → s'.program = u →
          (((Session.getConstructor cast requests p ⟨id, arguments.map Value.signature,
            false⟩).start s).1
              = .error (u.unmatched t arguments) ↔ u.constructorFor? t arguments = none)) := by
  have hagree : ∀ c, (u.Matching t arguments c ↔ u.Accepting t arguments c) ↔
      (u.Matching t arguments c → ∀ place ∈ u.places c arguments, ¬ place.1.Overrates place.2)
      ∧ (u.Accepting t arguments c → ∀ place ∈ u.places c arguments,
          ¬ place.1.Misjudges place.2) := by
    intro c
    constructor
    · intro hsame
      exact ⟨fun h => (h.accepting_iff hlasting).mp (hsame.mp h), fun h =>
        (h.matching_iff hlasting).mp (hsame.mpr h)⟩
    · rintro ⟨hrated, hjudged⟩
      exact ⟨fun h => (h.accepting_iff hlasting).mpr (hrated h), fun h =>
        (h.matching_iff hlasting).mpr (hjudged h)⟩
  refine ⟨hagree, fun hconcrete hrated hjudged cast requests p id s s' hnew htype hprogram => ?_⟩
  rw [start_getConstructor cast requests hnew htype, hprogram,
    selectConstructor_eq_unmatched_iff hconcrete,
    constructorFor?_eq_none_iff]
  exact forall_congr' fun c => not_congr ((hagree c).mpr ⟨hrated c, hjudged c⟩)

/-- A session whose pipeline uses the class as it is. -/
def boxing : Session :=
  { program := boxed, pipelines := #[{ configuration := "c", registry := ⟨0⟩, pool := ⟨0⟩, types := [(⟨⟨0⟩, []⟩, ⟨0⟩)] }] }

/-- From a string the class is made either way. -/
theorem matching_agrees_iff_boxed :
    (∀ c, boxed.Matching ⟨0⟩ [.string "text"] c ↔ boxed.Accepting ⟨0⟩ [.string "text"] c)
      ∧ ((Session.getConstructor (fun _ => []) (fun _ => throw .fileFault) ⟨0⟩ ⟨⟨⟨0⟩, []⟩,
        [.string], false⟩).start boxing).1
        ≠ .error (boxed.unmatched ⟨0⟩ [.string "text"]) := by
  have hlasting : ∀ v ∈ [Value.string "text"], boxed.Lasting v := by simp [Lasting]
  have hrated : ∀ c, ∀ place ∈ boxed.places c [.string "text"], ¬ place.1.Overrates place.2 := by
    rintro c ⟨declared, v⟩ hplace ⟨⟩
    simpa using (List.of_mem_zip hplace).2
  have hjudged : ∀ c, ∀ place ∈ boxed.places c [.string "text"], ¬ place.1.Misjudges place.2 := by
    rintro c ⟨declared, v⟩ hplace hmisjudges
    have hv := (List.of_mem_zip hplace).2
    cases hmisjudges <;> simp at hv
  obtain ⟨hsame, hmiss⟩ := matching_agrees_iff (u := boxed) (t := ⟨0⟩) hlasting
  constructor
  · intro c
    exact (hsame c).mpr ⟨fun _ => hrated c, fun _ => hjudged c⟩
  · intro heq
    have hcached : (Session.getType (fun _ => []) (fun _ => throw .fileFault) ⟨0⟩ ⟨⟨0⟩, []⟩).start
      boxing = (.ok ⟨0⟩, boxing) :=
      start_getType_cached _ _ rfl
    have hnone :=
      (hmiss (by decide) (fun c _ => hrated c) (fun c _ => hjudged c) _ _ ⟨0⟩ ⟨⟨0⟩, []⟩ boxing
      boxing rfl hcached rfl).mp heq
    revert hnone
    decide +kernel

/-- The two ways agree on every constructor. -/
def MatchingsAgree : Prop :=
  ∀ (u : Universe) (t : TypeId) (arguments : List Value), (∀ v ∈ arguments, u.Lasting v) →
    (u.record t).isAbstract = false →
    ∀ c, u.Matching t arguments c ↔ u.Accepting t arguments c

def labelled : Universe :=
  { types := #[{ token := ⟨1⟩, space := "App", name := "Label", flags := TypeFlags.isPublic, origin := .native,
                 constructors := #[unaryConstructor 1 .string] }] }

/-- The parameter takes `null`, but not the signature of any object. -/
theorem not_matchingsAgree : ¬ MatchingsAgree := by
  intro hagree
  have hsame := hagree labelled ⟨0⟩ [.null] (by simp [Lasting]) (by decide) ⟨⟨0⟩, .constructor 0⟩
  have haccepting : labelled.Accepting ⟨0⟩ [.null] ⟨⟨0⟩, .constructor 0⟩ :=
    ⟨by decide, by decide, by decide⟩
  obtain ⟨score, hcandidate⟩ := hsame.mpr haccepting
  have hscored := mem_constructorCandidates.mpr hcandidate
  have hnone : labelled.constructorCandidates ⟨0⟩ ([Value.null].map Value.signature) false = [] :=
    by decide +kernel
  rw [hnone] at hscored
  cases hscored

end Universe

end TypeLoom
