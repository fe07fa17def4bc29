import Mathlib.Data.List.Nodup
import Mathlib.Data.List.Range
import Mathlib.Logic.Equiv.Defs
import TypeLoom.Assembly.Selection
import TypeLoom.Proofs.Listing
import TypeLoom.Proofs.Searches

/-!
# Selected constructors

The selection goes through the candidates once, with the best one so far and whether another one is
as good. At the end this tells whether one candidate is better than all others, whichever order they
were in.
-/

namespace TypeLoom

def MethodRecord.offer (m : MethodRecord) : Access × List Signature := (m.access, m.signature.types)

namespace Universe

variable {u : Universe} {t : TypeId} {supplied : List Signature} {nonPublic : Bool}

/-! ### Scores -/

inductive Scores (u : Universe) : List Signature → List Signature → Nat → Prop
  | nil : Scores u [] [] 0
  | cons {declared supplied : Signature} {others rest : List Signature} {score total : Nat}
      (first : u.parameterScore declared supplied = some score)
      (more : Scores u others rest total) :
      Scores u (declared :: others) (supplied :: rest) (score + total)

theorem scoreParameters_cons (declared supplied : Signature) (others rest : List Signature) :
    u.scoreParameters (declared :: others) (supplied :: rest)
      = (u.parameterScore declared supplied).bind fun score =>
      (u.scoreParameters others rest).map (score + ·) := by
  unfold scoreParameters
  by_cases hlength : others.length = rest.length
  · simp only [List.length_cons, hlength, if_true, List.zip_cons_cons, List.mapM_cons]
    cases u.parameterScore declared supplied with
    | none => rfl
    | some score =>
      cases (others.zip rest).mapM fun (d, s) => u.parameterScore d s with
      | none => rfl
      | some scores => simp [← List.sum_eq_foldl]
  · rw [if_neg hlength, if_neg (by simpa using hlength)]
    cases u.parameterScore declared supplied <;> rfl

theorem scoreParameters_eq_some {declared : List Signature} {score : Nat} :
    u.scoreParameters declared supplied = some score ↔ u.Scores declared supplied score := by
  induction declared generalizing supplied score with
  | nil =>
    cases supplied with
    | nil =>
      refine ⟨fun h => ?_, fun h => ?_⟩
      · cases h
        exact .nil
      · cases h
        rfl
    | cons s rest => exact ⟨nofun, nofun⟩
  | cons d others ih =>
    cases supplied with
    | nil => exact ⟨nofun, nofun⟩
    | cons s rest =>
      rw [scoreParameters_cons, Option.bind_eq_some_iff]
      refine ⟨fun h => ?_, fun h => ?_⟩
      · obtain ⟨first, hfirst, hmore⟩ := h
        obtain ⟨total, htotal, rfl⟩ := Option.map_eq_some_iff.mp hmore
        exact .cons hfirst (ih.mp htotal)
      · cases h with
        | cons first more => exact ⟨_, first, Option.map_eq_some_iff.mpr ⟨_, ih.mpr more, rfl⟩⟩

/-- Where subtypes can be told without a bound, a wider class scores one, and no other class
scores. -/
theorem Traversable.parameterScore {s d : TypeId} (h : u.Traversable s) (hne : d ≠ s) :
    (u.parameterScore (.ofClass d) (.ofClass s) = some 1 ∧ u.isPresent d ∧ u.isPresent s
      ∧ u.Assigning s d true)
      ∨ u.parameterScore (.ofClass d) (.ofClass s) = none := by
  have hassigning := h.assigning d
  have hdistinct : Signature.ofClass d ≠ .ofClass s := fun heq => hne (Signature.ofClass.inj heq)
  rw [Universe.parameterScore, if_neg hdistinct]
  split
  · rename_i hall
    simp only [Bool.and_eq_true] at hall
    exact .inl ⟨rfl, hall.1.1, hall.1.2, hall.2 ▸ hassigning⟩
  · exact .inr rfl

/-! ### Candidates -/

/-- The constructor may be called and takes such arguments, with the sum of the scores. -/
structure Candidate (u : Universe) (t : TypeId) (supplied : List Signature) (nonPublic : Bool)
    (c : MethodId) (score : Nat) :
    Prop where
  declared : c ∈ u.constructorsOf t
  visible : nonPublic = true ∨ (u.method c).access = .isPublic
  scores : u.Scores (u.method c).signature.types supplied score

theorem mem_constructorCandidates {c : MethodId} {score : Nat} :
    (score, c) ∈ u.constructorCandidates t supplied nonPublic ↔
    u.Candidate t supplied nonPublic c score := by
  rw [constructorCandidates, List.mem_filterMap]
  constructor
  · rintro ⟨c', hc', hscored⟩
    split at hscored
    · rename_i hvisible
      obtain ⟨n, hn, heq⟩ := Option.map_eq_some_iff.mp hscored
      cases heq
      exact ⟨hc', by simpa using hvisible, scoreParameters_eq_some.mp hn⟩
    · cases hscored
  · rintro ⟨hc, hvisible, hscores⟩
    refine ⟨c, hc, ?_⟩
    rw [if_pos (by simpa using hvisible), scoreParameters_eq_some.mpr hscores]
    rfl

theorem nodup_constructorsOf : (u.constructorsOf t).Nodup :=
  List.Nodup.map (fun _ _ h => Slot.constructor.inj (MethodId.mk.inj h).2) List.nodup_range

theorem distinct_constructorCandidates :
    (u.constructorCandidates t supplied nonPublic).Pairwise (·.2 ≠ ·.2) := by
  refine List.pairwise_filterMap.mpr (nodup_constructorsOf.imp fun {c c'} hne => ?_)
  have hcandidate : ∀ (c : MethodId) (x : Nat × MethodId),
    (if nonPublic || (u.method c).access == .isPublic then
      (u.scoreParameters (u.method c).signature.types supplied).map fun score => (score, c)
          else none) = some x → x.2 = c := by
    intro c x hx
    split at hx
    · obtain ⟨n, -, rfl⟩ := Option.map_eq_some_iff.mp hx
      rfl
    · cases hx
  intro x hx y hy
  rw [hcandidate c x hx, hcandidate c' y hy]
  exact hne

/-! ### The pass over the candidates -/

/-- The choice has a candidate with the highest score, and tells whether another one has it too. -/
def Considered (seen : List (Nat × MethodId)) : Option Choice → Prop
  | none => seen = []
  | some best => (best.score, best.constructor) ∈ seen ∧ (∀ x ∈ seen, x.1 ≤ best.score)
      ∧ (best.tied = true ↔ ∃ c, c ≠ best.constructor ∧ (best.score, c) ∈ seen)

/-- One more candidate is considered: a worse one changes nothing, one as good ties, a better one
is the only best one. -/
theorem Considered.step {seen : List (Nat × MethodId)} {choice : Option Choice}
    (h : Considered seen choice) {x : Nat × MethodId} (hnew : ∀ y ∈ seen, y.2 ≠ x.2) :
    Considered (seen ++ [x]) (Choice.consider choice x) := by
  obtain ⟨score, c⟩ := x
  cases choice with
  | none =>
    obtain rfl : seen = [] := h
    simp [Choice.consider, Considered]
  | some best =>
    obtain ⟨hmem, hmax, htied⟩ := h
    have hlast : ∀ y, y ∈ seen ++ [(score, c)] ↔ y ∈ seen ∨ y = (score, c) := fun y => by
      rw [List.mem_append, List.mem_singleton]
    rw [Choice.consider]
    split
    · rename_i hworse
      refine ⟨(hlast _).mpr (.inl hmem), fun y hy => ?_, htied.trans ⟨?_, ?_⟩⟩
      · exact ((hlast y).mp hy).elim (hmax y) fun hy => hy ▸ hworse.le
      · exact fun ⟨other, hne, hother⟩ => ⟨other, hne, (hlast _).mpr (.inl hother)⟩
      · rintro ⟨other, hne, hother⟩
        refine ⟨other, hne, ((hlast _).mp hother).resolve_right fun heq => ?_⟩
        exact hworse.ne (Prod.mk.inj heq).1.symm
    · split
      · rename_i hequal
        refine ⟨(hlast _).mpr (.inl hmem), fun y hy => ?_, fun _ => ⟨c, (hnew _ hmem).symm, ?_⟩,
          fun _ => rfl⟩
        · exact ((hlast y).mp hy).elim (hmax y) fun hy => hy ▸ hequal.le
        · exact (hlast _).mpr (.inr (by rw [hequal]))
      · rename_i hnotworse hunequal
        have hbetter : best.score < score := by omega
        refine ⟨(hlast _).mpr (.inr rfl), fun y hy => ?_, nofun, ?_⟩
        · exact ((hlast y).mp hy).elim (fun hy => (hmax y hy).trans hbetter.le) fun hy =>
            hy ▸ le_rfl
        · rintro ⟨other, hne, hother⟩
          rcases (hlast _).mp hother with hold | heq
          · exact absurd (hmax _ hold) (Nat.not_le.mpr hbetter)
          · exact absurd (Prod.mk.inj heq).2 hne

theorem Considered.foldl {rest seen : List (Nat × MethodId)} {choice : Option Choice}
    (h : Considered seen choice) (hdistinct : (seen ++ rest).Pairwise (·.2 ≠ ·.2)) :
    Considered (seen ++ rest) (rest.foldl Choice.consider choice) := by
  induction rest generalizing seen choice with
  | nil => rwa [List.append_nil]
  | cons x rest ih =>
    have hnew : ∀ y ∈ seen, y.2 ≠ x.2 :=
      fun y hy => (List.pairwise_append.mp hdistinct).2.2 y hy x List.mem_cons_self
    have hsplit : seen ++ x :: rest = seen ++ [x] ++ rest := by
      rw [List.append_assoc, List.singleton_append]
    rw [hsplit] at hdistinct ⊢
    exact ih (h.step hnew) hdistinct

/-! ### The constructor that is selected -/

def ambiguous (u : Universe) (t : TypeId) (supplied : List Signature) : Fault :=
  .argument "parameters" ("Constructor call '" ++ u.fullName t ++ "("
    ++ displaySignatures u supplied ++ ")' is ambiguous")

/-- The candidate that is better than all others; or what it means that two are the best ones, or
that there is none. -/
inductive BestMatch (u : Universe) (t : TypeId) (supplied : List Signature) (nonPublic : Bool) :
    Except Fault MethodId → Prop
  | unique {c : MethodId} {score : Nat} (fits : u.Candidate t supplied nonPublic c score)
      (better : ∀ other n, u.Candidate t supplied nonPublic other n → other ≠ c → n < score) :
      BestMatch u t supplied nonPublic (.ok c)
  | shared {c other : MethodId} {score : Nat} (apart : other ≠ c)
    (fits : u.Candidate t supplied nonPublic c score)
      (fitsToo : u.Candidate t supplied nonPublic other score)
      (best : ∀ third n, u.Candidate t supplied nonPublic third n → n ≤ score) :
      BestMatch u t supplied nonPublic (.error (u.ambiguous t supplied))
  | missing (none : ∀ c score, ¬ u.Candidate t supplied nonPublic c score) :
      BestMatch u t supplied nonPublic
      (.error (u.missing t (".ctor(" ++ displaySignatures u supplied ++ ")")))

theorem BestMatch.answer_eq {answer answer' : Except Fault MethodId}
    (h : u.BestMatch t supplied nonPublic answer) (h' : u.BestMatch t supplied nonPublic answer') :
    answer = answer' := by
  cases h with
  | @unique c score fits better =>
    cases h' with
    | @unique c' score' fits' better' =>
      by_contra hne
      have hapart : c ≠ c' := fun heq => hne (by rw [heq])
      exact Nat.lt_asymm (better c' score' fits' hapart.symm) (better' c score fits hapart)
    | @shared c₁ c₂ score' apart fits' fitsToo best =>
      have hle := best c score fits
      by_cases heq : c₁ = c
      · exact absurd (better c₂ score' fitsToo (heq ▸ apart)) (Nat.not_lt.mpr hle)
      · exact absurd (better c₁ score' fits' heq) (Nat.not_lt.mpr hle)
    | missing none => exact absurd fits (none c score)
  | @shared c₁ c₂ score apart fits fitsToo best =>
    cases h' with
    | @unique c score' fits' better =>
      have hle := best c score' fits'
      by_cases heq : c₁ = c
      · exact absurd (better c₂ score fitsToo (heq ▸ apart)) (Nat.not_lt.mpr hle)
      · exact absurd (better c₁ score fits heq) (Nat.not_lt.mpr hle)
    | shared => rfl
    | missing none => exact absurd fits (none _ _)
  | missing none =>
    cases h' with
    | unique fits => exact absurd fits (none _ _)
    | shared _ fits => exact absurd fits (none _ _)
    | missing => rfl

theorem bestMatch_selectConstructor (hconcrete : (u.record t).isAbstract = false) :
    u.BestMatch t supplied nonPublic (u.selectConstructor t supplied nonPublic) := by
  have hdone : Considered (u.constructorCandidates t supplied nonPublic)
      ((u.constructorCandidates t supplied nonPublic).foldl Choice.consider none) :=
    have hstart : Considered [] none := rfl
    hstart.foldl distinct_constructorCandidates
  rw [selectConstructor, hconcrete, if_neg Bool.false_ne_true]
  cases hchoice : (u.constructorCandidates t supplied nonPublic).foldl Choice.consider none with
  | none =>
    rw [hchoice] at hdone
    refine .missing fun c score hc => ?_
    rw [← mem_constructorCandidates, show u.constructorCandidates t supplied nonPublic
      = [] from hdone] at hc
    cases hc
  | some best =>
    rw [hchoice] at hdone
    obtain ⟨hmem, hmax, htied⟩ := hdone
    have hfits := mem_constructorCandidates.mp hmem
    have hle : ∀ c n, u.Candidate t supplied nonPublic c n → n ≤ best.score :=
      fun c n hc => hmax _ (mem_constructorCandidates.mpr hc)
    split
    · rename_i heq
      cases heq
    · rename_i heq
      cases heq
      split
      · rename_i hshared
        obtain ⟨other, hne, hother⟩ := htied.mp hshared
        exact .shared hne hfits (mem_constructorCandidates.mp hother) hle
      · rename_i halone
        refine .unique hfits fun other n hother hne => (hle other n hother).lt_of_ne fun heq =>
          halone (htied.mpr ?_)
        exact ⟨other, hne, mem_constructorCandidates.mpr (heq ▸ hother)⟩

/-! ### Other orders of the constructors -/

/-- The program with other constructors of a type. -/
def withConstructors (u : Universe) (t : TypeId) (constructors : Array MethodRecord) : Universe :=
  u.modify t fun r => { r with constructors }

variable {constructors : Array MethodRecord} {place : Equiv.Perm Nat}

theorem record_withConstructors (u : Universe) (t : TypeId) (constructors : Array MethodRecord)
    (other : TypeId) :
    ∃ own, (u.withConstructors t constructors).record other
    = { u.record other with constructors := own } := by
  rw [withConstructors, record_modify]
  split
  · rename_i h
    exact ⟨constructors, by rw [h.1]⟩
  · exact ⟨_, rfl⟩

theorem SameLabels.displaySignatures {u' : Universe} (h : SameLabels u u')
    (signatures : List Signature) :
    TypeLoom.displaySignatures u' signatures = TypeLoom.displaySignatures u signatures := by
  have hdisplay : ∀ s : Signature, s.display u' = s.display u := by
    intro s
    cases s with
    | ofClass t =>
      rw [Signature.display, Signature.display, isPresent, isPresent, h.present, h.fullName]
    | _ => rfl
  simp only [TypeLoom.displaySignatures, hdisplay]

theorem SameLabels.isAssignableTo {u' : Universe} (h : SameLabels u u')
    (hbase : ∀ t, (u'.record t).base = (u.record t).base)
    (hinterfaces : ∀ t, (u'.record t).interfaces = (u.record t).interfaces) (s d : TypeId) :
    u'.isAssignableTo s d = u.isAssignableTo s d := by
  have hchain : ∀ depth t, u'.chainWithin depth t = u.chainWithin depth t := by
    intro depth
    induction depth with
    | zero => exact fun _ => rfl
    | succ depth ih =>
      intro t
      rw [chainWithin, chainWithin, hbase]
      cases (u.record t).base with
      | none => rfl
      | some base => exact congrArg (t :: ·) (ih base)
  have hlists : ∀ token depth t, u'.listsInterfaceWithin token depth t
      = u.listsInterfaceWithin token depth t := by
    intro token depth
    induction depth with
    | zero => exact fun _ => rfl
    | succ depth ih =>
      intro t
      simp only [listsInterfaceWithin, hinterfaces, h.token, ih]
  simp only [Universe.isAssignableTo, isSubclassOf, implements, bases, hierarchy, hchain, hlists,
    h.token, h.size]

theorem sameLabels_withConstructors (u : Universe) (t : TypeId)
    (constructors : Array MethodRecord) :
    SameLabels u (u.withConstructors t constructors) :=
  u.sameLabels_modify t fun _ => ⟨rfl, rfl, rfl, rfl, rfl⟩

theorem parameterScore_withConstructors (u : Universe) (t : TypeId)
    (constructors : Array MethodRecord) (declared supplied : Signature) :
    (u.withConstructors t constructors).parameterScore declared supplied
    = u.parameterScore declared supplied := by
  have hlabels := u.sameLabels_withConstructors t constructors
  have hassignable : ∀ s d, (u.withConstructors t constructors).isAssignableTo s d
      = u.isAssignableTo s d := by
    refine hlabels.isAssignableTo (fun other => ?_) fun other => ?_
    all_goals
      obtain ⟨own, hown⟩ := u.record_withConstructors t constructors other
      rw [hown]
  have hpresent : ∀ other, (u.withConstructors t constructors).isPresent other
    = u.isPresent other := hlabels.present
  unfold parameterScore
  simp only [hpresent, hassignable]

theorem scoreParameters_withConstructors (u : Universe) (t : TypeId)
    (constructors : Array MethodRecord) (declared supplied : List Signature) :
    (u.withConstructors t constructors).scoreParameters declared supplied
        = u.scoreParameters declared supplied := by
  unfold scoreParameters
  simp only [parameterScore_withConstructors]

/-- Each constructor of the type stands at another place, with the same accessibility and the
same parameter types. -/
def Rearranges (u : Universe) (t : TypeId) (constructors : Array MethodRecord)
    (place : Equiv.Perm Nat) : Prop :=
  ∀ i, constructors[place i]?.map MethodRecord.offer = (u.record t).constructors[i]?.map
    MethodRecord.offer

/-- The constructor at its other place. -/
def relocate (place : Equiv.Perm Nat) (c : MethodId) : MethodId :=
  match c.slot with
  | .constructor i => ⟨c.owner, .constructor (place i)⟩
  | _ => c

theorem Candidate.exists_constructor {c : MethodId} {score : Nat}
    (h : u.Candidate t supplied nonPublic c score) :
    ∃ i, c = ⟨t, .constructor i⟩ := by
  obtain ⟨i, -, hi⟩ := List.mem_map.mp h.declared
  exact ⟨i, hi.symm⟩

theorem candidate_iff {i score : Nat} : u.Candidate t supplied nonPublic ⟨t, .constructor i⟩ score
    ↔ ∃ offer, (u.record t).constructors[i]?.map MethodRecord.offer = some offer
      ∧ (nonPublic = true ∨ offer.1 = .isPublic) ∧ u.Scores offer.2 supplied score := by
  have hmem : (⟨t, .constructor i⟩ : MethodId) ∈ u.constructorsOf t ↔
      i < (u.record t).constructors.size := by
    simp [constructorsOf]
  have hmethod : ∀ m, (u.record t).constructors[i]? = some m → u.method ⟨t, .constructor i⟩ = m :=
      fun m hm => by
    rw [method, method?, TypeRecord.method?, hm, Option.getD_some]
  constructor
  · rintro ⟨hdeclared, hvisible, hscores⟩
    obtain ⟨m, hm⟩ : ∃ m, (u.record t).constructors[i]? = some m :=
      ⟨_, Array.getElem?_eq_getElem (hmem.mp hdeclared)⟩
    rw [hmethod m hm] at hvisible hscores
    exact ⟨m.offer, by rw [hm, Option.map_some], hvisible, hscores⟩
  · rintro ⟨offer, hoffer, hvisible, hscores⟩
    obtain ⟨m, hm, rfl⟩ := Option.map_eq_some_iff.mp hoffer
    refine ⟨hmem.mpr (Array.getElem?_eq_some_iff.mp hm).1, ?_, ?_⟩
    all_goals
      rw [hmethod m hm]
      assumption

theorem Rearranges.candidate_iff (h : u.Rearranges t constructors place) {i score : Nat} :
    (u.withConstructors t constructors).Candidate t supplied nonPublic ⟨t,
      .constructor (place i)⟩ score
      ↔ u.Candidate t supplied nonPublic ⟨t, .constructor i⟩ score := by
  have hoffer : ((u.withConstructors t constructors).record t).constructors[place i]?.map
    MethodRecord.offer
      = (u.record t).constructors[i]?.map MethodRecord.offer := by
    by_cases hlt : t.index < u.types.size
    · rw [withConstructors, record_modify, if_pos ⟨rfl, hlt⟩]
      exact h i
    · rw [withConstructors, record_modify, if_neg fun hboth => hlt hboth.2,
        u.record_of_le t (Nat.not_lt.mp hlt)]
      rfl
  rw [Universe.candidate_iff, Universe.candidate_iff, hoffer]
  simp only [← scoreParameters_eq_some, scoreParameters_withConstructors]

/-- The answer is the one for the constructors in their old order, at their new places. -/
theorem BestMatch.relocate (h : u.Rearranges t constructors place) {answer : Except Fault MethodId}
    (hbest : u.BestMatch t supplied nonPublic answer) :
    (u.withConstructors t constructors).BestMatch t supplied nonPublic
        (answer.map (relocate place)) := by
  have hlabels := u.sameLabels_withConstructors t constructors
  have hforth : ∀ {c n}, u.Candidate t supplied nonPublic c n →
      (u.withConstructors t constructors).Candidate t supplied nonPublic
      (Universe.relocate place c) n := by
    intro c n hc
    obtain ⟨i, rfl⟩ := hc.exists_constructor
    exact h.candidate_iff.mpr hc
  have hback : ∀ {c n}, (u.withConstructors t constructors).Candidate t supplied nonPublic c n →
      ∃ old, c = Universe.relocate place old ∧ u.Candidate t supplied nonPublic old n := by
    intro c n hc
    obtain ⟨j, rfl⟩ := hc.exists_constructor
    have hplace : j = place (place.symm j) := (place.apply_symm_apply j).symm
    rw [hplace] at hc ⊢
    exact ⟨⟨t, .constructor (place.symm j)⟩, rfl, h.candidate_iff.mp hc⟩
  cases hbest with
  | unique fits better =>
    refine .unique (hforth fits) fun other n hother hne => ?_
    obtain ⟨old, rfl, hold⟩ := hback hother
    exact better old n hold fun heq => hne (by rw [heq])
  | @shared c other score apart fits fitsToo best =>
    have hambiguous : u.ambiguous t supplied = (u.withConstructors t constructors).ambiguous
        t supplied := by
      rw [ambiguous, ambiguous, hlabels.fullName, hlabels.displaySignatures]
    rw [Except.map, hambiguous]
    refine .shared ?_ (hforth fits) (hforth fitsToo) fun third n hthird => ?_
    · obtain ⟨i, rfl⟩ := fits.exists_constructor
      obtain ⟨j, rfl⟩ := fitsToo.exists_constructor
      intro heq
      exact apart (by rw [place.injective (Slot.constructor.inj (MethodId.mk.inj heq).2)])
    · obtain ⟨old, -, hold⟩ := hback hthird
      exact best old n hold
  | missing none =>
    have hmissing : u.missing t (".ctor(" ++ TypeLoom.displaySignatures u supplied ++ ")")
        = (u.withConstructors t constructors).missing t
          (".ctor(" ++ TypeLoom.displaySignatures (u.withConstructors t constructors) supplied
            ++ ")") := by
      rw [Universe.missing, Universe.missing, hlabels.fullName, hlabels.displaySignatures]
    rw [Except.map, hmissing]
    refine .missing fun c n hc => ?_
    obtain ⟨old, -, hold⟩ := hback hc
    exact none old n hold

/-- Abstract types are refused. Otherwise the answer is the candidate that is better than all
others, the fault for two best ones or the fault for none; and it is the same constructor in
whichever order they are defined. -/
theorem selectConstructor_best_match (u : Universe) (t : TypeId) (supplied : List Signature)
    (nonPublic : Bool) :
    ((u.record t).isAbstract = true →
        u.selectConstructor t supplied nonPublic = .error (.abstractInstantiation (u.fullName t)))
      ∧ ((u.record t).isAbstract = false →
        ∀ answer, u.selectConstructor t supplied nonPublic = answer ↔
        u.BestMatch t supplied nonPublic answer)
      ∧ ∀ (constructors : Array MethodRecord) (place : Equiv.Perm Nat),
        u.Rearranges t constructors place →
        (u.withConstructors t constructors).selectConstructor t supplied nonPublic
          = (u.selectConstructor t supplied nonPublic).map (relocate place) := by
  have habstract : ∀ v : Universe, (v.record t).isAbstract = true →
      v.selectConstructor t supplied nonPublic = .error (.abstractInstantiation (v.fullName t)) :=
      fun v hv => if_pos hv
  refine ⟨habstract u, fun hconcrete answer => ?_, fun constructors place h => ?_⟩
  · exact ⟨fun heq => heq ▸ bestMatch_selectConstructor hconcrete,
      (bestMatch_selectConstructor hconcrete).answer_eq⟩
  · have hsame : ((u.withConstructors t constructors).record t).isAbstract
        = (u.record t).isAbstract := by
      obtain ⟨own, hown⟩ := u.record_withConstructors t constructors t
      rw [hown]
      rfl
    cases hcase : (u.record t).isAbstract with
    | true =>
      rw [habstract u hcase, habstract _ (hsame.trans hcase),
        (u.sameLabels_withConstructors t constructors).fullName]
      rfl
    | false =>
      exact (bestMatch_selectConstructor (hsame.trans hcase)).answer_eq
        ((bestMatch_selectConstructor hcase).relocate h)

/-- A public constructor with one parameter. -/
def unaryConstructor (token : UInt32) (type : Signature) : MethodRecord :=
  { token := ⟨token⟩, name := ".ctor", kind := .constructor, flags := MethodFlags.isPublic,
    signature := ⟨.void, [⟨"x", type⟩]⟩ }

/-- A class that is made from any object, or from a string. -/
def boxed : Universe :=
  { types := #[{ token := ⟨1⟩, space := "App", name := "Box", flags := TypeFlags.isPublic, origin := .native,
                 constructors := #[unaryConstructor 1 .object, unaryConstructor 2 .string] }] }

/-- For a string the second constructor is the better one, and it stays the better one when it
comes first. -/
theorem selectConstructor_best_match_boxed :
    boxed.BestMatch ⟨0⟩ [.string] false (.ok ⟨⟨0⟩, .constructor 1⟩)
      ∧ (boxed.withConstructors ⟨0⟩ #[unaryConstructor 1 .string,
        unaryConstructor 2 .object]).selectConstructor ⟨0⟩ [.string] false
        = .ok ⟨⟨0⟩, .constructor 0⟩ := by
  have hselected : boxed.selectConstructor ⟨0⟩ [.string] false = .ok ⟨⟨0⟩, .constructor 1⟩ := by
    decide +kernel
  obtain ⟨-, hbest, horder⟩ := selectConstructor_best_match boxed ⟨0⟩ [.string] false
  refine ⟨(hbest (by decide) _).mp hselected, ?_⟩
  have hswapped : boxed.Rearranges ⟨0⟩ #[unaryConstructor 1 .string, unaryConstructor 2 .object]
      (Equiv.swap 0 1) := by
    rintro (_ | _ | i)
    · rw [Equiv.swap_apply_left]
      rfl
    · rw [Equiv.swap_apply_right]
      rfl
    · rw [Equiv.swap_apply_of_ne_of_ne (by omega) (by omega)]
      rfl
  rw [horder _ _ hswapped, hselected]
  rfl

end Universe

end TypeLoom
