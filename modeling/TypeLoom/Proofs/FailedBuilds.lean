import TypeLoom.Proofs.Building
import TypeLoom.Proofs.TokenSequences

/-!
# Failed builds

A class that cannot be built leaves the registry and the types that were there as they were,
whichever step fails; only tokens were taken. There is one exception: an enclosed class is entered
into the list of its enclosing type right after its base was accepted, and the entry stays when a
later step fails, though the class is gone.
-/

namespace TypeLoom

open Attempt

namespace TypeSpace

variable {α β : Type} {ground mid s after : TypeSpace} {t : TypeId} {entered : Option TypeId}

/-! ### Steps that concern one type -/

/-- Nothing was listed, no type was added, of the counters tokens were taken, and no type but
this one was changed, except that it was entered into the list of the one that encloses it. -/
structure Confined (t : TypeId) (entered : Option TypeId) (ground s : TypeSpace) : Prop where
  listings : s.registry.listings = ground.registry.listings
  core : s.registry.core = ground.registry.core
  counters : ∃ kinds, s.registry.counters = ground.registry.counters.afterAll kinds
  size : s.program.types.size = ground.program.types.size
  others : ∀ other, other ≠ t → s.program.record other = if entered = some other then
      { ground.program.record other with nested := (ground.program.record other).nested.push t }
    else ground.program.record other

theorem Confined.refl (t : TypeId) (s : TypeSpace) : Confined t none s s :=
  ⟨rfl, rfl, ⟨[], rfl⟩, rfl, fun other _ => (if_neg (Option.some_ne_none other).symm).symm⟩

theorem Confined.change (h : Confined t entered ground s) (change : TypeRecord → TypeRecord) :
    Confined t entered ground { s with program := s.program.modify t change } :=
  { h with
    size := (Universe.size_modify _ _ _).trans h.size
    others := fun other hne => by
      rw [Universe.record_modify, if_neg fun heq => hne heq.1, h.others other hne] }

theorem confined_nextToken (kind : TokenKind) : Maintains (Confined t entered ground)
    (nextToken kind) := fun s hs => by
  obtain ⟨kinds, hkinds⟩ := hs.counters
  refine ⟨hs.listings, hs.core, ⟨kinds ++ [kind], ?_⟩, hs.size, hs.others⟩
  rw [TokenCounters.afterAll_concat, ← hkinds]

theorem confined_currentProgram : Maintains (Confined t entered ground) currentProgram :=
  fun _ hs => hs

theorem confined_edit (change : TypeRecord → TypeRecord) : Maintains (Confined t entered ground)
    (edit t change) :=
  maintains_modify fun _ hs => hs.change change

theorem confined_apply {change : Universe → Except Fault Universe}
    (h : ∀ u u', change u = .ok u' → ∃ f, u' = u.modify t f) : Maintains (Confined t entered ground)
    (apply change) := by
  refine maintains_get_bind fun s hs => ?_
  split
  · rename_i u hu
    obtain ⟨f, rfl⟩ := h _ _ hu
    exact hs.change f
  · exact hs

theorem confined_setBody {m : MethodId} (hm : m.owner = t) (body : Expr) :
    Maintains (Confined t entered ground) (setBody m body) :=
  confined_apply fun u u' hset => by
    unfold Universe.setBody at hset
    split at hset
    · cases hset
    · split at hset
      · cases hset
      · subst hm
        exact ⟨_, (Except.ok.inj hset).symm⟩

theorem confined_giveBody {m : MethodId} (hm : m.owner = t) (source : BodySource) :
    Maintains (Confined t entered ground) (giveBody t m source) := by
  refine maintains_bind confined_currentProgram fun u =>
    maintains_bind (maintains_lift _) fun body => ?_
  cases body with
  | none => exact maintains_pure _
  | some body => exact confined_setBody hm body

/-- A member is appended: it gets a token, takes the next place, and the type is changed. -/
theorem yields_appended {Q : α → Prop} (kind : TokenKind) (change : Token → TypeRecord → TypeRecord)
    (handle : Universe → α) (hanswer : ∀ u, Q (handle u)) :
    Yields (Confined t entered ground) Q (do
      let token ← nextToken kind
      let u ← currentProgram
      edit t (change token)
      return handle u) := by
  refine yields_bind (confined_nextToken kind) fun token => ?_
  refine yields_bind confined_currentProgram fun u => ?_
  refine yields_bind (confined_edit (change token)) fun _ => ?_
  exact yields_pure (hanswer u)

theorem confined_appendField (name : String) (signature : Signature) (flags : UInt32) :
    Maintains (Confined t entered ground) (appendField t name signature flags) := by
  have hyields : Yields (Confined t entered ground) (fun _ => True)
    (appendField t name signature flags) :=
    yields_appended .field _ _ fun _ => trivial
  exact hyields.maintains

theorem confined_appendProperty (name : String) (signature : Signature)
    (getter setter : Option MethodId) :
    Maintains (Confined t entered ground) (appendProperty t name signature getter setter) := by
  have hyields : Yields (Confined t entered ground) (fun _ => True)
    (appendProperty t name signature getter setter) :=
    yields_appended .property _ _ fun _ => trivial
  exact hyields.maintains

theorem owns_appendMethod (name : String) (flags : UInt32) (signature : MethodSignature) :
    Yields (Confined t entered ground) (fun m => m.owner = t)
    (appendMethod t name flags signature) :=
  yields_appended .method _ _ fun _ => rfl

theorem owns_appendConstructor (name : String) (flags : UInt32) (signature : MethodSignature) :
    Yields (Confined t entered ground) (fun m => m.owner = t)
    (appendConstructor t name flags signature) :=
  yields_appended .method _ _ fun _ => rfl

theorem owns_placeInitializer (name : String) (flags : UInt32) (signature : MethodSignature) :
    Yields (Confined t entered ground) (fun m => m.owner = t)
    (placeInitializer t name flags signature) := by
  have hset : ∀ u u' : Universe, u.setInitializer t ⟨t, .typeInitializer⟩ = .ok u' →
      ∃ f, u' = u.modify t f := by
    intro u u' hset
    unfold Universe.setInitializer at hset
    split at hset
    · cases hset
    · exact ⟨_, (Except.ok.inj hset).symm⟩
  unfold placeInitializer
  refine yields_bind (confined_nextToken .method) fun token => ?_
  refine yields_bind (confined_apply hset) fun _ => ?_
  refine yields_bind (confined_edit _) fun _ => ?_
  exact yields_pure rfl

/-! ### Parts of a description -/

def OwnBodies (t : TypeId) (bodies : List (MethodId × BodySource)) : Prop :=
  ∀ pair ∈ bodies, pair.1.owner = t

theorem ownBodies_autoProperty (name : String) (signature : Signature) :
    Yields (Confined t entered ground) (OwnBodies t) (autoProperty t name signature) := by
  unfold autoProperty
  refine yields_bind (confined_appendField _ signature _) fun field => ?_
  refine yields_answer (owns_appendMethod _ _ _) fun getter hgetter => ?_
  refine yields_answer (owns_appendMethod _ _ _) fun setter hsetter => ?_
  refine yields_bind (confined_appendProperty name signature _ _) fun _ => ?_
  have hboth : OwnBodies t
      [(getter, .fixed (.loadThis (.member field))),
        (setter, .fixed (.storeThis (.member field) (.argument 0)))] := by
    intro pair hpair
    rcases List.mem_pair.mp hpair with rfl | rfl
    · exact hgetter
    · exact hsetter
  exact yields_pure hboth

theorem own_describedMethod (described : NamedMethodSpec) :
    Yields (Confined t entered ground) (fun pair => pair.1.owner = t)
    (describedMethod t described) := by
  unfold describedMethod
  split
  · exact yields_answer (owns_appendConstructor _ _ _) fun _ hm => yields_pure hm
  · exact yields_answer (owns_appendMethod _ _ _) fun _ hm => yields_pure hm

theorem ownBodies_describedInitializer (make : Option (Universe → TypeId → Except Fault Expr)) :
    Yields (Confined t entered ground) (OwnBodies t) (describedInitializer t make) := by
  cases make with
  | none => exact yields_pure fun _ hnone => absurd hnone List.not_mem_nil
  | some make =>
    exact yields_answer (owns_placeInitializer _ _ _) fun _ hm =>
      yields_pure (List.forall_mem_singleton.mpr hm)

theorem ownBodies_placeMembers (spec : ClassSpec) : Yields (Confined t entered ground) (OwnBodies t)
    (placeMembers t spec) := by
  refine yields_bind (maintains_forIn _ fun field _ => confined_appendField _ _ _) fun _ => ?_
  refine yields_answer (yields_mapM _ fun p _ => ownBodies_autoProperty p.1 p.2) fun accessors
    haccessors => ?_
  refine yields_answer (yields_mapM _ fun m _ => own_describedMethod m) fun described hdescribed =>
    ?_
  refine yields_answer (ownBodies_describedInitializer _) fun initializers hinitializers =>
    yields_pure ?_
  refine List.forall_mem_append.mpr ⟨List.forall_mem_append.mpr ⟨fun pair hpair => ?_, hdescribed⟩,
    hinitializers⟩
  obtain ⟨made, hmade, hpair⟩ := List.mem_flatten.mp hpair
  exact haccessors made hmade pair hpair

theorem confined_appendInterface (interface : TypeId) : Maintains (Confined t entered ground)
    (appendInterface t interface) := by
  refine maintains_bind (maintains_bind confined_currentProgram fun _ => ?_) fun _ =>
    confined_edit _
  exact maintains_ite (maintains_throw _) (maintains_pure _)

/-- What is done to a class that has its base and stands in its enclosing type concerns that
class alone. -/
theorem confined_completeWith (spec : ClassSpec) : Maintains (Confined t entered ground)
    (completeWith t spec) := by
  refine maintains_bind (maintains_forIn _ fun i _ => confined_appendInterface i) fun _ => ?_
  refine maintains_answer (ownBodies_placeMembers spec) fun bodies hbodies => ?_
  refine maintains_bind (maintains_forIn bodies fun pair hpair =>
    confined_giveBody (hbodies pair hpair) pair.2) fun _ => ?_
  exact maintains_bind (confined_edit _) fun _ => confined_edit _

/-! ### The steps before -/

def baseFor (s : TypeSpace) (spec : ClassSpec) : TypeId := spec.base.getD s.registry.core.object

/-- The base of a class is neither sealed nor an interface; of an interface it is not looked at. -/
def acceptsBase (s : TypeSpace) (spec : ClassSpec) : Bool :=
  hasBits spec.flags TypeFlags.interface
    || !((s.program.record (s.baseFor spec)).isSealed ||
      (s.program.record (s.baseFor spec)).isInterface)

/-- The type into whose list of enclosed types the class is entered. -/
def entersInto (s : TypeSpace) (spec : ClassSpec) : Option TypeId :=
  if s.acceptsBase spec then spec.declaring else none

theorem wp_giveBase {post : PUnit → TypeSpace → Prop} {fail : TypeSpace → Prop} {spec : ClassSpec}
    (hbase : (s.program.record t).base = none)
    (h : s.acceptsBase spec = true → ∀ after, Confined t none s after →
      (after.program.record t).declaring = (s.program.record t).declaring → post ⟨⟩ after)
    (hfail : s.acceptsBase spec = false → fail s) :
    (giveBase t spec (some s.registry.core.object)).wp post fail s := by
  have hgiven : spec.base.or (some s.registry.core.object) = some (s.baseFor spec) := by
    unfold baseFor
    cases spec.base <;> rfl
  rw [acceptsBase] at h hfail
  unfold giveBase
  cases hclass : hasBits spec.flags TypeFlags.interface with
  | true =>
    simp only [Bool.not_true, Bool.false_eq_true, if_false]
    exact h (by rw [hclass, Bool.true_or]) s (.refl t s) rfl
  | false =>
    have hset : ∀ base, s.program.setBase t base = .ok (s.program.modify t fun r =>
        { r with base := some base }) := fun base => by
      rw [Universe.setBase, hbase]
      rfl
    rw [hclass, Bool.false_or] at h hfail
    simp only [Bool.not_false, if_true, hgiven, checkBase, currentProgram, apply, hset, wp_bind,
      wp_get, wp_pure, wp_ite, wp_throw,
      wp_modify]
    refine ⟨fun hrefused => hfail ?_, fun haccepted => h ?_ _ ((Confined.refl t s).change _) ?_⟩
    · rw [hrefused, Bool.not_true]
    · rw [Bool.eq_false_iff.mpr haccepted, Bool.not_false]
    · rw [Universe.record_modify]
      split
      · rename_i hsame
        rw [hsame.1]
      · rfl

/-- The entry in the list of the enclosing type is made with the class itself. -/
theorem wp_nestIn {post : PUnit → TypeSpace → Prop} {fail : TypeSpace → Prop} {outer : TypeId}
    (hs : Confined t none ground s) (hdeclaring : (s.program.record t).declaring = none)
    (houter : outer.index < s.program.types.size) (h : ∀ after,
        Confined t (some outer) ground after → post ⟨⟩ after) :
        (nestIn t outer).wp post fail s := by
  have hset : s.program.setDeclaring t outer = .ok (s.program.modify t fun r =>
      { r with declaring := some outer }) := by
    rw [Universe.setDeclaring, hdeclaring]
    rfl
  simp only [nestIn, edit, apply, hset, wp_bind, wp_get, wp_modify]
  have hmid := hs.change fun r => { r with declaring := some outer }
  refine h _ { hmid with size := (Universe.size_modify _ _ _).trans hmid.size, others := fun other hne => ?_ }
  have hsame : (s.program.modify t fun r => { r with declaring := some outer }).record other
    = ground.program.record other :=
    (hmid.others other hne).trans (if_neg (Option.some_ne_none other).symm)
  rw [Universe.record_modify, hsame, Universe.size_modify]
  by_cases heq : other = outer
  · subst heq
    rw [if_pos ⟨rfl, houter⟩, if_pos rfl, hsame]
  · rw [if_neg fun h => heq h.1, if_neg fun h => heq (Option.some.inj h).symm]

/-- A class that could not be filled was entered into its enclosing type or not, depending on its
base, and nothing else. -/
theorem wp_fill {spec : ClassSpec} (hbase : (s.program.record t).base = none)
    (hdeclaring : (s.program.record t).declaring = none)
    (houter : ∀ outer, spec.declaring = some outer → outer.index < s.program.types.size) :
    (fill t spec (some s.registry.core.object)).wp (fun _ _ => True)
        (Confined t (s.entersInto spec) s) s := by
  unfold fill
  rw [wp_bind]
  refine wp_giveBase hbase (fun haccepted after hafter hsame => ?_) fun hrefused => ?_
  · rw [entersInto, if_pos haccepted]
    cases hspec : spec.declaring with
    | none =>
      exact wp_mono (confined_completeWith spec after hafter) (fun _ _ _ => trivial) fun _
        hfailed => hfailed
    | some outer =>
      dsimp only
      rw [wp_bind]
      have hinTable : outer.index < after.program.types.size := hafter.size ▸ houter outer hspec
      refine wp_nestIn hafter (hsame.trans hdeclaring) hinTable fun nested hnested => ?_
      exact wp_mono (confined_completeWith spec nested hnested) (fun _ _ _ => trivial) fun _
        hfailed => hfailed
  · rw [entersInto, if_neg (by rw [hrefused]; exact Bool.false_ne_true)]
    exact .refl t s

/-! ### Builds that fail -/

/-- What a failed build leaves behind: nothing is listed, tokens are taken, the class is gone,
and every type that was there is as it was, but for the entry in the list of the enclosing type. -/
structure Abandoned (s : TypeSpace) (spec : ClassSpec) (after : TypeSpace) : Prop where
  listings : after.registry.listings = s.registry.listings
  core : after.registry.core = s.registry.core
  counters : ∃ kinds, after.registry.counters = s.registry.counters.afterAll kinds
  gone : after.program.isPresent s.program.nextId = false
  types : ∀ t, t.index < s.program.types.size →
    after.program.record t = if s.entersInto spec = some t then
      { s.program.record t with nested := (s.program.record t).nested.push s.program.nextId }
    else s.program.record t

/-- The registry lists what it did, and every type that was there is as it was. -/
structure Untouched (s after : TypeSpace) : Prop where
  listings : after.registry.listings = s.registry.listings
  core : after.registry.core = s.registry.core
  types : ∀ t, t.index < s.program.types.size → after.program.record t = s.program.record t

/-- What a description refers to for its base and its place exists. -/
structure Placed (s : TypeSpace) (spec : ClassSpec) : Prop where
  base : (s.baseFor spec).index < s.program.types.size
  outer : ∀ outer, spec.declaring = some outer → outer.index < s.program.types.size

theorem Confined.abandoned {spec : ClassSpec} (r : TypeRecord) {made : TypeSpace}
    (hspec : s.Placed spec) (hprogram : made.program = s.program.push r)
    (hlistings : made.registry.listings = s.registry.listings) (hcore : made.registry.core
      = s.registry.core) (hcounters : made.registry.counters = s.registry.counters.bump .type)
    (h : Confined s.program.nextId (made.entersInto spec) made after) :
        s.Abandoned spec (drop [s.program.nextId] after) := by
  have hrecord : ∀ t, t.index < s.program.types.size → made.program.record t = s.program.record t :=
      fun t ht => by
    rw [hprogram, s.program.record_push_of_lt r t ht]
  have hbase : made.baseFor spec = s.baseFor spec := by rw [baseFor, hcore, baseFor]
  have henters : made.entersInto spec = s.entersInto spec := by
    rw [entersInto, entersInto, acceptsBase, acceptsBase, hbase, hrecord _ hspec.base]
  have hdropped := h.change fun r => { r with present := false }
  refine ⟨h.listings.trans hlistings, h.core.trans hcore, ?_, ?_, fun t ht => ?_⟩
  · obtain ⟨kinds, hkinds⟩ := h.counters
    exact ⟨.type :: kinds, hkinds.trans (by rw [hcounters]; rfl)⟩
  · show ((after.program.modify s.program.nextId _).record s.program.nextId).present = false
    have hsize : s.program.nextId.index < after.program.types.size := by
      rw [h.size, hprogram, Universe.size_push]
      exact Nat.lt_succ_self _
    rw [Universe.record_modify, if_pos ⟨rfl, hsize⟩]
  · have hne : t ≠ s.program.nextId := fun heq => Nat.ne_of_lt ht (congrArg TypeId.index heq)
    have hothers := hdropped.others t hne
    rw [henters, hrecord t ht] at hothers
    exact hothers

theorem wp_buildClass_abandoned {spec : ClassSpec} (hspec : s.Placed spec) :
    (buildClass spec).wp (fun _ _ => True) (s.Abandoned spec) s := by
  let r : TypeRecord :=
    { token := (s.registry.counters.next .type).1,
      space := if spec.declaring.isSome then "" else spec.space, name := spec.name
      flags := spec.flags, origin := .native }
  let made : TypeSpace :=
    { program := s.program.push r,
      registry := { s.registry with counters := s.registry.counters.bump .type } }
  have hnew : made.program.record s.program.nextId = r := s.program.record_push_self r
  have hfill : (fill s.program.nextId spec (some s.registry.core.object)).wp (fun _ _ => True)
      (Confined s.program.nextId (made.entersInto spec) made) made := by
    refine wp_fill (by rw [hnew]) (by rw [hnew]) fun outer houter => ?_
    rw [Universe.size_push]
    exact Nat.lt_succ_of_lt (hspec.outer outer houter)
  unfold buildClass makeClass
  rw [wp_bind, wp_get, wp_bind, wp_bind]
  show ((fill s.program.nextId spec (some s.registry.core.object)).onFault
    (drop [s.program.nextId]) >>= fun _ => pure _).wp _ _ made
  rw [wp_bind, wp_onFault]
  refine wp_mono hfill (fun _ _ _ => trivial) fun _ hfailed => hfailed.abandoned r hspec ?_ ?_ ?_ ?_
    <;> rfl

theorem declaring_of_entersInto {spec : ClassSpec} {outer : TypeId}
    (h : s.entersInto spec = some outer) : spec.declaring = some outer := by
  unfold entersInto at h
  split at h
  · exact h
  · cases h

/-- The entry in the list of the enclosing type is all that can have changed. -/
theorem Abandoned.untouched_iff {spec : ClassSpec} (h : s.Abandoned spec after)
    (hspec : s.Placed spec) :
    s.Untouched after ↔ s.entersInto spec = none := by
  constructor
  · intro huntouched
    cases hinto : s.entersInto spec with
    | none => rfl
    | some outer =>
      have houter := hspec.outer outer (declaring_of_entersInto hinto)
      have hsame := (h.types outer houter).symm.trans (huntouched.types outer houter)
      rw [if_pos hinto] at hsame
      have hsize := congrArg (fun r : TypeRecord => r.nested.size) hsame
      simp at hsize
  · refine fun hnone => ⟨h.listings, h.core, fun t ht => ?_⟩
    rw [h.types t ht, hnone, if_neg (Option.some_ne_none t).symm]

/-- Whatever step it is that fails, and whatever was made before it, a failed build leaves the
registry and the types as they were, up to the counters and the entry of an enclosed class in the
list of its enclosing type, which now names a type that is gone. There is such an entry, and then
something has changed, exactly if the class has an enclosing type and the base was accepted. -/
theorem buildClass_failed {spec : ClassSpec} {f : Fault} (hspec : s.Placed spec)
    (h : (buildClass spec).start s = (.error f, after)) :
    s.Abandoned spec after ∧ (s.Untouched after ↔ s.entersInto spec = none) := by
  have habandoned := (wp_iff.mp (wp_buildClass_abandoned hspec)).2 f after h
  exact ⟨habandoned, habandoned.untouched_iff hspec⟩

/-! ### A class with a method that has no body -/

/-- A new registry with a class that other classes can be enclosed in. -/
def outerSpace : TypeSpace :=
  ((buildClass ({ space := "App", name := "Outer" } : ClassSpec).isPublic).start (fresh {})).2

def innerSpec : ClassSpec :=
  (({ space := "App", name := "Inner" } : ClassSpec).nestedIn ⟨3⟩).method "Bare" {}

/-- What building it leaves behind. -/
def innerFailed : TypeSpace := ((buildClass innerSpec).start outerSpace).2

theorem start_innerSpec :
    ∃ f, (buildClass innerSpec).start outerSpace = (.error f, innerFailed) := by
  have hfails : ((buildClass innerSpec).start outerSpace).1.toOption.isNone = true := by
    decide +kernel
  unfold innerFailed
  revert hfails
  rcases (buildClass innerSpec).start outerSpace with ⟨f | v, after⟩
  · exact fun _ => ⟨f, rfl⟩
  · exact fun hfails => nomatch hfails

theorem placed_innerSpec : outerSpace.Placed innerSpec := by
  refine ⟨by decide +kernel, fun outer houter => ?_⟩
  obtain rfl : ⟨3⟩ = outer := Option.some.inj houter
  decide +kernel

theorem buildClass_failed_inner :
    innerFailed.registry.listings = outerSpace.registry.listings
    ∧ innerFailed.program.isPresent outerSpace.program.nextId = false
      ∧ innerFailed.program.record ⟨0⟩ = outerSpace.program.record ⟨0⟩
      ∧ (innerFailed.program.record ⟨3⟩).nested = #[outerSpace.program.nextId] := by
  obtain ⟨f, hrun⟩ := start_innerSpec
  obtain ⟨habandoned, -⟩ := buildClass_failed placed_innerSpec hrun
  have hinto : outerSpace.entersInto innerSpec = some ⟨3⟩ := by decide +kernel
  have hempty : (outerSpace.program.record ⟨3⟩).nested = #[] := by decide +kernel
  refine ⟨habandoned.listings, habandoned.gone, ?_, ?_⟩
  · rw [habandoned.types ⟨0⟩ (by decide +kernel), hinto, if_neg (by decide)]
  · rw [habandoned.types ⟨3⟩ (by decide +kernel), hinto, if_pos rfl, hempty]
    rfl

/-- A failed build leaves the registry and all types as they were. -/
def FailedBuildsLeaveNothing : Prop := ∀ (s : TypeSpace) (spec : ClassSpec) (f : Fault)
    (after : TypeSpace),
  s.Placed spec → (buildClass spec).start s = (.error f, after) → s.Untouched after

/-- The class that could not be built stays listed in its enclosing type. -/
theorem not_failedBuildsLeaveNothing : ¬ FailedBuildsLeaveNothing := by
  intro hleave
  obtain ⟨f, hrun⟩ := start_innerSpec
  have hsame := (hleave outerSpace innerSpec f innerFailed placed_innerSpec hrun).types ⟨3⟩
    (by decide +kernel)
  have hbefore : (outerSpace.program.record ⟨3⟩).nested = #[] := by decide +kernel
  have hafter : (innerFailed.program.record ⟨3⟩).nested = #[⟨4⟩] := by decide +kernel
  rw [hsame, hbefore] at hafter
  cases hafter

end TypeSpace

end TypeLoom
