import Mathlib.Data.List.Forall2
import TypeLoom.Proofs.ForwardingOverrides
import TypeLoom.Proofs.Handles
import TypeLoom.Proofs.Selections

/-!
# Constructors of proxies

A proxy begins with a copy of each constructor that subclasses can call. If no constructor is added,
the type that comes out has these constructors and no others. A selection among the public ones then
ends on the proxy as it ends on the type that the proxy is for, since the candidates are the same in
the same order.
-/

namespace TypeLoom

open Attempt List

namespace Universe

variable {u : Universe} {t s : TypeId} {supplied : List Signature} {C : MethodId → MethodId → Prop}

/-! ### Selections that end alike -/

/-- Both succeed, with constructors that correspond, or both find several that are the best, or
both find none. -/
inductive SameChoice (u : Universe) (t s : TypeId) (supplied : List Signature)
    (C : MethodId → MethodId → Prop) :
    Except Fault MethodId → Except Fault MethodId → Prop
  | chosen {copy source : MethodId} (h : C copy source) :
    SameChoice u t s supplied C (.ok copy) (.ok source)
  | ambiguous : SameChoice u t s supplied C (.error (u.ambiguous t supplied))
    (.error (u.ambiguous s supplied))
  | missing : SameChoice u t s supplied C
    (.error (u.missing t (".ctor(" ++ displaySignatures u supplied ++ ")")))
      (.error (u.missing s (".ctor(" ++ displaySignatures u supplied ++ ")")))

def inheritable (u : Universe) (t : TypeId) : List MethodId :=
  (u.constructorsOf t).filter fun c => (u.method c).access.openToSubclasses

theorem Agree.constructorsOf {size : Nat} {after : Universe} (ha : Agree size u after)
    (ht : t.index < size) :
    after.constructorsOf t = u.constructorsOf t := by
  have hcount : (after.record t).constructors.size = (u.record t).constructors.size := by
    simpa [outline, TypeRecord.outline] using congrArg (fun o : TypeOutline =>
      o.constructors.length) (ha t ht)
  rw [Universe.constructorsOf, Universe.constructorsOf, hcount]

theorem Agree.access {size : Nat} {after : Universe} {m : MethodId} (ha : Agree size u after)
    (hm : m.owner.index < size) :
    (after.method m).access = (u.method m).access :=
  congrArg (fun head : MethodOutline => Access.ofBits head.flags) (ha.head hm)

theorem Agree.inheritable {size : Nat} {after : Universe} (ha : Agree size u after)
    (ht : t.index < size) :
    after.inheritable t = u.inheritable t := by
  rw [Universe.inheritable, Universe.inheritable, ha.constructorsOf ht]
  refine List.filter_congr fun c hc => ?_
  rw [ha.access (by rwa [u.owner_of_mem_constructorsOf hc])]

/-- It takes what the other one takes, and it is as accessible as a subclass may make it. -/
structure Inherits (u : Universe) (copy source : MethodId) : Prop where
  access : Descriptor.inheritedAccess? (u.method source).access = some (u.method copy).access
  types : (u.method copy).signature.types = (u.method source).signature.types

theorem inheritedAccess?_eq_isPublic {access access' : Access}
    (h : Descriptor.inheritedAccess? access = some access') :
    access' = .isPublic ↔ access = .isPublic := by
  revert h
  cases access <;> cases access' <;> decide

/-- The candidates correspond, with the same scores. Constructors that were left out are not
public. -/
theorem forall₂_candidates (h : Forall₂ C (u.constructorsOf t) (u.inheritable s))
    (hinherits : ∀ copy source, C copy source → u.Inherits copy source) :
    Forall₂ (fun x y => x.1 = y.1 ∧ C x.2 y.2 ∧ (u.method x.2).access = (u.method y.2).access)
      (u.constructorCandidates t supplied false) (u.constructorCandidates s supplied false) := by
  have hleft : u.constructorCandidates s supplied false = (u.inheritable s).filterMap fun c =>
      if false || (u.method c).access == .isPublic then
        (u.scoreParameters (u.method c).signature.types supplied).map fun score => (score, c)
      else none := by
    rw [constructorCandidates, inheritable, List.filterMap_filter]
    refine List.filterMap_congr fun c _ => ?_
    cases (u.method c).access <;> rfl
  rw [hleft, constructorCandidates]
  refine rel_filterMap (fun copy source hC => ?_) h
  obtain ⟨haccess, htypes⟩ := hinherits copy source hC
  have hpublic := inheritedAccess?_eq_isPublic haccess
  by_cases hsource : (u.method source).access = .isPublic
  · rw [htypes, hpublic.mpr hsource, hsource]
    cases u.scoreParameters (u.method source).signature.types supplied with
    | none => exact .none
    | some score => exact .some ⟨rfl, hC, (hpublic.mpr hsource).trans hsource.symm⟩
  · simp only [Bool.false_or, beq_iff_eq, hsource, hpublic, if_false]
    exact .none

def Choice.Alike (C : MethodId → MethodId → Prop) (first second : Choice) : Prop :=
  first.score = second.score ∧ first.tied = second.tied ∧ C first.constructor second.constructor

theorem alike_consider {first second : Option Choice} (h : Option.Rel (Choice.Alike C) first second)
    {x y : Nat × MethodId} (hscore : x.1 = y.1) (hC : C x.2 y.2) :
    Option.Rel (Choice.Alike C) (Choice.consider first x) (Choice.consider second y) := by
  obtain ⟨score, c⟩ := x
  obtain ⟨score', c'⟩ := y
  obtain rfl : score = score' := hscore
  cases h with
  | none => exact .some ⟨rfl, rfl, hC⟩
  | @some best best' halike =>
    obtain ⟨hbest, htied, hchosen⟩ := halike
    simp only [Choice.consider, hbest]
    split
    · exact .some ⟨hbest, htied, hchosen⟩
    · split
      · exact .some ⟨rfl, rfl, hchosen⟩
      · exact .some ⟨rfl, rfl, hC⟩

/-- Where the candidates correspond, the selections end alike. -/
theorem sameChoice_of_forall₂ (ht : (u.record t).isAbstract = false)
    (hs : (u.record s).isAbstract = false)
    (h : Forall₂ (fun x y => x.1 = y.1 ∧ C x.2 y.2) (u.constructorCandidates t supplied false)
      (u.constructorCandidates s supplied false)) :
    u.SameChoice t s supplied C (u.selectConstructor t supplied false)
        (u.selectConstructor s supplied false) := by
  have hend : Option.Rel (Choice.Alike C) ((u.constructorCandidates t supplied false).foldl
    Choice.consider none)
      ((u.constructorCandidates s supplied false).foldl Choice.consider none) :=
    rel_foldl (P := Option.Rel (Choice.Alike C)) (fun _ _ hchoice _ _ hitem =>
      alike_consider hchoice hitem.1 hitem.2) .none h
  rw [selectConstructor, selectConstructor, ht, hs, if_neg Bool.false_ne_true,
    if_neg Bool.false_ne_true]
  generalize (u.constructorCandidates t supplied false).foldl Choice.consider none = first at hend ⊢
  generalize (u.constructorCandidates s supplied false).foldl Choice.consider none
    = second at hend ⊢
  cases hend with
  | none => exact .missing
  | @some best best' halike =>
    obtain ⟨-, htied, hchosen⟩ := halike
    dsimp only
    rw [htied]
    split
    · exact .ambiguous
    · exact .chosen hchosen

end Universe

/-! ### Copies in a draft -/

structure DraftMethod.CopyOf (u : Universe) (own : DraftMethod) (source : MethodId) : Prop where
  access : Descriptor.inheritedAccess? (u.method source).access = some own.access
  signature : own.signature = (u.method source).signature
  body : own.body = some (.callBase .this (.member source)
    (Expr.forwardArguments (u.method source).signature.arity))

namespace Descriptor

theorem copyOf_forwardingConstructor (u : Universe) (handle : MethodHandle) {source : MethodId}
    {access : Access} (h : inheritedAccess? (u.method source).access = some access) :
    (forwardingConstructor u handle source access).CopyOf u source := by
  have haccess : ∀ access : Access, Access.ofBits
      (withAccess (MethodFlags.hideBySig ||| MethodFlags.specialName ||| MethodFlags.rtSpecialName)
        access) = access := by
    intro access
    cases access <;> decide
  exact ⟨h.trans (congrArg some (haccess access).symm), rfl, rfl⟩

/-- A proxy has a copy of each constructor that subclasses can call, in their order. -/
theorem forall₂_forwardingConstructors (u : Universe) (handle : TypeHandle) (requested : TypeId) :
    Forall₂ (DraftMethod.CopyOf u)
    (forwardingConstructors u handle requested).toList (u.inheritable requested) := by
  suffices hgo : ∀ (sources : List MethodId) (made : Array DraftMethod) (done : List MethodId),
      Forall₂ (DraftMethod.CopyOf u) made.toList done →
        Forall₂ (DraftMethod.CopyOf u) (sources.foldl (addForwarding u handle) made).toList
          (done ++ sources.filter fun c => (u.method c).access.openToSubclasses) from
    hgo (u.constructorsOf requested) #[] [] .nil
  intro sources
  induction sources with
  | nil =>
    intro made done h
    rwa [List.filter_nil, List.append_nil]
  | cons source sources ih =>
    intro made done h
    rw [List.foldl_cons, addForwarding, List.filter_cons]
    cases haccess : inheritedAccess? (u.method source).access with
    | none =>
      have hclosed : (u.method source).access.openToSubclasses = false := by
        revert haccess
        cases (u.method source).access <;> decide
      rw [hclosed]
      exact ih made done h
    | some access =>
      have hopen : (u.method source).access.openToSubclasses = true := by
        revert haccess
        cases (u.method source).access <;> cases access <;> decide
      rw [hopen, if_pos rfl, List.append_cons]
      refine ih _ _ ?_
      rw [Array.toList_push]
      exact rel_append h (.cons (copyOf_forwardingConstructor u _ haccess) .nil)

theorem Extends.exists_copy {u : Universe} {proxy : TypeHandle} {requested : TypeId} {name : String}
    {d : Descriptor} {i : Nat} {source : MethodId}
    (h : (Descriptor.proxy u proxy requested name).Extends d)
    (hsource : (u.inheritable requested)[i]? = some source) :
    ∃ own own', (forwardingConstructors u proxy requested)[i]? = some own
      ∧ d.constructors[i]? = some own' ∧ own.CopyOf u source
      ∧ own.Amended own' := by
  have hcopies := forall₂_forwardingConstructors u proxy requested
  obtain ⟨hi, hget⟩ := List.getElem?_eq_some_iff.mp hsource
  have hi' : i < (forwardingConstructors u proxy requested).toList.length := by
    rwa [hcopies.length_eq]
  have hcopy := (forall₂_iff_get.mp hcopies).2 i hi' hi
  rw [List.get_eq_getElem, List.get_eq_getElem, hget, Array.getElem_toList] at hcopy
  have hown := Array.getElem?_eq_getElem (Array.length_toList ▸ hi')
  obtain ⟨own', hown', hamended⟩ := h.constructors i _ hown
  exact ⟨_, own', hown, hown', hcopy, hamended⟩

end Descriptor

/-! ### Constructors that come out of a batch -/

namespace Lower

variable {e : Emitted}

theorem signature_of_settled {s : Signature} {size : Nat} (h : s.Settled size) :
    signature e s = .ok s := by
  cases s with
  | draft _ => exact h.elim
  | _ => rfl

theorem methodSignature_of_settled {s : MethodSignature} {size : Nat} (h : s.Settled size) :
    methodSignature e s = .ok s := by
  have hparameters : ∀ parameters : List Parameter, (∀ p ∈ parameters, p.type.Settled size) →
      parameters.mapM (parameter e) = .ok parameters := by
    intro parameters hsettled
    induction parameters with
    | nil => rfl
    | cons p parameters ih =>
      obtain ⟨hfirst, hrest⟩ := List.forall_mem_cons.mp hsettled
      rw [List.mapM_cons, parameter, signature_of_settled hfirst, ih hrest]
      rfl
  rw [methodSignature, hparameters s.parameters fun p hp => h.2 p.type (List.mem_map_of_mem hp),
    signature_of_settled h.1]
  rfl

/-- The last item of a block is lowered to itself, and the others before it. -/
theorem exists_of_block_concat {items : List Expr} {last lowered : Expr}
    (hlast : expr e last = .ok last) (h : expr e (.block (items ++ [last])) = .ok lowered) :
    ∃ initial, exprAll e items = .ok initial ∧ lowered = .block (initial ++ [last]) := by
  rw [expr] at h
  obtain ⟨made, hmade, hend⟩ := bind_eq_ok.mp h
  obtain rfl := Except.ok.inj hend
  rw [exprAll_eq_mapM, List.mapM_append] at hmade
  obtain ⟨initial, hinitial, hrest⟩ := bind_eq_ok.mp hmade
  have hone : [last].mapM (expr e) = .ok [last] := by
    rw [List.mapM_cons, hlast]
    rfl
  rw [hone] at hrest
  obtain rfl := Except.ok.inj hrest
  exact ⟨initial, by rw [exprAll_eq_mapM, hinitial], rfl⟩

end Lower

/-- A finished type has the constructors that came out of those of a descriptor. -/
structure Emitted.Constructs (e : Emitted) (u : Universe) (d : Descriptor) (t : TypeId) : Prop where
  row : e.types.find? d.handle = some t
  complete : (u.record t).complete = true
  count : (u.record t).constructors.size = d.constructors.size
  flags : ∀ (i : Nat) own, d.constructors[i]? = some own →
    (u.method ⟨t, .constructor i⟩).flags = own.flags
  signature : ∀ (i : Nat) own, d.constructors[i]? = some own →
    Lower.methodSignature e own.signature = .ok (u.method ⟨t, .constructor i⟩).signature
  body : ∀ (i : Nat) own, d.constructors[i]? = some own →
    ∃ lowered, (u.method ⟨t, .constructor i⟩).body = some lowered
    ∧ Lower.expr e (d.constructorBody own) = .ok lowered

theorem Emitted.Constructs.keep {e : Emitted} {u u' : Universe} {d : Descriptor} {t : TypeId}
    (h : e.Constructs u d t) (hkeeps : u.KeepsFinished u') : e.Constructs u' d t := by
  obtain ⟨nested, hrecord⟩ := hkeeps t h.complete
  have hmethod : ∀ i, u'.method ⟨t, .constructor i⟩ = u.method ⟨t, .constructor i⟩ := fun i => by
    rw [Universe.method, Universe.method, Universe.method?, Universe.method?, hrecord]
    rfl
  refine ⟨h.row, ?_, ?_, ?_, ?_, ?_⟩
  · rw [hrecord]
    exact h.complete
  · rw [hrecord]
    exact h.count
  all_goals simp only [hmethod]
  · exact h.flags
  · exact h.signature
  · exact h.body

theorem Emitted.Constructs.inherits {u after : Universe} {e : Emitted} {d : Descriptor} {t : TypeId}
    {own own' : DraftMethod} {source : MethodId} {i : Nat} (h : e.Constructs after d t)
    (hown' : d.constructors[i]? = some own') (hcopy : own.CopyOf u source)
    (hamended : own.Amended own') (hu : u.WellFormed) (hsource : (u.method? source).isSome)
    (ha : Universe.Agree u.types.size u after) : after.Inherits ⟨t, .constructor i⟩ source := by
  have hlt := u.lt_of_isSome_method? source hsource
  refine ⟨?_, ?_⟩
  · have hmade : (after.method ⟨t, .constructor i⟩).access = own'.access :=
      congrArg Access.ofBits (h.flags i own' hown')
    rw [ha.access hlt, hcopy.access, hmade, hamended.access]
  · have hmade := h.signature i own' hown'
    rw [hamended.signature, hcopy.signature,
      Lower.methodSignature_of_settled (hu.signature_settled hsource)] at hmade
    rw [← Except.ok.inj hmade, ha.signature hlt]

theorem Emitted.Constructs.body_of_copy {u after : Universe} {e : Emitted} {d : Descriptor}
    {t : TypeId} {own own' : DraftMethod} {source : MethodId} {i : Nat} (h : e.Constructs after d t)
    (hown' : d.constructors[i]? = some own') (hcopy : own.CopyOf u source)
    (hsame : own'.body = own.body) :
    ∃ initial, Lower.exprAll e d.initializations.toList = .ok initial
      ∧ (after.method ⟨t, .constructor i⟩).body = some (.block (initial ++
        [.callBase .this (.member source)
          (Expr.forwardArguments (u.method source).signature.arity)])) := by
  obtain ⟨lowered, hlowered, hlower⟩ := h.body i own' hown'
  rw [Descriptor.constructorBody, hsame, hcopy.body, Option.toList_some] at hlower
  obtain ⟨initial, hinitial, rfl⟩ :=
    Lower.exists_of_block_concat (Lower.expr_forwarding source _) hlower
  exact ⟨initial, hinitial, hlowered⟩

namespace Production

theorem wp_generate_constructs {b : Batch} {h : TypeHandle} {d : Descriptor}
    (objectType : TypeId) (w : Workshop) (hwf : b.WellFormed) (hwhole : b.Whole)
    (hd : b.find? h = some d) :
    (generate objectType).wp (fun g after => ∃ t, g.emitted.Constructs after.program d t) (fun _ =>
      True)
      { batch := b, workshop := w } := by
  refine wp_mono (wp_generate_finished (G := False) objectType hwf hwhole w False.elim) ?_
    fun _ _ => trivial
  rintro g p ⟨P, hfor, hfinished⟩
  have hshown := hfinished.shown hwf hfor hd
  have hmethod : ∀ (i : Nat) r, p.program.method? ⟨P.layout.place h, .constructor i⟩ = some r →
      p.program.method ⟨P.layout.place h, .constructor i⟩ = r := fun i r hr => by
        rw [Universe.method, hr, Option.getD_some]
  refine ⟨P.layout.place h, hshown.row, hshown.complete, hshown.constructorCount, ?_, ?_, ?_⟩
  · intro i own hown
    obtain ⟨-, r, hr, -, hflags, -⟩ := hshown.constructors i own hown
    rw [hmethod i r hr, hflags]
  · intro i own hown
    obtain ⟨-, r, hr, -, -, hsignature⟩ := hshown.constructors i own hown
    rw [hmethod i r hr, hsignature]
  · intro i own hown
    have hhandle : own.handle = ⟨h, .constructor i⟩ := ((hwf h d hd).constructors i own hown).1
    have hqueued : .body (P.layout.place h) ⟨P.layout.place h, .constructor i⟩
        (d.constructorBody own) ∈ d.queued P.layout := by
      refine Descriptor.mem_queued.mpr (.inl ⟨own, Array.mem_of_getElem? hown, ?_⟩)
      rw [DraftMethod.queuedBody, Layout.placeMethod, hhandle]
    obtain ⟨r, lowered, hr, hlowered, hlower⟩ := hfinished.queued_body hwf hfor hd hqueued
    exact ⟨lowered, by rw [hmethod i r hr, hlowered], hlower⟩

end Production

/-! ### Batches in realms -/

namespace World

variable {w : World} {place : Nat} {b : Batch}

theorem exists_batch_after (move : Move) (hb : w.batches[place]? = some b) :
    ∃ b', (w.after move).batches[place]? = some b' ∧ b.Later b' := by
  have hput : ∀ (other : Nat) (made : Batch), (∀ old, w.batches[other]? = some old →
    Batch.Step old made) →
      ∃ b', (w.batches.setIfInBounds other made)[place]? = some b' ∧ b.Later b' := by
    intro other made hstep
    rw [Array.getElem?_setIfInBounds]
    by_cases heq : other = place
    · subst heq
      rw [if_pos rfl, if_pos (Array.getElem?_eq_some_iff.mp hb).1]
      exact ⟨made, rfl, .single (hstep b hb)⟩
    · rw [if_neg heq]
      exact ⟨b, hb, .refl⟩
  cases move with
  | build spec => exact ⟨b, hb, .refl⟩
  | openBatch =>
    refine ⟨b, ?_, .refl⟩
    rw [World.after, Array.getElem?_push,
      if_neg (Nat.ne_of_lt (Array.getElem?_eq_some_iff.mp hb).1), hb]
  | propose other requested name =>
    simp only [World.after]
    cases hother : w.batches[other]? with
    | none => exact ⟨b, hb, .refl⟩
    | some old =>
      refine hput other _ fun found hfound => ?_
      obtain rfl : old = found := Option.some.inj (hother.symm.trans hfound)
      exact .proxy w.program requested name old
  | edit other e =>
    simp only [World.after]
    cases hother : w.batches[other]? with
    | none => exact ⟨b, hb, .refl⟩
    | some old =>
      refine hput other _ fun found hfound => ?_
      obtain rfl : old = found := Option.some.inj (hother.symm.trans hfound)
      exact .edit w.program e old
  | generate other output =>
    simp only [World.after]
    cases hother : w.batches[other]? with
    | none => exact ⟨b, hb, .refl⟩
    | some old =>
      refine hput other _ fun found hfound => ?_
      obtain rfl : old = found := Option.some.inj (hother.symm.trans hfound)
      exact .generate w.space.registry.core.object { space := w.space, output } old

end World

namespace Realm

open Universe World

variable {r later last : Realm} {through into place : Nat} {requested : TypeId} {name : String}
  {proxy : TypeHandle}
  {output : Array TypeId} {g : Generated} {b : Batch}

theorem Later.exists_batch (h : Later r later) (hb : r.batches[place]? = some b) :
    ∃ b', later.batches[place]? = some b' ∧ b.Later b' := by
  induction h with
  | refl => exact ⟨b, hb, .refl⟩
  | @tail mid after _ hstep ih =>
    obtain ⟨b₁, hb₁, hearlier⟩ := ih
    obtain ⟨turn, -, rfl⟩ := hstep
    cases turn with
    | establish => exact ⟨b₁, hb₁, hearlier⟩
    | move through move =>
      simp only [Realm.after]
      cases hregistry : mid.registries[through]? with
      | none => exact ⟨b₁, hb₁, hearlier⟩
      | some registry =>
        obtain ⟨b₂, hb₂, hlater⟩ := exists_batch_after (w := mid.view registry) move hb₁
        exact ⟨b₂, hb₂, hearlier.trans hlater⟩

/-! ### Proxies in realms -/

def draft? (r : Realm) (place : Nat) (t : TypeHandle) : Option Descriptor :=
  r.batches[place]?.bind (·.find? t)

/-- The handle of a proxy that is drafted through a registry. -/
def proposed? (r : Realm) (through place : Nat) (requested : TypeId) (name : String) :
    Option TypeHandle :=
  r.registries[through]?.bind fun _ => r.batches[place]?.map fun b =>
    (b.createProxy r.program requested name).1

/-- A proxy was drafted, and its batch was generated when it had no further constructor. Before
and after the generation anything else may have happened. -/
structure ProxyRun (r later last : Realm) (through into place : Nat) (requested : TypeId)
    (name : String) (proxy : TypeHandle) (output : Array TypeId) (g : Generated) : Prop where
  reachable : Reachable r
  present : r.program.isPresent requested = true
  proposed : r.proposed? through place requested name = some proxy
  moves : Later (r.after (.move through (.propose place requested name))) later
  unextended : (later.draft? place proxy).map (·.constructors.size)
    = ((r.after (.move through (.propose place requested name))).draft? place proxy).map
    (·.constructors.size)
  generated : later.outcome? into place output = some (.ok g)
  rest : Later (later.after (.move into (.generate place output))) last

theorem exists_proxy (h : r.proposed? through place requested name = some proxy) :
    ∃ b, (r.after (.move through (.propose place requested name))).batches[place]? = some b
      ∧ b.find? proxy = some (.proxy r.program proxy requested name) := by
  obtain ⟨registry, hregistry, hbatch⟩ := Option.bind_eq_some_iff.mp h
  obtain ⟨b, hb, rfl⟩ := Option.map_eq_some_iff.mp hbatch
  have hview : (r.view registry).batches[place]? = some b := hb
  refine ⟨(b.createProxy r.program requested name).2, ?_,
    (Batch.find?_push b ⟨b.types.size⟩ _).trans (if_pos rfl)⟩
  rw [after_move hregistry]
  simp only [World.after, hview]
  exact Array.getElem?_setIfInBounds_self_of_lt (Array.getElem?_eq_some_iff.mp hb).1

/-- When its batch is generated, the proxy has the constructors that it was made with, and no
others. -/
theorem ProxyRun.exists_later (h : ProxyRun r later last through into place requested name
      proxy output g) :
    ∃ b d, later.batches[place]? = some b ∧ b.find? proxy = some d
      ∧ (Descriptor.proxy r.program proxy requested name).Extends d
      ∧ d.constructors.size = (r.program.inheritable requested).length := by
  obtain ⟨b, hb, hd⟩ := exists_proxy h.proposed
  obtain ⟨hupright, -⟩ := step_upright h.reachable.upright
    ⟨.move through (.propose place requested name), h.present, rfl⟩
  obtain ⟨-, -, hdrafted⟩ := hupright.batches place b hb
  obtain ⟨b', hb', hlater⟩ := h.moves.exists_batch hb
  obtain ⟨d', hd', hextends⟩ := hlater.extends hdrafted proxy _ hd
  refine ⟨b', d', hb', hd', hextends, ?_⟩
  have hcount := h.unextended
  rw [draft?, draft?, hb', hb, Option.bind_some, Option.bind_some, hd', hd, Option.map_some,
    Option.map_some] at hcount
  rw [Option.some.inj hcount,
    ← (Descriptor.forall₂_forwardingConstructors r.program proxy requested).length_eq,
    Array.length_toList]
  rfl

theorem Upright.exists_constructs (h : r.Upright) {d : Descriptor} (hb : r.batches[place]? = some b)
    (hd : b.find? proxy = some d) (hout : r.outcome? into place output = some (.ok g)) :
    ∃ t, g.emitted.Constructs (r.after (.move into (.generate place output))).program d t := by
  obtain ⟨-, -, hdrafted⟩ := h.batches place b hb
  obtain ⟨objectType, w, p, hrun, hprogram⟩ := exists_generation hb hout
  rw [hprogram]
  exact wp_ok (Production.wp_generate_constructs objectType w hdrafted.wellFormed hdrafted.whole hd)
    hrun

/-- The constructor came out of the copy of the other one: of the constructors that subclasses
can call this stands at the same place. It takes the same. If nobody has replaced its body, it
runs what initializes instances and then calls the other one, not virtually, on the same object
and with all of its arguments. -/
structure CameOfCopy (drafted later last : Realm) (place : Nat) (proxy : TypeHandle) (g : Generated)
    (requested t : TypeId) (copy source : MethodId) : Prop where
  position : ∃ i, copy = ⟨t, .constructor i⟩
    ∧ (last.program.inheritable requested)[i]? = some source
  inherits : last.program.Inherits copy source
  body : (later.draftMethod? place ⟨proxy, copy.slot⟩).bind (·.body)
    = (drafted.draftMethod? place ⟨proxy, copy.slot⟩).bind (·.body) →
    ∃ d initial, later.draft? place proxy = some d
    ∧ Lower.exprAll g.emitted d.initializations.toList = .ok initial
      ∧ (last.program.method copy).body = some (.block (initial ++
        [.callBase .this (.member source)
          (Expr.forwardArguments (last.program.method source).signature.arity)]))
  calls : (last.program.method source).signature.arity ≤ 65536 →
    ∀ {ω : Type} (watch : Occurrence → ω → ω) (below : Calls ω) (o : ObjectRef)
    (arguments : List Value) (s : Watched ω),
      arguments.length = (last.program.method source).signature.arity →
        (Evaluation.evaluate last.program watch below { this := some o, arguments }
          (.callBase .this (.member source)
            (Expr.forwardArguments (last.program.method source).signature.arity))).start s
          = (below.invoke source (some o) arguments).start s

theorem draftConstructor?_of_find {d : Descriptor} {own : DraftMethod} {i : Nat}
    (hb : r.batches[place]? = some b) (hd : b.find? proxy = some d) (hhandle : d.handle = proxy)
    (hown : d.constructors[i]? = some own) :
    r.draftMethod? place ⟨proxy, .constructor i⟩ = some own := by
  rw [draftMethod?, hb, Option.bind_some, hd, Option.bind_some, Descriptor.method?,
    if_pos hhandle.symm]
  exact hown

theorem ProxyRun.agree (h : ProxyRun r later last through into place requested name
      proxy output g) :
    Universe.Agree r.program.types.size r.program last.program := by
  obtain ⟨hproposed, hsince₁⟩ :=
    step_upright h.reachable.upright ⟨.move through (.propose place requested name), h.present, rfl⟩
  obtain ⟨hlater, hsince₂⟩ := h.moves.upright hproposed
  obtain ⟨hafter, hsince₃⟩ :=
    step_upright hlater ⟨.move into (.generate place output), trivial, rfl⟩
  obtain ⟨-, hsince₄⟩ := h.rest.upright hafter
  exact (hsince₁.trans (hsince₂.trans (hsince₃.trans hsince₄))).agree

theorem ProxyRun.exists_constructs (h : ProxyRun r later last through into place requested name
      proxy output g) :
    ∃ b d t, later.batches[place]? = some b ∧ b.find? proxy = some d
    ∧ (Descriptor.proxy r.program proxy requested name).Extends d
      ∧ d.constructors.size = (r.program.inheritable requested).length
      ∧ g.emitted.Constructs last.program d t := by
  obtain ⟨b, d, hb, hd, hextends, hcount⟩ := h.exists_later
  obtain ⟨hproposed, -⟩ :=
    step_upright h.reachable.upright ⟨.move through (.propose place requested name), h.present, rfl⟩
  obtain ⟨hlater, -⟩ := h.moves.upright hproposed
  obtain ⟨hafter, -⟩ := step_upright hlater ⟨.move into (.generate place output), trivial, rfl⟩
  obtain ⟨-, hsince⟩ := h.rest.upright hafter
  obtain ⟨t, ht⟩ := hlater.exists_constructs hb hd h.generated
  exact ⟨b, d, t, hb, hd, hextends, hcount, ht.keep hsince.finished⟩

/-- The constructors of the type that came out correspond to those that subclasses can call. -/
theorem ProxyRun.forall₂_constructors (h : ProxyRun r later last through into place requested name
      proxy output g) :
    ∃ t, g.emitted.types.find? proxy = some t
      ∧ Forall₂ (CameOfCopy (r.after (.move through (.propose place requested name))) later last
        place proxy g requested t)
        (last.program.constructorsOf t) (last.program.inheritable requested) := by
  obtain ⟨b, d, t, hb, hd, hextends, hcount, hmade⟩ := h.exists_constructs
  obtain ⟨b₀, hb₀, hd₀⟩ := exists_proxy h.proposed
  have hlt := r.program.lt_of_isPresent requested h.present
  have hsources := h.agree.inheritable hlt
  have hhandle : d.handle = proxy := hextends.handle
  refine ⟨t, hhandle ▸ hmade.row, ?_⟩
  refine forall₂_iff_get.mpr ⟨?_, fun i hi hi' => ?_⟩
  · rw [Universe.constructorsOf, List.length_map, List.length_range, hmade.count, hcount, hsources]
  have hcopied : (last.program.constructorsOf t).get ⟨i, hi⟩ = ⟨t, .constructor i⟩ := by
    simp [Universe.constructorsOf]
  generalize hsource : (last.program.inheritable requested).get ⟨i, hi'⟩ = source
  have hplaced : (last.program.inheritable requested)[i]? = some source := by
    rw [List.getElem?_eq_getElem hi', ← hsource, List.get_eq_getElem]
  obtain ⟨own, own', hown, hown', hcopy, hamended⟩ := hextends.exists_copy (hsources ▸ hplaced)
  have hmem := (List.mem_filter.mp (List.mem_of_getElem? hplaced)).1
  have howner := last.program.owner_of_mem_constructorsOf hmem
  have hsome := last.program.isSome_of_mem_constructorsOf hmem
  rw [hcopied]
  refine ⟨⟨i, rfl, hplaced⟩, ?_, fun hsame => ?_, fun hfits ω watch below o arguments s hlength =>
    ?_⟩
  · refine hmade.inherits hown' hcopy hamended h.reachable.upright.wellFormed ?_ h.agree
    rwa [← h.agree.isSome_method? (by rwa [howner])]
  · rw [draftConstructor?_of_find hb hd hhandle hown',
      draftConstructor?_of_find hb₀ hd₀ rfl hown] at hsame
    obtain ⟨initial, hinitial, hbody⟩ := hmade.body_of_copy hown' hcopy hsame
    refine ⟨d, initial, by rw [draft?, hb, Option.bind_some, hd], hinitial, ?_⟩
    rw [hbody, h.agree.signature (by rwa [howner])]
  · rw [← hlength]
    refine start_evaluate_callBase ?_ hsome (hlength ▸ hfits) s
    rw [howner, h.agree.isPresent hlt]
    exact h.present

/-- Selections among the public constructors end on the type that came out as they end on the
type that the proxy was drafted for: with constructors that are copy and source, with several
that are the best, or with none. The copy is as accessible and takes the same; if nobody has
replaced its body, it runs what initializes instances and calls the source. -/
theorem proxy_keeps_overloads (h : ProxyRun r later last through into place requested name
      proxy output g) :
    ∃ t, g.emitted.types.find? proxy = some t
      ∧ ((last.program.record requested).isAbstract = false →
        (last.program.record t).isAbstract = false →
        ∀ supplied, last.program.SameChoice t requested supplied
          (fun copy source =>
            CameOfCopy (r.after (.move through (.propose place requested name))) later last place
              proxy g requested t copy source
              ∧ (last.program.method copy).access = (last.program.method source).access)
          (last.program.selectConstructor t supplied false)
              (last.program.selectConstructor requested supplied false)) := by
  obtain ⟨t, hrow, hcorrespond⟩ := h.forall₂_constructors
  refine ⟨t, hrow, fun hrequested ht supplied => sameChoice_of_forall₂ ht hrequested ?_⟩
  exact forall₂_candidates hcorrespond fun copy source hcame => hcame.inherits

/-- A class that can be made from a number or from any object, and by itself also from a string. -/
def pointClass : ClassSpec :=
  let constructed : MethodSpec := { body := .fixed .empty }
  ((({ space := "App", name := "Point" } : ClassSpec).isPublic.constructor
    ((constructed.access .isPrivate).parameter "s" .string)).constructor
    (constructed.parameter "x" .i4)).constructor (constructed.parameter "o" .object)

def pointProxy : Realm :=
  (run {} (throughOne [.build pointClass, .openBatch])).after
    (.move 0 (.propose 0 ⟨3⟩ "Point_Proxy_1"))

theorem proxyRun_point (hmoves : Later pointProxy later)
    (hcount : (later.draft? 0 ⟨0⟩).map (·.constructors.size)
      = (pointProxy.draft? 0 ⟨0⟩).map (·.constructors.size))
    (hout : later.outcome? 0 0 #[] = some (.ok g)) :
    ProxyRun (run {} (throughOne [.build pointClass, .openBatch])) later
      (later.after (.move 0 (.generate 0 #[]))) 0 0 0 ⟨3⟩
      "Point_Proxy_1" ⟨0⟩ #[] g :=
  ⟨later_run _ (by decide +kernel), by
    decide +kernel, by decide +kernel, hmoves, hcount, hout, .refl⟩

set_option maxRecDepth 10000 in
/-- For a number the class takes its second constructor, and its proxy takes the copy of that,
which is its first one. -/
theorem proxy_keeps_overloads_point :
    ∃ g t, pointProxy.outcome? 0 0 #[] = some (.ok g) ∧ g.emitted.types.find? ⟨0⟩ = some t
      ∧ ∃ copy, (pointProxy.after (.move 0 (.generate 0 #[]))).program.selectConstructor t [.i4]
      false = .ok copy
        ∧ CameOfCopy pointProxy pointProxy (pointProxy.after (.move 0 (.generate 0 #[]))) 0 ⟨0⟩ g
        ⟨3⟩ t copy ⟨⟨3⟩, .constructor 1⟩ := by
  have hok : (pointProxy.outcome? 0 0 #[]).map (fun result => result.toOption.map fun g =>
    g.emitted.types.find? ⟨0⟩)
      = some (some (some ⟨4⟩)) := by decide +kernel
  obtain ⟨result, hout, hrow⟩ := Option.map_eq_some_iff.mp hok
  cases result with
  | error f => cases hrow
  | ok g =>
    simp only [Except.toOption, Option.map_some, Option.some.injEq] at hrow
    obtain ⟨t, ht, hsame⟩ := proxy_keeps_overloads (proxyRun_point .refl rfl hout)
    obtain rfl : t = ⟨4⟩ := Option.some.inj (ht.symm.trans hrow)
    have hchoice := hsame (by decide +kernel) (by decide +kernel) [.i4]
    have hsource : (pointProxy.after (.move 0 (.generate 0 #[]))).program.selectConstructor ⟨3⟩
      [.i4] false
        = .ok ⟨⟨3⟩, .constructor 1⟩ := by decide +kernel
    have hcopy : (pointProxy.after (.move 0 (.generate 0 #[]))).program.selectConstructor ⟨4⟩ [.i4]
      false
        = .ok ⟨⟨4⟩, .constructor 0⟩ := by decide +kernel
    rw [hsource, hcopy] at hchoice
    cases hchoice with
    | chosen h => exact ⟨g, ⟨4⟩, hout, ht, _, hcopy, h.1⟩

/-- The copies call their sources whatever is done to the proxy, short of adding constructors. -/
def CopiesCallTheirSources : Prop :=
  ∀ (r later last : Realm) (through into place : Nat) (requested : TypeId) (name : String)
    (proxy : TypeHandle)
    (output : Array TypeId) (g : Generated), ProxyRun r later last through into place requested name
    proxy output g →
    ∃ t, g.emitted.types.find? proxy = some t
      ∧ ((last.program.record requested).isAbstract = false →
        (last.program.record t).isAbstract = false →
        ∀ supplied, last.program.SameChoice t requested supplied
          (fun copy source => (last.program.method copy).access
            = (last.program.method source).access
            ∧ (last.program.method copy).signature.types
            = (last.program.method source).signature.types
            ∧ ∃ d initial, later.draft? place proxy = some d
              ∧ Lower.exprAll g.emitted d.initializations.toList = .ok initial
              ∧ (last.program.method copy).body = some (.block (initial ++
                [.callBase .this (.member source)
                  (Expr.forwardArguments (last.program.method source).signature.arity)])))
          (last.program.selectConstructor t supplied false)
            (last.program.selectConstructor requested supplied false))

def replacedCopy : Realm :=
  pointProxy.after (.move 0 (.edit 0 (.setMethodBody ⟨0⟩ ⟨⟨0⟩, .constructor 0⟩ .empty)))

def isIdle : Expr → Bool
  | .block [.block []] => true
  | _ => false

set_option maxRecDepth 10000 in
/-- With another body the copy calls nothing. -/
theorem not_copiesCallTheirSources : ¬ CopiesCallTheirSources := by
  intro hcalls
  have hok : (replacedCopy.outcome? 0 0 #[]).map (fun result => result.toOption.map fun g =>
    g.emitted.types.find? ⟨0⟩)
      = some (some (some ⟨4⟩)) := by decide +kernel
  obtain ⟨result, hout, hrow⟩ := Option.map_eq_some_iff.mp hok
  cases result with
  | error f => cases hrow
  | ok g =>
    simp only [Except.toOption, Option.map_some, Option.some.injEq] at hrow
    have hmoves : Later pointProxy replacedCopy := .single ⟨_, by decide +kernel, rfl⟩
    obtain ⟨t, ht, hsame⟩ :=
      hcalls _ _ _ _ _ _ _ _ _ _ g (proxyRun_point hmoves (by decide +kernel) hout)
    obtain rfl : t = ⟨4⟩ := Option.some.inj (ht.symm.trans hrow)
    have hchoice := hsame (by decide +kernel) (by decide +kernel) [.i4]
    have hsource : (replacedCopy.after (.move 0 (.generate 0 #[]))).program.selectConstructor ⟨3⟩
      [.i4] false
        = .ok ⟨⟨3⟩, .constructor 1⟩ := by decide +kernel
    have hcopy : (replacedCopy.after (.move 0 (.generate 0 #[]))).program.selectConstructor ⟨4⟩
      [.i4] false
        = .ok ⟨⟨4⟩, .constructor 0⟩ := by decide +kernel
    rw [hsource, hcopy] at hchoice
    have hidle :
      ((replacedCopy.after (.move 0 (.generate 0 #[]))).program.method ⟨⟨4⟩,
      .constructor 0⟩).body.map isIdle
        = some true := by decide +kernel
    cases hchoice with
    | chosen h =>
      obtain ⟨-, -, d, initial, -, -, hbody⟩ := h
      rw [hbody, Option.map_some] at hidle
      rcases initial with _ | ⟨item, _ | ⟨next, initial⟩⟩ <;> simp [isIdle, Expr.callBase] at hidle

end Realm

end TypeLoom
