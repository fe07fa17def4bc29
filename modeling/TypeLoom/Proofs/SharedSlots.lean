import TypeLoom.Proofs.Overriding
import TypeLoom.Proofs.TokenRows

/-!
# Methods that share a slot

Methods of a base chain that share a slot share their override. Whichever of them is asked for
first, the answer is the same, and what is made has the same name, signature, access and body;
asking again through any of them finds it and changes nothing.
-/

namespace TypeLoom

open Attempt

/-! ### The base chain -/

namespace Universe

variable {u after : Universe} {base : TypeId} {m m' : MethodId}

/-- A virtual method of a class on the base chain. -/
structure OnChain (u : Universe) (base : TypeId) (m : MethodId) : Prop where
  declared : m ∈ u.methodsOf m.owner
  above : m.owner ∈ u.hierarchy base
  isClass : (u.record m.owner).isInterface = false
  present : u.isPresent m.owner = true
  virtual : (u.method m).isVirtual = true

theorem onChain_iff : u.OnChain base m ↔ m ∈ u.methodsOf m.owner ∧ m.owner ∈ u.hierarchy base
    ∧ (u.record m.owner).isInterface = false ∧ u.isPresent m.owner = true
    ∧ (u.method m).isVirtual = true :=
  ⟨fun ⟨declared, above, isClass, present, virtual⟩ => ⟨declared, above, isClass, present, virtual⟩,
    fun ⟨declared, above, isClass, present, virtual⟩ =>
    ⟨declared, above, isClass, present, virtual⟩⟩

instance : Decidable (u.OnChain base m) := decidable_of_iff _ onChain_iff.symm

theorem OnChain.filled (h : u.OnChain base m) :
    ((u.hierarchy base).findSome? fun level => u.slotBody? level (u.slotToken m)).isSome
    = true := by
  obtain ⟨body, hbody⟩ := exists_slotBody?_of_method h.declared h.virtual
  exact List.findSome?_isSome_iff.mpr ⟨m.owner, h.above, Option.isSome_of_eq_some hbody⟩

theorem OnChain.findSome?_slotBody? (h : u.OnChain base m) :
    (u.hierarchy base).findSome? (fun level => u.slotBody? level (u.slotToken m))
    = some (u.resolveVirtual base m) := by
  obtain ⟨k, hk⟩ := Option.isSome_iff_exists.mp h.filled
  rw [resolveVirtual_of_class h.isClass h.virtual, resolveSlot_eq, hk, Option.getD_some]

theorem OnChain.resolveVirtual_eq (h : u.OnChain base m) (h' : u.OnChain base m')
    (hslot : u.slotToken m = u.slotToken m') :
    u.resolveVirtual base m = u.resolveVirtual base m' := by
  have hfound := h.findSome?_slotBody?
  rw [hslot, h'.findSome?_slotBody?] at hfound
  exact (Option.some.inj hfound).symm

theorem OnChain.agree (h : u.OnChain base m) (ha : Agree u.types.size u after) (hu : u.WellFormed)
    (hle : u.types.size ≤ after.types.size) (hbase : base.index < u.types.size) :
    after.OnChain base m := by
  have hlt := u.lt_of_isSome_method? m (u.isSome_of_mem_methodsOf h.declared)
  exact {
    declared := by rw [ha.methodsOf hlt]; exact h.declared
    above := by rw [ha.hierarchy hu (Nat.le_refl _) hle hbase]; exact h.above
    isClass := by rw [ha.isInterface hlt]; exact h.isClass
    present := by rw [ha.isPresent hlt]; exact h.present
    virtual := by rw [ha.isVirtual hlt]; exact h.virtual }

end Universe

/-! ### Descriptors -/

namespace DraftMethod

/-- Callers see no difference but in the names of parameters and in the method that was asked
for. -/
structure Interchangeable (own own' : DraftMethod) : Prop where
  handle : own'.handle = own.handle
  name : own'.name = own.name
  kind : own'.kind = own.kind
  flags : own'.flags = own.flags
  returns : own'.signature.returns = own.signature.returns
  types : own'.signature.types = own.signature.types
  body : own'.body = own.body
  explicitOverrides : own'.explicitOverrides = own.explicitOverrides
  attributes : own'.attributes = own.attributes

theorem Interchangeable.refl (own : DraftMethod) : own.Interchangeable own :=
  ⟨rfl, rfl, rfl, rfl, rfl, rfl, rfl, rfl, rfl⟩

end DraftMethod

namespace Descriptor

open Universe

variable {u : Universe} {d : Descriptor} {base : TypeId} {m m' : MethodId}

theorem checkOverride_of_onChain (hbase : d.baseType? u = some base) (h : u.OnChain base m) :
    d.checkOverride u m = .ok base := by
  have howner : u.methodOwner? m = some m.owner := by
    rw [methodOwner?, present?, if_pos h.present]
  have honChain :
      ((u.record m.owner).token != (u.record base).token && !u.isSubclassOf base m.owner)
      = false := by
    rw [Bool.and_eq_false_iff, bne_eq_false_iff_eq, Bool.not_eq_false', isSubclassOf,
      List.any_eq_true]
    have habove := h.above
    rw [hierarchy, chainWithin] at habove
    rcases List.mem_cons.mp habove with hself | hbases
    · exact .inl (by rw [hself])
    · exact .inr ⟨m.owner, hbases, beq_self_eq_true _⟩
  simp only [checkOverride, hbase, howner, h.isClass, honChain, h.virtual]
  rfl

theorem start_getOrAddOverride_registered {handle : MethodHandle} (hopen : d.isSealed = false)
    (check : d.checkOverride u m = .ok base)
    (hrow : d.overrides.find? (u.slotToken m) = some handle) :
    (getOrAddOverride u m).start d = (.ok (handle, false), d) := by
  rw [start_getOrAddOverride hopen check, hrow]

section Pair

variable (h : u.OnChain base m) (h' : u.OnChain base m')
  (hslot : u.slotToken m = u.slotToken m') (hname : (u.method m).name = (u.method m').name)
  (hagrees : (u.method m).signature.agrees (u.method m').signature = true)

include hname hagrees in
theorem newOverride_interchangeable (handle : MethodHandle) (k : MethodId) (access : Access) :
    (newOverride u handle m k access).Interchangeable (newOverride u handle m' k access) where
  handle := rfl
  name := hname.symm
  kind := rfl
  flags := rfl
  returns := ((MethodSignature.agrees_iff _ _).mp hagrees).1.symm
  types := ((MethodSignature.agrees_iff _ _).mp hagrees).2.symm
  body := rfl
  explicitOverrides := rfl
  attributes := rfl

include h h' hslot hname hagrees

/-- What is made for one method of a slot is interchangeable with what is made for another one. -/
theorem method?_withOverride {access : Access} {handle : MethodHandle} {own : DraftMethod}
    (hown : (d.withOverride u m base access).method? handle = some own) :
    ∃ own', (d.withOverride u m' base access).method? handle = some own'
        ∧ own.Interchangeable own' := by
  unfold method? at hown ⊢
  by_cases howner : handle.owner = d.handle
  · have howner' : ∀ k, handle.owner = (d.withOverride u k base access).handle := fun _ => howner
    rw [if_pos (howner' m)] at hown
    rw [if_pos (howner' m')]
    cases hs : handle.slot with
    | method index =>
      simp only [hs, withOverride, touch, Array.getElem?_push] at hown ⊢
      split at hown
      · rename_i hlast
        cases hown
        rw [if_pos hlast, ← h.resolveVirtual_eq h' hslot]
        exact ⟨_, rfl, newOverride_interchangeable hname hagrees _ _ _⟩
      · rename_i hlast
        rw [if_neg hlast]
        exact ⟨own, hown, .refl own⟩
    | constructor index =>
      simp only [hs] at hown ⊢
      exact ⟨own, hown, .refl own⟩
    | typeInitializer =>
      simp only [hs] at hown ⊢
      exact ⟨own, hown, .refl own⟩
  · rw [if_neg (show ¬ handle.owner = (d.withOverride u m base access).handle from howner)] at hown
    cases hown

/-- Which method of the slot was asked for shows only in an override that is made. -/
theorem start_getOrAddOverride_pair (hopen : d.isSealed = false)
    (hbase : d.baseType? u = some base) :
    ((getOrAddOverride u m').start d).1 = ((getOrAddOverride u m).start d).1
      ∧ (((getOrAddOverride u m').start d).2 = ((getOrAddOverride u m).start d).2
        ∨ ∃ access, ((getOrAddOverride u m).start d).2 = d.withOverride u m base access
          ∧ ((getOrAddOverride u m').start d).2 = d.withOverride u m' base access) := by
  have hfind : (fun own : DraftMethod => own.takesSlot (u.method m').name (u.method m').signature)
      = fun own => own.takesSlot (u.method m).name (u.method m).signature := funext fun own => by
        rw [← hname, own.takesSlot_congr _ hagrees]
  rw [start_getOrAddOverride hopen (checkOverride_of_onChain hbase h),
    start_getOrAddOverride hopen (checkOverride_of_onChain hbase h'), ← hslot, hfind,
    ← h.resolveVirtual_eq h' hslot]
  cases d.overrides.find? (u.slotToken m) with
  | some existing => exact ⟨rfl, .inl rfl⟩
  | none =>
    cases d.methods.find? fun own => own.takesSlot (u.method m).name (u.method m).signature with
    | some own => exact ⟨rfl, .inl rfl⟩
    | none =>
      cases d.overrideAccess u (u.resolveVirtual base m) with
      | error f => exact ⟨rfl, .inl rfl⟩
      | ok access => exact ⟨rfl, .inr ⟨access, rfl, rfl⟩⟩

end Pair

end Descriptor

/-! ### Batches -/

namespace Batch

variable {α : Type} {u : Universe} {b : Batch} {t : TypeHandle} {d : Descriptor} {m : MethodId}

theorem start_onType {act : Attempt Descriptor α} (hd : b.find? t = some d) :
    (onType t act).start b = ((act.start d).1,
      { b with types := b.types.setIfInBounds t.index (act.start d).2 }) := by
  rw [onType, start_of, hd]

theorem start_overrideMethod (hd : b.find? t = some d) :
    ((Edit.overrideMethod t m).perform u).start b
      = (((Descriptor.getOrAddOverride u m).start d).1.map fun answer =>
        .registered answer.1 answer.2,
        { b with
          types := b.types.setIfInBounds t.index ((Descriptor.getOrAddOverride u m).start d).2 }) := by
  rw [Edit.perform, start_bind, start_onType hd]
  cases ((Descriptor.getOrAddOverride u m).start d).1 <;> rfl

end Batch

/-! ### Worlds -/

namespace World

open Universe

variable {w later : World} {place : Nat} {t : TypeHandle} {d : Descriptor} {m m' : MethodId}
  {handle : MethodHandle} {base : TypeId}

theorem answer_overrideMethod (hd : w.descriptor? place t = some d) :
    w.answer place (.overrideMethod t m)
      = ((Descriptor.getOrAddOverride w.program m).start d).1.map fun answer =>
      .registered answer.1 answer.2 := by
  obtain ⟨b, hb, hfind⟩ := Option.bind_eq_some_iff.mp hd
  simp only [answer, hb, Batch.start_overrideMethod hfind]

theorem descriptor?_overrideMethod (hd : w.descriptor? place t = some d) :
    (w.after (.edit place (.overrideMethod t m))).descriptor? place t
      = some ((Descriptor.getOrAddOverride w.program m).start d).2 := by
  obtain ⟨b, hb, hfind⟩ := Option.bind_eq_some_iff.mp hd
  have hlt : place < w.batches.size := (Array.getElem?_eq_some_iff.mp hb).1
  simp only [after, hb, Batch.start_overrideMethod hfind, descriptor?, putBatch]
  rw [Array.getElem?_setIfInBounds_self_of_lt hlt, Option.bind_some]
  exact Batch.find?_set (Array.getElem?_eq_some_iff.mp hfind).1

theorem after_overrideMethod_same (hd : w.descriptor? place t = some d)
    (hsame : ((Descriptor.getOrAddOverride w.program m).start d).2 = d) :
    w.after (.edit place (.overrideMethod t m)) = w := by
  obtain ⟨b, hb, hfind⟩ := Option.bind_eq_some_iff.mp hd
  have htypes : b.types.setIfInBounds t.index d = b.types := setIfInBounds_same hfind
  simp only [after, hb, Batch.start_overrideMethod hfind, hsame, htypes, putBatch,
    setIfInBounds_same hb]

theorem Since.keeps {d' : Descriptor} (h : Since w later) (hd : w.descriptor? place t = some d)
    (hd' : later.descriptor? place t = some d') : d.Keeps d' := by
  obtain ⟨b, hb, hfind⟩ := Option.bind_eq_some_iff.mp hd
  obtain ⟨b', hb', hkept⟩ := h.batches place b hb
  obtain ⟨last, hlast, hkeeps⟩ := hkept t d hfind
  rw [descriptor?, hb', Option.bind_some, hlast] at hd'
  cases hd'
  exact hkeeps

/-- A method that was registered is found again through every method of the slot, and nothing
changes. -/
theorem registered_again (hd : w.descriptor? place t = some d) (hopen : d.isSealed = false)
    (check : d.checkOverride w.program m = .ok base)
    (hrow : d.overrides.find? (w.program.slotToken m) = some handle) :
    w.answer place (.overrideMethod t m) = .ok (.registered handle false)
      ∧ w.after (.edit place (.overrideMethod t m)) = w := by
  have hstart := Descriptor.start_getOrAddOverride_registered hopen check hrow
  refine ⟨?_, after_overrideMethod_same hd (by rw [hstart])⟩
  rw [answer_overrideMethod hd, hstart]
  rfl

/-- Of two methods that share a slot it does not matter which is asked for. Both ways the answer
is the same, and the method that is answered is interchangeable. -/
theorem override_interchangeable (hw : w.Sound) (htokens : w.program.LocalTokens)
    (hd : w.descriptor? place t = some d) (hopen : d.isSealed = false)
    (hbase : d.baseType? w.program = some base) (hm : w.program.OnChain base m)
    (hm' : w.program.OnChain base m') (hroot : w.program.slotRoot m = w.program.slotRoot m') :
    w.answer place (.overrideMethod t m') = w.answer place (.overrideMethod t m)
      ∧ ∀ handle created, w.answer place (.overrideMethod t m) = .ok (.registered handle created) →
        ∃ d own d' own', (w.after (.edit place (.overrideMethod t m))).descriptor? place t = some d
          ∧ (w.after (.edit place (.overrideMethod t m'))).descriptor? place t = some d'
          ∧ d.method? handle = some own ∧ d'.method? handle = some own'
              ∧ own.Interchangeable own' := by
  have hslot : w.program.slotToken m = w.program.slotToken m' := by rw [slotToken, slotToken, hroot]
  obtain ⟨hname, hagrees⟩ :=
    hw.space.wellFormed.matches_of_slotRoot_eq htokens
    (w.program.isSome_of_mem_methodsOf hm.declared)
    (w.program.isSome_of_mem_methodsOf hm'.declared) hroot
  obtain ⟨hanswer, hmade⟩ :=
    Descriptor.start_getOrAddOverride_pair hm hm' hslot hname hagrees hopen hbase
  refine ⟨by rw [answer_overrideMethod hd, answer_overrideMethod hd, hanswer],
    fun handle created hregistered => ?_⟩
  obtain ⟨d₁, base₁, own, hd₁, hsound₁, -, -, hown, rfl, -⟩ := registered_of_answer hw hregistered
  have hd₁' := hd₁
  rw [descriptor?_overrideMethod hd] at hd₁'
  cases hd₁'
  obtain ⟨i, hi⟩ := Array.mem_iff_getElem?.mp hown
  have hmethod : ((Descriptor.getOrAddOverride w.program m).start d).2.method? own.handle
      = some own := by
    rw [Descriptor.method?, hsound₁.handles i own hi, if_pos rfl]
    exact hi
  rcases hmade with hsame | ⟨access, hfirst, hsecond⟩
  · exact ⟨_, own, _, own, hd₁, descriptor?_overrideMethod hd, hmethod, by
      rw [hsame]; exact hmethod, .refl own⟩
  · rw [hfirst] at hmethod
    obtain ⟨own', hown', hinterchangeable⟩ :=
      Descriptor.method?_withOverride hm hm' hslot hname hagrees hmethod
    exact ⟨_, own, _, own', hd₁, descriptor?_overrideMethod hd, by rw [hfirst]; exact hmethod,
      by rw [hsecond]; exact hown', hinterchangeable⟩

/-- Whatever has happened before the descriptor is sealed, what was answered for one method of a
slot is found through another one as well. -/
theorem registered_since {d' : Descriptor} {created : Bool} (hw : w.Sound)
    (hd : w.descriptor? place t = some d) (hbase : d.baseType? w.program = some base)
    (hm' : w.program.OnChain base m') (hroot : w.program.slotRoot m = w.program.slotRoot m')
    (hregistered : w.answer place (.overrideMethod t m) = .ok (.registered handle created))
    (hsince : Since (w.after (.edit place (.overrideMethod t m))) later)
    (hd' : later.descriptor? place t = some d')
    (hopen : d'.isSealed = false) :
    later.answer place (.overrideMethod t m') = .ok (.registered handle false)
      ∧ later.after (.edit place (.overrideMethod t m')) = later := by
  obtain ⟨d₁, base₁, own, hd₁, -, -, -, -, rfl, hrow⟩ := registered_of_answer hw hregistered
  obtain ⟨-, hedit⟩ := step_sound hw ⟨.edit place (.overrideMethod t m), trivial, rfl⟩
  have hall := hedit.trans hsince
  obtain ⟨hclass, hpresent⟩ := Descriptor.baseType?_eq_some hbase
  have hlt := w.program.lt_of_isPresent base hpresent
  have hlt' := w.program.lt_of_isSome_method? m' (w.program.isSome_of_mem_methodsOf hm'.declared)
  -- The base and the row are still there, and the slot has the same token.
  have hbase' : d'.baseType? later.program = some base := by
    rw [Descriptor.baseType?, (hall.keeps hd hd').base, hclass, Option.bind_some, Signature.class?,
      Option.bind_some,
      present?, hall.agree.isPresent hlt, if_pos hpresent]
  have hslot : later.program.slotToken m' = w.program.slotToken m := by
    rw [hall.agree.slotToken hw.space.wellFormed (Nat.le_refl _) hall.size hlt', slotToken,
      slotToken, hroot]
  have hrow' : d'.overrides.find? (later.program.slotToken m') = some own.handle := by
    rw [hslot]
    exact (hsince.keeps hd₁ hd').rows _ _ hrow
  have hchain : later.program.OnChain base m' :=
    hm'.agree hall.agree hw.space.wellFormed hall.size hlt
  exact registered_again hd' hopen (Descriptor.checkOverride_of_onChain hbase' hchain) hrow'

end World

/-! ### Realms -/

namespace Realm

open Universe World

variable {r later : Realm} {through place : Nat} {t : TypeHandle} {m m' : MethodId}

/-- An open descriptor, and two methods of its base chain that share a slot. -/
structure SharedSlot (r : Realm) (place : Nat) (t : TypeHandle) (m m' : MethodId) : Prop where
  reachable : Reachable r
  chain : ∃ d base, r.descriptor? place t = some d ∧ d.isSealed = false
    ∧ d.base = some (.ofClass base)
    ∧ r.program.isPresent base = true ∧ r.program.OnChain base m ∧ r.program.OnChain base m'
  root : r.program.slotRoot m = r.program.slotRoot m'

/-- Of two methods that share a slot it does not matter which is asked for, as long as no type
has more methods than a registry has rows for them. Both ways the answer is the same, and the
method that is answered is interchangeable. Whatever happens through any registry before the
descriptor is sealed, the override is then found through the other method as well, and nothing
changes. -/
theorem override_shared (h : SharedSlot r place t m m') (hrows : r.program.WithinRows) :
    r.answer? through place (.overrideMethod t m') = r.answer? through place (.overrideMethod t m)
      ∧ ∀ handle created,
        r.answer? through place (.overrideMethod t m)
          = some (.ok (.registered handle created)) →
        (∃ d own d' own',
          (r.after (.move through (.edit place (.overrideMethod t m)))).descriptor? place t = some d
          ∧ (r.after (.move through (.edit place (.overrideMethod t m')))).descriptor? place t
            = some d'
          ∧ d.method? handle = some own ∧ d'.method? handle = some own' ∧ own.Interchangeable own')
        ∧ ∀ later, Later (r.after (.move through (.edit place (.overrideMethod t m)))) later →
          (∃ d, later.descriptor? place t = some d ∧ d.isSealed = false) →
          ∀ again < later.registries.size,
            later.answer? again place (.overrideMethod t m') = some (.ok (.registered handle false))
              ∧ later.after (.move again (.edit place (.overrideMethod t m'))) = later := by
  obtain ⟨hreachable, ⟨d, base, hd, hopen, hclass, hpresent, hm, hm'⟩, hroot⟩ := h
  have htokens := hreachable.localTokens hrows
  have hbase : d.baseType? r.program = some base := by
    rw [Descriptor.baseType?, hclass, Option.bind_some, Signature.class?, Option.bind_some,
      present?, if_pos hpresent]
  cases hg : r.registries[through]? with
  | none =>
    have hsilent : ∀ e, r.answer? through place e = none := fun e => by
      rw [answer?, hg, Option.map_none]
    refine ⟨by rw [hsilent, hsilent], fun handle created hanswer => ?_⟩
    rw [hsilent] at hanswer
    cases hanswer
  | some g =>
    have hw := (hreachable.upright.view hg).sound
    obtain ⟨hsame, hmade⟩ := World.override_interchangeable hw htokens hd hopen hbase hm hm' hroot
    rw [answer?_eq_some hg, answer?_eq_some hg, hsame]
    refine ⟨rfl, fun handle created hanswer => ?_⟩
    have hregistered := Option.some.inj hanswer
    rw [after_move hg, after_move hg]
    simp only [descriptor?_putWorld]
    refine ⟨hmade handle created hregistered, fun later hlater hstill again hagain => ?_⟩
    obtain ⟨d', hd', hopen'⟩ := hstill
    obtain ⟨hedited, -⟩ :=
      upright_putWorld hreachable.upright hg ⟨.edit place (.overrideMethod t m), trivial, rfl⟩
    obtain ⟨-, hsince⟩ := hlater.upright hedited
    have hg' : later.registries[again]? = some later.registries[again] :=
      Array.getElem?_eq_getElem hagain
    have hseen := hsince.seen ((r.view g).after (.edit place (.overrideMethod t m))).space.registry
      later.registries[again]
    rw [view_putWorld] at hseen
    obtain ⟨hfound, hunchanged⟩ :=
      registered_since hw hd hbase hm' hroot hregistered hseen hd' hopen'
    exact ⟨by rw [answer?_eq_some hg', hfound], after_move_same hg' hunchanged⟩

/-- A class, a class above it that overrides its method, and a proxy of the latter. -/
def sharingTurns : List Turn :=
  throughOne [.build (classWithM "A" none),
    .build { ({ space := "App", name := "B" } : ClassSpec).isPublic.method "M"
        (({ body := .fixed .empty } : MethodSpec).overrides) with
      base := some ⟨3⟩ },
    .openBatch, .propose 0 ⟨4⟩ "B_Proxy_1"]

/-- The second class that is built in a fresh realm declares its method here. -/
def methodOfSecond : MethodId := ⟨⟨4⟩, .method 0⟩

set_option maxRecDepth 10000 in
/-- On the proxy the override is made once, through the method of either class. -/
theorem override_shared_twice :
    ((run {} sharingTurns).after
      (.move 0 (.edit 0 (.overrideMethod ⟨0⟩ methodOfFirst)))).answer? 0 0
        (.overrideMethod ⟨0⟩ methodOfSecond)
      = some (.ok (.registered ⟨⟨0⟩, .method 0⟩ false)) := by
  have hopen : ((run {} sharingTurns).descriptor? 0 ⟨0⟩).any
      (fun d => !d.isSealed && d.base == some (.ofClass ⟨4⟩)) = true := by decide +kernel
  have hreached : Reachable (run {} sharingTurns) := later_run sharingTurns (by decide +kernel)
  have hpresent : (run {} sharingTurns).program.isPresent ⟨4⟩ = true := by decide +kernel
  have hfirst : (run {} sharingTurns).program.OnChain ⟨4⟩ methodOfFirst := by decide +kernel
  have hsecond : (run {} sharingTurns).program.OnChain ⟨4⟩ methodOfSecond := by decide +kernel
  have hroot : (run {} sharingTurns).program.slotRoot methodOfFirst
      = (run {} sharingTurns).program.slotRoot methodOfSecond := by
    decide +kernel
  have hrows : (run {} sharingTurns).program.WithinRows := by decide +kernel
  have hmade : (run {} sharingTurns).answer? 0 0 (.overrideMethod ⟨0⟩ methodOfFirst)
      = some (.ok (.registered ⟨⟨0⟩, .method 0⟩ true)) := by decide +kernel
  have hstill : (((run {} sharingTurns).after
      (.move 0 (.edit 0 (.overrideMethod ⟨0⟩ methodOfFirst)))).descriptor? 0 ⟨0⟩).any
        (fun d => !d.isSealed) = true := by decide +kernel
  have hlisted : 0 < ((run {} sharingTurns).after
      (.move 0 (.edit 0 (.overrideMethod ⟨0⟩ methodOfFirst)))).registries.size := by decide +kernel
  obtain ⟨d, hd, hdraft⟩ := (Option.any_eq_true _ _).mp hopen
  rw [Bool.and_eq_true, Bool.not_eq_true', beq_iff_eq] at hdraft
  have hshared : SharedSlot (run {} sharingTurns) 0 ⟨0⟩ methodOfFirst methodOfSecond :=
    ⟨hreached, ⟨d, ⟨4⟩, hd, hdraft.1, hdraft.2, hpresent, hfirst, hsecond⟩, hroot⟩
  obtain ⟨-, hall⟩ := override_shared hshared hrows
  obtain ⟨-, hagain⟩ := hall _ _ hmade
  obtain ⟨d', hd', hopen'⟩ := (Option.any_eq_true _ _).mp hstill
  exact (hagain _ .refl ⟨d', hd', by rwa [Bool.not_eq_true'] at hopen'⟩ 0 hlisted).1

end Realm

end TypeLoom
