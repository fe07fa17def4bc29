import TypeLoom.Proofs.InterfaceBodies
import TypeLoom.Proofs.Overriding

/-!
# Implementations and the interface methods they bind to

An implementation that was asked for answers with a method of the descriptor. On the generated class
the interface method runs that method exactly if the method implements it: it was made for it, or it
is public with its name and its signature, or it takes over the slot of the public method that the
base has for it by name. An override of what the base has for it by an explicit override may fail
this, since such a body is not dispatched.
-/

namespace TypeLoom

open Universe

/-! ### What implements stays so -/

namespace Emission

variable {u after : Universe} {d d' : Descriptor} {own own' : DraftMethod} {m : MethodId}

theorem implements_revised (hr : own.Revised own') (hbase : d'.base = d.base) :
    Implements u d' own' m ↔ Implements u d own m := by
  have hfills : ∀ base found, Fills u base own' found ↔ Fills u base own found :=
      fun base found => by
    rw [Fills, Fills, takenOver?_revised hr]
  simp only [Implements, hr.explicitOverrides, hr.matching, hbase, hfills]

/-- Which interface methods a method implements does not change while the universe grows. -/
theorem implements_agree (hd : d.Sound u) (hown : own ∈ d.methods) (hu : u.WellFormed)
    (ha : Agree u.types.size u after) (hle : u.types.size ≤ after.types.size)
    (hm : (u.method? m).isSome) : Implements after d own m ↔ Implements u d own m := by
  have hlt := u.lt_of_isSome_method? m hm
  have hmatching : own.matching (after.method m) = own.matching (u.method m) :=
    DraftMethod.matching_congr (ha.name hlt) (ha.signature hlt)
  have hfills : ∀ base found, d.base = some (.ofClass base) →
      (after.inheritedBody? base m = some (found, true) ∧ Fills after base own found
        ↔ u.inheritedBody? base m = some (found, true) ∧ Fills u base own found) :=
        fun base found hbase => by
    have hbaseLt := hd.base base hbase
    rw [ha.inheritedBody? hu (Nat.le_refl _) hle hbaseLt hlt]
    refine and_congr_right fun hfound => ?_
    exact fills_agree hd hown hu ha hle hbaseLt ((hu.inheritedBody?_cases hfound).2 rfl).1
  rw [Implements, Implements, hmatching]
  exact or_congr_right (or_congr_right (exists_congr fun base => exists_congr fun found =>
    and_congr_right (hfills base found)))

end Emission

/-! ### From the answer to the generated type -/

namespace World

variable {w later : World} {place : Nat} {t : TypeHandle} {m : MethodId} {handle : MethodHandle}
  {output : Array TypeId} {g : Generated}

/-- An answered implementation is a row for the interface method, and the row names a method of
the descriptor. -/
theorem implementing_of_answer (hw : w.Sound) (hi : w.Implementing) {created : Bool}
    (hanswer : w.answer place (.implementMethod t m) = .ok (.registered handle created)) :
    ∃ d own, (w.after (.edit place (.implementMethod t m))).descriptor? place t = some d
      ∧ d.Sound w.program ∧ (w.program.record m.owner).isInterface = true ∧ own ∈ d.methods
      ∧ own.handle = handle
      ∧ d.implementations.find? (w.program.method m).token = some handle := by
  cases hb : w.batches[place]? with
  | none => rw [answer, hb] at hanswer; cases hanswer
  | some b =>
    have hu := hw.space.wellFormed
    simp only [answer, hb] at hanswer
    let run := ((Edit.implementMethod t m).perform w.program).start b
    obtain ⟨hgrown, handle', created', old, d, hsame, -, hcheck, hd, hrow⟩ :=
      Attempt.wp_ok (Batch.wp_implementMethod (u := w.program) t m)
        (Prod.ext hanswer rfl : run = (_, run.2))
    cases hsame
    have hlt : place < w.batches.size := (Array.getElem?_eq_some_iff.mp hb).1
    have hafter : (w.after (.edit place (.implementMethod t m))).descriptor? place t = some d := by
      simp only [after, hb, descriptor?, putBatch]
      rw [Array.getElem?_setIfInBounds_self_of_lt hlt]
      exact hd
    obtain ⟨_, own, -, -, hhandle, himplementer⟩ :=
      (hi place b hb).grown hu (hw.batches place b hb) hgrown t.index d hd |>.rows _ _ hrow
    exact ⟨d, own, hafter, ((hw.batches place b hb).grown hu hgrown).sound t.index d hd,
      Descriptor.checkImplementation_ok hcheck,
      himplementer.mem, hhandle, hrow⟩

/-- An implementation was answered in a world that began with any sound types, and after any
moves its batch was generated. -/
structure ImplementationRun (w later : World) (place : Nat) (t : TypeHandle) (m : MethodId)
    (handle : MethodHandle) (output : Array TypeId) (g : Generated) : Prop where
  origin : ∃ space : TypeSpace, space.Sound ∧ Later { space } w
  answer : ∃ created, w.answer place (.implementMethod t m) = .ok (.registered handle created)
  moves : Later (w.after (.edit place (.implementMethod t m))) later
  generated : later.outcome place output = .ok g

/-- The interface method runs the method that was answered exactly if that method implements it. -/
theorem implementation_resolves_iff (hrun : ImplementationRun w later place t m handle output g)
    (htokens : (later.after (.generate place output)).program.DistinctTokens)
    (hvirtual : (w.program.method m).isVirtual = true) (hknown : (w.program.method m).token
      ≠ noMethod.token) :
    ∃ d own P k, (w.after (.edit place (.implementMethod t m))).descriptor? place t = some d
      ∧ d.method? handle = some own
      ∧ g.emitted.types.find? t = some P ∧ g.emitted.methods.find? handle = some k
      ∧ (d.isInterface = false →
          ((later.after (.generate place output)).program.resolveInterfaceMethod P m = some k
            ↔ Emission.Implements w.program d own m)) := by
  obtain ⟨⟨space, hspace, hbefore⟩, ⟨created, hanswer⟩, hlater, hout⟩ := hrun
  have hbegin := sound_of_space hspace
  have hw := (hbefore.sound hbegin).1
  have hi := (hbefore.implementing hbegin (implementing_of_space space)).1
  have hedit : Step w (w.after (.edit place (.implementMethod t m))) :=
    ⟨.edit place (.implementMethod t m), trivial, rfl⟩
  obtain ⟨hedited, hsince⟩ := step_sound hw hedit
  obtain ⟨hsound, hsince'⟩ := hlater.sound hedited
  obtain ⟨himplementing, hrows⟩ := hlater.implementing hedited (step_implementing hw hi hedit).1
  obtain ⟨d, own, hd, hdSound, hinterface, hown, rfl, hrow⟩ := implementing_of_answer hw hi hanswer
  have hu : w.program.WellFormed := hw.space.wellFormed
  have hagree := hsince.agree.trans (hsince'.agree.mono hsince.size)
  have hsize := Nat.le_trans hsince.size hsince'.size
  have hm := Descriptor.isSome_of_isVirtual hvirtual
  have hlt := w.program.lt_of_isSome_method? m hm
  -- The method and its row are still there when the batch is generated.
  obtain ⟨b, hb, hfind⟩ := Option.bind_eq_some_iff.mp hd
  obtain ⟨i, hi'⟩ := Array.mem_iff_getElem?.mp hown
  obtain ⟨b', hb', hkept⟩ := hsince'.batches place b hb
  obtain ⟨d', hd', hkeeps⟩ := hkept t d hfind
  obtain ⟨own', hown', hrevised⟩ := hkeeps.methods i own hi'
  obtain ⟨b'', hb'', hrowsKept⟩ := hrows place b hb
  obtain rfl := Option.some.inj (hb'.symm.trans hb'')
  obtain ⟨d'', hd'', hkeptRows⟩ := hrowsKept t d hfind
  obtain rfl := Option.some.inj (hd'.symm.trans hd'')
  have hlaterFind : later.descriptor? place t = some d' := by
    rw [descriptor?, hb', Option.bind_some, hd']
  obtain ⟨l, P, hemission, hP, hmethods⟩ := emission_of_outcome hsound hout hlaterFind
  have hmem : own' ∈ d'.close.methods := Array.mem_of_getElem? hown'
  have hrow' : d'.close.implementations.find? (later.program.method m).token = some own'.handle := by
    rw [hagree.token hlt, hrevised.handle]
    exact hkeptRows _ _ hrow
  have hclosed : d'.close.Implementing later.program :=
    (himplementing place b' hb' t.index d' hd').of_same rfl rfl rfl
  refine ⟨d, own, P, Emission.become P own', hd, ?_, hP, ?_, fun hclass => ?_⟩
  · rw [Descriptor.method?, hdSound.handles i own hi', if_pos rfl]
    exact hi'
  · rw [← hrevised.handle]
    exact hmethods own' hmem
  · have hclass' : d'.close.isInterface = false := by
      rw [← hclass]
      exact congrArg (hasBits · TypeFlags.interface) hkeeps.flags
    rw [hemission.resolveInterfaceMethod_eq_iff htokens hclass' hclosed
      (by rw [hagree.isSome_method? hlt]; exact hm)
        (by rw [hagree.isInterface hlt]; exact hinterface) (by rw [hagree.token hlt]; exact hknown) hmem hrow']
    exact (Emission.implements_revised hrevised hkeeps.base).trans
      (Emission.implements_agree hdSound hown hu hagree hsize hm)

/-! ### Implementations that are not dispatched -/

/-- A public interface in `App` with an abstract method `M`. -/
def interfaceWithM : ClassSpec :=
  ({ space := "App", name := "I" } : ClassSpec).isPublic.interface.method "M"
    (({} : MethodSpec).abstract)

/-- A class that implements the interface by a public method of the same name, and its proxy. -/
def namedMoves : List Move :=
  [.build interfaceWithM, .build ((classWithM "A" none).implementing ⟨3⟩), .openBatch,
    .propose 0 ⟨4⟩ "A_Proxy_1"]

/-- A generated class with a method that was made for the interface method, and its proxy with a
family method of the same name. -/
def guardedMoves : List Move :=
  [.build interfaceWithM, .openBatch, .edit 0 (.createType "App" "A" TypeFlags.isPublic none),
    .edit 0 (.addInterface ⟨0⟩ ⟨3⟩ false),
    .edit 0 (.implementMethod ⟨0⟩ methodOfFirst),
    .edit 0 (.setMethodBody ⟨0⟩ ⟨⟨0⟩, .method 0⟩ .empty), .generate 0 #[],
    .openBatch, .propose 1 ⟨4⟩ "A_Proxy_1", .edit 1 (.addMethod ⟨0⟩ "M" 196 {} (some .empty))]

/-- The implementation of the interface method in a batch, right after some moves. -/
def implemented (moves : List Move) (place : Nat) : World :=
  (fresh.run moves).after (.edit place (.implementMethod ⟨0⟩ methodOfFirst))

theorem implementationRun {moves : List Move} {place : Nat} (created : Bool)
    (hfits : fresh.FitsAll moves)
    (hanswer : (fresh.run moves).answer place (.implementMethod ⟨0⟩ methodOfFirst)
      = .ok (.registered ⟨⟨0⟩, .method 0⟩ created))
    (hout : (implemented moves place).outcome place #[] = .ok g) :
    ImplementationRun (fresh.run moves) (implemented moves place) place ⟨0⟩ methodOfFirst ⟨⟨0⟩,
      .method 0⟩ #[] g :=
  ⟨⟨_, TypeSpace.sound_fresh Universe.wellFormed_empty, later_run moves hfits⟩,
    ⟨created, hanswer⟩, .refl, hout⟩

set_option maxRecDepth 10000 in
/-- On the proxy of a class that implements the interface by name the override of its method
answers. -/
theorem implementation_resolves_named :
    ∃ g P k, (implemented namedMoves 0).outcome 0 #[] = .ok g
      ∧ g.emitted.types.find? ⟨0⟩ = some P ∧ g.emitted.methods.find? ⟨⟨0⟩, .method 0⟩ = some k
      ∧ ((implemented namedMoves 0).after (.generate 0 #[])).program.resolveInterfaceMethod P
          methodOfFirst = some k := by
  have hok : ((implemented namedMoves 0).outcome 0 #[]).isOk = true := by decide +kernel
  obtain ⟨g, hout⟩ : ∃ g, (implemented namedMoves 0).outcome 0 #[] = .ok g := by
    cases hout : (implemented namedMoves 0).outcome 0 #[] with
    | ok g => exact ⟨g, rfl⟩
    | error f => rw [hout] at hok; cases hok
  have hrun := implementationRun true (by decide +kernel) (by decide +kernel) hout
  obtain ⟨d, own, P, k, hd, hown, hP, hk, hiff⟩ :=
    implementation_resolves_iff hrun (by decide +kernel) (by decide +kernel) (by decide +kernel)
  have hclass : ((implemented namedMoves 0).descriptor? 0 ⟨0⟩).all (!·.isInterface) = true := by
    decide +kernel
  have hmatching :
    (((implemented namedMoves 0).descriptor? 0 ⟨0⟩).bind (·.method? ⟨⟨0⟩, .method 0⟩)).all
      (·.matching ((fresh.run namedMoves).program.method methodOfFirst)) = true := by decide +kernel
  rw [implemented, hd, Option.all_some, Bool.not_eq_true'] at hclass
  rw [implemented, hd, Option.bind_some, hown, Option.all_some] at hmatching
  exact ⟨g, P, k, hout, hP, hk, (hiff hclass).mpr (.inr (.inl hmatching))⟩

/-- Whatever was answered for an interface method is what it runs on the generated class. -/
def ImplementationsBind : Prop :=
  ∀ (w later : World) (place : Nat) (t : TypeHandle) (m : MethodId) (handle : MethodHandle)
    (output : Array TypeId)
    (g : Generated), ImplementationRun w later place t m handle output g →
    (w.program.method m).isVirtual = true →
    (w.descriptor? place t).all (!·.isInterface) = true →
    ∀ P k, g.emitted.types.find? t = some P → g.emitted.methods.find? handle = some k →
      (later.after (.generate place output)).program.resolveInterfaceMethod P m = some k

set_option maxRecDepth 10000 in
/-- The family method of the proxy replaces the method that was made for the interface method,
which still answers. -/
theorem not_implementationsBind : ¬ ImplementationsBind := by
  intro hbind
  have hok : ((implemented guardedMoves 1).outcome 1 #[]).toOption.map
      (fun g => (g.emitted.types.find? ⟨0⟩, g.emitted.methods.find? ⟨⟨0⟩, .method 0⟩))
        = some (some ⟨5⟩, some ⟨⟨5⟩, .method 0⟩) := by decide +kernel
  cases hout : (implemented guardedMoves 1).outcome 1 #[] with
  | error f => rw [hout] at hok; cases hok
  | ok g =>
    rw [hout] at hok
    simp only [Except.toOption, Option.map_some, Option.some.injEq, Prod.mk.injEq] at hok
    have hrun := implementationRun false (by decide +kernel) (by decide +kernel) hout
    have hbound :=
      hbind _ _ _ _ _ _ _ g hrun (by decide +kernel) (by decide +kernel) _ _ hok.1 hok.2
    have hruns :
      ((implemented guardedMoves 1).after (.generate 1 #[])).program.resolveInterfaceMethod
      ⟨5⟩ methodOfFirst
        = some ⟨⟨4⟩, .method 0⟩ := by decide +kernel
    rw [hruns] at hbound
    exact absurd hbound (by decide)

end World

end TypeLoom
