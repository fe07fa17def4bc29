import TypeLoom.Proofs.Foreseen
import TypeLoom.Proofs.Implementations
import TypeLoom.Proofs.Overriding
import TypeLoom.Proofs.Wholeness

/-!
# Abstract flags of generated classes

A generated class is marked as abstract exactly if it was created so or is unfinished, provided that
the check of its descriptor foresees it. A base from the same batch is not looked at: its abstract
methods may stay without bodies on a class that is not marked.
-/

namespace TypeLoom

open Relation Universe

/-! ### Closed descriptors -/

namespace Batch

variable {u after : Universe} {b : Batch} {place : TypeHandle → Option TypeId} {d : Descriptor}
  {h i : TypeHandle} {t : TypeId}

theorem listsDraft_closeAll : b.closeAll.ListsDraft h i ↔ b.ListsDraft h i := by
  constructor
  · rintro ⟨d, hd, hi⟩
    rw [find?_closeAll] at hd
    obtain ⟨e, he, rfl⟩ := Option.map_eq_some_iff.mp hd
    exact ⟨e, he, hi⟩
  · rintro ⟨d, hd, hi⟩
    exact ⟨d.close, by rw [find?_closeAll, hd, Option.map_some], hi⟩

theorem listsDraft_closeAll_eq : b.closeAll.ListsDraft = b.ListsDraft :=
  funext fun _ => funext fun _ => propext listsDraft_closeAll

theorem looksAt_closeAll {j : TypeId} : b.closeAll.LooksAt u d.close j ↔ b.LooksAt u d j := by
  constructor
  · intro hj
    cases hj with
    | listed hlists hreaches => exact .listed hlists hreaches
    | extended hlists hreaches hfound hextends =>
      rw [find?_closeAll] at hfound
      obtain ⟨e, he, rfl⟩ := Option.map_eq_some_iff.mp hfound
      exact .extended hlists (listsDraft_closeAll_eq ▸ hreaches) he hextends
  · intro hj
    cases hj with
    | listed hlists hreaches => exact .listed hlists hreaches
    | @extended _ h di hlists hreaches hfound hextends =>
      have hclosed : b.closeAll.find? h = some di.close := by
        rw [find?_closeAll, hfound, Option.map_some]
      exact .extended hlists (listsDraft_closeAll_eq.symm ▸ hreaches) hclosed hextends

theorem Foreseen.close (hf : b.Foreseen u after place d t) :
    b.closeAll.Foreseen u after place d.close t where
  virtual := hf.virtual
  slots := hf.slots
  access := hf.access
  registered := hf.registered
  plain := hf.plain
  silent := fun j hj => hf.silent j (hj.imp (fun h => by
    rwa [LooksAtDraft, listsDraft_closeAll_eq] at h)
    fun h => ⟨looksAt_closeAll.mp h.1, h.2⟩)
  others := fun j hj hdraft hexisting => hf.others j hj
    (fun h => hdraft (by rw [LooksAtDraft, listsDraft_closeAll_eq]; exact h)) fun h =>
    hexisting (looksAt_closeAll.mpr h)

theorem reachInterfaces_closeAll (fuel : Nat) (todo seen : List TypeHandle) :
    b.closeAll.reachInterfaces fuel todo seen = b.reachInterfaces fuel todo seen := by
  induction fuel generalizing todo seen with
  | zero => rfl
  | succ fuel ih =>
    cases todo with
    | nil => rfl
    | cons h rest =>
      simp only [reachInterfaces, find?_closeAll]
      split
      · exact ih _ _
      · cases b.find? h with
        | none => exact ih _ _
        | some d => exact ih _ _

theorem owesDrafts_closeAll : b.closeAll.owesDrafts u d.close = b.owesDrafts u d := by
  have hbound : b.closeAll.walkBound = b.walkBound := by
    rw [walkBound, walkBound, closeAll, Array.foldl_map]
    rfl
  unfold owesDrafts
  rw [hbound, reachInterfaces_closeAll]
  refine congrArg (List.any _) (funext fun i => ?_)
  rw [find?_closeAll, Option.any_map]
  rfl

end Batch

/-! ### Generated classes -/

namespace Production

variable {ground p : Production} {l : Layout} {objectType : TypeId} {g : Generated}

theorem Produced.emits (hp : Produced ground objectType l g p)
    (hspace : ground.workshop.space.Sound) (hbatch : ground.batch.Sound ground.program) :
    ground.batch.Emits ground.program p.program l objectType where
  emission := fun _ _ hd => hp.emission hspace hbatch hd
  interfaces := fun h d hd => by
    obtain ⟨_, -, -, -, hsketch⟩ := hp.outlines h d hd
    exact congrArg Sketch.interfaces hsketch

theorem Produced.place_iff (hp : Produced ground objectType l g p) (h : TypeHandle) (i : TypeId) :
    g.emitted.types.find? h = some i ↔ (∃ d, ground.batch.find? h = some d) ∧ i = l.place h := by
  have hmem : h ∈ l.order ↔ ∃ d, ground.batch.find? h = some d := by
    rw [hp.ordered.mem, ← Option.isSome_iff_exists, Batch.find?, isSome_getElem?]
  rw [hp.types, ← hmem]
  split
  · rename_i hin
    rw [Option.some.injEq, and_iff_right hin, eq_comm]
  · rename_i hout
    exact iff_of_false (by simp) fun h => hout h.1

/-- The flags of a generated class are those of its descriptor, and it is abstract if the check
says so. -/
theorem Produced.isAbstract_iff (hp : Produced ground objectType l g p) {h : TypeHandle}
    {d : Descriptor} (hd : ground.batch.find? h = some d)
    (hclass : (p.program.record (l.place h)).isInterface = false) : ∃ u : Universe, u.WellFormed
      ∧ ground.program.types.size ≤ u.types.size ∧ Agree ground.program.types.size ground.program u
      ∧ ((p.program.record (l.place h)).isAbstract = true
          ↔ ground.batch.isAbstract u d = true ∨ hasBits d.flags TypeFlags.abstract = true) := by
  obtain ⟨u, hu, hsize, hagree, hsketch⟩ := hp.outlines h d hd
  refine ⟨u, hu, hsize, hagree, ?_⟩
  have hflags : (p.program.record (l.place h)).flags
      = if ground.batch.isAbstract u d then d.flags ||| TypeFlags.abstract else d.flags :=
      congrArg Sketch.flags hsketch
  rw [TypeRecord.isAbstract, hclass, Bool.or_false, hflags]
  split
  · rename_i habstract
    exact iff_of_true (hasBits_or_self _ _) (.inl habstract)
  · rename_i hconcrete
    rw [or_iff_right hconcrete]

end Production

namespace World

variable {w : World} {place : Nat} {b : Batch} {t : TypeHandle} {d : Descriptor}
  {output : Array TypeId} {g : Generated}

/-- In a world that began with any sound types a batch is generated, with an open descriptor of a
class. -/
structure ClassRun (w : World) (place : Nat) (b : Batch) (t : TypeHandle) (d : Descriptor)
    (output : Array TypeId) (g : Generated) :
    Prop where
  origin : ∃ space : TypeSpace, space.Sound ∧ Later { space } w
  batch : w.batches[place]? = some b
  found : b.find? t = some d
  isOpen : d.isSealed = false
  isClass : d.isInterface = false
  generated : w.outcome place output = .ok g

theorem ClassRun.produced (hrun : ClassRun w place b t d output g) : w.Sound
    ∧ ∃ l, Production.Produced (Production.opening b { space := w.space, output })
    w.space.registry.core.object l g (w.generation b output).2
      ∧ (w.after (.generate place output)).program = (w.generation b output).2.program
      ∧ b.closeAll.find? t = some d.close := by
  obtain ⟨⟨space, hspace, hlater⟩, hb, hfind, -, -, hout⟩ := hrun
  have hw := (hlater.sound (sound_of_space hspace)).1
  simp only [outcome, hb] at hout
  obtain ⟨l, hproduced⟩ := Attempt.wp_ok
    (Production.wp_generate { space := w.space, output } hw.space (hw.batches place b hb)
      hw.space.object)
    (Prod.ext hout rfl : w.generation b output = (_, (w.generation b output).2))
  refine ⟨hw, l, hproduced, ?_, by rw [Batch.find?_closeAll, hfind, Option.map_some]⟩
  simp only [after, hb]
  rfl

/-- What the flag of a generated class says is the answer of its descriptor, by types that were
there before or while it was generated. -/
theorem ClassRun.isAbstract_eq (hrun : ClassRun w place b t d output g) :
    ∃ P u, g.emitted.types.find? t = some P ∧ u.WellFormed ∧ w.program.types.size ≤ u.types.size
      ∧ Agree w.program.types.size w.program u
      ∧ (∀ base, d.base = some (.ofClass base) → (w.program.record base).isInterface = false)
      ∧ ((w.after (.generate place output)).program.record P).isAbstract
        = ((d.askAbstract u).1 || b.owesDrafts w.program d || hasBits d.flags
          TypeFlags.abstract) := by
  obtain ⟨hw, l, hproduced, hafter, hclosed⟩ := hrun.produced
  have hbatch := hw.batches place b hrun.batch
  have he := (hproduced.emits hw.space hbatch.close).emission t d.close hclosed
  obtain ⟨u, hu, hsize, hagree, hflag⟩ :=
    hproduced.isAbstract_iff hclosed (he.interface.trans hrun.isClass)
  have hbase : ∀ base, d.base = some (.ofClass base) →
    (w.program.record base).isInterface = false :=
    fun base hbase => (he.base_of_ofClass hbase).2
  refine ⟨l.place t, u, (hproduced.place_iff t _).mpr ⟨⟨_, hclosed⟩, rfl⟩, hu, hsize,
    hagree, hbase, ?_⟩
  have hasked : (d.close.askAbstract u).1 = (d.askAbstract u).1 := by
    have hmemo : d.close.abstractMemo = d.abstractMemo := rfl
    rw [Descriptor.askAbstract, Descriptor.askAbstract, hmemo]
    cases d.abstractMemo <;> rfl
  have hground : (Production.opening b { space := w.space, output }).batch = b.closeAll := rfl
  rw [Bool.eq_iff_iff, hafter, hflag, hground, Batch.isAbstract, hasked,
    Batch.owesDrafts_agree hbatch.close (hbatch.close.sound t.index _ hclosed) hw.space.wellFormed
    hu hagree hsize hbase,
    Batch.owesDrafts_closeAll, Bool.or_eq_true (_ || _)]
  rfl

/-- A class that the check of its descriptor foresees is marked as abstract exactly if it was
created so, or declares, inherits or owes a method without a body. -/
theorem abstract_flag_iff (hrun : ClassRun w place b t d output g)
    (htokens : (w.after (.generate place output)).program.DistinctTokens) :
    ∃ P, g.emitted.types.find? t = some P ∧
      (b.Foreseen w.program (w.after (.generate place output)).program g.emitted.types.find? d P →
        (((w.after (.generate place output)).program.record P).isAbstract = true
          ↔ hasBits d.flags TypeFlags.abstract = true
          ∨ (w.after (.generate place output)).program.Unfinished P)) := by
  obtain ⟨P, u, hP, hu, hsize, hagree, hbase, hflag⟩ := hrun.isAbstract_eq
  obtain ⟨-, l, hproduced, hafter, hclosed⟩ := hrun.produced
  obtain ⟨⟨space, hspace, hlater⟩, hb, hfind, hopen, hclass, -⟩ := hrun
  have hbegin := sound_of_space hspace
  have hw := (hlater.sound hbegin).1
  have hi := (hlater.implementing hbegin (implementing_of_space space)).1
  have hr := hlater.recalling hbegin (implementing_of_space space) (recalling_of_space space)
  have hbatch := hw.batches place b hb
  have hemits := hproduced.emits hw.space hbatch.close
  refine ⟨P, hP, fun hf => ?_⟩
  obtain rfl := ((hproduced.place_iff t P).mp hP).2
  -- The answer is that for a descriptor with the same methods, by the types before the generation.
  obtain ⟨d₀, hp, hsound, hi₀, hanswer⟩ :=
    Descriptor.Recalls.answer (hr place b hb t d hfind hopen) hw.space.wellFormed
    (hbatch.sound t.index d hfind) (hi place b hb t.index d hfind) hbase hu hagree hsize
  have hcloses : d.Predates d.close := ⟨rfl, rfl, rfl, rfl, .refl _⟩
  rw [hafter] at htokens hf hflag ⊢
  have hground : (Production.opening b { space := w.space, output }).batch = b.closeAll := rfl
  have hforeseen := hemits.isAbstract_iff htokens hclosed hclass (hproduced.place_iff ·) hf.close
    (hp.trans hcloses) hsound hi₀
    ((hi place b hb t.index d hfind).of_same rfl rfl rfl)
  rw [hground, Batch.owesDrafts_closeAll] at hforeseen
  rw [hflag, ← hanswer, Bool.or_eq_true (_ || _), or_comm]
  exact (or_congr_right hforeseen).trans or_self_left

/-! ### Flags that tell the truth, and one that does not -/

theorem classRun_of_moves (moves : List Move) (t : TypeHandle) (P : TypeId)
    (check : Descriptor → Bool) (hfits : fresh.FitsAll moves)
    (hd : ((fresh.run moves).descriptor? 0 t).any (fun d =>
      !d.isSealed && !d.isInterface && check d) = true)
    (hmade : ((fresh.run moves).outcome 0 #[]).toOption.map (·.emitted.types.find? t)
      = some (some P)) :
    ∃ b d g, ClassRun (fresh.run moves) 0 b t d #[] g ∧ check d = true
        ∧ g.emitted.types.find? t = some P := by
  obtain ⟨d, hd, hcheck⟩ := (Option.any_eq_true _ _).mp hd
  rw [Bool.and_eq_true, Bool.and_eq_true, Bool.not_eq_true', Bool.not_eq_true'] at hcheck
  obtain ⟨b, hb, hfind⟩ := Option.bind_eq_some_iff.mp hd
  cases hout : (fresh.run moves).outcome 0 #[] with
  | error f => rw [hout] at hmade; cases hmade
  | ok g =>
    rw [hout] at hmade
    have horigin : ∃ space : TypeSpace, space.Sound ∧ Later { space } (fresh.run moves) :=
      ⟨_, TypeSpace.sound_fresh Universe.wellFormed_empty, later_run moves hfits⟩
    exact ⟨b, d, g, ⟨horigin, hb, hfind, hcheck.1.1, hcheck.1.2, hout⟩, hcheck.2,
      Option.some.inj hmade⟩

/-- A class over an abstract one, which overrides its method with a body and has a method for an
interface. -/
def finishingMoves : List Move :=
  [.build interfaceWithM,
    .build (({ space := "App", name := "A" } : ClassSpec).isPublic.abstract.method "N"
      (({} : MethodSpec).abstract)),
    .openBatch, .edit 0 (.createType "App" "D" TypeFlags.isPublic (some (.ofClass ⟨4⟩))),
    .edit 0 (.overrideMethod ⟨0⟩ ⟨⟨4⟩, .method 0⟩),
      .edit 0 (.setMethodBody ⟨0⟩ ⟨⟨0⟩, .method 0⟩ .empty),
    .edit 0 (.addMethod ⟨0⟩ "M" (MethodFlags.isPublic ||| MethodFlags.virtual) {} (some .empty)),
    .edit 0 (.addInterface ⟨0⟩ ⟨3⟩ false)]

def unfinishedProgram : Universe := (fresh.run finishingMoves).program

def finishedProgram : Universe := ((fresh.run finishingMoves).after (.generate 0 #[])).program

/-- What the check of the descriptor relies on, as far as it can be computed. -/
def finishing (d : Descriptor) : Bool :=
  let u := unfinishedProgram
  decide (d.baseType? u = some ⟨4⟩) && d.interfaceDrafts.isEmpty && d.implementations.isEmpty
    && decide (⟨3⟩ ∈ d.interfaceTypes u) && decide (∀ level ∈ u.hierarchy ⟨4⟩,
      ∀ m ∈ u.methodsOf level, (u.method m).isVirtual = true
      ∧ ∀ own ∈ d.methods, own.access = .isPublic
      ∧ (own.takesSlot (u.method m).name (u.method m).signature = true →
        Emission.Fills u ⟨4⟩ own m))

theorem undertakes_finished {i : TypeId} (h : finishedProgram.Undertakes ⟨5⟩ i) : i = ⟨3⟩ := by
  have hlevels : ∀ level ∈ finishedProgram.hierarchy ⟨5⟩,
      ∀ j ∈ (finishedProgram.record level).interfaces.toList, j = ⟨3⟩ := by
    decide +kernel
  have hnone : (finishedProgram.record ⟨3⟩).interfaces = #[] := by decide +kernel
  obtain ⟨level, hlevel, hpath⟩ := h
  induction hpath with
  | single hlists => exact hlevels level hlevel _ (Array.mem_toList_iff.mpr hlists)
  | tail _ hlists ih =>
    rw [Universe.Lists, ih, hnone] at hlists
    exact absurd hlists (Array.not_mem_empty _)

set_option maxRecDepth 10000 in
/-- The class is finished, and it is not marked. -/
theorem abstract_flag_of_finished :
    ∃ d, (fresh.run finishingMoves).descriptor? 0 ⟨0⟩ = some d
      ∧ ((finishedProgram.record ⟨5⟩).isAbstract = true
        ↔ hasBits d.flags TypeFlags.abstract = true ∨ finishedProgram.Unfinished ⟨5⟩) := by
  obtain ⟨b, d, g, hrun, hfinishing, hfound⟩ :=
    classRun_of_moves finishingMoves ⟨0⟩ ⟨5⟩ finishing (by decide +kernel) (by decide +kernel)
      (by decide +kernel)
  obtain ⟨P, hP, hflag⟩ := abstract_flag_iff hrun (by decide +kernel)
  obtain rfl := Option.some.inj (hfound.symm.trans hP)
  refine ⟨d, by rw [descriptor?, hrun.batch, Option.bind_some, hrun.found], hflag ?_⟩
  simp only [finishing, Bool.and_eq_true, decide_eq_true_eq, List.isEmpty_iff] at hfinishing
  obtain ⟨⟨⟨⟨hbase, hdrafts⟩, hrows⟩, hlists⟩, hmethods⟩ := hfinishing
  have hbaseOnly : ∀ base, d.baseType? unfinishedProgram = some base → base = ⟨4⟩ := fun base hb =>
    Option.some.inj (hb.symm.trans hbase)
  have hlooks : ∀ i, finishedProgram.Undertakes ⟨5⟩ i → b.LooksAt unfinishedProgram d i := by
    intro i hi
    rw [undertakes_finished hi]
    exact .listed hlists .refl
  have hnoDraft : ∀ place i, ¬ b.LooksAtDraft place d i := by
    rintro place i ⟨start, hstart, -⟩
    rw [hdrafts] at hstart
    exact absurd hstart List.not_mem_nil
  exact {
    virtual := fun base hb level hlevel m hm _ => by
      obtain rfl := hbaseOnly base hb
      exact (hmethods level hlevel m hm).1
    slots := fun base hb level hlevel m hm _ own hown htakes => by
      obtain rfl := hbaseOnly base hb
      exact ((hmethods level hlevel m hm).2 own hown).2 htakes
    access := fun base hb level hlevel m hm _ own hown _ _ => by
      obtain rfl := hbaseOnly base hb
      exact ((hmethods level hlevel m hm).2 own hown).1
    registered := fun own _ m hrow => by
      rw [hrows] at hrow
      cases hrow
    plain := fun hb => absurd (hbase.symm.trans hb) (by simp)
    silent := fun i hi => by
      rcases hi with hdraft | ⟨-, hb⟩
      · exact absurd hdraft (hnoDraft _ i)
      · exact absurd (hbase.symm.trans hb) (by simp)
    others := fun i hi _ hnot => absurd (hlooks i hi) hnot }

/-- A class of the batch has a method without a body, and a class over it has no method. -/
def heirMoves : List Move :=
  [.openBatch, .edit 0 (.createType "App" "Base" (TypeFlags.isPublic ||| TypeFlags.abstract) none),
    .edit 0 (.addMethod ⟨0⟩ "M"
      (MethodFlags.isPublic ||| MethodFlags.virtual ||| MethodFlags.newSlot |||
        MethodFlags.abstract) {} none),
    .edit 0 (.createType "App" "D" TypeFlags.isPublic (some (.draft ⟨0⟩)))]

/-- Whatever the base of a class is, its flag says whether a method has no body. -/
def FlagsTellTruth : Prop :=
  ∀ (w : World) (place : Nat) (b : Batch) (t : TypeHandle) (d : Descriptor) (output : Array TypeId)
    (g : Generated) (P : TypeId),
    ClassRun w place b t d output g → (w.after (.generate place output)).program.DistinctTokens →
    g.emitted.types.find? t = some P →
    (((w.after (.generate place output)).program.record P).isAbstract = true
      ↔ hasBits d.flags TypeFlags.abstract = true
      ∨ (w.after (.generate place output)).program.Unfinished P)

set_option maxRecDepth 10000 in
/-- The method of the base from the batch has no body on the class over it, which is not marked. -/
theorem not_flagsTellTruth : ¬ FlagsTellTruth := by
  intro htruth
  obtain ⟨b, d, g, hrun, -, hP⟩ :=
    classRun_of_moves heirMoves ⟨1⟩ ⟨4⟩ (fun _ => true) (by decide +kernel) (by decide +kernel)
      (by decide +kernel)
  have hmarked : ((((fresh.run heirMoves).after (.generate 0 #[])).program.record ⟨4⟩).isAbstract)
    = false := by decide +kernel
  let after := ((fresh.run heirMoves).after (.generate 0 #[])).program
  have habove : ⟨3⟩ ∈ after.bases ⟨4⟩ := by decide +kernel
  have hdeclared : ⟨⟨3⟩, .method 0⟩ ∈ after.methodsOf ⟨3⟩ := by decide +kernel
  have hbodiless : after.Unfinished ⟨4⟩ :=
    .inherits habove hdeclared (by decide +kernel) (by decide +kernel)
  have htrue := (htruth _ _ b _ d _ g _ hrun (by decide +kernel) hP).mpr (.inr hbodiless)
  rw [hmarked] at htrue
  cases htrue

end World

end TypeLoom
