import TypeLoom.Proofs.Histories

/-!
# Overrides and the slots they bind to

An override that was asked for answers with a method of the descriptor. On the generated type a call
of the base method runs that method exactly if the method takes over the slot of the base method: it
was made for a method of that slot, or was made for none and the nearest virtual method of its name
and signature on the base has that slot. A method that was found by name and signature only may fail
this, when it hides the slot.
-/

namespace TypeLoom

open Universe

/-! ### What is taken over stays so -/

namespace Emission

variable {u after : Universe} {size : Nat} {base : TypeId} {own own' : DraftMethod} {m : MethodId}

theorem nearest?_agree (hu : u.WellFormed) (ha : Agree u.types.size u after)
    (hle : u.types.size ≤ after.types.size) (hbase : base.index < u.types.size) :
    nearest? after base own = nearest? u base own := by
  rw [nearest?, nearest?, ha.hierarchy hu (Nat.le_refl _) hle hbase]
  refine findSome?_congr fun level hlevel => ?_
  have hlt := hu.index_le_of_mem_hierarchy hlevel
  exact ha.findVirtual? (by omega) _ _

theorem takenOver?_revised (hr : own.Revised own') :
    takenOver? u base own' = takenOver? u base own := by
  rw [takenOver?, takenOver?, nearest?, nearest?, hr.baseMethod, hr.name, hr.signature]

/-- Which slot a method takes over does not change while the universe grows. -/
theorem fills_agree {d : Descriptor} (hd : d.Sound u) (hown : own ∈ d.methods) (hu : u.WellFormed)
    (ha : Agree u.types.size u after) (hle : u.types.size ≤ after.types.size)
    (hbase : base.index < u.types.size) (hm : (u.method? m).isSome) :
    Fills after base own m ↔ Fills u base own m := by
  have htaken : takenOver? after base own = takenOver? u base own := by
    rw [takenOver?, takenOver?, nearest?_agree hu ha hle hbase]
  have hslot : ∀ b, (u.method? b).isSome → after.slotToken b = u.slotToken b := fun b hb =>
    ha.slotToken hu (Nat.le_refl _) hle (u.lt_of_isSome_method? b hb)
  have hexists : ∀ b, takenOver? u base own = some b → (u.method? b).isSome := by
    intro b hb
    rcases Option.or_eq_some_iff.mp hb with hmade | ⟨-, hnearest⟩
    · exact (hd.standsIn own hown b hmade).exists'
    · exact (mem_of_nearest? hnearest).2.1
  rw [fills_iff, fills_iff, htaken, hslot m hm]
  refine exists_congr fun b => and_congr_right fun hb => ?_
  rw [hslot b (hexists b hb)]

end Emission

/-! ### From the answer to the generated type -/

namespace World

variable {w later : World} {place : Nat} {t : TypeHandle} {m : MethodId} {handle : MethodHandle}
  {created : Bool}
  {output : Array TypeId} {g : Generated}

/-- An answered override belongs to a descriptor with a base, and a row for the slot names one of
its methods. -/
theorem registered_of_answer (hw : w.Sound)
    (hanswer : w.answer place (.overrideMethod t m) = .ok (.registered handle created)) :
    ∃ d base own, (w.after (.edit place (.overrideMethod t m))).descriptor? place t = some d
      ∧ d.Sound w.program ∧ d.base = some (.ofClass base) ∧ d.Overridable w.program m base
      ∧ own ∈ d.methods
      ∧ own.handle = handle ∧ d.overrides.find? (w.program.slotToken m) = some handle := by
  cases hb : w.batches[place]? with
  | none => rw [answer, hb] at hanswer; cases hanswer
  | some b =>
    have hu := hw.space.wellFormed
    simp only [answer, hb] at hanswer
    let run := ((Edit.overrideMethod t m).perform w.program).start b
    obtain ⟨hgrown, handle', created', old, d, base, hsame, hold, hcheck, hd, hrow⟩ :=
      Attempt.wp_ok (Batch.wp_overrideMethod (u := w.program) t m)
        (Prod.ext hanswer rfl : run = (_, run.2))
    cases hsame
    have hlt : place < w.batches.size := (Array.getElem?_eq_some_iff.mp hb).1
    have hafter : (w.after (.edit place (.overrideMethod t m))).descriptor? place t = some d := by
      simp only [after, hb, descriptor?, putBatch]
      rw [Array.getElem?_setIfInBounds_self_of_lt hlt]
      exact hd
    obtain ⟨d', hd', hevolved⟩ := hgrown.old t.index old hold
    obtain rfl : d' = d := Option.some.inj (hd'.symm.trans hd)
    have hkeeps := hevolved.keeps
    have hover := Descriptor.checkOverride_ok hcheck
    have hsound := ((hw.batches place b hb).grown hu hgrown).sound t.index d' hd
    obtain ⟨own, -, hown, hhandle, -⟩ := hsound.rows _ _ hrow
    have hbase : d'.baseType? w.program = some base := by
      rw [Descriptor.baseType?, hkeeps.base]
      exact hover.isBase
    exact ⟨d', base, own, hafter, hsound, (Descriptor.baseType?_eq_some hbase).1,
      ⟨hbase, hover.isClass, hover.present, hover.onChain, hover.virtual⟩, hown, hhandle.symm, hrow⟩

theorem emission_of_outcome (hw : w.Sound) (hout : w.outcome place output = .ok g) {d : Descriptor}
    (hd : w.descriptor? place t = some d) :
    ∃ l P, Emission w.program (w.after (.generate place output)).program l
      w.space.registry.core.object d.close P
      ∧ g.emitted.types.find? t = some P
      ∧ ∀ own ∈ d.methods, g.emitted.methods.find? own.handle = some (Emission.become P own) := by
  obtain ⟨b, hb, hfind⟩ := Option.bind_eq_some_iff.mp hd
  simp only [outcome, hb] at hout
  have hbatch := hw.batches place b hb
  obtain ⟨l, hproduced⟩ := Attempt.wp_ok
    (Production.wp_generate { space := w.space, output } hw.space hbatch hw.space.object)
    (Prod.ext hout rfl : w.generation b output = (_, (w.generation b output).2))
  have hclosed : b.closeAll.find? t = some d.close := by
    rw [Batch.find?_closeAll, hfind, Option.map_some]
  have hmem : t ∈ l.order := (hproduced.ordered.mem t).mpr (Array.getElem?_eq_some_iff.mp hclosed).1
  refine ⟨l, l.place t, ?_, ?_, hproduced.methods t d.close hclosed⟩
  · simp only [after, hb]
    exact hproduced.emission hw.space hbatch.close hclosed
  · rw [hproduced.types, if_pos hmem]

/-- An override was answered in a reachable world, and after any moves its batch was generated. -/
structure OverrideRun (w later : World) (place : Nat) (t : TypeHandle) (m : MethodId)
    (handle : MethodHandle) (output : Array TypeId) (g : Generated) : Prop where
  reachable : Reachable w
  answer : ∃ created, w.answer place (.overrideMethod t m) = .ok (.registered handle created)
  moves : Later (w.after (.edit place (.overrideMethod t m))) later
  generated : later.outcome place output = .ok g

/-- A call of the base method on the generated type runs the method that was answered exactly if
that method takes over the slot of the base method; otherwise it runs what it ran on the base. -/
theorem override_resolves_iff (hrun : OverrideRun w later place t m handle output g)
    (htokens : (later.after (.generate place output)).program.DistinctTokens) :
    ∃ d base own P k, (w.after (.edit place (.overrideMethod t m))).descriptor? place t = some d
      ∧ d.base = some (.ofClass base) ∧ d.method? handle = some own
      ∧ g.emitted.types.find? t = some P ∧ g.emitted.methods.find? handle = some k
      ∧ ((later.after (.generate place output)).program.resolveVirtual P m = k
          ↔ Emission.Fills w.program base own m)
      ∧ (¬ Emission.Fills w.program base own m →
          (later.after (.generate place output)).program.resolveVirtual P m
          = w.program.resolveVirtual base m) := by
  obtain ⟨hreach, ⟨created, hanswer⟩, hlater, hout⟩ := hrun
  have hw := hreach.sound
  obtain ⟨hedited, hsince⟩ := step_sound hw ⟨.edit place (.overrideMethod t m), trivial, rfl⟩
  obtain ⟨hsound, hsince'⟩ := hlater.sound hedited
  obtain ⟨d, base, own, hd, hdSound, hbase, hover, hown, rfl, hrow⟩ :=
    registered_of_answer hw hanswer
  have hu : w.program.WellFormed := hw.space.wellFormed
  have hagree := hsince.agree.trans (hsince'.agree.mono hsince.size)
  have hsize := Nat.le_trans hsince.size hsince'.size
  have hm := Descriptor.isSome_of_isVirtual hover.virtual
  have hlt := w.program.lt_of_isSome_method? m hm
  have hbaseLt := w.program.lt_of_isPresent base (Descriptor.baseType?_eq_some hover.isBase).2
  -- The method is still at its place when the batch is generated.
  obtain ⟨b, hb, hfind⟩ := Option.bind_eq_some_iff.mp hd
  obtain ⟨i, hi⟩ := Array.mem_iff_getElem?.mp hown
  have hhandle := hdSound.handles i own hi
  obtain ⟨b', hb', hkept⟩ := hsince'.batches place b hb
  obtain ⟨d', hd', hkeeps⟩ := hkept t d hfind
  obtain ⟨own', hi', hrevised⟩ := hkeeps.methods i own hi
  have hown' : own' ∈ d'.close.methods := Array.mem_of_getElem? hi'
  have hlaterFind : later.descriptor? place t = some d' := by
    rw [descriptor?, hb', Option.bind_some, hd']
  obtain ⟨l, P, hemission, hP, hmethods⟩ := emission_of_outcome hsound hout hlaterFind
  have hslot : later.program.slotToken m = w.program.slotToken m :=
    hagree.slotToken hu (Nat.le_refl _) hsize hlt
  have hrow' : d'.close.overrides.find? (later.program.slotToken m) = some own.handle := by
    rw [hslot]
    exact hkeeps.rows _ _ hrow
  have hbase' : d'.close.base = some (.ofClass base) := hkeeps.base.trans hbase
  have hexists' : (later.program.method? m).isSome := by
    rw [hagree.isSome_method? hlt]
    exact hm
  have hclass' : (later.program.record m.owner).isInterface = false := by
    rw [hagree.isInterface hlt]
    exact hover.isClass
  have hvirtual' : (later.program.method m).isVirtual = true := by
    rw [hagree.isVirtual hlt]
    exact hover.virtual
  -- Which slot it takes over is known since the override was asked for.
  have hfills : Emission.Fills later.program base own' m ↔ Emission.Fills w.program base own m := by
    rw [← Emission.fills_agree hdSound hown hu hagree hsize hbaseLt hm, Emission.Fills,
      Emission.Fills, Emission.takenOver?_revised hrevised]
  have hbaseResolve : later.program.resolveVirtual base m = w.program.resolveVirtual base m := by
    rw [resolveVirtual_of_class hclass' hvirtual',
      resolveVirtual_of_class hover.isClass hover.virtual,
      hagree.resolveSlot hu (Nat.le_refl _) hsize hbaseLt hlt]
  refine ⟨d, base, own, P, Emission.become P own', hd, hbase, ?_, hP, ?_, ?_, fun hnot => ?_⟩
  · rw [Descriptor.method?, hhandle, if_pos rfl]
    exact hi
  · rw [← hrevised.handle]
    exact hmethods own' hown'
  · rw [← hfills]
    exact hemission.resolveVirtual_eq_iff htokens hbase' hexists' hclass' hrow' hown'
      hrevised.handle hvirtual'
  · rw [hemission.resolveVirtual_eq htokens hbase' hexists' hclass' hrow' hown'
      hrevised.handle hvirtual',
      if_neg (fun h => hnot (hfills.mp h)), hbaseResolve]

/-! ### Hidden slots -/

/-- A public class in `App` with a virtual method `M` in a slot of its own. -/
def classWithM (name : String) (base : Option TypeId) : ClassSpec :=
  { ({ space := "App", name } : ClassSpec).isPublic.method "M" (({ body := .fixed .empty } : MethodSpec).virtual) with
    base }

/-- The first class that is built in a fresh world declares its method here. -/
def methodOfFirst : MethodId := ⟨⟨3⟩, .method 0⟩

def plainMoves : List Move := [.build (classWithM "A" none), .openBatch, .propose 0 ⟨3⟩ "A_Proxy_1"]

/-- A class that hides the method of its base, and its proxy with a method of the same name. -/
def hidingMoves : List Move :=
  [.build (classWithM "A" none), .build (classWithM "B" (some ⟨3⟩)), .openBatch,
    .propose 0 ⟨4⟩ "B_Proxy_1",
    .edit 0 (.addMethod ⟨0⟩ "M" 198 {} (some .empty))]

/-- The override of the first method, right after some moves. -/
def overridden (moves : List Move) : World :=
  (fresh.run moves).after (.edit 0 (.overrideMethod ⟨0⟩ methodOfFirst))

theorem overrideRun {moves : List Move} (created : Bool) (hfits : fresh.FitsAll moves)
    (hanswer : (fresh.run moves).answer 0 (.overrideMethod ⟨0⟩ methodOfFirst)
      = .ok (.registered ⟨⟨0⟩, .method 0⟩ created))
    (hout : (overridden moves).outcome 0 #[] = .ok g) :
    OverrideRun (fresh.run moves) (overridden moves) 0 ⟨0⟩ methodOfFirst ⟨⟨0⟩, .method 0⟩ #[] g :=
  ⟨later_run moves hfits, ⟨created, hanswer⟩, .refl, hout⟩

set_option maxRecDepth 10000 in
/-- On the proxy of the first class the method of the proxy answers. -/
theorem override_resolves_plain :
    ∃ g P k, (overridden plainMoves).outcome 0 #[] = .ok g
      ∧ g.emitted.types.find? ⟨0⟩ = some P ∧ g.emitted.methods.find? ⟨⟨0⟩, .method 0⟩ = some k
      ∧ ((overridden plainMoves).after (.generate 0 #[])).program.resolveVirtual P methodOfFirst
          = k := by
  have hok : ((overridden plainMoves).outcome 0 #[]).isOk = true := by decide +kernel
  obtain ⟨g, hout⟩ : ∃ g, (overridden plainMoves).outcome 0 #[] = .ok g := by
    cases hout : (overridden plainMoves).outcome 0 #[] with
    | ok g => exact ⟨g, rfl⟩
    | error f => rw [hout] at hok; cases hok
  have hrun := overrideRun true (by decide +kernel) (by decide +kernel) hout
  obtain ⟨d, base, own, P, k, hd, hbase, hown, hP, hk, hiff, -⟩ :=
    override_resolves_iff hrun (by decide +kernel)
  have hbase' : ((overridden plainMoves).descriptor? 0 ⟨0⟩).bind (·.base) = some (.ofClass ⟨3⟩) :=
    by decide +kernel
  have hfills : (((overridden plainMoves).descriptor? 0 ⟨0⟩).bind (·.method? ⟨⟨0⟩, .method 0⟩)).all
      (fun own => decide (Emission.Fills (fresh.run plainMoves).program ⟨3⟩ own methodOfFirst))
      = true := by
    decide +kernel
  rw [overridden, hd, Option.bind_some] at hbase' hfills
  rw [hown, Option.all_some, decide_eq_true_eq] at hfills
  rw [hbase] at hbase'
  cases hbase'
  exact ⟨g, P, k, hout, hP, hk, hiff.mpr hfills⟩

/-- Whatever was answered for a base method is what a call of it runs. -/
def OverridesBind : Prop :=
  ∀ (w later : World) (place : Nat) (t : TypeHandle) (m : MethodId) (handle : MethodHandle)
    (output : Array TypeId)
    (g : Generated), OverrideRun w later place t m handle output g →
    ∀ P k, g.emitted.types.find? t = some P → g.emitted.methods.find? handle = some k →
      (later.after (.generate place output)).program.resolveVirtual P m = k

set_option maxRecDepth 10000 in
/-- The method of the proxy is answered for the slot that it hides. -/
theorem not_overridesBind : ¬ OverridesBind := by
  intro hbind
  have hok : ((overridden hidingMoves).outcome 0 #[]).toOption.map
      (fun g => (g.emitted.types.find? ⟨0⟩, g.emitted.methods.find? ⟨⟨0⟩, .method 0⟩))
        = some (some ⟨5⟩, some ⟨⟨5⟩, .method 0⟩) := by decide +kernel
  cases hout : (overridden hidingMoves).outcome 0 #[] with
  | error f => rw [hout] at hok; cases hok
  | ok g =>
    rw [hout] at hok
    simp only [Except.toOption, Option.map_some, Option.some.injEq, Prod.mk.injEq] at hok
    have hrun := overrideRun false (by decide +kernel) (by decide +kernel) hout
    have hbound := hbind _ _ _ _ _ _ _ g hrun _ _ hok.1 hok.2
    have hruns : ((overridden hidingMoves).after (.generate 0 #[])).program.resolveVirtual
      ⟨5⟩ methodOfFirst
        = methodOfFirst := by decide +kernel
    rw [hruns] at hbound
    exact absurd hbound (by decide)

end World

end TypeLoom
