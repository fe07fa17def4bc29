import TypeLoom.Proofs.Emission
import TypeLoom.Proofs.Histories
import TypeLoom.Proofs.Image
import TypeLoom.Proofs.Sparing
import TypeLoom.Proofs.Widening

/-!
# Rightful overrides

An override is registered only where the implementation that the base has is not final. What this
says of the methods of a descriptor holds later of the explicit overrides of the type that is
generated, and it goes on to hold of finished types whatever else is built, edited and generated.
-/

namespace TypeLoom

open Attempt

/-! ### Explicit overrides of a type -/

namespace Universe

variable {u after : Universe} {t : TypeId} {v : Override} {m : MethodId}

/-- An explicit override of a class method is the only one of its body, the class is there, and
what the base runs in the slot is not final. -/
structure Supersedes (u : Universe) (t : TypeId) (v : Override) : Prop where
  present : u.isPresent v.declaration.owner = true
  alone : ∀ other ∈ (u.record t).overrides, other.body = v.body → other = v
  permitted : ∃ base, (u.record t).base = some base
    ∧ (u.method (u.resolveSlot base v.declaration)).isFinal = false

/-- The body of an explicit override is a virtual method of the type. It has a slot of its own
exactly if the declaration belongs to an interface. -/
structure RightfulAt (u : Universe) (t : TypeId) (v : Override) : Prop where
  own : v.body ∈ u.methodsOf t
  virtual : (u.method v.body).isVirtual = true
  newSlot : (u.method v.body).isNewSlot = (u.record v.declaration.owner).isInterface
  supersedes : (u.record v.declaration.owner).isInterface = false → u.Supersedes t v

def Rightful (u : Universe) : Prop :=
  ∀ t, (u.record t).complete = true → ∀ v ∈ (u.record t).overrides, u.RightfulAt t v

theorem Agree.isFinal {size : Nat} (ha : Agree size u after) (hm : m.owner.index < size) :
    (after.method m).isFinal = (u.method m).isFinal :=
  congrArg (fun o : MethodOutline => hasBits o.flags MethodFlags.final) (ha.head hm)

theorem Agree.isFinal_resolveSlot (ha : Agree u.types.size u after) (hu : u.WellFormed)
    (hle : u.types.size ≤ after.types.size) (ht : t.index < u.types.size)
    (hm : m.owner.index < u.types.size) :
    (after.method (after.resolveSlot t m)).isFinal = (u.method (u.resolveSlot t m)).isFinal := by
  rw [ha.resolveSlot hu (Nat.le_refl _) hle ht hm]
  refine ha.isFinal ?_
  rcases hu.owner_of_resolveSlot t m with hbelow | hself
  · omega
  · rw [hself]
    exact hm

theorem RightfulAt.agree (h : u.RightfulAt t v) (hu : u.WellFormed)
    (ha : Agree u.types.size u after) (hle : u.types.size ≤ after.types.size)
    (hv : v ∈ (u.record t).overrides) : after.RightfulAt t v := by
  have hbody := u.lt_of_isSome_method? _ (u.isSome_of_mem_methodsOf h.own)
  have ht : t.index < u.types.size := by
    rw [← u.owner_of_mem_methodsOf h.own]
    exact hbody
  have hdeclared := ((hu t).overrides v (Array.mem_toList_iff.mpr hv)).2.1
  have hlt : v.declaration.owner.index < u.types.size := Nat.lt_trans hdeclared ht
  refine ⟨?_, ?_, ?_, fun hclass => ?_⟩
  · rw [ha.methodsOf ht]
    exact h.own
  · rw [ha.isVirtual hbody]
    exact h.virtual
  · rw [ha.isNewSlot hbody, ha.isInterface hlt]
    exact h.newSlot
  · rw [ha.isInterface hlt] at hclass
    obtain ⟨hpresent, halone, base, hbase, hpermitted⟩ := h.supersedes hclass
    have hbaseLt := hu.base_lt hbase
    refine ⟨?_, ?_, base, ?_, ?_⟩
    · rw [ha.isPresent hlt]
      exact hpresent
    · rw [ha.overrides ht]
      exact halone
    · rw [ha.base ht]
      exact hbase
    · rw [ha.isFinal_resolveSlot hu hle (by omega) hlt]
      exact hpermitted

/-- Rightful overrides of a program that grows: no type that was there is finished only now, and
the overrides of new types are rightful. -/
theorem Rightful.grow (h : u.Rightful) (hu : u.WellFormed) (ha : Agree u.types.size u after)
    (hle : u.types.size ≤ after.types.size)
    (hold : ∀ t : TypeId, t.index < u.types.size → (after.record t).complete = true →
      (u.record t).complete = true)
    (hnew : ∀ t : TypeId, u.types.size ≤ t.index → (after.record t).complete = true →
      ∀ v ∈ (after.record t).overrides, after.RightfulAt t v) :
    after.Rightful := by
  intro t hdone v hv
  by_cases ht : t.index < u.types.size
  · rw [ha.overrides ht] at hv
    exact (h t (hold t ht hdone) v hv).agree hu ha hle hv
  · exact hnew t (Nat.not_lt.mp ht) hdone v hv

theorem Rightful.widen (h : u.Rightful) (hu : u.WellFormed) (hw : u.Widens after) :
    after.Rightful := by
  refine h.grow hu hw.agree hw.size (fun t ht hdone => ?_) fun t ht _ v hv => ?_
  · obtain ⟨nested, hrecord⟩ := hw.old t ht
    rw [hrecord] at hdone
    exact hdone
  · rw [hw.new t ht] at hv
    exact absurd hv (Array.not_mem_empty v)

end Universe

/-! ### Methods of a descriptor -/

namespace Descriptor

open Universe

variable {u after : Universe} {d d' : Descriptor}

/-- A method that was made for a base method was permitted, and one with explicit declarations is
virtual. -/
structure Heedful (u : Universe) (d : Descriptor) : Prop where
  permitted : ∀ own ∈ d.methods, ∀ m, own.baseMethod = some m →
    ∃ base, d.base = some (.ofClass base) ∧ (u.method (u.resolveSlot base m)).isFinal = false
  virtual : ∀ own ∈ d.methods, own.explicitOverrides ≠ #[] → own.isVirtual = true

theorem heedful_blank (hmethods : d.methods = #[]) : d.Heedful u :=
  ⟨by simp [hmethods], by simp [hmethods]⟩

theorem Heedful.of_same (h : d.Heedful u) (hbase : d'.base = d.base)
    (hmethods : d'.methods = d.methods) : d'.Heedful u := by
  refine ⟨?_, ?_⟩
  · rw [hmethods, hbase]
    exact h.permitted
  · rw [hmethods]
    exact h.virtual

theorem Heedful.push (h : d.Heedful u) {new : DraftMethod} (hbase : d'.base = d.base)
    (hmethods : d'.methods = d.methods.push new) (hpermitted : ∀ m, new.baseMethod = some m →
      ∃ base, d.base = some (.ofClass base) ∧ (u.method (u.resolveSlot base m)).isFinal = false)
    (hvirtual : new.explicitOverrides ≠ #[] → new.isVirtual = true) : d'.Heedful u where
  permitted := fun own hown => by
    rw [hbase]
    rcases Array.mem_push.mp (hmethods ▸ hown) with hold | rfl
    · exact h.permitted own hold
    · exact hpermitted
  virtual := fun own hown => by
    rcases Array.mem_push.mp (hmethods ▸ hown) with hold | rfl
    · exact h.virtual own hold
    · exact hvirtual

theorem Heedful.revise (h : d.Heedful u) {index : Nat} {change : DraftMethod → DraftMethod}
    (hbase : d'.base = d.base) (hmethods : d'.methods = d.methods.modify index change)
    (revised : ∀ m : DraftMethod, m.Revised (change m)) : d'.Heedful u := by
  have hold : ∀ own ∈ d'.methods, ∃ old ∈ d.methods, old.Revised own := fun own hown => by
    obtain ⟨i, hi⟩ := Array.mem_iff_getElem?.mp (hmethods ▸ hown)
    obtain ⟨old, hold, hr⟩ := getElem?_modify_cases revised hi
    exact ⟨old, Array.mem_of_getElem? hold, hr⟩
  refine ⟨fun own hown => ?_, fun own hown => ?_⟩
  · obtain ⟨old, hmem, hr⟩ := hold own hown
    rw [hr.baseMethod, hbase]
    exact h.permitted old hmem
  · obtain ⟨old, hmem, hr⟩ := hold own hown
    rw [hr.explicitOverrides, hr.isVirtual]
    exact h.virtual old hmem

theorem isFinal_of_overrideAccess {implementation : MethodId} {access : Access}
    (h : d.overrideAccess u implementation = .ok access) :
    (u.method implementation).isFinal = false := by
  rw [Bool.eq_false_iff]
  intro hfinal
  rw [overrideAccess, if_pos hfinal] at h
  cases h

theorem Heedful.change (h : d.Heedful u) (hc : Change u d d') : d'.Heedful u := by
  cases hc with
  | aside ha => exact h.of_same ha.base ha.methods
  | constructor c known ha => exact h.of_same ha.base ha.methods
  | interface s exists' ha => exact h.of_same ha.base ha.methods
  | method name flags signature body known check ha =>
    exact h.push ha.base ha.methods nofun fun hne => absurd rfl hne
  | revise index change revised ha => exact h.revise ha.base ha.methods revised
  | reuse m base own check free found ha => exact h.of_same ha.base ha.methods
  | override m base access check free missing allowed ha =>
    have hover := checkOverride_ok check
    refine h.push ha.base ha.methods (fun m' hm' => ?_) fun hne => absurd rfl hne
    obtain rfl : m = m' := Option.some.inj hm'
    have hfinal := isFinal_of_overrideAccess allowed
    rw [resolveVirtual_of_class hover.isClass hover.virtual] at hfinal
    exact ⟨base, (baseType?_eq_some hover.isBase).1, hfinal⟩
  | claim m own check free found ha => exact h.of_same ha.base ha.methods
  | inherit m inherited base handle check free isBase found row only ha =>
    exact h.of_same ha.base ha.methods
  | implement m check free missing checkMethod ha =>
    exact h.push ha.base ha.methods nofun fun _ =>
      show hasBits newImplementationFlags MethodFlags.virtual = true by decide

theorem Heedful.evolution (h : d.Heedful u) (he : Evolution u d d') : d'.Heedful u := by
  induction he with
  | refl => exact h
  | tail _ step ih => exact ih.change step

theorem Heedful.grow (h : d.Heedful u) (hs : d.Sound u) (hu : u.WellFormed)
    (ha : Agree u.types.size u after) (hle : u.types.size ≤ after.types.size) :
    d.Heedful after where
  permitted := fun own hown m hm => by
    obtain ⟨base, hbase, hfinal⟩ := h.permitted own hown m hm
    have hlt := u.lt_of_isSome_method? m (hs.standsIn own hown m hm).exists'
    exact ⟨base, hbase, by
      rw [ha.isFinal_resolveSlot hu hle (hs.base base hbase) hlt]; exact hfinal⟩
  virtual := h.virtual

end Descriptor

def Batch.Heedful (u : Universe) (b : Batch) : Prop := ∀ (i : Nat)
    (d : Descriptor), b.types[i]? = some d → d.Heedful u

namespace Batch

variable {u : Universe} {b b' : Batch}

theorem Heedful.grown (h : b.Heedful u) (hg : b.Grown u b') : b'.Heedful u := by
  intro i d hd
  by_cases hlt : i < b.types.size
  · have hold := Array.getElem?_eq_getElem hlt
    obtain ⟨d', hd', he⟩ := hg.old i _ hold
    obtain rfl : d' = d := Option.some.inj (hd'.symm.trans hd)
    exact (h i _ hold).evolution he
  · obtain ⟨blank, -, hmethods, -, he⟩ := hg.begun i d hd (Nat.not_lt.mp hlt)
    exact (Descriptor.heedful_blank hmethods).evolution he

theorem Heedful.grow {after : Universe} (h : b.Heedful u) (hs : b.Sound u) (hu : u.WellFormed)
    (ha : Universe.Agree u.types.size u after) (hle : u.types.size ≤ after.types.size) :
    b.Heedful after :=
  fun i d hd => (h i d hd).grow (hs.sound i d hd) hu ha hle

theorem Heedful.close (h : b.Heedful u) : b.closeAll.Heedful u := fun i d hd => by
  obtain ⟨before, hbefore, rfl⟩ := Option.map_eq_some_iff.mp ((find?_closeAll b ⟨i⟩).symm.trans hd)
  exact (h i before hbefore).of_same rfl rfl

theorem Heedful.remembers (h : b.Heedful u) (hr : b.Remembers b') : b'.Heedful u := fun i d hd => by
  obtain ⟨before, hbefore, hforget⟩ := hr.symm.find (h := ⟨i⟩) hd
  have halike := Descriptor.alike_of_forget hforget
  exact (h i before hbefore).of_same halike.base.symm halike.methods.symm

end Batch

/-! ### Emitted types -/

namespace Emission

open Universe

variable {u after : Universe} {l : Layout} {objectType t : TypeId} {d : Descriptor} {v : Override}

theorem rightfulAt (he : Emission u after l objectType d t) (hd : d.Heedful u)
    (hv : v ∈ (after.record t).overrides) :
    after.RightfulAt t v := by
  obtain ⟨own, hown, hbody, hdeclaration⟩ := (he.mem_overrides_iff v).mp hv
  have hmem : v.body ∈ after.methodsOf t := (he.mem_methodsOf_iff _).mpr ⟨own, hown, hbody⟩
  rcases List.mem_append.mp hdeclaration with hmade | hexplicit
  · have hb := Option.mem_toList.mp hmade
    have hstands := he.sound.standsIn own hown _ hb
    have hlt := u.lt_of_isSome_method? _ hstands.exists'
    obtain ⟨base, hbase, hfinal⟩ := hd.permitted own hown _ hb
    refine ⟨hmem, ?_, ?_, fun _ => ⟨?_, fun other hother hsame => ?_, base,
      (he.base_of_ofClass hbase).1, ?_⟩⟩
    · rw [hbody, he.isVirtual_become hown]
      exact hstands.replaces.1
    · rw [hbody, he.isNewSlot_become hown, he.agree.isInterface hlt, hstands.isClass]
      exact hstands.replaces.2
    · rw [he.agree.isPresent hlt]
      exact hstands.present
    · obtain ⟨own', hown', hbody', hdeclaration'⟩ := (he.mem_overrides_iff other).mp hother
      obtain rfl := he.become_inj hown' hown (hbody'.symm.trans (hsame.trans hbody))
      have hb' := (he.baseMethod_cases hown hstands.replaces other.declaration).mp hdeclaration'
      cases v
      cases other
      exact congr (congrArg Override.mk (Option.some.inj (hb'.symm.trans hb))) hsame
    · rw [he.agree.isFinal_resolveSlot he.before he.size (he.sound.base base hbase) hlt]
      exact hfinal
  · obtain ⟨hnewSlot, hexists, hinterface⟩ :=
      he.sound.implements own hown _ (Array.mem_toList_iff.mp hexplicit)
    have hlt := u.lt_of_isSome_method? _ hexists
    have hsome : own.explicitOverrides ≠ #[] :=
      Array.ne_empty_of_mem (Array.mem_toList_iff.mp hexplicit)
    refine ⟨hmem, ?_, ?_, fun hclass => ?_⟩
    · rw [hbody, he.isVirtual_become hown]
      exact hd.virtual own hown hsome
    · rw [hbody, he.isNewSlot_become hown, he.agree.isInterface hlt, hinterface]
      exact hnewSlot
    · rw [he.agree.isInterface hlt, hinterface] at hclass
      cases hclass

end Emission

/-! ### Generations -/

namespace Production

open Universe

variable {b : Batch} {objectType : TypeId}

/-- Whether a generation succeeds or fails, the overrides of finished types are rightful. -/
theorem wp_generate_rightful (w : Workshop) (hspace : w.space.Sound)
    (hsound : b.Sound w.space.program) (hobject : objectType.index < w.space.program.types.size)
    (hdrafted : b.Drafted) (hheedful : b.Heedful w.space.program)
    (hrightful : w.space.program.Rightful) :
    (generate objectType).wp (fun _ p => p.program.Rightful) (fun p => p.program.Rightful)
        { batch := b, workshop := w } := by
  have hproduced := wp_generate w hspace hsound hobject
  have hfinished := wp_generate_finished (G :=
    False) objectType hdrafted.wellFormed hdrafted.whole w False.elim
  have hwithheld := wp_generate_withheld objectType hdrafted.whole w
  refine wp_mono (wp_and hproduced (wp_and hfinished hwithheld)) ?_ ?_
  · rintro g p ⟨⟨l, hp⟩, ⟨P, hfor, hfinished⟩, -⟩
    obtain ⟨B, -, hdrawn⟩ := hfinished.drawn
    refine hrightful.grow hspace.wellFormed hp.intact.agree hp.intact.size (fun t ht hdone => ?_)
      fun t ht hdone v hv => ?_
    · have hsame := hdrawn.old t (by rw [hfor.start]; exact ht)
      rw [hfor.program] at hsame
      rw [← hsame]
      exact hdone
    · have hlt : t.index < l.start + l.order.length := by
        rw [← hp.size]
        exact lt_of_complete hdone
      obtain ⟨h, hmem, rfl⟩ := Layout.exists_place hp.ordered.nodup (by rw [hp.start]; exact ht) hlt
      have hd := Array.getElem?_eq_getElem ((hp.ordered.mem h).mp hmem)
      exact (hp.emission hspace hsound.close hd).rightfulAt (hheedful.close h.index _ hd) hv
  · rintro p ⟨hintact, -, hwithheld⟩
    have hcomplete : ∀ t, (p.program.record t).complete = (w.space.program.record t).complete :=
      hwithheld.workshop.complete
    refine hrightful.grow hspace.wellFormed hintact.agree hintact.size (fun t _ hdone =>
      (hcomplete t).symm.trans hdone)
      fun t ht hdone => ?_
    have hopen : (w.space.program.record t).complete = false := unfinished_of_le ht
    rw [← hcomplete t, hdone] at hopen
    cases hopen

end Production

/-! ### Worlds -/

def Universe.KeepsFinished (u u' : Universe) : Prop :=
  ∀ t, (u.record t).complete = true → ∃ nested, u'.record t = { u.record t with nested }

theorem Universe.KeepsFinished.refl (u : Universe) : u.KeepsFinished u :=
  fun t _ => ⟨(u.record t).nested, rfl⟩

theorem Universe.KeepsFinished.trans {u mid u' : Universe} (h : u.KeepsFinished mid)
    (h' : mid.KeepsFinished u') :
    u.KeepsFinished u' := fun t ht => by
  obtain ⟨nested, hmid⟩ := h t ht
  obtain ⟨nested', hafter⟩ := h' t (by rw [hmid]; exact ht)
  exact ⟨nested', by rw [hafter, hmid]⟩

theorem Universe.Widens.keepsFinished {u u' : Universe} (h : u.Widens u') : u.KeepsFinished u' :=
  fun t ht => h.old t (lt_of_complete ht)

namespace World

variable {w w' : World}

/-- All that is known of a world that came about by moves. -/
structure Upright (w : World) : Prop where
  sound : w.Sound
  rightful : w.program.Rightful
  heedful : w.Each fun u b => b.Heedful u
  drafted : w.Each fun _ b => b.Drafted

theorem drafted_step (hw : w.Each fun _ b => b.Drafted) (hstep : Step w w') :
    w'.Each fun _ b => b.Drafted := by
  obtain ⟨move, -, rfl⟩ := hstep
  exact hw.after (fun _ _ _ hb => hb) (fun _ => .empty)
    (fun place requested name b _ hb => .proxy w.program requested name (hw place b hb))
    (fun place e b _ hb => .edit w.program e (hw place b hb))
    fun place output b _ hb =>
      .generate w.space.registry.core.object { space := w.space, output } (hw place b hb)

theorem Upright.heedful_step (hw : w.Upright) (hstep : Step w w') :
    w'.Each fun u b => b.Heedful u := by
  have hu := hw.sound.space.wellFormed
  have hsince := (step_sound hw.sound hstep).2
  obtain ⟨move, hfits, rfl⟩ := hstep
  refine hw.heedful.after (fun i b hb hheedful =>
    hheedful.grow (hw.sound.batches i b hb) hu hsince.agree hsince.size) ?_ ?_ ?_ ?_
  · exact fun _ i d hd => absurd hd (by simp)
  · rintro place requested name b rfl hb
    exact (hw.heedful place b hb).grown
      (Batch.grown_push rfl (Batch.sound_proxy hu _ name hfits) rfl rfl)
  · rintro place e b rfl hb
    exact (hw.heedful place b hb).grown (wp_const.mp (Batch.growing_perform hu hfits b))
  · rintro place output b rfl hb
    have hsound := hw.sound.batches place b hb
    have hintact := intact_generation hw.sound hsound output
    exact ((hw.heedful place b hb).grow hsound hu hintact.agree hintact.size).close.remembers
      hintact.batch

/-- What a move leaves of the program: rightful overrides, and finished types as they were. -/
theorem Upright.program_step (hw : w.Upright) (hstep : Step w w') :
    w'.program.Rightful ∧ w.program.KeepsFinished w'.program := by
  have hu := hw.sound.space.wellFormed
  obtain ⟨move, hfits, rfl⟩ := hstep
  have hsame : w.program.Rightful ∧ w.program.KeepsFinished w.program := ⟨hw.rightful, .refl _⟩
  cases move with
  | build spec =>
    have hwidens := TypeSpace.widens_buildClass spec w.space
    exact ⟨hw.rightful.widen hu hwidens, hwidens.keepsFinished⟩
  | openBatch => exact hsame
  | propose place requested name =>
    simp only [after]
    cases w.batches[place]? <;> exact hsame
  | edit place e =>
    simp only [after]
    cases w.batches[place]? <;> exact hsame
  | generate place output =>
    simp only [after]
    cases hb : w.batches[place]? with
    | none => exact hsame
    | some b =>
      have hrightful := Production.wp_generate_rightful { space := w.space, output } hw.sound.space
        (hw.sound.batches place b hb)
        hw.sound.space.object (hw.drafted place b hb) (hw.heedful place b hb) hw.rightful
      have hspares := Production.wp_generate_spares w.space.registry.core.object b
        { space := w.space, output }
      exact ⟨wp_const.mp hrightful, (wp_const.mp hspares).program.record⟩

theorem Upright.step (hw : w.Upright) (hstep : Step w w') : w'.Upright where
  sound := (step_sound hw.sound hstep).1
  rightful := (hw.program_step hstep).1
  heedful := hw.heedful_step hstep
  drafted := drafted_step hw.drafted hstep

end World

end TypeLoom
