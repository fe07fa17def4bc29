import TypeLoom.Proofs.Commands

/-!
# Commands over other requests

What a command does depends on the requests of participants only where they are made. So two ways of
carrying requests out that agree wherever a property holds give the same commands there, when the
property lasts.
-/

namespace TypeLoom

/-! ### Attempts that agree -/

namespace Attempt

variable {σ τ α β : Type} {P : σ → Prop} {act act' act'' : Attempt σ α}

def SameOn (P : σ → Prop) (act act' : Attempt σ α) : Prop := ∀ s, P s → act.start s = act'.start s

theorem SameOn.refl (act : Attempt σ α) : SameOn P act act := fun _ _ => rfl

theorem SameOn.trans (h : SameOn P act act') (h' : SameOn P act' act'') :
    SameOn P act act'' := fun s hs =>
  (h s hs).trans (h' s hs)

theorem SameOn.maintains (h : SameOn P act act') (hkept : Maintains P act') : Maintains P act := by
  intro s hs
  rw [wp, h s hs]
  exact hkept s hs

theorem SameOn.bind {next next' : α → Attempt σ β} (h : SameOn P act act')
    (hkept : Maintains P act') (hnext : ∀ v, SameOn P (next v) (next' v)) : SameOn P (act >>= next)
    (act' >>= next') := by
  intro s hs
  have hafter := wp_const.mp (hkept s hs)
  rw [start_bind, start_bind, h s hs]
  rcases hend : act'.start s with ⟨f | v, after⟩
  · rfl
  · rw [hend] at hafter
    exact hnext v after hafter

theorem SameOn.get_bind {next next' : σ → Attempt σ α}
    (h : ∀ s, P s → (next s).start s = (next' s).start s) :
    SameOn P (get >>= next) (get >>= next') := fun s hs => h s hs

theorem SameOn.outcome (h : SameOn P act act') : SameOn P act.outcome act'.outcome := by
  intro s hs
  rw [start_outcome, start_outcome, h s hs]

theorem SameOn.recast (change : Fault → Fault) (h : SameOn P act act') :
    SameOn P (act.recast change) (act'.recast change) := by
  intro s hs
  rw [Attempt.recast, Attempt.recast, start_of, start_of, h s hs]

theorem SameOn.ite {c : Prop} [Decidable c] {other other' : Attempt σ α} (h : SameOn P act act')
    (hother : SameOn P other other') :
    SameOn P (if c then act else other) (if c then act' else other') := by
  by_cases hc : c
  · rwa [if_pos hc, if_pos hc]
  · rwa [if_neg hc, if_neg hc]

theorem SameOn.within {Q : τ → Prop} {part : σ → τ} {restore : τ → σ → σ} {act act' : Attempt τ α}
    (h : SameOn Q act act') (hpart : ∀ s, P s → Q (part s)) : SameOn P (act.within part restore)
    (act'.within part restore) := by
  intro s hs
  rw [start_within, start_within, h (part s) (hpart s hs)]

theorem SameOn.forM {body body' : β → Attempt σ PUnit} (items : List β)
    (hkept : ∀ item, Maintains P (body' item)) (h : ∀ item, SameOn P (body item) (body' item)) :
    SameOn P (items.forM body) (items.forM body') := by
  induction items with
  | nil => exact .refl _
  | cons item items ih => exact (h item).bind (hkept item) fun _ => ih

end Attempt

open Attempt

theorem Plan.sameOn_run {σ α Action : Type} {Answer : Action → Type} {P : σ → Prop}
    {handle handle' : (action : Action) → Attempt σ (Answer action)}
    (hkept : ∀ action, Maintains P (handle' action)) (h : ∀ action,
      SameOn P (handle action) (handle' action)) (plan : Plan Action Answer α) :
    SameOn P (plan.run handle) (plan.run handle') := by
  induction plan with
  | done value => exact .refl _
  | fail fault => exact .refl _
  | act action rest ih => exact (h action).bind (hkept action) ih

/-! ### Assemblies -/

variable {I : List GeneratorId → Session → Prop} {gs : List GeneratorId}
  {requests requests' : Requests} {α : Type}

/-- Requests carried out in these ways do the same wherever the property holds, and keep it. -/
structure Requests.SameOn (I : List GeneratorId → Session → Prop) (requests requests' : Requests) :
    Prop where
  same : ∀ gs c, Attempt.SameOn (I gs) (requests c) (requests' c)
  maintains : ∀ gs c, Maintains (I gs) (requests' c)

section Assembly

open Scene Session

theorem Scene.sameOn_inSession {P : Session → Prop} {act act' : Attempt Session α}
    (h : SameOn P act act') :
    SameOn (About P) (inSession act) (inSession act') :=
  h.within fun _ hs => hs

variable (hI : Steady I) (hrequests : requests.SameOn I requests')

include hrequests in
theorem Action.sameOn_perform (action : Action) : SameOn (I gs) (action.perform requests)
    (action.perform requests') := by
  cases action with
  | look => exact .refl _
  | note datum => exact .refl _
  | countAbsent total => exact .refl _
  | send command => exact (hrequests.same gs command).outcome

include hrequests in
theorem DraftAction.sameOn_perform (action : DraftAction) :
    SameOn (About (I gs)) (action.perform requests) (action.perform requests') := by
  cases action with
  | general action => exact sameOn_inSession (Action.sameOn_perform hrequests action)
  | readState => exact .refl _
  | writeState state => exact .refl _
  | view => exact .refl _
  | edit e => exact .refl _
  | whenGenerated callback => exact .refl _

include hI hrequests

theorem Errand.sameOn_run (errand : Errand α) :
    SameOn (I gs) (errand.run (Action.perform requests)) (errand.run (Action.perform requests')) :=
  Plan.sameOn_run (Action.maintains_perform hI.toCalm hrequests.maintains)
    (Action.sameOn_perform hrequests) errand

theorem Contribution.sameOn_run (contribution : Contribution α) :
    SameOn (About (I gs)) (contribution.run (DraftAction.perform requests))
    (contribution.run (DraftAction.perform requests')) :=
  Plan.sameOn_run (DraftAction.maintains_perform hI.toCalm hrequests.maintains)
    (DraftAction.sameOn_perform hrequests) contribution

namespace Assembler

variable (a : Assembler)

def asking (requests : Requests) : Assembler := { a with requests }

theorem sameOn_draftProxy (id : Identifier) :
    SameOn (About (I gs)) ((a.asking requests).draftProxy id)
    ((a.asking requests').draftProxy id) := by
  refine (SameOn.refl _).bind (maintains_inSession (maintains_proxyName hI.toCalm _ _)) fun name =>
    .get_bind fun scene hs => ?_
  refine SameOn.bind (P := About (I gs)) (.forM _ (fun item => ?_) fun item => ?_)
    (maintains_forM _ fun item _ => ?_)
    (fun _ => .refl _) { scene with batch := _ } hs
  · exact Contribution.maintains_run hI.toCalm hrequests.maintains _
  · exact Contribution.sameOn_run hI hrequests _
  · exact Contribution.maintains_run hI.toCalm hrequests.maintains _

theorem sameOn_generateBatch :
    SameOn (About (I (a.generator :: gs)))
    (a.asking requests).generateBatch (a.asking requests').generateBatch := by
  refine .bind (.refl _) maintains_get fun scene => ?_
  refine .bind (.refl _) (maintains_inSession (hI.generate _ _ _)) fun made => ?_
  refine .bind (.refl _) (maintains_modify fun _ hs => hs) fun _ =>
    .bind (.refl _) (maintains_lift _) fun generated => ?_
  refine .bind (.forM _ (fun callback => ?_) fun callback => ?_) (maintains_forM _ fun callback _ =>
    ?_) fun _ => .refl _
  · exact maintains_inSession (Errand.maintains_run hI.toCalm hrequests.maintains _)
  · exact sameOn_inSession (Errand.sameOn_run hI hrequests _)
  · exact maintains_inSession (Errand.maintains_run hI.toCalm hrequests.maintains _)

theorem sameOn_assembleProxy (id : Identifier) :
    SameOn (About (I (a.generator :: gs))) ((a.asking requests).assembleProxy id)
    ((a.asking requests').assembleProxy id) := by
  refine (sameOn_draftProxy hI hrequests a id).bind
    (maintains_draftProxy hI.toCalm hrequests.maintains _ rfl id) fun proxy => ?_
  refine .bind (.refl _) maintains_get fun scene => .ite (.refl _) ?_
  refine .bind (.refl _) (maintains_stamp _ id proxy) fun _ => ?_
  exact (sameOn_generateBatch hI hrequests a).bind (maintains_generateBatch hrequests.maintains
    (a.asking requests') rfl hI)
    fun _ => .refl _

variable (gs) in
theorem sameOn_assemble (id : Identifier) :
    SameOn (About (I (a.generator :: gs))) ((a.asking requests).assemble id)
    ((a.asking requests').assemble id) := by
  refine .bind (.refl _) maintains_get fun scene => .ite ?_ ?_
  · exact (sameOn_assembleProxy hI hrequests a id).recast _
  · refine .bind (.forM _ (fun participant => ?_) fun participant => ?_)
      (maintains_forM _ fun participant _ => ?_) fun _ => .refl _
    · exact maintains_inSession (Errand.maintains_run hI.toCalm hrequests.maintains _)
    · exact sameOn_inSession (Errand.sameOn_run hI hrequests _)
    · exact maintains_inSession (Errand.maintains_run hI.toCalm hrequests.maintains _)

variable (gs) in
theorem sameOn_assembleAdditional (id : Part) :
    SameOn (About (I (a.generator :: gs))) ((a.asking requests).assembleAdditional id)
    ((a.asking requests').assembleAdditional id) := by
  refine SameOn.recast _ ?_
  have hprovide : ∀ participants,
    SameOn (About (I (a.generator :: gs))) ((a.asking requests).provideAdditional id participants)
      ((a.asking requests').provideAdditional id participants) := by
    intro participants
    induction participants with
    | nil => exact .refl _
    | cons participant rest ih =>
      refine (Contribution.sameOn_run hI hrequests (participant.additionalType id)).bind
        (Contribution.maintains_run hI.toCalm hrequests.maintains _) fun answer => ?_
      split
      · exact .refl _
      · exact (sameOn_generateBatch hI hrequests a).bind
          (maintains_generateBatch hrequests.maintains (a.asking requests') rfl hI)
          fun _ => .refl _
      · exact ih
  exact hprovide _

end Assembler

end Assembly

/-! ### Commands -/

namespace Session

/-- Work with a leased generator is the same where the work itself is, with the lease held. -/
def Entering (I : List GeneratorId → Session → Prop) : Prop :=
  ∀ {gs} {α : Type} (q : PipelineId) {act act' : GeneratorId → Attempt Session α},
    (∀ g, Maintains (I (g :: gs)) (act' g)) → (∀ g, SameOn (I (g :: gs)) (act g) (act' g)) →
      SameOn (I gs) (do withLease ((← get).pipeline q).pool Thread.main act)
        (do withLease ((← get).pipeline q).pool Thread.main act')

variable {cast : Cast} (hI : Lasting I) (henter : Entering I)
  (hrequests : requests.SameOn I requests')
include henter

theorem sameOn_withAssembler (q : PipelineId) {act : Assembler → Attempt Scene α}
    (hkept : ∀ a : Assembler, a.requests = requests' →
      Maintains (Scene.About (I (a.generator :: gs))) (act a))
    (h : ∀ a : Assembler, SameOn (Scene.About (I (a.generator :: gs))) (act (a.asking requests))
      (act (a.asking requests'))) :
    SameOn (I gs) (withAssembler cast requests q act) (withAssembler cast requests' q act) := by
  refine henter q (fun g => ?_) fun g => ?_
  · exact maintains_within (hkept ⟨requests', cast q, q, g⟩ rfl) (fun _ hs => hs) fun _ _ _
      hinner => hinner
  · exact (h ⟨requests', cast q, q, g⟩).within fun _ hs => hs

include hI hrequests

theorem sameOn_getType (q : PipelineId) (key : Identifier) :
    SameOn (I gs) (getType cast requests q key) (getType cast requests' q key) := by
  refine .get_bind fun s hs => ?_
  split
  · rfl
  · refine SameOn.bind (P := I gs) (sameOn_withAssembler henter q (fun a ha => ?_) fun a => ?_) ?_
      (fun _ => .refl _) s hs
    · exact Assembler.maintains_assemble gs hrequests.maintains a ha hI.toSteady key
    · exact Assembler.sameOn_assemble gs hI.toSteady hrequests a key
    · exact maintains_withAssembler gs cast hI.toCalm q fun a ha =>
        (hI.toSteady.assembling hrequests.maintains).types a ha key

theorem sameOn_getAdditional (q : PipelineId) (key : Part) :
    SameOn (I gs) (getAdditional cast requests q key) (getAdditional cast requests' q key) := by
  refine .get_bind fun s hs => ?_
  split
  · rfl
  · refine SameOn.bind (P := I gs) (sameOn_withAssembler henter q (fun a ha => ?_) fun a => ?_) ?_
      (fun _ => .refl _) s hs
    · exact Assembler.maintains_assembleAdditional hrequests.maintains a ha hI.toSteady key
    · exact Assembler.sameOn_assembleAdditional gs hI.toSteady hrequests a key
    · exact maintains_withAssembler gs cast hI.toCalm q fun a ha =>
        (hI.toSteady.assembling hrequests.maintains).additional a ha key

omit henter in
theorem sameOn_load (q : PipelineId) (documents : List (Option String)) :
    SameOn (I gs) (load cast requests q documents) (load cast requests' q documents) := by
  refine .bind (.refl _) maintains_get fun s => .bind (.refl _) (maintains_forM _ fun _ _ =>
    maintains_lift _) fun _ => ?_
  refine .bind (.refl _) (maintains_foldlM _ (maintains_readDocument hI.toCalm q) _) fun loaded =>
    ?_
  refine .bind (.refl _) (maintains_insertTypes hI.toEnduring q _) fun _ => ?_
  refine .bind (.forM _ (fun participant => ?_) fun participant => ?_)
    (maintains_forM _ fun participant _ => ?_) fun _ => .refl _
  · exact Errand.maintains_run hI.toCalm hrequests.maintains _
  · exact Errand.sameOn_run hI.toSteady hrequests _
  · exact Errand.maintains_run hI.toCalm hrequests.maintains _

theorem sameOn_performOver (c : Command) : SameOn (I gs) (performOver cast requests c)
    (performOver cast requests' c) := by
  have htype : ∀ q key, Maintains (I gs) (getType cast requests' q key) :=
    maintains_getType hI.toEnduring (hI.toSteady.assembling hrequests.maintains)
  cases c with
  | assembled q key =>
    exact (sameOn_getType hI henter hrequests q key).bind (htype q key) fun _ => .refl _
  | requested q requested =>
    exact .bind (.refl _) maintains_get fun s =>
      (sameOn_getType hI henter hrequests q _).bind (htype q _) fun _ => .refl _
  | additional q key =>
    exact (sameOn_getAdditional hI henter hrequests q key).bind
      (maintains_getAdditional cast hI.toCalm (hI.toSteady.assembling hrequests.maintains) q key)
      fun _ => .refl _
  | constructor q key parameters nonPublic =>
    have hchoice : SameOn (I gs) (getConstructor cast requests q ⟨key, parameters, nonPublic⟩)
        (getConstructor cast requests' q ⟨key, parameters, nonPublic⟩) := by
      refine .get_bind fun s hs => ?_
      split
      · rfl
      · exact (sameOn_getType hI henter hrequests q key).bind (htype q key) (fun _ => .refl _) s hs
    intro s hs
    simp only [performOver, start_bind, hchoice s hs]
  | flush q => exact .refl _
  | load q documents =>
    exact (sameOn_load hI hrequests q documents).bind
      (maintains_load hI.toEnduring hrequests.maintains q documents) fun _ => .refl _
  | insertTypes q rows => exact .refl _
  | insertAdditional q rows => exact .refl _

end Session

end TypeLoom
