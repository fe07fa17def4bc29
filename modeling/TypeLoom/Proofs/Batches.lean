import TypeLoom.Proofs.DraftSound

/-!
# Sound batches

A batch is sound when its descriptors stand at their handles and are sound. Every edit lets each
descriptor go on by steps of its own and adds new ones at the end, whether it succeeds or fails.
-/

namespace TypeLoom

/-- Types that the edit names in signatures of members exist. -/
def Edit.Known (size : Nat) : Edit → Prop
  | .addConstructor _ _ parameters _ => (⟨.void, parameters⟩ : MethodSignature).Known size
  | .addMethod _ _ _ signature _ => signature.Known size
  | .addPropertyAccessors _ _ signature _ _ _ => signature.Known size
  | .addAutoProperty _ _ signature _ => signature.Known size
  | _ => True

instance (size : Nat) (e : Edit) : Decidable (e.Known size) := by
  cases e <;> unfold Edit.Known <;> infer_instance

theorem setIfInBounds_same {α : Type} {xs : Array α} {i : Nat} {x : α} (h : xs[i]? = some x) :
    xs.setIfInBounds i x = xs := by
  refine Array.ext_getElem? fun j => ?_
  rw [Array.getElem?_setIfInBounds]
  split
  · rename_i hj
    rw [← hj, if_pos (Array.getElem?_eq_some_iff.mp h).1, h]
  · rfl

namespace Batch

open Attempt Descriptor

/-! ### Batches that grow -/

structure Sound (u : Universe) (b : Batch) : Prop where
  handles : ∀ (i : Nat) (d : Descriptor), b.types[i]? = some d → d.handle = ⟨i⟩
  sound : ∀ (i : Nat) (d : Descriptor), b.types[i]? = some d → d.Sound u

/-- Each descriptor has gone on by steps. New ones are sound, stand at their handles, and began
without methods. -/
structure Grown (u : Universe) (b b' : Batch) : Prop where
  old : ∀ (i : Nat) (d : Descriptor), b.types[i]? = some d → ∃ d', b'.types[i]? = some d'
    ∧ Evolution u d d'
  new : ∀ (i : Nat) (d : Descriptor), b'.types[i]? = some d → b.types.size ≤ i →
    d.handle = ⟨i⟩ ∧ d.Sound u
  begun : ∀ (i : Nat) (d : Descriptor), b'.types[i]? = some d → b.types.size ≤ i →
    ∃ blank : Descriptor, blank.Sound u ∧ blank.methods = #[] ∧ blank.implementations = []
    ∧ Evolution u blank d

variable {α β : Type} {u after : Universe} {b mid b' : Batch}

theorem Grown.refl (u : Universe) (b : Batch) : Grown u b b where
  old := fun _ d hd => ⟨d, hd, .refl⟩
  new := fun _ _ hd hle => absurd (Array.getElem?_eq_some_iff.mp hd).1 (Nat.not_lt.mpr hle)
  begun := fun _ _ hd hle => absurd (Array.getElem?_eq_some_iff.mp hd).1 (Nat.not_lt.mpr hle)

theorem Grown.trans (hu : u.WellFormed) (h : Grown u b mid) (h' : Grown u mid b') :
    Grown u b b' where
  old := fun i d hd => by
    obtain ⟨d', hd', he⟩ := h.old i d hd
    obtain ⟨d'', hd'', he'⟩ := h'.old i d' hd'
    exact ⟨d'', hd'', he.trans he'⟩
  new := fun i d hd hle => by
    by_cases hlt : i < mid.types.size
    · obtain ⟨hhandle, hs⟩ := h.new i _ (Array.getElem?_eq_getElem hlt) hle
      obtain ⟨d', hd', he⟩ := h'.old i _ (Array.getElem?_eq_getElem hlt)
      obtain rfl : d' = d := Option.some.inj (hd'.symm.trans hd)
      exact ⟨he.keeps.handle.trans hhandle, hs.evolution hu he⟩
    · exact h'.new i d hd (Nat.not_lt.mp hlt)
  begun := fun i d hd hle => by
    by_cases hlt : i < mid.types.size
    · obtain ⟨blank, hs, hmethods, hrows, he⟩ := h.begun i _ (Array.getElem?_eq_getElem hlt) hle
      obtain ⟨d', hd', he'⟩ := h'.old i _ (Array.getElem?_eq_getElem hlt)
      obtain rfl : d' = d := Option.some.inj (hd'.symm.trans hd)
      exact ⟨blank, hs, hmethods, hrows, he.trans he'⟩
    · exact h'.begun i d hd (Nat.not_lt.mp hlt)

theorem Sound.grown (hu : u.WellFormed) (h : b.Sound u) (hg : Grown u b b') : b'.Sound u := by
  have hboth : ∀ (i : Nat) (d : Descriptor), b'.types[i]? = some d → d.handle = ⟨i⟩
      ∧ d.Sound u := by
    intro i d hd
    by_cases hlt : i < b.types.size
    · have hold := Array.getElem?_eq_getElem hlt
      obtain ⟨d', hd', he⟩ := hg.old i _ hold
      obtain rfl : d' = d := Option.some.inj (hd'.symm.trans hd)
      exact ⟨he.keeps.handle.trans (h.handles i _ hold), (h.sound i _ hold).evolution hu he⟩
    · exact hg.new i d hd (Nat.not_lt.mp hlt)
  exact ⟨fun i d hd => (hboth i d hd).1, fun i d hd => (hboth i d hd).2⟩

theorem sound_empty (u : Universe) : Sound u {} :=
  ⟨fun _ _ hd => absurd hd (by simp), fun _ _ hd => absurd hd (by simp)⟩

theorem Sound.grow (h : b.Sound u) (hu : u.WellFormed) (ha : Universe.Agree u.types.size u after)
    (hle : u.types.size ≤ after.types.size) : b.Sound after :=
  ⟨h.handles, fun i d hd => (h.sound i d hd).grow hu ha hle⟩

/-! ### Steps of batches -/

/-- However the operation ends, the batch has grown. -/
def Growing (u : Universe) (act : Attempt Batch α) : Prop :=
  ∀ b, act.wp (fun _ => Grown u b) (Grown u b) b

theorem growing_pure (v : α) : Growing u (pure v) := fun b => .refl u b

theorem growing_bind (hu : u.WellFormed) {act : Attempt Batch α} {next : α → Attempt Batch β}
    (h : Growing u act) (hnext : ∀ v, Growing u (next v)) : Growing u (act >>= next) := by
  intro b
  rw [wp_bind]
  refine wp_mono (h b) (fun v mid hmid => ?_) fun _ hafter => hafter
  exact wp_mono (hnext v mid) (fun _ _ hafter => hmid.trans hu hafter) fun _ hafter =>
    hmid.trans hu hafter

theorem find?_set {t : TypeHandle} {d' : Descriptor} (ht : t.index < b.types.size) :
    find? { b with types := b.types.setIfInBounds t.index d' } t = some d' := by
  simp [find?, ht]

theorem grown_set {t : TypeHandle} {d d' : Descriptor} (hd : b.find? t = some d)
    (he : Evolution u d d') :
    Grown u b { b with types := b.types.setIfInBounds t.index d' } where
  old := fun i e hi => by
    have hlt : i < b.types.size := (Array.getElem?_eq_some_iff.mp hi).1
    by_cases ht : t.index = i
    · subst ht
      obtain rfl : d = e := Option.some.inj (hd.symm.trans hi)
      exact ⟨d', by simp [hlt], he⟩
    · exact ⟨e, by simp [ht, hi], .refl⟩
  new := fun i e hi hle => by
    have hlt := (Array.getElem?_eq_some_iff.mp hi).1
    rw [Array.size_setIfInBounds] at hlt
    omega
  begun := fun i e hi hle => by
    have hlt := (Array.getElem?_eq_some_iff.mp hi).1
    rw [Array.size_setIfInBounds] at hlt
    omega

theorem growing_onType {act : Attempt Descriptor α} (t : TypeHandle) (h : Evolving u act) :
    Growing u (onType t act) := by
  intro b
  refine wp_onType (fun _ => .refl u b) fun d hd => ?_
  exact wp_mono (h d) (fun _ _ he => grown_set hd he) fun _ he => grown_set hd he

theorem grown_push {d : Descriptor} (hhandle : d.handle = ⟨b.types.size⟩) (hs : d.Sound u)
    (hmethods : d.methods = #[]) (hrows : d.implementations = []) :
    Grown u b { b with types := b.types.push d } where
  old := fun i e hi => by
    have hlt : i < b.types.size := (Array.getElem?_eq_some_iff.mp hi).1
    exact ⟨e, by rw [Array.getElem?_push, if_neg (by omega)]; exact hi, .refl⟩
  new := fun i e hi hle => by
    rw [Array.getElem?_push] at hi
    split at hi
    · rename_i heq
      cases hi
      rw [heq]
      exact ⟨hhandle, hs⟩
    · have hlt := (Array.getElem?_eq_some_iff.mp hi).1
      omega
  begun := fun i e hi hle => by
    rw [Array.getElem?_push] at hi
    split at hi
    · cases hi
      exact ⟨_, hs, hmethods, hrows, .refl⟩
    · have hlt := (Array.getElem?_eq_some_iff.mp hi).1
      omega

/-! ### New descriptors -/

/-- A descriptor without members is sound if its base exists and it is no interface with a base. -/
theorem sound_blank {d : Descriptor} (hmethods : d.methods = #[]) (hrows : d.overrides = [])
    (hconstructors : ∀ s ∈ d.constructors.map (·.signature), s.Known u.types.size)
    (hbase : ∀ t, d.base = some (.ofClass t) → t.index < u.types.size)
    (hdraft : ∀ b, d.base = some (.draft b) → b.index < d.handle.index)
    (hinterfaces : d.interfaces = #[])
    (hrootless : d.isInterface = true → d.base = none) : d.Sound u where
  handles := by simp [hmethods]
  standsIn := by simp [hmethods]
  implements := by simp [hmethods]
  rows := by simp [hrows, Keyed.find?]
  unique := by simp [hmethods]
  methodsKnown := by simp [hmethods]
  constructorsKnown := hconstructors
  base := hbase
  draftBase := hdraft
  interfaces := by simp [hinterfaces]
  rootless := hrootless

theorem checkBase_ok {flags : UInt32} {base : Option Signature}
    (h : b.checkBase u flags base = .ok ()) :
    (hasBits flags TypeFlags.interface = true → base = none)
      ∧ (∀ t, base = some (.ofClass t) → t.index < u.types.size)
      ∧ ∀ h, base = some (.draft h) → h.index < b.types.size := by
  cases base with
  | none => exact ⟨fun _ => rfl, nofun, nofun⟩
  | some s =>
    by_cases hi : hasBits flags TypeFlags.interface = true
    · simp only [checkBase, hi] at h
      cases h
    · refine ⟨fun hi' => absurd hi' hi, ?_, ?_⟩
      · rintro t ⟨⟩
        simp only [checkBase, hi] at h
        by_cases hp : u.isPresent t = true
        · exact u.lt_of_isPresent t hp
        · simp only [hp] at h
          cases h
      · rintro handle ⟨⟩
        simp only [checkBase, hi] at h
        cases hd : b.find? handle with
        | none =>
          simp only [hd] at h
          cases h
        | some d => exact (Array.getElem?_eq_some_iff.mp hd).1

theorem growing_createType (space name : String) (flags : UInt32) (base : Option Signature) :
    Growing u (createType u space name flags base) := by
  refine fun b => wp_createType (fun _ check => ?_) (.refl u b)
  obtain ⟨hrootless, hbase, hdraft⟩ := checkBase_ok check
  exact grown_push rfl (sound_blank rfl rfl (by simp [touch]) hbase hdraft rfl hrootless) rfl rfl

theorem evolving_modify {change : Descriptor → Descriptor} (h : ∀ d, Alike d (change d)) :
    Evolving u (modify change) := fun d => evolution_aside (h d)

theorem growing_addNested (hu : u.WellFormed) (outer : TypeHandle) (name : String) (flags : UInt32)
    (base : Option Signature) : Growing u (addNested u outer name flags base) := by
  have hparts : Growing u (do
      let handle ← createType u "" name (nestedFlags flags) base
      onType handle (modify fun d => { d with declaring := some outer })
      onType outer (modify fun d => { d with nested := d.nested.push handle }.touch)
      return handle) := by
    refine growing_bind hu (growing_createType _ _ _ _) fun handle => growing_bind hu ?_ fun _ =>
      growing_bind hu ?_ fun _ => growing_pure _
    · exact growing_onType _ (evolving_modify fun _ => ⟨rfl, rfl, rfl, rfl, rfl, rfl, rfl, rfl⟩)
    · exact growing_onType _ (evolving_modify fun _ => ⟨rfl, rfl, rfl, rfl, rfl, rfl, rfl, rfl⟩)
  intro b
  unfold addNested
  simp only [wp_bind, wp_get, wp_lift, wp_ite, wp_throw]
  refine ⟨fun d _ => ⟨fun _ => .refl u b, fun _ => ?_⟩, fun _ _ => .refl u b⟩
  have h := hparts b
  simpa only [wp_bind] using h

theorem growing_addBatchInterface (t interface : TypeHandle) :
    Growing u (addBatchInterface t interface) :=
  fun b => wp_addBatchInterface (fun _ _ _ =>
    growing_onType t (evolving_addDraftInterface interface) b) (.refl u b)

theorem alike_askAbstract (d : Descriptor) : Alike d (d.askAbstract u).2 := by
  unfold Descriptor.askAbstract
  cases d.abstractMemo <;> exact ⟨rfl, rfl, rfl, rfl, rfl, rfl, rfl, rfl⟩

theorem growing_askAbstract (t : TypeHandle) : Growing u (askAbstract u t) := by
  have halone : Growing u (askAlone u t) := growing_onType t fun d => by
    rw [wp_of]
    exact evolution_aside (alike_askAbstract d)
  intro b
  unfold askAbstract
  rw [wp_bind]
  refine wp_mono (halone b) (fun alone mid hmid => ?_) fun _ h => h
  simp only [wp_ite, wp_pure, wp_bind, wp_get, wp_lift]
  exact ⟨fun _ => hmid, fun _ => ⟨fun _ _ => hmid, fun _ _ => hmid⟩⟩

theorem forwardingConstructors_known (hu : u.WellFormed) (handle : TypeHandle)
    (requested : TypeId) :
    ∀ c ∈ forwardingConstructors u handle requested, c.signature.Known u.types.size := by
  unfold forwardingConstructors
  have hsource : ∀ c ∈ u.constructorsOf requested, (u.method c).signature.Known u.types.size :=
      fun c hc =>
        (hu.signature_settled (u.isSome_of_mem_constructorsOf hc)).known
  suffices h : ∀ (sources : List MethodId) (made : Array DraftMethod),
      (∀ c ∈ sources, (u.method c).signature.Known u.types.size) →
      (∀ c ∈ made, c.signature.Known u.types.size) →
      ∀ c ∈ sources.foldl (addForwarding u handle) made, c.signature.Known u.types.size from
    h _ #[] hsource (by simp)
  intro sources
  induction sources with
  | nil => exact fun _ _ hmade => hmade
  | cons source sources ih =>
    intro made hsources hmade
    refine ih _ (fun c hc => hsources c (List.mem_cons_of_mem _ hc)) fun c hc => ?_
    unfold addForwarding at hc
    cases haccess : inheritedAccess? (u.method source).access with
    | none =>
      simp only [haccess] at hc
      exact hmade c hc
    | some access =>
      simp only [haccess] at hc
      rcases Array.mem_push.mp hc with hold | rfl
      · exact hmade c hold
      · exact hsources source List.mem_cons_self

theorem sound_proxy (hu : u.WellFormed) (handle : TypeHandle) {requested : TypeId} (name : String)
    (h : u.isPresent requested) : (proxy u handle requested name).Sound u := by
  refine sound_blank rfl rfl ?_ ?_ nofun rfl ?_
  · intro s hs
    obtain ⟨c, hc, rfl⟩ := Array.mem_map.mp hs
    exact forwardingConstructors_known hu handle requested c hc
  · rintro t ⟨⟩
    exact u.lt_of_isPresent _ h
  · intro hi
    exact absurd hi (by decide : ¬ hasBits (TypeFlags.isPublic ||| TypeFlags.beforeFieldInit)
      TypeFlags.interface = true)

/-! ### Edits -/

theorem growing_perform (hu : u.WellFormed) {e : Edit} (known : e.Known u.types.size) :
    Growing u (e.perform u) := by
  have hanswer : ∀ {γ : Type} {act : Attempt Batch γ} (f : γ → EditAnswer), Growing u act →
      Growing u (act >>= fun v => pure (f v)) :=
      fun _ h => growing_bind hu h fun _ => growing_pure _
  cases e with
  | createType space name flags base => exact hanswer _ (growing_createType space name flags base)
  | createInterface space name => exact hanswer _ (growing_createType _ _ _ _)
  | addNested outer name flags base => exact hanswer _ (growing_addNested hu outer name flags base)
  | addBatchInterface t interface => exact hanswer _ (growing_addBatchInterface t interface)
  | addField t name signature flags => exact hanswer _ (growing_onType t (evolving_addField _ _ _))
  | addConstructor t flags parameters body =>
    exact hanswer _ (growing_onType t (evolving_addConstructor _ _ _ known))
  | addTypeInitializer t body => exact hanswer _ (growing_onType t (evolving_addTypeInitializer _))
  | addTypeInitialization t e =>
    exact hanswer _ (growing_onType t (evolving_addTypeInitialization _))
  | addInitialization t e => exact hanswer _ (growing_onType t (evolving_addInitialization _))
  | addMethod t name flags signature body =>
    exact hanswer _ (growing_onType t (evolving_addMethod _ _ _ _ known))
  | setMethodBody t m body => exact hanswer _ (growing_onType t (evolving_setMethodBody _ _))
  | addProperty t name signature getter setter =>
    exact hanswer _ (growing_onType t (evolving_addProperty _ _ _ _))
  | addPropertyAccessors t name signature access getterBody setterBody =>
    exact hanswer _ (growing_onType t (evolving_addPropertyAccessors _ _ _ _ _ known))
  | addAutoProperty t name signature access =>
    exact hanswer _ (growing_onType t (evolving_addAutoProperty _ _ _ known))
  | addEvent t name eventType add remove raise =>
    exact hanswer _ (growing_onType t (evolving_addEvent _ _ _ _ _))
  | addInterface t interface allow => exact hanswer _ (growing_onType t (evolving_addInterface _ _))
  | addAttribute t a => exact hanswer _ (growing_onType t (evolving_addAttribute _))
  | addMethodAttribute t m a => exact hanswer _ (growing_onType t (evolving_addMethodAttribute _ _))
  | addFieldAttribute t f a => exact hanswer _ (growing_onType t (evolving_addFieldAttribute _ _))
  | overrideMethod t m => exact hanswer _ (growing_onType t (evolving_getOrAddOverride m))
  | implementMethod t m => exact hanswer _ (growing_onType t (evolving_getOrAddImplementation m))
  | askAbstract t => exact hanswer _ (growing_askAbstract t)

/-- An answered override left a row for the slot of a method that can be overridden. -/
theorem wp_overrideMethod (t : TypeHandle) (m : MethodId) :
    ((Edit.overrideMethod t m).perform u).wp
      (fun answer b' => Grown u b b' ∧ ∃ handle created d d' base,
        answer = .registered handle created
        ∧ b.find? t = some d ∧ d.checkOverride u m = .ok base
        ∧ b'.find? t = some d' ∧ d'.overrides.find? (u.slotToken m) = some handle)
      (Grown u b) b := by
  unfold Edit.perform
  rw [wp_bind]
  refine wp_onType (fun _ => .refl u b) fun d hd => ?_
  refine wp_mono (evolved_getOrAddOverride m) ?_ fun d' he => grown_set hd he
  rintro ⟨handle, created⟩ d' ⟨he, hrow, -, -, -, -, base, check⟩
  refine ⟨grown_set hd he, handle, created, d, d', base, rfl, hd, check, ?_, hrow⟩
  exact find?_set (Array.getElem?_eq_some_iff.mp hd).1

/-- An answered implementation left a row for a method that can be implemented. -/
theorem wp_implementMethod (t : TypeHandle) (m : MethodId) :
    ((Edit.implementMethod t m).perform u).wp
      (fun answer b' => Grown u b b' ∧ ∃ handle created d d', answer = .registered handle created
        ∧ b.find? t = some d ∧ d.checkImplementation u m = .ok ()
        ∧ b'.find? t = some d' ∧ d'.implementations.find? (u.method m).token = some handle)
      (Grown u b) b := by
  unfold Edit.perform
  rw [wp_bind]
  refine wp_onType (fun _ => .refl u b) fun d hd => ?_
  refine wp_mono (evolved_getOrAddImplementation m) ?_ fun d' he => grown_set hd he
  rintro ⟨handle, created⟩ d' ⟨he, check, hrow⟩
  exact ⟨grown_set hd he, handle, created, d, d', rfl, hd, check,
    find?_set (Array.getElem?_eq_some_iff.mp hd).1, hrow⟩

end Batch

end TypeLoom
