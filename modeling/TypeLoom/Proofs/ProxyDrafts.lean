import TypeLoom.Proofs.Commands
import TypeLoom.Proofs.Formed

/-!
# Drafts of proxies

The batch of an assembly begins with the proxy that it is for. Whatever participants and the stamp
do to the batch, no other proxy is drafted in it, and the proxy keeps the names and the base that it
began with. The stamp gives it a field of its own, an initialization that stores the identifier in
the field, and the mark of assembled types.
-/

namespace TypeLoom

open Attempt

variable {α : Type} {u : Universe} {requests : Requests}

def Descriptor.Heading.ofProxy (u : Universe) (requested : TypeId) (name : String) :
    Descriptor.Heading :=
  { space := (u.record requested).space, name, base := some (.ofClass requested), declaring := none,
    requested := some requested }

/-! ### Batches -/

namespace Batch

variable {proxies : List (TypeHandle × Descriptor.Heading)} {b b' : Batch} {held : Prop}

/-- The batch is in order, and these are its proxies, with what they are headed. -/
structure Drafts (proxies : List (TypeHandle × Descriptor.Heading)) (b : Batch) : Prop where
  wellFormed : b.WellFormed
  whole : b.Whole
  drafted : ∀ p ∈ proxies, ∃ d, b.find? p.1 = some d ∧ d.heading = p.2
  only : ∀ h d, b.find? h = some d → d.requested ≠ none → ∃ p ∈ proxies, p.1 = h

theorem drafts_empty : Drafts [] {} where
  wellFormed := wellFormed_empty
  whole := fun _ hd => absurd hd (Array.not_mem_empty _)
  drafted := nofun
  only := fun _ _ hd => by cases hd

theorem drafts_createProxy (u : Universe) (requested : TypeId) (name : String) :
    (createProxy u {} requested name).2.Drafts
      [((createProxy u {} requested name).1, Descriptor.Heading.ofProxy u requested name)] where
  wellFormed := wellFormed_empty.createProxy requested name
  whole := whole_createProxy (fun _ hd => absurd hd (Array.not_mem_empty _)) requested name
  drafted := fun p hp => by
    obtain rfl := List.mem_singleton.mp hp
    exact ⟨Descriptor.proxy u ⟨0⟩ requested name, rfl, rfl⟩
  only := fun h d hd _ => by
    refine ⟨_, List.mem_singleton_self _, ?_⟩
    have hlt : h.index < 1 := (Array.getElem?_eq_some_iff.mp hd).1
    exact congrArg TypeHandle.mk (Nat.lt_one_iff.mp hlt).symm

theorem Drafts.retains (h : b.Drafts proxies) (hkept : b.Retains held b') (hwf : b'.WellFormed)
    (hwhole : b'.Whole) :
    b'.Drafts proxies where
  wellFormed := hwf
  whole := hwhole
  drafted := fun p hp => by
    obtain ⟨d, hd, hheading⟩ := h.drafted p hp
    obtain ⟨d', hd', hsame⟩ := hkept.old p.1 d hd
    exact ⟨d', hd', hsame.heading.trans hheading⟩
  only := fun t d' hd' hproxy => by
    cases hold : b.find? t with
    | none => exact absurd (hkept.plain t d' hold hd') hproxy
    | some d =>
      obtain ⟨e, he, hsame⟩ := hkept.old t d hold
      obtain rfl : e = d' := Option.some.inj (he.symm.trans hd')
      have hrequested : e.requested = d.requested :=
        congrArg Descriptor.Heading.requested hsame.heading
      exact h.only t d hold (hrequested ▸ hproxy)

theorem drafts_perform (e : Edit) : Maintains (Drafts proxies) (e.perform u) := by
  intro b hb
  have hall := wp_and (retains_perform (u := u) e b (.refl _ b))
    (wp_and (wellFormed_perform (u := u) e b hb.wellFormed) (whole_perform (u := u) e b hb.whole))
  exact wp_mono hall (fun _ _ h => hb.retains h.1 h.2.1 h.2.2) fun _ h => hb.retains h.1 h.2.1 h.2.2

theorem drafts_onType {t : TypeHandle} {act : Attempt Descriptor α}
    (hretains : ∀ d : Descriptor, Maintains (d.Retains False) act)
    (hwf : Maintains (Descriptor.WellFormed t) act) (hwhole : Maintains Descriptor.Whole act) :
    Maintains (Drafts proxies) (onType t act) := by
  intro b hb
  have hall := wp_and (retains_onType hretains b (.refl False b))
    (wp_and (wellFormed_onType hwf b hb.wellFormed) (whole_onType t hwhole b hb.whole))
  exact wp_mono hall (fun _ _ h => hb.retains h.1 h.2.1 h.2.2) fun _ h => hb.retains h.1 h.2.1 h.2.2

end Batch

/-! ### Scenes -/

open Scene

variable {proxies : List (TypeHandle × Descriptor.Heading)}

def Scene.Drafts (proxies : List (TypeHandle × Descriptor.Heading)) (scene : Scene) : Prop :=
  scene.batch.Drafts proxies

theorem DraftAction.drafts_perform (action : DraftAction) : Maintains (Scene.Drafts proxies)
    (action.perform requests) := by
  cases action with
  | general action => exact fun scene hs => wp_const.mpr hs
  | readState => exact maintains_bind maintains_get fun _ => maintains_pure _
  | writeState state => exact maintains_modify fun _ hs => hs
  | view => exact maintains_bind maintains_get fun _ => maintains_pure _
  | edit e =>
    refine maintains_bind maintains_get fun scene => ?_
    exact maintains_within (maintains_outcome (Batch.drafts_perform e)) (fun _ hs => hs)
      fun _ _ _ hb => hb
  | whenGenerated callback => exact maintains_modify fun _ hs => hs

theorem Contribution.drafts_run (contribution : Contribution α) :
    Maintains (Scene.Drafts proxies) (contribution.run (DraftAction.perform requests)) :=
  Plan.maintains_run DraftAction.drafts_perform contribution

namespace Assembler

variable (a : Assembler) {scene : Scene}

def contribute (id : Identifier) (proxy : TypeHandle) : Attempt Scene Unit :=
  a.participants.zipIdx.forM fun turn =>
    (turn.1.participate ⟨id, turn.2, proxy⟩).run (DraftAction.perform a.requests)

theorem drafts_contribute (id : Identifier) (proxy : TypeHandle) : Maintains (Scene.Drafts proxies)
    (a.contribute id proxy) :=
  maintains_forM _ fun _ _ => Contribution.drafts_run _

/-- Drafting a proxy is choosing a name and then letting participants contribute to the batch of
it. -/
theorem wp_draftProxy_of {id : Identifier} {post : TypeHandle → Scene → Prop} {fail : Scene → Prop}
    (h : (Session.proxyName a.pipeline id.requested).wp
      (fun name s => (a.contribute id (Batch.createProxy s.program {} id.requested name).1).wp
        (fun _ => post (Batch.createProxy s.program {} id.requested name).1) fail
        { scene with session := s, batch := (Batch.createProxy s.program {} id.requested name).2 })
      (fun s => fail { scene with session := s }) scene.session) :
    (a.draftProxy id).wp post fail scene := by
  unfold draftProxy
  rw [wp_bind, inSession, wp_within]
  refine wp_mono h (fun name s hs => ?_) fun _ hs => hs
  rw [wp_bind, wp_get]
  dsimp only
  rw [wp_bind, wp_set, wp_bind]
  exact hs

theorem drafts_stamp (id : Identifier) (proxy : TypeHandle) : Maintains (Scene.Drafts proxies)
    (a.stamp id proxy) := by
  have hinBatch : ∀ {β : Type} {act : Attempt Batch β}, Maintains (Batch.Drafts proxies) act →
      Maintains (Scene.Drafts proxies) (inBatch act) :=
      fun h => maintains_within h (fun _ hs => hs) fun _ _ _ hb => hb
  refine maintains_bind (hinBatch ?_) fun field => maintains_bind (hinBatch ?_) fun _ => ?_
  · exact Batch.drafts_onType (fun _ => Descriptor.retains_addField _ _ _)
      (Descriptor.wellFormed_addField _ _ _)
      (Descriptor.whole_addField _ _ _)
  · exact Batch.drafts_onType (fun _ => Descriptor.retains_addTypeInitialization _)
      (Descriptor.wellFormed_addTypeInitialization _) (Descriptor.whole_addTypeInitialization _)
  refine maintains_bind maintains_get fun _ => maintains_bind (maintains_lift _) fun _ =>
    maintains_bind (maintains_lift _) fun _ => ?_
  exact hinBatch (Batch.drafts_onType (fun _ => Descriptor.retains_addAttribute _)
    (Descriptor.wellFormed_addAttribute _)
    (Descriptor.whole_addAttribute _))

end Assembler

/-! ### One descriptor of a batch -/

variable {id : Identifier} {proxy : TypeHandle}

namespace Batch

/-- The batch is in order, and its descriptor of this handle has a property. -/
structure Holds (proxy : TypeHandle) (P : Descriptor → Prop) (b : Batch) : Prop where
  wellFormed : b.WellFormed
  whole : b.Whole
  proxy : ∃ d, b.find? proxy = some d ∧ P d

variable {P : Descriptor → Prop} {b b' : Batch}

/-- A proxy derives from its requested type, whatever else is in the batch. -/
theorem Drafts.derives {requested : TypeId} {name : String}
    (h : b.Drafts [(proxy, Descriptor.Heading.ofProxy u requested name)]) :
    b.Holds proxy fun d => d.base = some (.ofClass requested) where
  wellFormed := h.wellFormed
  whole := h.whole
  proxy := by
    obtain ⟨d, hd, hheading⟩ := h.drafted _ (List.mem_singleton_self _)
    exact ⟨d, hd, congrArg Descriptor.Heading.base hheading⟩

/-- Work on the descriptor that keeps the batch in order. -/
theorem Holds.onType {act : Attempt Descriptor α} {Q : α → Descriptor → Prop} (hb : b.Holds proxy P)
    (hwf : Maintains (Descriptor.WellFormed proxy) act) (hwhole : Maintains Descriptor.Whole act)
    (hact : ∀ d, d.WellFormed proxy → P d → act.wp Q (fun _ => True) d) :
    (onType proxy act).wp (fun v b' => b'.Holds proxy (Q v)) (fun _ => True) b := by
  obtain ⟨d, hd, hP⟩ := hb.proxy
  have hfind : (Batch.onType proxy act).wp (fun v b' => ∃ d', b'.find? proxy = some d'
      ∧ Q v d') (fun _ => True) b := by
    refine wp_onType (fun _ => trivial) fun e he => ?_
    obtain rfl : d = e := Option.some.inj (hd.symm.trans he)
    refine wp_mono (hact d (hb.wellFormed proxy d hd) hP) (fun v d' hQ => ⟨d', ?_, hQ⟩) fun _ _ =>
      trivial
    rw [find?_setIfInBounds, if_pos rfl, hd, Option.map_some]
  have hall :=
    wp_and hfind (wp_and (wellFormed_onType hwf b hb.wellFormed)
    (whole_onType proxy hwhole b hb.whole))
  exact wp_mono hall (fun v b' h => ⟨h.2.1, h.2.2, h.1⟩) fun _ _ => trivial

end Batch

/-! ### Drafting -/

namespace Assembler

variable (a : Assembler) {scene : Scene}

theorem wp_draftProxy (id : Identifier) :
    (a.draftProxy id).wp
      (fun proxy after => after.batch.Holds proxy fun d => d.base = some (.ofClass id.requested))
      (fun _ => True) scene := by
  have hnamed : (Session.proxyName a.pipeline id.requested).wp (fun _ _ => True) (fun _ => True)
    scene.session := wp_const.mpr trivial
  refine a.wp_draftProxy_of (wp_mono hnamed (fun name s _ => ?_) fun _ _ => trivial)
  have hdrafts := Batch.drafts_createProxy s.program id.requested name
  exact wp_mono (a.drafts_contribute id _ _ hdrafts) (fun _ _ h => Batch.Drafts.derives h)
    fun _ _ => trivial

end Assembler

/-! ### Stamping -/

/-- The descriptor derives from the requested type of the identifier. A field of its own is to
get the identifier when the type is initialized, and the mark is among its attributes. -/
structure Descriptor.Stamped (mark : TypeId) (id : Identifier) (f : FieldHandle) (d : Descriptor) :
    Prop where
  base : d.base = some (.ofClass id.requested)
  field : d.fields[f.index]?
    = some { handle := f, name := identifierFieldName, signature := .object, flags := identifierFieldFlags }
  initialization : .storeStatic (.draft f) (.constant (.identifier id)) ∈ d.typeInitializations
  mark : ∃ a ∈ d.attributes, a.constructor.owner = mark

theorem Attribute.isPresent_of_check {a checked : Attribute}
    (h : Attribute.check u a = .ok checked) :
    checked = a ∧ u.isPresent a.constructor.owner = true := by
  obtain ⟨t, hconstructor, hrest⟩ := bind_eq_ok.mp h
  obtain ⟨-, -, hrest⟩ := bind_eq_ok.mp hrest
  obtain ⟨-, -, hend⟩ := bind_eq_ok.mp hrest
  refine ⟨(Except.ok.inj hend).symm, ?_⟩
  unfold checkConstructor at hconstructor
  split at hconstructor
  · cases hconstructor
  split at hconstructor
  · cases hconstructor
  · rename_i owner howner
    rw [Universe.methodOwner?, Universe.present?] at howner
    split at howner
    · assumption
    · cases howner

namespace Assembler

variable (a : Assembler) {scene : Scene}

theorem wp_stamp (hb : scene.batch.Holds proxy fun d => d.base = some (.ofClass id.requested)) :
    (a.stamp id proxy).wp (fun _ after => after.session = scene.session
        ∧ scene.session.program.isPresent
        (scene.session.coreTypes a.pipeline).assembledTypeAttribute = true
        ∧ ∃ f : FieldHandle, f.owner = proxy
          ∧ after.batch.Holds proxy
          (Descriptor.Stamped (scene.session.coreTypes a.pipeline).assembledTypeAttribute id f))
      (fun _ => True) scene := by
  let mark := (scene.session.coreTypes a.pipeline).assembledTypeAttribute
  unfold stamp
  rw [wp_bind, inBatch, wp_within]
  -- The field is the last one so far.
  have hfield :=
    hb.onType (Descriptor.wellFormed_addField identifierFieldName .object identifierFieldFlags)
    (Descriptor.whole_addField _ _ _) (Q := fun f d => f.owner = proxy
      ∧ d.base = some (.ofClass id.requested)
      ∧ d.fields[f.index]? = some
      { handle := f, name := identifierFieldName, signature := .object, flags := identifierFieldFlags })
    fun d hd hbase => Descriptor.wp_addField (fun _ _ =>
      ⟨hd.handle, hbase, Array.getElem?_push_size⟩) fun _ => trivial
  refine wp_mono hfield (fun f b₁ h₁ => ?_) fun _ _ => trivial
  rw [wp_bind, inBatch, wp_within]
  have howner : f.owner = proxy := h₁.proxy.elim fun _ hd => hd.2.1
  have hstore := h₁.onType
    (Descriptor.wellFormed_addTypeInitialization
      (.storeStatic (.draft f) (.constant (.identifier id))))
    (Descriptor.whole_addTypeInitialization _) (Q :=
      fun _ d => d.base = some (.ofClass id.requested)
      ∧ d.fields[f.index]? = some
      { handle := f, name := identifierFieldName, signature := .object, flags := identifierFieldFlags }
      ∧ Expr.storeStatic (.draft f) (.constant (.identifier id)) ∈ d.typeInitializations)
    fun d _ hd => Descriptor.wp_addTypeInitialization (fun _ =>
      ⟨hd.2.1, hd.2.2, Array.mem_push_self⟩) trivial
  refine wp_mono hstore (fun _ b₂ h₂ => ?_) fun _ _ => trivial
  rw [wp_bind, wp_get, wp_bind, wp_lift]
  refine ⟨fun c hc => ?_, fun _ _ => trivial⟩
  have hmark : c.owner = mark := by
    rw [CoreTypes.markConstructor] at hc
    split at hc
    · rename_i found hfound
      cases hc
      exact Universe.owner_of_mem_constructorsOf _ (List.mem_of_find?_eq_some hfound)
    · cases hc
  rw [wp_bind, wp_lift]
  refine ⟨fun checked hchecked => ?_, fun _ _ => trivial⟩
  obtain ⟨rfl, hpresent⟩ := Attribute.isPresent_of_check hchecked
  rw [inBatch, wp_within]
  have hmarked := h₂.onType (Descriptor.wellFormed_addAttribute ⟨c, [], []⟩)
    (Descriptor.whole_addAttribute _)
    (Q := fun _ d => d.Stamped mark id f)
    fun d _ hd => Descriptor.wp_addAttribute (fun _ =>
      ⟨hd.1, hd.2.1, hd.2.2, _, Array.mem_push_self, hmark⟩) trivial
  have hthere : scene.session.program.isPresent c.owner = true := hpresent
  rw [hmark] at hthere
  exact wp_mono hmarked (fun _ b₃ h₃ => ⟨rfl, hthere, f, howner, h₃⟩) fun _ _ => trivial

end Assembler

end TypeLoom
