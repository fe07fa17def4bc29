import TypeLoom.Proofs.Lowering
import TypeLoom.Proofs.Portrayal

/-!
# Attaching bodies to drawn types

When all members are defined, the bodies and overrides that were queued are attached. Each body goes
to a method of its own that has none yet, so that a body can be told from what was lowered for it.
-/

namespace TypeLoom

open Attempt Function

/-! ### What can be attached -/

namespace Attachment

/-- The method that gets a body. -/
def target? : Attachment → Option MethodId
  | .body _ m _ => some m
  | .override _ _ _ => none

/-- The attachment is meant for a method of a type of the batch, and a body for one that is not
abstract. -/
def Meant (P : Blueprint) (objectType : TypeId) : Attachment → Prop
  | .body t m _ => t = m.owner ∧ ∃ h ∈ P.layout.order, m.owner = P.layout.place h
      ∧ ∃ own, (P.full objectType h).method? m.slot = some own ∧ own.isAbstract = false
  | .override t m _ => t = m.owner ∧ ∃ h ∈ P.layout.order, m.owner = P.layout.place h

def Ready (P : Blueprint) (e : Emitted) : Attachment → Prop
  | .body _ _ expr => ∀ n ∈ expr.nodes, n.Resolves e
  | .override _ _ declaration =>
    declaration.owner.index < P.layout.start ∧ (P.program.method declaration).isVirtual = true

end Attachment

namespace Descriptor

variable {h : TypeHandle} {d : Descriptor} {l : Layout} {a : Attachment}

theorem mem_queued : a ∈ d.queued l ↔
    (∃ c ∈ d.constructors, c.queuedBody l (d.constructorBody c) = a)
      ∨ (d.Initializes ∧ a = .body (l.place d.handle) ⟨l.place d.handle, .typeInitializer⟩
        d.initializerBody)
      ∨ (∃ m ∈ d.methods, ∃ body, m.body = some body ∧ m.queuedBody l body = a)
      ∨ ∃ m ∈ d.methods, ∃ declaration ∈ m.baseMethod.toList ++ m.explicitOverrides.toList,
        Attachment.override (l.place m.handle.owner) (l.placeMethod m.handle) declaration = a := by
  have hinitializer : a ∈ d.queuedInitializer l ↔
      d.Initializes ∧ a = .body (l.place d.handle) ⟨l.place d.handle, .typeInitializer⟩
      d.initializerBody := by
    rw [queuedInitializer]
    split <;> simp [*]
  simp only [queued, List.mem_append, hinitializer, List.mem_map, List.mem_flatMap,
    DraftMethod.queuedOverrides,
    Array.mem_toList_iff, Option.mem_toList, or_assoc]

def bodyHandles (d : Descriptor) : List MethodHandle :=
  d.constructors.toList.map (·.handle) ++ (if d.Initializes then [⟨d.handle, .typeInitializer⟩]
    else [])
    ++ (d.methods.toList.filter (·.body.isSome)).map (·.handle)

theorem targets_queued (l : Layout) (d : Descriptor) :
    (d.queued l).filterMap Attachment.target? = d.bodyHandles.map l.placeMethod := by
  have hconstructors : (d.constructors.toList.map fun c =>
    c.queuedBody l (d.constructorBody c)).filterMap Attachment.target?
      = (d.constructors.toList.map (·.handle)).map l.placeMethod := by
    rw [List.filterMap_map, List.map_map, ← List.filterMap_eq_map]
    rfl
  have hmethods : ∀ methods : List DraftMethod,
      (methods.flatMap fun m => m.body.toList.map (m.queuedBody l)).filterMap Attachment.target?
        = ((methods.filter (·.body.isSome)).map (·.handle)).map l.placeMethod := by
    intro methods
    induction methods with
    | nil => rfl
    | cons m methods ih =>
      rw [List.flatMap_cons, List.filterMap_append, ih]
      cases hbody : m.body <;> simp [hbody, DraftMethod.queuedBody, Attachment.target?]
  have hoverrides : (d.methods.toList.flatMap (·.queuedOverrides l)).filterMap Attachment.target?
      = [] := by
    rw [List.filterMap_eq_nil_iff]
    intro a ha
    obtain ⟨m, -, ha⟩ := List.mem_flatMap.mp ha
    obtain ⟨declaration, -, rfl⟩ := List.mem_map.mp ha
    rfl
  rw [queued, List.filterMap_append, List.filterMap_append, List.filterMap_append, hconstructors,
    hmethods, hoverrides,
    bodyHandles, List.map_append, List.map_append, List.append_nil, queuedInitializer]
  split <;> rfl

theorem nodup_handles {ι κ : Type} {items : Array ι} {handle : ι → κ} {place : Nat → κ}
    (hinj : Injective place) (h : ∀ (i : Nat) x, items[i]? = some x → handle x = place i) :
    (items.toList.map handle).Nodup := by
  have hrange : items.toList.map handle = (List.range items.size).map place := by
    apply List.ext_getElem?
    intro i
    rw [List.getElem?_map, List.getElem?_map, Array.getElem?_toList]
    by_cases hi : i < items.size
    · rw [Array.getElem?_eq_getElem hi, List.getElem?_range hi, Option.map_some, Option.map_some,
        h i _ (Array.getElem?_eq_getElem hi)]
    · rw [Array.getElem?_eq_none (Nat.not_lt.mp hi), List.getElem?_eq_none (by simpa using hi)]
      rfl
  rw [hrange]
  exact List.nodup_range.map hinj

theorem WellFormed.mem_bodyHandles (hd : d.WellFormed h) :
    (∀ m ∈ d.constructors.toList.map (·.handle), ∃ i, m = ⟨h, .constructor i⟩)
      ∧ (∀ m ∈ if d.Initializes then [(⟨d.handle, .typeInitializer⟩ : MethodHandle)] else [],
        m = ⟨h, .typeInitializer⟩)
      ∧ ∀ m ∈ (d.methods.toList.filter (·.body.isSome)).map (·.handle), ∃ i,
          m = ⟨h, .method i⟩ := by
  refine ⟨fun m hm => ?_, fun m hm => ?_, fun m hm => ?_⟩
  · obtain ⟨c, hc, rfl⟩ := List.mem_map.mp hm
    obtain ⟨i, hi⟩ := Array.mem_iff_getElem?.mp (Array.mem_toList_iff.mp hc)
    exact ⟨i, (hd.constructors i c hi).1⟩
  · split at hm
    · rw [List.mem_singleton.mp hm, hd.handle]
    · exact absurd hm List.not_mem_nil
  · obtain ⟨own, hown, rfl⟩ := List.mem_map.mp hm
    obtain ⟨i, hi⟩ :=
      Array.mem_iff_getElem?.mp (Array.mem_toList_iff.mp (List.mem_of_mem_filter hown))
    exact ⟨i, (hd.methods i own hi).1⟩

theorem WellFormed.owner_of_mem_bodyHandles (hd : d.WellFormed h) {m : MethodHandle}
    (hm : m ∈ d.bodyHandles) : m.owner = h := by
  obtain ⟨hconstructor, hinitializer, hmethod⟩ := hd.mem_bodyHandles
  rw [bodyHandles, List.mem_append, List.mem_append] at hm
  rcases hm with (hm | hm) | hm
  · obtain ⟨i, rfl⟩ := hconstructor m hm
    rfl
  · rw [hinitializer m hm]
  · obtain ⟨i, rfl⟩ := hmethod m hm
    rfl

theorem WellFormed.nodup_bodyHandles (hd : d.WellFormed h) : d.bodyHandles.Nodup := by
  obtain ⟨hconstructor, hinitializer, hmethod⟩ := hd.mem_bodyHandles
  rw [bodyHandles, List.nodup_append, List.nodup_append]
  refine ⟨⟨?_, ?_, ?_⟩, ?_, ?_⟩
  · exact nodup_handles (fun _ _ heq => by cases heq; rfl) fun i c hc => (hd.constructors i c hc).1
  · split
    · exact List.nodup_singleton _
    · exact List.nodup_nil
  · intro m hm m' hm' heq
    obtain ⟨i, rfl⟩ := hconstructor m hm
    rw [hinitializer m' hm'] at heq
    cases heq
  · have hall : (d.methods.toList.map (·.handle)).Nodup :=
      nodup_handles (fun _ _ heq => by cases heq; rfl) fun i m hm => (hd.methods i m hm).1
    exact hall.sublist (List.filter_sublist.map _)
  · intro m hm m' hm' heq
    obtain ⟨i, rfl⟩ := hmethod m' hm'
    rcases List.mem_append.mp hm with hm | hm
    · obtain ⟨j, rfl⟩ := hconstructor m hm
      cases heq
    · rw [hinitializer m hm] at heq
      cases heq

end Descriptor

namespace Blueprint

variable {P : Blueprint} {objectType : TypeId} {h : TypeHandle} {d : Descriptor}

theorem full_complete (P : Blueprint) : (P.full objectType h).complete = false := rfl

theorem full_present (P : Blueprint) : (P.full objectType h).present = true := rfl

theorem meant_of_mem_queued (hmem : h ∈ P.layout.order) (hfound : P.batch.find? h = some d)
    (hd : d.WellFormed h) {a : Attachment} (ha : a ∈ P.queued h) : a.Meant P objectType := by
  have hsame : P.descriptor h = d := P.descriptor_of_find hfound
  rw [queued, hsame] at ha
  have hfull : P.full objectType h = d.portrait P.layout objectType (P.flags h) := by
    rw [full, hsame]
  have hbody : ∀ (m : DraftMethod) (kind : MethodKind) (slot : Slot) (body : Expr),
    m.handle = ⟨h, slot⟩ → m.isAbstract = false →
      (d.portrait P.layout objectType (P.flags h)).method? slot = some (m.portrait P.layout kind) →
      (m.queuedBody P.layout body).Meant P objectType := by
    intro m kind slot body hhandle hconcrete hportrait
    rw [DraftMethod.queuedBody, Layout.placeMethod, hhandle]
    have hemitted : (m.portrait P.layout kind).isAbstract = false := hconcrete
    exact ⟨rfl, h, hmem, rfl, _, hfull ▸ hportrait, hemitted⟩
  rcases Descriptor.mem_queued.mp ha with ⟨c, hc, rfl⟩ | ⟨hi, rfl⟩ | ⟨m, hm, body, hm', rfl⟩ | ⟨m,
    hm, declaration, -, rfl⟩
  · obtain ⟨i, hi⟩ := Array.mem_iff_getElem?.mp hc
    obtain ⟨hhandle, hspecial⟩ := hd.constructors i c hi
    refine hbody c .constructor _ _ hhandle hspecial.concrete ?_
    show (d.constructors.map _)[i]? = _
    rw [Array.getElem?_map, hi, Option.map_some]
  · rw [hd.handle]
    refine ⟨rfl, h, hmem, rfl, (d.typeInitializer.map (·.portrait P.layout .typeInitializer)).getD
      Descriptor.plainInitializer, ?_, ?_⟩
    · rw [hfull]
      exact if_pos hi
    · cases hinit : d.typeInitializer with
      | none => exact (by decide : Descriptor.plainInitializer.isAbstract = false)
      | some m => exact (hd.initializer m hinit).2.special.concrete
  · obtain ⟨i, hi⟩ := Array.mem_iff_getElem?.mp hm
    obtain ⟨hhandle, hwf⟩ := hd.methods i m hi
    have hconcrete : m.isAbstract = false := by rw [hwf.bodiless, hm']; rfl
    refine hbody m .method _ _ hhandle hconcrete ?_
    show (d.methods.map _)[i]? = _
    rw [Array.getElem?_map, hi, Option.map_some]
  · obtain ⟨i, hi⟩ := Array.mem_iff_getElem?.mp hm
    rw [(hd.methods i m hi).1]
    exact ⟨rfl, h, hmem, rfl⟩

theorem nodup_targets (hnodup : P.layout.order.Nodup)
    (hdescriptors : ∀ h ∈ P.layout.order, ∃ d, P.batch.find? h = some d ∧ d.WellFormed h) :
    ((P.layout.order.flatMap P.queued).filterMap Attachment.target?).Nodup := by
  rw [List.filterMap_flatMap, List.nodup_flatMap]
  refine ⟨fun h hmem => ?_, hnodup.imp_of_mem fun {h h'} hmem hmem' hne => ?_⟩
  · obtain ⟨d, hfound, hd⟩ := hdescriptors h hmem
    rw [queued, P.descriptor_of_find hfound, Descriptor.targets_queued]
    exact hd.nodup_bodyHandles.map P.layout.placeMethod_injective
  · obtain ⟨d, hfound, hd⟩ := hdescriptors h hmem
    obtain ⟨d', hfound', hd'⟩ := hdescriptors h' hmem'
    intro m (hm : m ∈ (P.queued h).filterMap Attachment.target?)
      (hm' : m ∈ (P.queued h').filterMap Attachment.target?)
    rw [queued, P.descriptor_of_find hfound, Descriptor.targets_queued] at hm
    rw [queued, P.descriptor_of_find hfound', Descriptor.targets_queued] at hm'
    obtain ⟨own, hown, rfl⟩ := List.mem_map.mp hm
    obtain ⟨own', hown', heq⟩ := List.mem_map.mp hm'
    have howner := congrArg MethodHandle.owner (P.layout.placeMethod_injective heq)
    rw [hd.owner_of_mem_bodyHandles hown, hd'.owner_of_mem_bodyHandles hown'] at howner
    exact hne howner.symm

end Blueprint

namespace Production

variable {P : Blueprint} {objectType : TypeId} {B : MethodId → Option Expr} {A : List Attachment}
  {p : Production}
  {h : TypeHandle} {m declaration : MethodId} {body : Expr} {G : Prop}

/-! ### Attaching -/

theorem complete_of_portrait {record r : TypeRecord} (h : record.portrait = r) :
    record.complete = r.complete := by
  rw [← h]
  rfl

theorem present_of_portrait {record r : TypeRecord} (h : record.portrait = r) :
    record.present = r.present := by
  rw [← h]
  rfl

structure Lowered (e : Emitted) (done : List Attachment) (B : MethodId → Option Expr) : Prop where
  source : ∀ m lowered, B m = some lowered → ∃ body, .body m.owner m body ∈ done
    ∧ Lower.expr e body = .ok lowered
  target : ∀ m body, .body m.owner m body ∈ done → ∃ lowered, B m = some lowered
    ∧ Lower.expr e body = .ok lowered

theorem lowered_nil (e : Emitted) : Lowered e [] fun _ => none where
  source := fun _ _ hm => by cases hm
  target := fun _ _ hnone => absurd hnone List.not_mem_nil

theorem Lowered.attachOverride {e : Emitted} {done : List Attachment}
    (hB : Lowered e done B) (t : TypeId) (m declaration : MethodId) :
    Lowered e (done ++ [.override t m declaration]) B where
  source := fun other value hvalue => by
    obtain ⟨body, hbody, hlower⟩ := hB.source other value hvalue
    exact ⟨body, List.mem_append_left _ hbody, hlower⟩
  target := fun other body hbody => hB.target other body (by simpa using hbody)

theorem Lowered.attachBody {e : Emitted} {done : List Attachment} {lowered : Expr}
    (hB : Lowered e done B) (hfresh : ∀ earlier, .body m.owner m earlier ∉ done)
    (hbody : Lower.expr e body = .ok lowered) :
    Lowered e (done ++ [.body m.owner m body]) (update B m (some lowered)) where
  source := fun other value hvalue => by
    by_cases hother : other = m
    · subst hother
      rw [update_self] at hvalue
      cases hvalue
      exact ⟨body, by simp, hbody⟩
    · rw [update_of_ne hother] at hvalue
      obtain ⟨earlier, hearlier, hlower⟩ := hB.source other value hvalue
      exact ⟨earlier, List.mem_append_left _ hearlier, hlower⟩
  target := fun other attached hattached => by
    rcases List.mem_append.mp hattached with hold | hnew
    · have hother : other ≠ m := fun heq => hfresh attached (heq ▸ hold)
      rw [update_of_ne hother]
      exact hB.target other attached hold
    · obtain ⟨-, rfl, rfl⟩ := Attachment.body.inj (List.mem_singleton.mp hnew)
      exact ⟨lowered, update_self .., hbody⟩

section Attach

variable {slot : Slot} {own : MethodRecord} (hp : Drawn P (P.full objectType) B A p)
  (hmem : h ∈ P.layout.order)
include hp hmem

theorem wp_attachBody_drawn (hown : (P.full objectType h).method? slot = some own)
    (hconcrete : own.isAbstract = false)
    (good : G → Attachment.Ready P p.emitted (.body (P.layout.place h) ⟨P.layout.place h,
      slot⟩ body) ∧ B ⟨P.layout.place h, slot⟩ = none) :
    (attachOne (.body (P.layout.place h) ⟨P.layout.place h, slot⟩ body)).wp (fun _ after =>
      after.emitted = p.emitted
      ∧ ∃ lowered, Lower.expr p.emitted body = .ok lowered
        ∧ Drawn P (P.full objectType) (update B ⟨P.layout.place h, slot⟩ (some lowered)) A after)
        (fun _ => ¬ G) p := by
  have hr : (p.workshop.space.program.record (P.layout.place h)).portrait = P.full objectType h :=
    hp.records h hmem
  obtain ⟨placed, hplaced, rfl⟩ :
    ∃ placed, (p.workshop.space.program.record (P.layout.place h)).method? slot = some placed
      ∧ placed.portrait = own := by
    have hfound := (p.workshop.space.program.record (P.layout.place h)).method?_portrait slot
    rw [hr, hown] at hfound
    exact Option.map_eq_some_iff.mp hfound.symm
  have hmethod : p.workshop.space.program.method ⟨P.layout.place h, slot⟩ = placed := by
    rw [Universe.method, Universe.method?, hplaced, Option.getD_some]
  unfold attachOne
  rw [wp_bind, wp_lookUp]
  refine ⟨fun lowered hlowered => ?_, fun f hf g => ?_⟩
  swap
  · obtain ⟨lowered, hlowered⟩ := (Lower.exists_expr_iff body).mpr (good g).1
    rw [hlowered] at hf
    cases hf
  rw [wp_inSpace]
  refine TypeSpace.wp_defineBody_edited (m :=
    ⟨P.layout.place h, slot⟩) (hp.lt h hmem) (fun space he =>
    ⟨rfl, lowered, hlowered, ?_, hp.emitted⟩)
    fun hbad g => hbad ⟨(complete_of_portrait hr).trans P.full_complete,
      (present_of_portrait hr).trans P.full_present, ?_, ?_⟩
  · have hnow : Painted P (update (P.full objectType) h (P.full objectType h)) B A p := by
      rw [update_eq_self]
      exact hp.toPainted
    have hafter := hnow.edited (C := update B ⟨P.layout.place h, slot⟩ (some lowered)) he ?_ rfl
      (fun other => ?_) fun m hne => ?_
    · rw [update_eq_self] at hafter
      exact hafter
    · have hsame := TypeRecord.portrait_modifyMethod (f :=
        fun own => { own with body := some lowered }) (g := id) (fun _ => rfl)
        (p.workshop.space.program.record (P.layout.place h)) slot
      rw [hsame, TypeRecord.modifyMethod_id, hr]
    · rw [TypeRecord.method?_modifyMethod]
      by_cases hother : other = slot
      · rw [if_pos hother, hother, hplaced, update_self]
        rfl
      · rw [if_neg hother, update_of_ne fun heq => hother (MethodId.mk.inj heq).2]
        exact hp.bodies ⟨P.layout.place h, other⟩ (P.layout.start_le_place h)
    · exact update_of_ne (fun heq => hne (by rw [heq])) _ _
  · rw [hmethod]
    exact hconcrete
  · have hbody := hp.bodies ⟨P.layout.place h, slot⟩ (P.layout.start_le_place h)
    rw [(good g).2, Universe.method?, show (p.program.record (P.layout.place h)).method? slot
      = some placed from hplaced] at hbody
    rw [hmethod]
    exact hbody

theorem wp_attachOverride_drawn
    (good : G → Attachment.Ready P p.emitted (.override (P.layout.place h) ⟨P.layout.place h,
      slot⟩ declaration)) :
    (attachOne (.override (P.layout.place h) ⟨P.layout.place h, slot⟩ declaration)).wp
      (fun _ after => after.emitted = p.emitted ∧ Drawn P (P.full objectType) B A after)
      (fun _ => ¬ G) p := by
  have hr : (p.workshop.space.program.record (P.layout.place h)).portrait = P.full objectType h :=
    hp.records h hmem
  unfold attachOne
  rw [wp_inSpace]
  refine TypeSpace.wp_defineOverride_edited (m :=
    ⟨P.layout.place h, slot⟩) (hp.lt h hmem) (fun space he => ⟨rfl, ?_, hp.emitted⟩)
    fun hbad g => hbad ⟨(complete_of_portrait hr).trans P.full_complete,
      (present_of_portrait hr).trans P.full_present, ?_⟩
  · have hnow : Painted P (update (P.full objectType) h (P.full objectType h)) B A p := by
      rw [update_eq_self]
      exact hp.toPainted
    have hafter := hnow.adorned (R := P.full objectType h) he hr rfl fun _ => rfl
    rw [update_eq_self] at hafter
    exact hafter
  · obtain ⟨hlt, hvirtual⟩ := good g
    have hsame : p.workshop.space.program.method declaration = P.program.method declaration := by
      rw [Universe.method, Universe.method, Universe.method?, Universe.method?]
      exact congrArg (fun r => (TypeRecord.method? r declaration.slot).getD Universe.noMethod)
        (hp.old declaration.owner hlt)
    rw [hsame]
    exact hvirtual

end Attach

/-- What is queued is attached in order, each body to a method that has none yet. -/
theorem wp_attachEach_drawn (hmeant : ∀ a ∈ A, a.Meant P objectType)
    (hnodup : (A.filterMap Attachment.target?).Nodup) (good : G → ∀ a ∈ A, a.Ready P p.emitted)
    (hp : Drawn P (P.full objectType) (fun _ => none) A p) :
    (forIn A PUnit.unit (fun a _ => do let _ ← attachOne a; pure (.yield PUnit.unit)) : Attempt
      Production PUnit).wp
      (fun _ after => after.emitted = p.emitted
        ∧ ∃ B, Lowered p.emitted A B ∧ Drawn P (P.full objectType) B A after) (fun _ => ¬ G) p := by
  let inv (done : List Attachment) (mid : Production) : Prop :=
    mid.emitted = p.emitted ∧ ∃ B, Lowered p.emitted done B ∧ Drawn P (P.full objectType) B A mid
  have hone : ∀ done a rest, A = done ++ a :: rest → ∀ mid, inv done mid →
      (attachOne a).wp (fun _ => inv (done ++ [a])) (fun _ => ¬ G) mid := by
    rintro done a rest hsplit mid ⟨hemitted, B, hlowered, hmid⟩
    have hmem : a ∈ A := by rw [hsplit]; simp
    have hready : G → a.Ready P mid.emitted := fun g => hemitted ▸ good g a hmem
    have hmeanta := hmeant a hmem
    cases a with
    | body t m body =>
      obtain ⟨owner, slot⟩ := m
      obtain ⟨rfl, h, hh, rfl, own, hown, hconcrete⟩ := hmeanta
      have hfresh : ∀ earlier, .body (P.layout.place h) ⟨P.layout.place h,
          slot⟩ earlier ∉ done := by
        intro earlier hearlier
        rw [hsplit, List.filterMap_append, List.nodup_append] at hnodup
        exact hnodup.2.2 _ (List.mem_filterMap.mpr ⟨_, hearlier, rfl⟩) _
          (List.mem_filterMap.mpr ⟨_, List.mem_cons_self, rfl⟩) rfl
      have hfree : B ⟨P.layout.place h, slot⟩ = none := by
        rw [Option.eq_none_iff_forall_not_mem]
        intro lowered hold
        obtain ⟨earlier, hearlier, -⟩ := hlowered.source _ lowered hold
        exact hfresh earlier hearlier
      refine wp_mono (wp_attachBody_drawn hmid hh hown hconcrete fun g => ⟨hready g, hfree⟩) ?_
        fun _ hbad => hbad
      rintro - after ⟨hsame, lowered, hlower, hafter⟩
      exact ⟨hsame.trans hemitted, _, hlowered.attachBody (m :=
        ⟨P.layout.place h, slot⟩) hfresh (hemitted ▸ hlower), hafter⟩
    | override t m declaration =>
      obtain ⟨owner, slot⟩ := m
      obtain ⟨rfl, h, hh, rfl⟩ := hmeanta
      refine wp_mono (wp_attachOverride_drawn hmid hh hready) ?_ fun _ hbad => hbad
      rintro - after ⟨hsame, hafter⟩
      exact ⟨hsame.trans hemitted, B, hlowered.attachOverride _ _ _, hafter⟩
  exact wp_forIn A hone ⟨rfl, fun _ => none, lowered_nil _, hp⟩

/-! ### Creating -/

theorem wp_createType_complete {s : TypeSpace} {t : TypeId} {post : TypeId → TypeSpace → Prop}
    {fail : TypeSpace → Prop}
    (h : ∀ after, after.program = s.program.modify t (fun r => { r with complete := true }) →
      post t after)
    (hfail : ∀ after, fail after) : (TypeSpace.createType t).wp post fail s := by
  unfold TypeSpace.createType
  rw [wp_bind]
  refine TypeSpace.wp_ensureOpen_of (fun _ => ?_) fun _ => hfail s
  simp only [TypeSpace.currentProgram, wp_bind, wp_get, wp_pure, wp_lift]
  exact ⟨fun _ _ => h _ rfl, fun _ _ => hfail s⟩

/-- The portraits when some types are finished. -/
def finished (S : TypeHandle → TypeRecord) (done : List TypeHandle) (h : TypeHandle) : TypeRecord :=
  if h ∈ done then { S h with complete := true } else S h

/-- Whatever is listed, a type that is created stays as it is but for being complete. -/
theorem wp_create_drawn {S : TypeHandle → TypeRecord} (hmem : h ∈ P.layout.order)
    (hp : Drawn P S B A p) :
    (create h).wp (fun v after => v = (h, P.layout.place h) ∧ after.emitted = p.emitted
      ∧ Drawn P (update S h { S h with complete := true }) B A after) (fun _ => True) p := by
  unfold create
  rw [wp_bind]
  refine wp_lookUp_ok (Emitted.type_eq_ok hp.emitted.types |>.mpr ⟨hmem, rfl⟩) ?_
  rw [wp_bind, wp_inSpace]
  refine wp_createType_complete (fun after hafter => ⟨rfl, rfl, ?_⟩) fun _ => trivial
  have hself : Drawn P (update S h (S h)) B A p := by
    rw [update_eq_self]
    exact hp
  have hr : (p.workshop.space.program.record (P.layout.place h)).portrait = S h := hp.records h hmem
  have hedited : p.workshop.space.Edited (P.layout.place h) _
    { p.workshop.space with program := _ } :=
    TypeSpace.edited_modify (hp.lt h hmem) rfl fun r => { r with complete := true }
  have hdrawn := hself.adorned (B := B) (R := { S h with complete := true }) hmem hedited
    (by rw [← hr]; rfl)
    ⟨rfl, rfl, rfl, rfl, rfl, rfl, rfl⟩
  exact hdrawn.of_program hafter rfl rfl rfl

theorem wp_createAll_drawn {S : TypeHandle → TypeRecord} (hnodup : P.layout.order.Nodup)
    (hp : Drawn P S B A p) :
    (P.layout.order.mapM create).wp (fun vs after =>
      vs = P.layout.order.map (fun h => (h, P.layout.place h))
      ∧ after.emitted = p.emitted ∧ Drawn P (finished S P.layout.order) B A after)
      (fun _ => True) p := by
  let inv (done : List (TypeHandle × (TypeHandle × TypeId))) (mid : Production) : Prop :=
    (∀ pair ∈ done, pair.2 = (pair.1, P.layout.place pair.1)) ∧ mid.emitted = p.emitted
      ∧ Drawn P (finished S (done.map (·.1))) B A mid
  have hone : ∀ before h rest, P.layout.order = before.map (·.1) ++ h :: rest →
    ∀ mid, inv before mid →
      (create h).wp (fun v => inv (before ++ [(h, v)])) (fun _ => True) mid := by
    rintro before h rest hsplit mid ⟨hpairs, hemitted, hmid⟩
    have hmem : h ∈ P.layout.order := by rw [hsplit]; simp
    have hfresh : h ∉ before.map (·.1) := by
      rw [hsplit] at hnodup
      exact fun hold => List.disjoint_of_nodup_append hnodup hold List.mem_cons_self
    refine wp_mono (wp_create_drawn hmem hmid) ?_ fun _ _ => trivial
    rintro v after ⟨rfl, hsame, hafter⟩
    refine ⟨?_, hsame.trans hemitted, hafter.congr fun other _ => ?_⟩
    · rw [List.forall_mem_append, List.forall_mem_singleton]
      exact ⟨hpairs, rfl⟩
    · by_cases hother : other = h
      · subst hother
        rw [update_self, finished, finished, if_neg hfresh, if_pos (by simp)]
      · rw [update_of_ne hother]
        exact if_congr (by simp [hother]) rfl rfl
  have hstart : inv [] p :=
    ⟨fun _ hnone => absurd hnone List.not_mem_nil, rfl, hp.congr fun _ _ => if_neg List.not_mem_nil⟩
  refine wp_mono (wp_mapM P.layout.order hone hstart) ?_ fun _ _ => trivial
  rintro vs after ⟨hlength, hpairs, hemitted, hdrawn⟩
  have hitems : (P.layout.order.zip vs).map (·.1) = P.layout.order := List.map_fst_zip hlength.le
  have hvalues : (P.layout.order.zip vs).map (·.2) = vs := List.map_snd_zip hlength.ge
  rw [hitems] at hdrawn
  refine ⟨?_, hemitted, hdrawn⟩
  calc vs = (P.layout.order.zip vs).map (·.2) := hvalues.symm
    _ = (P.layout.order.zip vs).map ((fun h => (h, P.layout.place h)) ∘ (·.1)) :=
      List.map_congr_left hpairs
    _ = P.layout.order.map (fun h => (h, P.layout.place h)) := by rw [← List.map_map, hitems]

end Production

end TypeLoom
