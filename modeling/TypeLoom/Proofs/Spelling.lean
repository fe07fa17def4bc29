import Mathlib.Data.List.Forall2
import TypeLoom.Proofs.Building
import TypeLoom.Proofs.Stages

/-!
# What documents spell

The base, the interfaces and the explicit overrides of a type that was read are what its element
says, with names resolved among the types of the document and then among the listed ones. Reading a
type does not look at what it refers to, and leaves what other types refer to as it was.
-/

namespace TypeLoom

/-! ### Wirings -/

structure Wiring where
  flags : UInt32
  base : Option TypeId
  interfaces : List TypeId
  overrides : List Override

namespace TypeOutline

def wiring (o : TypeOutline) : Wiring := ⟨o.flags, o.base, o.interfaces, o.overrides⟩

def withOverrides (overrides : List Override) (o : TypeOutline) : TypeOutline :=
  { o with overrides }

end TypeOutline

namespace Universe

/-- Both universes have the same types with the same methods, and so on but for the overrides. -/
def SameHeads (u u' : Universe) : Prop :=
  ∀ t, (u'.outline t).withOverrides [] = (u.outline t).withOverrides []

namespace SameHeads

variable {u mid u' : Universe} {t : TypeId}

theorem symm (h : SameHeads u u') : SameHeads u' u := fun t => (h t).symm

theorem head (h : SameHeads u u') (m : MethodId) : u'.head m = u.head m := by
  have hmethod : ∀ o : TypeOutline, o.method? m.slot = (o.withOverrides []).method? m.slot :=
      fun o => by
    cases m.slot <;> rfl
  rw [head_eq, head_eq, hmethod (u'.outline m.owner), hmethod (u.outline m.owner), h m.owner]

theorem methodsOf (h : SameHeads u u') (t : TypeId) : u'.methodsOf t = u.methodsOf t := by
  have hmethods := congrArg TypeOutline.methods (h t)
  rw [methodsOf_eq, methodsOf_eq, show (u'.outline t).methods = (u.outline t).methods from hmethods]

theorem constructorsOf (h : SameHeads u u') (t : TypeId) :
    u'.constructorsOf t = u.constructorsOf t := by
  have hsize : ∀ v : Universe, (v.record t).constructors.size = (v.outline t).constructors.length :=
      fun v => by
    simp [outline, TypeRecord.outline]
  have hconstructors := congrArg TypeOutline.constructors (h t)
  rw [Universe.constructorsOf, Universe.constructorsOf, hsize, hsize,
    show (u'.outline t).constructors = (u.outline t).constructors from hconstructors]

end SameHeads

end Universe

namespace Artifact

open Markup Attempt

/-! ### References -/

structure SameNames (s s' : Scope) : Prop where
  here : s'.here = s.here
  listings : s'.registry.listings = s.registry.listings

variable {s s' : Scope} {n : Node} {t : TypeId} {m : MethodId}

theorem SameNames.type (h : SameNames s s') : s'.type = s.type := by
  funext name
  rw [Scope.type, Scope.type, Registry.named, Registry.named, h.here, h.listings]

theorem SameNames.signature (h : SameNames s s') : s'.signature = s.signature := by
  funext text
  rw [Scope.signature, Scope.signature, h.type]

theorem methodOn?_congr (h : s.program.SameHeads s'.program) : s'.methodOn? = s.methodOn? := by
  funext t name types
  have hname : ∀ m, (s'.program.method m).name = (s.program.method m).name :=
    fun m => congrArg MethodOutline.name (h.head m)
  have hsignature : ∀ m, (s'.program.method m).signature = (s.program.method m).signature :=
      fun m =>
        congrArg MethodOutline.signature (h.head m)
  have hinitializer : (s'.program.record t).initializer = (s.program.record t).initializer :=
    congrArg TypeOutline.initializer (h t)
  simp only [Scope.methodOn?, hname, hsignature, hinitializer, h.methodsOf, h.constructorsOf]

theorem SameNames.signatures (h : SameNames s s') : s'.signatures = s.signatures := by
  funext text
  unfold Scope.signatures
  rw [h.signature]

theorem methodOn_congr (hnames : SameNames s s') (hheads : s.program.SameHeads s'.program)
    (h : s.methodOn t n = .ok m) :
    s'.methodOn t n = .ok m := by
  obtain ⟨name, hname, h⟩ := bind_eq_ok.mp h
  obtain ⟨text, htext, h⟩ := bind_eq_ok.mp h
  obtain ⟨types, htypes, h⟩ := bind_eq_ok.mp h
  refine bind_eq_ok.mpr ⟨name, hname, bind_eq_ok.mpr ⟨text, htext, bind_eq_ok.mpr ⟨types, ?_, ?_⟩⟩⟩
  · rw [hnames.signatures]
    exact htypes
  · rw [methodOn?_congr hheads]
    cases hfound : s.methodOn? t name types with
    | some found =>
      rw [hfound] at h
      exact h
    | none =>
      rw [hfound] at h
      cases h

theorem method_congr (hnames : SameNames s s') (hheads : s.program.SameHeads s'.program)
    (h : s.method n = .ok m) :
    s'.method n = .ok m := by
  obtain ⟨declaring, hdeclaring, h⟩ := bind_eq_ok.mp h
  obtain ⟨t, ht, h⟩ := bind_eq_ok.mp h
  refine bind_eq_ok.mpr ⟨declaring, hdeclaring,
    bind_eq_ok.mpr ⟨t, ?_, methodOn_congr hnames hheads h⟩⟩
  rw [hnames.type]
  exact ht

theorem get?_of_require {key text : String} (h : n.require key = .ok text) :
    n.get? key = some text := by
  unfold Node.require at h
  split at h
  · rename_i hget
    cases h
    exact hget
  · cases h

theorem childNamed?_of_requireChild {name : String} {c : Node} (h : n.requireChild name = .ok c) :
    n.childNamed? name = some c := by
  unfold Node.requireChild at h
  split at h
  · rename_i hget
    cases h
    exact hget
  · cases h

namespace Scope

def Means (s : Scope) (text : String) (t : TypeId) : Prop := s.signature text = .ok (.ofClass t)

/-- The element of an interface names the type. -/
def Lists (s : Scope) (n : Node) (listed : TypeId) : Prop := ∃ text, n.get? "type" = some text
    ∧ s.Means text listed

structure Overrides (s : Scope) (t : TypeId) (n : Node) (v : Override) : Prop where
  declaration : ∃ d, n.childNamed? "declaration" = some d ∧ s.method d = .ok v.declaration
  body : ∃ i, n.childNamed? "implementation" = some i ∧ s.methodOn t i = .ok v.body

theorem Overrides.congr {v : Override} (hnames : SameNames s s')
    (hheads : s.program.SameHeads s'.program) (h : s.Overrides t n v) : s'.Overrides t n v where
  declaration := h.declaration.imp fun _ h => ⟨h.1, method_congr hnames hheads h.2⟩
  body := h.body.imp fun _ h => ⟨h.1, methodOn_congr hnames hheads h.2⟩

/-- The element says of the type what its record says. -/
structure Spells (s : Scope) (n : Node) (t : TypeId) (w : Wiring) : Prop where
  flags : readFlags n = .ok w.flags
  base : Option.Rel s.Means (n.get? "base") w.base
  interfaces : List.Forall₂ s.Lists (n.childrenNamed "interface") w.interfaces
  overrides : List.Forall₂ (s.Overrides t) (n.childrenNamed "override") w.overrides

end Scope

theorem SameNames.means (h : SameNames s s') : s'.Means = s.Means := by
  funext text t
  rw [Scope.Means, Scope.Means, h.signature]

theorem SameNames.lists (h : SameNames s s') : s'.Lists = s.Lists := by
  funext n t
  rw [Scope.Lists, Scope.Lists, h.means]

namespace Loading

variable {l₀ l : Loading} {w : Wiring} {flags : UInt32} {base : Option TypeId}
  {listed : List TypeId} {overrides : List Override}

/-! ### Changes of one type -/

def edited (l : Loading) (t : TypeId) (change : TypeRecord → TypeRecord) : Loading :=
  { l with space := { l.space with program := l.space.program.modify t change } }

def counted (l : Loading) (counters : TokenCounters) : Loading :=
  { l with space := { l.space with registry := { l.space.registry with counters } } }

/-- No types but these have changed, and no name stands for something else. -/
structure Only (l₀ : Loading) (types : List TypeId) (l : Loading) : Prop where
  names : SameNames l₀.scope l.scope
  size : l.space.program.types.size = l₀.space.program.types.size
  others : ∀ t, t ∉ types → l.space.program.outline t = l₀.space.program.outline t

namespace Only

variable {mid : Loading} {types more : List TypeId}

theorem refl (l : Loading) : Only l types l := ⟨⟨rfl, rfl⟩, rfl, fun _ _ => rfl⟩

theorem trans (h : Only l₀ types mid) (h' : Only mid more l) : Only l₀ (types ++ more) l where
  names := ⟨h'.names.here.trans h.names.here, h'.names.listings.trans h.names.listings⟩
  size := h'.size.trans h.size
  others := fun t ht => by
    rw [List.mem_append, not_or] at ht
    rw [h'.others t ht.2, h.others t ht.1]

theorem counted (h : Only l₀ types l) (counters : TokenCounters) :
    Only l₀ types (l.counted counters) :=
  ⟨⟨h.names.here, h.names.listings⟩, h.size, h.others⟩

theorem edited (h : Only l₀ types l) (ht : t ∈ types) (change : TypeRecord → TypeRecord) :
    Only l₀ types (l.edited t change) where
  names := ⟨h.names.here, h.names.listings⟩
  size := (Universe.size_modify _ _ _).trans h.size
  others := fun other hother => by
    have hne : other ≠ t := fun heq => hother (heq ▸ ht)
    rw [← h.others other hother]
    show (l.space.program.modify t change).outline other = _
    rw [Universe.outline, Universe.record_modify_of_ne _ hne, Universe.outline]

end Only

section Quiet

variable {P : Loading → Prop} (quiet : (TypeRecord → TypeRecord) → Prop) (hcounted : ∀ l counters,
  P l → P (l.counted counters))
  (hedited : ∀ l change, quiet change → P l → P (l.edited t change))

include hcounted in
theorem maintains_nextToken (kind : TokenKind) :
    Maintains P (inSpace (TypeSpace.nextToken kind)) := by
  intro l hl
  rw [inSpace, wp_within, TypeSpace.nextToken, wp_bind, wp_get, wp_bind, wp_set, wp_pure]
  exact hcounted l _ hl

theorem maintains_resolve {α : Type} (find : Scope → Except Fault α) : Maintains P (resolve find) :=
  maintains_bind maintains_get fun _ => maintains_lift _

include hedited in
theorem maintains_edit {change : TypeRecord → TypeRecord} (hquiet : quiet change) :
    Maintains P (edit t change) :=
  fun l hl => hedited l change hquiet hl

include hedited in
theorem maintains_apply {act : Universe → Except Fault Universe}
    (hact : ∀ u u', act u = .ok u' → ∃ change, quiet change ∧ u' = u.modify t change) :
    Maintains P (inSpace (TypeSpace.apply act)) := by
  intro l hl
  rw [inSpace, wp_within, TypeSpace.apply, wp_bind, wp_get]
  split
  · rename_i u hu
    obtain ⟨change, hquiet, rfl⟩ := hact _ _ hu
    exact hedited l change hquiet hl
  · exact hl

end Quiet

/-! ### The second pass -/

/-- The change shows nothing of what a type says of others. -/
def Unwired (change : TypeRecord → TypeRecord) : Prop :=
  ∀ r, (change r).outline.wiring = r.outline.wiring

structure Wired (l₀ : Loading) (t : TypeId) (w : Wiring) (l : Loading) :
    Prop extends Only l₀ [t] l where
  wiring : (l.space.program.outline t).wiring = w

namespace Wired

theorem counted (h : Wired l₀ t w l) (counters : TokenCounters) :
    Wired l₀ t w (l.counted counters) :=
  ⟨h.toOnly.counted counters, h.wiring⟩

theorem edited (h : Wired l₀ t w l) (ht : t.index < l₀.space.program.types.size)
    {change : TypeRecord → TypeRecord} (shape : Wiring → Wiring)
    (hshape : ∀ r, (change r).outline.wiring = shape r.outline.wiring) :
    Wired l₀ t (shape w) (l.edited t change) := by
  refine ⟨h.toOnly.edited (List.mem_singleton_self t) change, ?_⟩
  show ((l.space.program.modify t change).outline t).wiring = shape w
  rw [Universe.outline_modify _ _ _ _ (h.size ▸ ht), if_pos rfl, hshape, ← h.wiring]
  rfl

end Wired

theorem wp_classNamed {text : String} {fault : Fault} {post : TypeId → Loading → Prop}
    (h : ∀ b, l.scope.Means text b → post b l) :
    (classNamed text fault).wp post (fun _ => True) l := by
  rw [classNamed, wp_bind]
  refine wp_resolve fun signature hsignature => ?_
  split
  · exact h _ hsignature
  · trivial

theorem wp_apply {change : Universe → Except Fault Universe} {post : Unit → Loading → Prop}
    (h : ∀ u, change l.space.program = .ok u →
      post () { l with space := { l.space with program := u } }) :
    (inSpace (TypeSpace.apply change)).wp post (fun _ => True) l := by
  rw [inSpace, wp_within, TypeSpace.apply, wp_bind, wp_get]
  split
  · rename_i u hu
    exact h u hu
  · trivial

theorem wired_nextToken (kind : TokenKind) : Maintains (Wired l₀ t w)
    (inSpace (TypeSpace.nextToken kind)) :=
  maintains_nextToken (fun _ counters h => h.counted counters) kind

theorem wired_methodRecord (kind : MethodKind) (n : Node) : Maintains (Wired l₀ t w)
    (methodRecord kind n) := by
  refine maintains_bind (wired_nextToken _) fun _ => ?_
  refine maintains_bind (maintains_lift _) fun _ => ?_
  refine maintains_bind (maintains_lift _) fun _ => ?_
  refine maintains_bind (maintains_resolve _) fun _ => ?_
  exact maintains_pure _

section Define

variable (ht : t.index < l₀.space.program.types.size)
include ht

theorem wp_defineBase (h : Wired l₀ t ⟨flags, none, listed, overrides⟩ l) :
    (defineBase t n).wp (fun _ after => ∃ base, Option.Rel l₀.scope.Means (n.get? "base") base
      ∧ Wired l₀ t ⟨flags, base, listed, overrides⟩ after) (fun _ => True) l := by
  unfold defineBase
  split
  · rename_i hnone
    rw [hnone]
    exact ⟨none, .none, h⟩
  · rename_i text htext
    rw [htext, wp_bind]
    refine wp_classNamed fun b hb => wp_apply fun u hu => ⟨some b, .some (h.names.means ▸ hb), ?_⟩
    unfold Universe.setBase at hu
    split at hu
    · cases hu
    · cases hu
      exact h.edited ht (fun w => { w with base := some b }) fun _ => rfl

theorem wp_defineInterface {base : Option TypeId}
    (h : Wired l₀ t ⟨flags, base, listed, overrides⟩ l) :
    (defineInterface t n).wp (fun _ after => ∃ i, l₀.scope.Lists n i
      ∧ Wired l₀ t ⟨flags, base, listed ++ [i], overrides⟩ after) (fun _ => True) l := by
  rw [defineInterface, wp_bind, wp_lift]
  refine ⟨fun text htext => ?_, fun _ _ => trivial⟩
  rw [wp_bind]
  refine wp_classNamed fun i hi => ⟨i, ⟨text, get?_of_require htext, h.names.means ▸ hi⟩, ?_⟩
  refine h.edited ht (fun w => { w with interfaces := w.interfaces ++ [i] }) fun r => ?_
  simp [TypeOutline.wiring, TypeRecord.outline]

theorem wp_defineInterfaces {base : Option TypeId} (h : Wired l₀ t ⟨flags, base, [], overrides⟩ l) :
    ((n.childrenNamed "interface").forM (defineInterface t)).wp
      (fun _ after => ∃ listed, List.Forall₂ l₀.scope.Lists (n.childrenNamed "interface") listed
        ∧ Wired l₀ t ⟨flags, base, listed, overrides⟩ after) (fun _ => True) l := by
  let inv (done : List Node) (l : Loading) : Prop :=
    ∃ listed, List.Forall₂ l₀.scope.Lists done listed
      ∧ Wired l₀ t ⟨flags, base, listed, overrides⟩ l
  refine wp_forM (I := inv) _ (fun before i _ _ mid hmid => ?_) ⟨[], .nil, h⟩
  obtain ⟨listed, hbefore, hwired⟩ := hmid
  refine wp_mono (wp_defineInterface ht hwired) (fun _ after hafter => ?_) fun _ h => h
  obtain ⟨i, hi, hafter⟩ := hafter
  exact ⟨listed ++ [i], List.rel_append hbefore (.cons hi .nil), hafter⟩

theorem wired_edit {change : TypeRecord → TypeRecord} (h : Unwired change) :
    Maintains (Wired l₀ t w) (edit t change) :=
  maintains_edit Unwired (fun _ _ hquiet h => h.edited ht id hquiet) h

theorem wired_defineField (n : Node) : Maintains (Wired l₀ t w) (defineField t n) := by
  refine maintains_bind (wired_nextToken _) fun _ => ?_
  refine maintains_bind (maintains_lift _) fun _ => ?_
  refine maintains_bind (maintains_lift _) fun _ => ?_
  refine maintains_bind (maintains_resolve _) fun _ => ?_
  refine maintains_bind (maintains_lift _) fun _ => ?_
  exact wired_edit ht fun _ => rfl

theorem wired_defineInitializer (n : Node) : Maintains (Wired l₀ t w) (defineInitializer t n) := by
  unfold defineInitializer
  split
  · exact maintains_pure _
  · refine maintains_bind (wired_methodRecord _ _) fun _ => maintains_bind ?_ fun _ =>
      wired_edit ht fun _ => rfl
    refine maintains_apply Unwired (fun _ _ hquiet h => h.edited ht id hquiet) fun u u' hu => ?_
    unfold Universe.setInitializer at hu
    split at hu
    · cases hu
    · cases hu
      exact ⟨fun r => { r with initializer := some ⟨t, .typeInitializer⟩ }, fun _ => rfl, rfl⟩

theorem wired_defineProperty (n : Node) : Maintains (Wired l₀ t w) (defineProperty t n) := by
  refine maintains_bind (maintains_option _ fun _ => maintains_resolve _) fun _ => ?_
  refine maintains_bind (maintains_option _ fun _ => maintains_resolve _) fun _ => ?_
  refine maintains_bind (wired_nextToken _) fun _ => ?_
  refine maintains_bind (maintains_lift _) fun _ => ?_
  refine maintains_bind (maintains_lift _) fun _ => ?_
  refine maintains_bind (maintains_resolve _) fun _ => ?_
  exact wired_edit ht fun _ => rfl

theorem wired_defineEvent (n : Node) : Maintains (Wired l₀ t w) (defineEvent t n) := by
  refine maintains_bind (maintains_option _ fun _ => maintains_resolve _) fun _ => ?_
  refine maintains_bind (wired_nextToken _) fun _ => ?_
  refine maintains_bind (maintains_lift _) fun _ => ?_
  refine maintains_bind (maintains_lift _) fun _ => ?_
  refine maintains_bind (maintains_resolve _) fun _ => ?_
  refine maintains_bind (maintains_resolve _) fun _ => ?_
  refine maintains_bind (maintains_resolve _) fun _ => ?_
  exact wired_edit ht fun _ => rfl

/-- After the second pass a type has the base and the interfaces that its element names. -/
theorem wp_define (h : Wired l₀ t ⟨flags, none, [], overrides⟩ l) :
    (define n t).wp (fun _ after => ∃ base listed, Option.Rel l₀.scope.Means (n.get? "base") base
      ∧ List.Forall₂ l₀.scope.Lists (n.childrenNamed "interface") listed
      ∧ Wired l₀ t ⟨flags, base, listed, overrides⟩ after) (fun _ => True) l := by
  rw [define]
  refine wp_step (wp_defineBase ht h) (fun _ l hl => ?_) fun _ h => h
  obtain ⟨base, hbase, hl⟩ := hl
  refine wp_step (wp_defineInterfaces ht hl) (fun _ l hl => ?_) fun _ h => h
  obtain ⟨listed, hlisted, hl⟩ := hl
  have hmembers : Maintains (Wired l₀ t ⟨flags, base, listed, overrides⟩) (do
      (n.childrenNamed "field").forM (defineField t)
      (n.childrenNamed "constructor").forM (defineConstructor t)
      defineInitializer t n
      (n.childrenNamed "method").forM (defineMethod t)
      (n.childrenNamed "property").forM (defineProperty t)
      (n.childrenNamed "event").forM (defineEvent t)) := by
    refine maintains_bind (maintains_forM _ fun f _ => wired_defineField ht f) fun _ =>
      maintains_bind (maintains_forM _ fun c _ => ?_) fun _ => ?_
    · exact maintains_bind (wired_methodRecord _ c) fun _ => wired_edit ht fun _ => rfl
    refine maintains_bind (wired_defineInitializer ht n) fun _ =>
      maintains_bind (maintains_forM _ fun m _ => ?_) fun _ => ?_
    · exact maintains_bind (wired_methodRecord _ m) fun _ => wired_edit ht fun _ => rfl
    exact maintains_bind (maintains_forM _ fun p _ => wired_defineProperty ht p) fun _ =>
      maintains_forM _ fun e _ => wired_defineEvent ht e
  exact wp_mono (hmembers l hl) (fun _ after hafter => ⟨base, listed, hbase, hlisted, hafter⟩)
    fun _ _ => trivial

end Define

/-! ### The third pass -/

structure Overridden (l₀ : Loading) (t : TypeId) (overrides : List Override) (l : Loading) :
    Prop extends Only l₀ [t] l where
  outline : l.space.program.outline t = (l₀.space.program.outline t).withOverrides overrides

def Unseen (change : TypeRecord → TypeRecord) : Prop := ∀ r, (change r).outline = r.outline

namespace Overridden

theorem sameHeads (h : Overridden l₀ t overrides l) :
    l₀.space.program.SameHeads l.space.program := by
  intro other
  by_cases hother : other = t
  · subst hother
    rw [h.outline]
    rfl
  · rw [h.others other (by simpa using hother)]

theorem edited (h : Overridden l₀ t overrides l) (other : TypeId) {change : TypeRecord → TypeRecord}
    (hunseen : Unseen change) :
    Overridden l₀ t overrides (l.edited other change) := by
  have hsame := Universe.same_modify (u := l.space.program) other hunseen
  exact ⟨⟨⟨h.names.here, h.names.listings⟩, hsame.1.trans h.size, fun x hx =>
    (hsame.2 x).trans (h.others x hx)⟩,
    (hsame.2 t).trans h.outline⟩

end Overridden

section Attach

variable {elements : List Node}

theorem overridden_edit (other : TypeId) {change : TypeRecord → TypeRecord} (h : Unseen change) :
    Maintains (Overridden l₀ t overrides) (edit other change) :=
  maintains_edit Unseen (fun _ _ hunseen h => h.edited other hunseen) h

theorem overridden_attachAttribute (other : TypeId) (n : Node) :
    Maintains (Overridden l₀ t overrides) (attachAttribute other n) :=
  maintains_bind (maintains_resolve _) fun _ => overridden_edit other fun _ => rfl

theorem overridden_attachFieldAttribute (f : FieldId) (n : Node) :
    Maintains (Overridden l₀ t overrides) (attachFieldAttribute f n) :=
  maintains_bind (maintains_resolve _) fun _ _ h => h.edited f.owner fun _ => rfl

theorem overridden_attachMethod (m : MethodId) (n : Node) : Maintains (Overridden l₀ t overrides)
    (attachMethod m n) := by
  have hunseen : ∀ change : MethodRecord → MethodRecord, (∀ r, (change r).outline = r.outline) →
      Unseen fun r => r.modifyMethod m.slot change :=
      fun change h r => TypeSpace.outline_modifyMethod r m.slot h
  refine maintains_bind (maintains_forM _ fun a _ => ?_) fun _ => ?_
  · exact maintains_bind (maintains_resolve _) fun a _ h =>
      h.edited m.owner (hunseen _ fun _ => rfl)
  unfold attachBody
  split
  · exact maintains_pure _
  · refine maintains_bind (maintains_resolve _) fun body => ?_
    refine maintains_apply Unseen (t := m.owner) (fun _ _ hunseen h => h.edited m.owner hunseen)
      fun u u' hu => ?_
    unfold Universe.setBody at hu
    split at hu
    · cases hu
    · split at hu
      · cases hu
      · cases hu
        exact ⟨fun r => r.modifyMethod m.slot fun c => { c with body := some body },
          hunseen _ fun _ => rfl, rfl⟩

theorem wp_attachOverride (ht : t.index < l₀.space.program.types.size)
    (h : Overridden l₀ t overrides l) :
    (attachOverride t n).wp (fun _ after => ∃ v, l₀.scope.Overrides t n v
      ∧ Overridden l₀ t (overrides ++ [v]) after)
      (fun _ => True) l := by
  rw [attachOverride, wp_bind]
  refine wp_resolve fun declaration hdeclaration => ?_
  rw [wp_bind]
  refine wp_resolve fun body hbody => ?_
  obtain ⟨d, hd, hdeclaration⟩ := bind_eq_ok.mp hdeclaration
  obtain ⟨i, hi, hbody⟩ := bind_eq_ok.mp hbody
  have hnames : SameNames l.scope l₀.scope := ⟨h.names.here.symm, h.names.listings.symm⟩
  have hoverride : l₀.scope.Overrides t n ⟨declaration, body⟩ :=
    ⟨⟨d, childNamed?_of_requireChild hd, method_congr hnames h.sameHeads.symm hdeclaration⟩,
      ⟨i, childNamed?_of_requireChild hi, methodOn_congr hnames h.sameHeads.symm hbody⟩⟩
  refine ⟨_, hoverride, h.toOnly.edited (List.mem_singleton_self t) _, ?_⟩
  refine (Universe.outline_modify _ _ _ _ (h.size ▸ ht)).trans ?_
  rw [if_pos rfl, TypeOutline.outline_pushOverride, ← Universe.outline, h.outline]
  rfl

/-- After the third pass a type has the overrides that its element names, and is otherwise as it
was. -/
theorem wp_attach (ht : t.index < l.space.program.types.size)
    (hnone : (l.space.program.outline t).overrides = []) :
    (attach n t).wp (fun _ after => ∃ overrides,
      List.Forall₂ (l.scope.Overrides t) (n.childrenNamed "override") overrides
      ∧ Overridden l t overrides after) (fun _ => True) l := by
  have hstart : Overridden l t [] l := ⟨.refl l, by rw [TypeOutline.withOverrides, ← hnone]⟩
  let inv (done : List Node) (after : Loading) : Prop :=
    ∃ overrides, List.Forall₂ (l.scope.Overrides t) done overrides ∧ Overridden l t overrides after
  rw [attach]
  refine wp_step (maintains_forM _ (fun a _ => overridden_attachAttribute t a) l hstart)
    (fun _ mid hmid => ?_) fun _ _ => trivial
  rw [wp_bind, wp_get]
  refine wp_step (maintains_forM _ (fun p _ => maintains_forM _ fun a _ =>
    overridden_attachFieldAttribute p.2 a) mid hmid)
    (fun _ mid hmid => ?_) fun _ _ => trivial
  refine wp_step (maintains_forM _ (fun p _ => overridden_attachMethod p.2 p.1) mid hmid)
    (fun _ mid hmid => ?_) fun _ _ => trivial
  refine wp_step (maintains_forM _ (fun p _ => overridden_attachMethod p.2 p.1) mid hmid)
    (fun _ mid hmid => ?_) fun _ _ => trivial
  refine wp_step (maintains_forM _ (fun p _ => overridden_attachMethod p.2 p.1) mid hmid)
    (fun _ mid hmid => ?_) fun _ _ => trivial
  refine wp_forM (I := inv) _ (fun before e _ _ mid hmid => ?_) ⟨[], .nil, hmid⟩
  obtain ⟨overrides, hbefore, hmid⟩ := hmid
  refine wp_mono (wp_attachOverride ht hmid) (fun _ after hafter => ?_) fun _ h => h
  obtain ⟨v, hv, hafter⟩ := hafter
  exact ⟨overrides ++ [v], List.rel_append hbefore (.cons hv .nil), hafter⟩

end Attach

end Loading

end Artifact

end TypeLoom
