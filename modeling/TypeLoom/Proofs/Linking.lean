import TypeLoom.Proofs.Bindings

/-!
# Types that are linked

Whatever a type that was read refers to was found by its words, and so were the classes among its
parameters. Each step of reading adds to one type, after it has looked up what the addition refers
to.
-/

namespace TypeLoom

def TypeRecord.signatures (r : TypeRecord) : List MethodSignature :=
  (r.constructors.toList ++ r.methods.toList).map MethodRecord.signature

/-- The types that must be found by name, besides those of members: the base, and what the
identifiers in the type initializer were requested for. -/
def TypeRecord.named (r : TypeRecord) : List TypeId :=
  r.base.toList ++ r.ownInitializer.toList.flatMap fun m => m.body.toList.flatMap Expr.requested

namespace Artifact

open Markup Attempt

variable {s : Scope} {t : TypeId} {r r' : TypeRecord} {x : Reference}

/-! ### Records that gain references -/

theorem mem_references : x ∈ r.references ↔ ∃ sec : Section, x ∈ sec.references r := by
  rw [TypeRecord.references, List.mem_flatMap]
  constructor
  · rintro ⟨sec, -, h⟩
    exact ⟨sec, h⟩
  · rintro ⟨sec, h⟩
    exact ⟨sec, by cases sec <;> decide, h⟩

/-- All that was there is kept, and what is new in the record leads somewhere. -/
structure Gains (s : Scope) (t : TypeId) (r r' : TypeRecord) : Prop where
  keeps : TypeRecord.Keeps r r'
  initializer : ∀ m, r.initializer = some m → r'.initializer = some m
  own : r.OwnInitializer t → r'.OwnInitializer t
  references : ∀ x ∈ r'.references, x ∈ r.references ∨ s.Binds t x
  signatures : ∀ g ∈ r'.signatures, g ∈ r.signatures ∨ s.Resolves g
  named : ∀ b ∈ r'.named, b ∈ r.named ∨ s.Finds b

theorem gains_of_section (sec : Section) (hkeeps : TypeRecord.Keeps r r')
    (hinitializer : r'.initializer = r.initializer)
    (hown : r'.ownInitializer.isSome = r.ownInitializer.isSome) (hothers : ∀ other : Section,
      other ≠ sec → other.references r' = other.references r)
    (hreferences : ∀ x ∈ sec.references r', x ∈ sec.references r ∨ s.Binds t x)
    (hsignatures : ∀ g ∈ r'.signatures, g ∈ r.signatures ∨ s.Resolves g)
    (hnamed : ∀ b ∈ r'.named, b ∈ r.named ∨ s.Finds b) : Gains s t r r' where
  keeps := hkeeps
  initializer := fun m hm => hinitializer.trans hm
  own := fun h => by
    rw [TypeRecord.OwnInitializer, hinitializer, h]
    cases hafter : r'.ownInitializer <;> cases hbefore : r.ownInitializer <;> simp_all
  references := fun x hx => by
    obtain ⟨other, hx⟩ := mem_references.mp hx
    by_cases hother : other = sec
    · subst hother
      exact (hreferences x hx).imp_left fun h => mem_references.mpr ⟨other, h⟩
    · rw [hothers other hother] at hx
      exact .inl (mem_references.mpr ⟨other, hx⟩)
  signatures := hsignatures
  named := hnamed

theorem Touches.gains {sec : Section} (h : Touches t sec r r')
    (hothers : ∀ other : Section, other ≠ sec → other.references r' = other.references r)
    (hreferences : ∀ x ∈ sec.references r', x ∈ sec.references r ∨ s.Binds t x)
    (hsignatures : ∀ g ∈ r'.signatures, g ∈ r.signatures ∨ s.Resolves g)
    (hnamed : ∀ b ∈ r'.named, b ∈ r.named ∨ s.Finds b) : Gains s t r r' :=
  gains_of_section sec h.keeps h.initializer h.own hothers hreferences hsignatures hnamed

section Arrays

variable {α : Type} {items : Array α} {refer : α → List Reference}

theorem mem_flatMap_push {a : α} (ha : ∀ x ∈ refer a, s.Binds t x) :
    ∀ x ∈ (items.push a).toList.flatMap refer, x ∈ items.toList.flatMap refer ∨ s.Binds t x := by
  intro x hx
  rw [Array.toList_push, List.flatMap_append, List.mem_append, List.flatMap_singleton] at hx
  exact hx.imp_right (ha x)

theorem mem_flatMap_modify {index : Nat} {change : α → α}
    (hchange : ∀ a, ∀ x ∈ refer (change a), x ∈ refer a ∨ s.Binds t x) :
    ∀ x ∈ (items.modify index change).toList.flatMap refer, x ∈ items.toList.flatMap refer
        ∨ s.Binds t x := by
  intro x hx
  obtain ⟨a, ha, hx⟩ := List.mem_flatMap.mp hx
  obtain ⟨place, hplace⟩ := List.mem_iff_getElem?.mp ha
  rw [Array.getElem?_toList, Array.getElem?_modify] at hplace
  split at hplace
  · obtain ⟨b, hb, rfl⟩ := Option.map_eq_some_iff.mp hplace
    refine (hchange b x hx).imp_left fun h => List.mem_flatMap.mpr ⟨b, ?_, h⟩
    exact List.mem_iff_getElem?.mpr ⟨place, by rw [Array.getElem?_toList]; exact hb⟩
  · refine .inl (List.mem_flatMap.mpr ⟨a, ?_, hx⟩)
    exact List.mem_iff_getElem?.mpr ⟨place, by rw [Array.getElem?_toList]; exact hplace⟩

theorem map_signature_modify {methods : Array MethodRecord} {index : Nat}
    {change : MethodRecord → MethodRecord} (h : ∀ m, (change m).signature = m.signature) :
    (methods.modify index change).toList.map MethodRecord.signature
        = methods.toList.map MethodRecord.signature := by
  apply List.ext_getElem?
  intro place
  simp only [List.getElem?_map, Array.getElem?_toList, Array.getElem?_modify]
  split <;> cases methods[place]? <;> simp [h]

end Arrays

section Gains

variable (r)

theorem gains_setBase {b : TypeId} (hb : s.Finds b) : Gains s t r { r with base := some b } := by
  refine gains_of_section .interfaces
    (.of_outline rfl rfl rfl rfl rfl (TypeOutline.keeps_setBase b _)) rfl rfl (fun _ _ => rfl)
    (fun _ h => .inl h) (fun _ h => .inl h) fun c hc => ?_
  rcases List.mem_append.mp hc with hc | hc
  · rw [List.mem_singleton.mp hc]
    exact .inr hb
  · exact .inl (List.mem_append_right _ hc)

theorem gains_pushInterface (i : TypeId) :
    Gains s t r { r with interfaces := r.interfaces.push i } :=
  (touches_interfaces i r).gains (fun _ _ => rfl) (fun _ h => .inl h) (fun _ h => .inl h) fun _ h =>
    .inl h

theorem gains_pushField {f : FieldRecord} (hbare : f.references = []) :
    Gains s t r { r with fields := r.fields.push f } := by
  refine (touches_pushField f r).gains (fun other hother => ?_) (mem_flatMap_push (by simp [hbare]))
    (fun _ h => .inl h) fun _ h => .inl h
  cases other <;> first | rfl | exact absurd rfl hother

theorem gains_pushConstructor {c : MethodRecord} (hbare : c.references = [])
    (hc : s.Resolves c.signature) :
    Gains s t r { r with constructors := r.constructors.push c } := by
  have houtline : TypeRecord.outline { r with constructors := r.constructors.push c }
      = r.outline.addConstructor c.outline := by
    simp [TypeRecord.outline, TypeOutline.addConstructor]
  refine gains_of_section .constructors (.of_outline rfl rfl rfl rfl rfl ?_) rfl rfl
    (fun other hother => ?_)
    (mem_flatMap_push (by simp [hbare])) (fun g hg => ?_) fun _ h => .inl h
  · rw [houtline]
    exact TypeOutline.keeps_addConstructor _ _
  · cases other <;> first | rfl | exact absurd rfl hother
  · simp only [TypeRecord.signatures, Array.toList_push, List.map_append, List.mem_append,
      List.map_cons, List.map_nil,
      List.mem_singleton] at hg ⊢
    rcases hg with (hg | rfl) | hg
    · exact .inl (.inl hg)
    · exact .inr hc
    · exact .inl (.inr hg)

theorem gains_pushMethod {m : MethodRecord} (hbare : m.references = [])
    (hm : s.Resolves m.signature) :
    Gains s t r { r with methods := r.methods.push m } := by
  refine (touches_pushMethod m r).gains (fun other hother => ?_)
    (mem_flatMap_push (by simp [hbare])) (fun g hg => ?_)
    fun _ h => .inl h
  · cases other <;> first | rfl | exact absurd rfl hother
  · simp only [TypeRecord.signatures, Array.toList_push, List.map_append, List.mem_append,
      List.map_cons, List.map_nil,
      List.mem_singleton] at hg ⊢
    rcases hg with hg | hg | rfl
    · exact .inl (.inl hg)
    · exact .inl (.inr hg)
    · exact .inr hm

theorem gains_setInitializer {c : MethodRecord} (hnone : r.initializer = none)
    (hown : r.OwnInitializer t) (hbare : c.references = []) (hbody : c.body = none) :
    Gains s t r { r with initializer := some ⟨t, .typeInitializer⟩, ownInitializer := some c } := by
  have hmissing : r.ownInitializer = none := by
    rw [TypeRecord.OwnInitializer, hnone] at hown
    exact Option.map_eq_none_iff.mp hown.symm
  have hkeeps :
    TypeRecord.Keeps r
    { r with initializer := some ⟨t, .typeInitializer⟩, ownInitializer := some c } :=
    .of_outline rfl rfl rfl rfl rfl (TypeOutline.keeps_setInitializer _ c.outline
      (by rw [TypeRecord.outline, hmissing]; rfl))
  refine ⟨hkeeps, fun m hm => ?_, fun _ => rfl, fun x hx => ?_, fun _ h => .inl h, fun b hb => ?_⟩
  · rw [hnone] at hm
    cases hm
  · obtain ⟨other, hx⟩ := mem_references.mp hx
    by_cases hother : other = .initializer
    · subst hother
      change x ∈ [c].flatMap MethodRecord.references at hx
      rw [List.flatMap_singleton, hbare] at hx
      exact absurd hx List.not_mem_nil
    · refine .inl (mem_references.mpr ⟨other, ?_⟩)
      cases other <;> first | exact hx | exact absurd rfl hother
  · rcases List.mem_append.mp hb with hb | hb
    · exact .inl (List.mem_append_left _ hb)
    · simp [hbody] at hb

theorem gains_pushProperty {p : PropertyRecord} (hp : ∀ x ∈ p.references, s.Binds t x) :
    Gains s t r { r with properties := r.properties.push p } := by
  refine (touches_properties p r).gains (fun other hother => ?_) (mem_flatMap_push hp) (fun _ h =>
    .inl h) fun _ h => .inl h
  cases other <;> first | rfl | exact absurd rfl hother

theorem gains_pushEvent {e : EventRecord} (he : ∀ x ∈ e.references, s.Binds t x) :
    Gains s t r { r with events := r.events.push e } := by
  refine (touches_events e r).gains (fun other hother => ?_) (mem_flatMap_push he) (fun _ h =>
    .inl h) fun _ h => .inl h
  cases other <;> first | rfl | exact absurd rfl hother

theorem gains_pushOverride {o : Override} (ho : ∀ x ∈ o.references, s.Binds t x) :
    Gains s t r { r with overrides := r.overrides.push o } := by
  refine (touches_overrides o r).gains (fun other hother => ?_) (mem_flatMap_push ho) (fun _ h =>
    .inl h) fun _ h => .inl h
  cases other <;> first | rfl | exact absurd rfl hother

theorem mem_pushAttribute {attributes : Array Attribute} {a : Attribute}
    (ha : s.Binds t a.reference) :
    ∀ x ∈ (attributes.push a).toList.map Attribute.reference,
    x ∈ attributes.toList.map Attribute.reference ∨ s.Binds t x := by
  intro x hx
  rw [Array.toList_push, List.map_append, List.mem_append] at hx
  exact hx.imp_right fun h => by rw [List.mem_singleton.mp h]; exact ha

theorem gains_pushAttribute {a : Attribute} (ha : s.Binds t a.reference) :
    Gains s t r { r with attributes := r.attributes.push a } := by
  refine (touches_attributes a r).gains (fun other hother => ?_) (mem_pushAttribute ha) (fun _ h =>
    .inl h) fun _ h => .inl h
  cases other <;> first | rfl | exact absurd rfl hother

theorem gains_modifyField (index : Nat) {change : FieldRecord → FieldRecord}
    (hname : ∀ f, (change f).name = f.name)
    (hchange : ∀ f, ∀ x ∈ (change f).references, x ∈ f.references ∨ s.Binds t x) :
    Gains s t r { r with fields := r.fields.modify index change } := by
  refine (touches_modifyField index r hname).gains (fun other hother => ?_)
    (mem_flatMap_modify hchange) (fun _ h => .inl h)
    fun _ h => .inl h
  cases other <;> first | rfl | exact absurd rfl hother

theorem gains_modifyMethod (slot : Slot) {change : MethodRecord → MethodRecord}
    (houtline : ∀ m, (change m).outline = m.outline)
    (hchange : ∀ m, ∀ x ∈ (change m).references, x ∈ m.references ∨ s.Binds t x) (hrequested : ∀ m,
      ∀ body ∈ (change m).body, body ∈ m.body ∨ ∀ b ∈ body.requested, s.Finds b) :
    Gains s t r (r.modifyMethod slot change) := by
  have hsignature : ∀ m, (change m).signature = m.signature :=
    fun m => congrArg MethodOutline.signature (houtline m)
  refine (touches_modifyMethod slot r houtline).gains (fun other hother => ?_) ?_
    (fun g hg => .inl ?_) ?_
  · cases slot <;> cases other <;> first | rfl | exact absurd rfl hother
  · cases slot with
    | method index => exact mem_flatMap_modify hchange
    | constructor index => exact mem_flatMap_modify hchange
    | typeInitializer =>
      intro x hx
      change x ∈ (r.ownInitializer.map change).toList.flatMap MethodRecord.references at hx
      show x ∈ r.ownInitializer.toList.flatMap MethodRecord.references ∨ _
      cases hown : r.ownInitializer with
      | none =>
        rw [hown] at hx
        exact .inl hx
      | some m =>
        rw [hown] at hx
        simp only [Option.map_some, Option.toList_some, List.flatMap_singleton] at hx ⊢
        exact hchange m x hx
  · have hsame : (r.modifyMethod slot change).signatures = r.signatures := by
      unfold TypeRecord.signatures
      cases slot <;> simp only [TypeRecord.modifyMethod, List.map_append,
        map_signature_modify hsignature]
    rw [← hsame]
    exact hg
  · cases slot with
    | method index => exact fun _ h => .inl h
    | constructor index => exact fun _ h => .inl h
    | typeInitializer =>
      intro b hb
      rcases List.mem_append.mp hb with hb | hb
      · exact .inl (List.mem_append_left _ hb)
      obtain ⟨changed, hchanged, hb⟩ := List.mem_flatMap.mp hb
      obtain ⟨m, hm, rfl⟩ := Option.map_eq_some_iff.mp (Option.mem_toList.mp hchanged)
      obtain ⟨body, hbody, hb⟩ := List.mem_flatMap.mp hb
      rcases hrequested m body (Option.mem_toList.mp hbody) with hold | hnew
      · refine .inl (List.mem_append_right _
          (List.mem_flatMap.mpr ⟨m, Option.mem_toList.mpr hm, ?_⟩))
        exact List.mem_flatMap.mpr ⟨body, Option.mem_toList.mpr hold, hb⟩
      · exact .inr (hnew b hb)

end Gains

namespace Loading

variable {first : Nat} {start l : Loading} {n : Node} {α β : Type} {post : β → Loading → Prop}

/-! ### Steps one by one -/

theorem wp_lifted {outcome : Except Fault α} {next : α → Attempt Loading β}
    (h : ∀ v, outcome = .ok v → (next v).wp post (fun _ => True) l) :
    (Attempt.lift outcome >>= next).wp post (fun _ => True) l := by
  rw [wp_bind, wp_lift]
  exact ⟨h, fun _ _ => trivial⟩

theorem wp_resolved {find : Scope → Except Fault α} {next : α → Attempt Loading β}
    (h : ∀ v, find l.scope = .ok v → (next v).wp post (fun _ => True) l) :
    (resolve find >>= next).wp post (fun _ => True) l := by
  rw [wp_bind]
  exact wp_resolve h

theorem wp_token (kind : TokenKind) {next : Token → Attempt Loading β}
    (h : ∀ token counters, (next token).wp post (fun _ => True) (l.counted counters)) :
    (inSpace (TypeSpace.nextToken kind) >>= next).wp post (fun _ => True) l := by
  rw [wp_bind, inSpace, wp_within, TypeSpace.nextToken, wp_bind, wp_get, wp_bind, wp_set, wp_pure]
  exact h _ _

theorem wp_accessor {found : Option Node} {next : Option MethodId → Attempt Loading β}
    (h : ∀ v : Option MethodId, (∀ m ∈ v, l.scope.Binds t (.accessor m)) →
      (next v).wp post (fun _ => True) l) :
    ((found.mapM fun g => resolve (·.methodOn t g)) >>= next).wp post (fun _ => True) l := by
  cases found with
  | none => exact h none nofun
  | some g =>
    rw [Option.mapM_some, wp_bind, wp_map]
    refine wp_resolve fun m hm => h (some m) ?_
    rintro _ ⟨⟩
    exact binds_of_methodOn hm

/-! ### Links -/

/-- Since a state of loading old types are as they were, and what new ones refer to was found by
its words. -/
structure Linked (first : Nat) (start l : Loading) : Prop where
  later : start.scope.Later l.scope
  old : ∀ t, t.index < first → l.space.program.record t = start.space.program.record t
  own : ∀ t, first ≤ t.index → (l.space.program.record t).OwnInitializer t
  references : ∀ t, first ≤ t.index → ∀ x ∈ (l.space.program.record t).references, l.scope.Binds t x
  signatures : ∀ t, first ≤ t.index → ∀ g ∈ (l.space.program.record t).signatures,
    l.scope.Resolves g
  named : ∀ t, first ≤ t.index → ∀ b ∈ (l.space.program.record t).named, l.scope.Finds b

theorem Linked.counted (h : Linked first start l) (counters : TokenCounters) :
    Linked first start (l.counted counters) :=
  ⟨⟨⟨h.later.names.here, h.later.names.listings⟩, h.later.growth, h.later.initializer⟩, h.old,
    h.own, h.references, h.signatures,
    h.named⟩

theorem Linked.edited (h : Linked first start l) (ht : first ≤ t.index)
    {change : TypeRecord → TypeRecord}
    (hgains : Gains l.scope t (l.space.program.record t) (change (l.space.program.record t))) :
    Linked first start (l.edited t change) := by
  have hrecord : ∀ other, (l.edited t change).space.program.record other =
      if other = t ∧ t.index < l.space.program.types.size then change (l.space.program.record t)
      else l.space.program.record other := fun other => l.space.program.record_modify t other change
  have hlater : l.scope.Later (l.edited t change).scope := by
    refine ⟨⟨rfl, rfl⟩, Universe.extends_modify hgains.keeps, fun other m hm => ?_⟩
    change ((l.edited t change).space.program.record other).initializer = some m
    rw [hrecord]
    split
    · rename_i hother
      rw [hother.1] at hm
      exact hgains.initializer m hm
    · exact hm
  refine ⟨h.later.trans hlater, fun other hother => ?_, fun other hother => ?_,
    fun other hother x hx => ?_,
    fun other hother g hg => ?_, fun other hother b hb => ?_⟩
  · rw [hrecord, if_neg (by rintro ⟨rfl, -⟩; omega)]
    exact h.old other hother
  · rw [hrecord]
    split
    · rename_i heq
      rw [heq.1] at hother ⊢
      exact hgains.own (h.own t hother)
    · exact h.own other hother
  · rw [hrecord] at hx
    split at hx
    · rename_i heq
      rw [heq.1] at hother ⊢
      rcases hgains.references x hx with hold | hnew
      · exact hlater.binds (h.references t hother x hold)
      · exact hlater.binds hnew
    · exact hlater.binds (h.references other hother x hx)
  · rw [hrecord] at hg
    split at hg
    · rename_i heq
      rw [heq.1] at hother
      rcases hgains.signatures g hg with hold | hnew
      · exact hlater.resolves (h.signatures t hother g hold)
      · exact hlater.resolves hnew
    · exact hlater.resolves (h.signatures other hother g hg)
  · rw [hrecord] at hb
    split at hb
    · rename_i heq
      rw [heq.1] at hother
      rcases hgains.named b hb with hold | hnew
      · exact hlater.finds (h.named t hother b hold)
      · exact hlater.finds hnew
    · exact hlater.finds (h.named other hother b hb)

theorem edited_edited (l : Loading) (t : TypeId) (change more : TypeRecord → TypeRecord) :
    (l.edited t change).edited t more = l.edited t fun r => more (change r) := by
  rw [edited, edited, edited, Universe.modify_modify]

def Links (first : Nat) (start : Loading) (act : Attempt Loading Unit) : Prop :=
  ∀ l, Linked first start l → act.wp (fun _ => Linked first start) (fun _ => True) l

theorem links_forM (step : α → Attempt Loading Unit) (items : List α)
    (h : ∀ item ∈ items, Links first start (step item)) :
    Links first start (items.forM step) := by
  intro l hl
  refine wp_forM (I := fun _ => Linked first start) items (fun before item rest heq mid hmid => ?_)
    hl
  have hitem : item ∈ items := by
    rw [heq]
    exact List.mem_append_right _ List.mem_cons_self
  exact h item hitem mid hmid

theorem links_bind {act : Attempt Loading Unit} {next : Unit → Attempt Loading Unit}
    (h : Links first start act) (hnext : Links first start (next ())) :
    Links first start (act >>= next) := by
  intro l hl
  exact wp_step (h l hl) (fun _ mid hmid => hnext mid hmid) fun _ h => h

/-- The classes among the parameters of a method that was read have been found. -/
theorem wp_methodRecord (kind : MethodKind) (hl : Linked first start l) :
    (methodRecord kind n).wp
      (fun r after => Linked first start after ∧ r.references = [] ∧ r.body = none
        ∧ after.scope.Resolves r.signature)
      (fun _ => True) l := by
  rw [methodRecord]
  refine wp_token _ fun token counters => wp_lifted fun name _ => wp_lifted fun flags _ =>
    wp_resolved fun signature hsignature => ?_
  exact ⟨hl.counted counters, rfl, rfl, resolves_of_methodSignature hsignature⟩

section Define

variable (ht : first ≤ t.index)
include ht

theorem links_defineBase (n : Node) : Links first start (defineBase t n) := by
  intro l hl
  unfold defineBase
  split
  · exact hl
  · rw [wp_bind]
    refine wp_classNamed fun b hb => wp_apply fun u hu => ?_
    unfold Universe.setBase at hu
    split at hu
    · cases hu
    · cases hu
      exact hl.edited ht (gains_setBase _ (finds_of_signature hb))

theorem links_defineInterface (n : Node) : Links first start (defineInterface t n) := by
  intro l hl
  rw [defineInterface]
  refine wp_lifted fun text _ => ?_
  rw [wp_bind]
  exact wp_classNamed fun i _ => hl.edited ht (gains_pushInterface _ i)

theorem links_defineField (n : Node) : Links first start (defineField t n) := by
  intro l hl
  rw [defineField]
  refine wp_token _ fun token counters => wp_lifted fun name _ => wp_lifted fun text _ =>
      wp_resolved fun signature _ =>
    wp_lifted fun flags _ => ?_
  exact (hl.counted counters).edited ht (gains_pushField _ rfl)

theorem links_defineConstructor (n : Node) : Links first start (defineConstructor t n) := by
  intro l hl
  refine wp_step (wp_methodRecord _ hl) (fun r after hr => ?_) fun _ h => h
  obtain ⟨hafter, hbare, -, hresolves⟩ := hr
  exact hafter.edited ht (gains_pushConstructor _ hbare hresolves)

theorem links_defineMethod (n : Node) : Links first start (defineMethod t n) := by
  intro l hl
  refine wp_step (wp_methodRecord _ hl) (fun r after hr => ?_) fun _ h => h
  obtain ⟨hafter, hbare, -, hresolves⟩ := hr
  exact hafter.edited ht (gains_pushMethod _ hbare hresolves)

theorem links_defineInitializer (n : Node) : Links first start (defineInitializer t n) := by
  intro l hl
  unfold defineInitializer
  split
  · exact hl
  · refine wp_step (wp_methodRecord _ hl) (fun r mid hr => ?_) fun _ h => h
    obtain ⟨hmid, hbare, hbody, -⟩ := hr
    rw [wp_bind]
    refine wp_apply fun u hu => ?_
    unfold Universe.setInitializer at hu
    split at hu
    · cases hu
    · rename_i hnone
      cases hu
      have hgains := gains_setInitializer (s :=
        mid.scope) _ (by simpa using hnone) (hmid.own t ht) hbare hbody
      have hafter : Linked first start
          (mid.edited t fun r' =>
            { r' with initializer := some ⟨t, .typeInitializer⟩, ownInitializer := some r }) :=
        hmid.edited ht hgains
      show Linked first start ((mid.edited t _).edited t _)
      rw [edited_edited]
      exact hafter

theorem links_defineProperty (n : Node) : Links first start (defineProperty t n) := by
  intro l hl
  rw [defineProperty]
  refine wp_accessor fun getter hgetter => wp_accessor fun setter hsetter =>
      wp_token _ fun token counters =>
    wp_lifted fun name _ => wp_lifted fun text _ => wp_resolved fun signature _ => ?_
  refine (hl.counted counters).edited ht (gains_pushProperty _ fun x hx => ?_)
  obtain ⟨m, hm, rfl⟩ := List.mem_map.mp hx
  rcases List.mem_append.mp hm with hm | hm
  · exact hgetter m (Option.mem_toList.mp hm)
  · exact hsetter m (Option.mem_toList.mp hm)

theorem links_defineEvent (n : Node) : Links first start (defineEvent t n) := by
  intro l hl
  rw [defineEvent]
  refine wp_accessor fun raise hraise => wp_token _ fun token counters => wp_lifted fun name _ =>
      wp_lifted fun text _ =>
    wp_resolved fun type _ => wp_resolved fun add hadd => wp_resolved fun remove hremove => ?_
  refine (hl.counted counters).edited ht (gains_pushEvent _ fun x hx => ?_)
  obtain ⟨m, hm, rfl⟩ := List.mem_map.mp hx
  rcases List.mem_append.mp hm with hm | hm
  · obtain ⟨a, -, hadd⟩ := bind_eq_ok.mp hadd
    obtain ⟨r, -, hremove⟩ := bind_eq_ok.mp hremove
    rcases List.mem_cons.mp hm with rfl | hm
    · exact binds_of_methodOn hadd
    · rw [List.mem_singleton.mp hm]
      exact binds_of_methodOn hremove
  · exact hraise m (Option.mem_toList.mp hm)

theorem links_define (n : Node) : Links first start (define n t) :=
  links_bind (links_defineBase ht n) <|
    links_bind (links_forM _ _ fun i _ => links_defineInterface ht i) <|
    links_bind (links_forM _ _ fun f _ => links_defineField ht f) <|
    links_bind (links_forM _ _ fun c _ => links_defineConstructor ht c) <|
    links_bind (links_defineInitializer ht n) <|
    links_bind (links_forM _ _ fun m _ => links_defineMethod ht m) <|
    links_bind (links_forM _ _ fun p _ => links_defineProperty ht p) <|
    links_forM _ _ fun e _ => links_defineEvent ht e

end Define

section Attach

variable (ht : first ≤ t.index)
include ht

theorem links_attachAttribute (n : Node) : Links first start (attachAttribute t n) := by
  intro l hl
  exact wp_resolved fun a ha => hl.edited ht (gains_pushAttribute _ (binds_of_decodeAttribute ha))

theorem links_attachField (index : Nat) (n : Node) :
    Links first start (attachField ⟨t, index⟩ n) := by
  refine links_forM _ _ fun c _ l hl => wp_resolved fun a ha => ?_
  exact hl.edited ht (gains_modifyField _ index (fun _ => rfl) fun f =>
    mem_pushAttribute (binds_of_decodeAttribute ha))

theorem links_attachMethodAttribute (slot : Slot) (n : Node) :
    Links first start (attachMethodAttribute ⟨t, slot⟩ n) := by
  intro l hl
  refine wp_resolved fun a ha =>
    hl.edited ht (gains_modifyMethod _ slot (fun _ => rfl) (fun m x hx => ?_) fun _ _ h => .inl h)
  rcases List.mem_append.mp hx with hx | hx
  · exact (mem_pushAttribute (binds_of_decodeAttribute ha) x hx).imp_left fun h =>
      List.mem_append_left _ h
  · exact .inl (List.mem_append_right _ hx)

theorem links_attachBody (slot : Slot) (n : Node) : Links first start (attachBody ⟨t, slot⟩ n) := by
  intro l hl
  unfold attachBody
  split
  · exact hl
  · refine wp_resolved fun body hbody => wp_apply fun u hu => ?_
    unfold Universe.setBody at hu
    split at hu
    · cases hu
    split at hu
    · cases hu
    cases hu
    have hread := readIn_of_decodeSingle _ hbody
    refine hl.edited ht (gains_modifyMethod _ slot (fun _ => rfl) (fun m x hx => ?_) ?_)
    · rcases List.mem_append.mp hx with hx | hx
      · exact .inl (List.mem_append_left _ hx)
      · rw [Option.toList_some, List.flatMap_singleton] at hx
        exact .inr (binds_of_readIn hread x hx)
    · rintro m _ ⟨⟩
      exact .inr (finds_of_readIn hread)

theorem links_attachMethod (slot : Slot) (n : Node) :
    Links first start (attachMethod ⟨t, slot⟩ n) :=
  links_bind (links_forM _ _ fun a _ => links_attachMethodAttribute ht slot a)
    (links_attachBody ht slot n)

theorem links_attachOverride (n : Node) : Links first start (attachOverride t n) := by
  intro l hl
  refine wp_resolved fun declaration hdeclaration => wp_resolved fun body hbody => ?_
  obtain ⟨d, -, hdeclaration⟩ := bind_eq_ok.mp hdeclaration
  obtain ⟨i, -, hbody⟩ := bind_eq_ok.mp hbody
  refine hl.edited ht (gains_pushOverride _ fun x hx => ?_)
  rcases List.mem_cons.mp hx with rfl | hx
  · exact binds_of_method hdeclaration
  · rw [List.mem_singleton.mp hx]
    exact binds_of_methodOn hbody

theorem links_attach (n : Node) : Links first start (attach n t) := by
  refine links_bind (links_forM _ _ fun a _ => links_attachAttribute ht a) fun l hl => ?_
  rw [wp_bind, wp_get]
  have hfields : ∀ f ∈ l.space.program.fieldsOf t, ∃ index, f = ⟨t, index⟩ := fun f hf => by
    obtain ⟨index, -, rfl⟩ := List.mem_map.mp hf
    exact ⟨index, rfl⟩
  have hinitializer : ∀ m ∈ (l.space.program.record t).initializer.toList, m.owner = t :=
      fun m hm => by
    rw [hl.own t ht] at hm
    obtain ⟨own, -, rfl⟩ := Option.map_eq_some_iff.mp (Option.mem_toList.mp hm)
    rfl
  have hmethods : ∀ (elements : List Node) (places : List MethodId), (∀ m ∈ places, m.owner = t) →
      Links first start ((elements.zip places).forM fun p => attachMethod p.2 p.1) := by
    intro elements places hplaces
    refine links_forM _ _ fun p hp => ?_
    obtain ⟨n, owner, slot⟩ := p
    obtain rfl : owner = t := hplaces _ (List.of_mem_zip hp).2
    exact links_attachMethod ht slot n
  refine links_bind (links_forM _ _ fun p hp => ?_) ?_ l hl
  · obtain ⟨index, hindex⟩ := hfields p.2 (List.of_mem_zip hp).2
    rw [hindex]
    exact links_attachField ht index p.1
  refine links_bind (hmethods _ _ fun m => l.space.program.owner_of_mem_constructorsOf) ?_
  refine links_bind (hmethods _ _ hinitializer) ?_
  refine links_bind (hmethods _ _ fun m => l.space.program.owner_of_mem_methodsOf) ?_
  exact links_forM _ _ fun o _ => links_attachOverride ht o

end Attach

end Loading

end Artifact

end TypeLoom
