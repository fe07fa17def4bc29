import TypeLoom.Proofs.Sections

/-!
# Elements of types

How the element of a type is put together: its attributes, and its sections in order. Everything
inside it was written for some member.
-/

namespace TypeLoom

/-- The constructors of a type are called `.ctor`; its type initializer is called `.cctor` and
takes nothing. -/
structure Universe.UsualNames (u : Universe) (t : TypeId) : Prop where
  constructors : ∀ c ∈ (u.record t).constructors.toList, c.name = ".ctor"
  initializer : ∀ m, (u.record t).initializer = some m → (u.method m).name = ".cctor"
    ∧ (u.method m).signature.parameters = []

namespace Artifact

open Markup

variable {u : Universe} {t : TypeId} {n : Node}

/-! ### Heads -/

theorem encodeTypeHead_eq_ok :
    encodeTypeHead u t = .ok n ↔ ∃ base, encodeBase u (u.record t).base = .ok base
    ∧ n = typeNode (u.record t).space (u.record t).name (u.record t).flags
    ((u.declaring? t).map u.fullName) base := by
  constructor
  · intro hn
    obtain ⟨base, hbase, hn⟩ := bind_eq_ok.mp hn
    exact ⟨base, hbase, (Except.ok.inj hn).symm⟩
  · rintro ⟨base, hbase, rfl⟩
    exact bind_eq_ok.mpr ⟨base, hbase, rfl⟩

theorem get?_typeNode (space name : String) (flags : UInt32) (declaring base : Option String)
    (children : List Node) :
    let n := (typeNode space name flags declaring base).append children
    n.get? "namespace" = some space ∧ n.get? "name" = some name
      ∧ n.get? "flags" = some (flagsText flags)
      ∧ n.get? "declaring" = declaring ∧ n.get? "base" = base := by
  cases declaring <;> cases base <;>
    simp [typeNode, Node.append, Node.attr?, Node.attr, Node.named, Node.get?, Node.name,
      Node.attributes, Node.children]

theorem children_typeNode (space name : String) (flags : UInt32) (declaring base : Option String)
    (children : List Node) :
    ((typeNode space name flags declaring base).append children).children = children := by
  cases declaring <;> cases base <;> rfl

/-! ### Sections -/

def Section.lists (interfaces attributes fields constructors initializer methods properties events
      overrides : List Node) :
    Section → List Node
  | .interfaces => interfaces
  | .attributes => attributes
  | .fields => fields
  | .constructors => constructors
  | .initializer => initializer
  | .methods => methods
  | .properties => properties
  | .events => events
  | .overrides => overrides

def encodeInitializer (u : Universe) (initializer : Option MethodId) : Except Fault (List Node) :=
  initializer.toList.mapM fun m => encodeMethod u "initializer" (u.method m)

theorem encodeType_eq_ok : encodeType u t = .ok n ↔ ∃ head content, encodeTypeHead u t = .ok head
    ∧ encodeInitializer u (u.record t).initializer = .ok (content Section.initializer)
    ∧ (∀ sec : Section, sec ≠ .initializer → sec.encode u (u.record t) = .ok (content sec))
    ∧ n = head.append (Section.all.flatMap content) := by
  constructor
  · intro hn
    obtain ⟨head, hhead, hn⟩ := bind_eq_ok.mp hn
    obtain ⟨interfaces, hinterfaces, hn⟩ := bind_eq_ok.mp hn
    obtain ⟨attributes, hattributes, hn⟩ := bind_eq_ok.mp hn
    obtain ⟨fields, hfields, hn⟩ := bind_eq_ok.mp hn
    obtain ⟨constructors, hconstructors, hn⟩ := bind_eq_ok.mp hn
    obtain ⟨initializer, hinitializer, hn⟩ := bind_eq_ok.mp hn
    obtain ⟨methods, hmethods, hn⟩ := bind_eq_ok.mp hn
    obtain ⟨properties, hproperties, hn⟩ := bind_eq_ok.mp hn
    obtain ⟨events, hevents, hn⟩ := bind_eq_ok.mp hn
    obtain ⟨overrides, hoverrides, hn⟩ := bind_eq_ok.mp hn
    refine ⟨head, Section.lists interfaces attributes fields constructors initializer methods
      properties events overrides,
      hhead, hinitializer, fun sec hsec => ?_, (Except.ok.inj hn).symm.trans ?_⟩
    · cases sec <;> first | assumption | exact absurd rfl hsec
    · simp [Section.all, Section.lists]
  · rintro ⟨head, content, hhead, hinitializer, hcontent, rfl⟩
    refine bind_eq_ok.mpr ⟨head, hhead, bind_eq_ok.mpr ⟨_, hcontent .interfaces (by decide), ?_⟩⟩
    refine bind_eq_ok.mpr ⟨_, hcontent .attributes (by decide),
      bind_eq_ok.mpr ⟨_, hcontent .fields (by decide), ?_⟩⟩
    refine bind_eq_ok.mpr ⟨_, hcontent .constructors (by decide),
      bind_eq_ok.mpr ⟨_, hinitializer, ?_⟩⟩
    refine bind_eq_ok.mpr ⟨_, hcontent .methods (by decide),
      bind_eq_ok.mpr ⟨_, hcontent .properties (by decide), ?_⟩⟩
    refine bind_eq_ok.mpr ⟨_, hcontent .events (by decide),
      bind_eq_ok.mpr ⟨_, hcontent .overrides (by decide), ?_⟩⟩
    simp [Section.all]
    rfl

/-- The element was written for a member of this section; constructors and type initializers have
their usual names. -/
def Wrote (u : Universe) (n : Node) : Section → Prop
  | .interfaces => ∃ i, encodeInterface u i = .ok n
  | .attributes => ∃ a, encodeAttribute u a = .ok n
  | .fields => ∃ f, encodeField u f = .ok n
  | .constructors => ∃ m : MethodRecord, m.name = ".ctor" ∧ encodeMethod u "constructor" m = .ok n
  | .initializer =>
    ∃ m : MethodRecord, m.name = ".cctor" ∧ m.signature.parameters = []
      ∧ encodeMethod u "initializer" m = .ok n
  | .methods => ∃ m, encodeMethod u "method" m = .ok n
  | .properties => ∃ p, encodeProperty u p = .ok n
  | .events => ∃ e, encodeEvent u e = .ok n
  | .overrides => ∃ o, encodeOverride u o = .ok n

theorem name_of_encodeMethod {element : String} {m : MethodRecord}
    (hn : encodeMethod u element m = .ok n) : n.name = element := by
  obtain ⟨_, _, _, _, -, -, -, -, rfl⟩ := encodeMethod_eq_ok.mp hn
  rfl

theorem Wrote.name {sec : Section} (h : Wrote u n sec) : n.name = sec.element := by
  cases sec with
  | interfaces =>
    obtain ⟨i, hn⟩ := h
    obtain ⟨_, -, hn⟩ := bind_eq_ok.mp hn
    cases hn
    rfl
  | attributes =>
    obtain ⟨a, hn⟩ := h
    exact name_of_encodeAttribute hn
  | fields =>
    obtain ⟨f, hn⟩ := h
    obtain ⟨_, -, hn⟩ := bind_eq_ok.mp hn
    obtain ⟨_, -, hn⟩ := bind_eq_ok.mp hn
    cases hn
    rfl
  | constructors =>
    obtain ⟨m, -, hn⟩ := h
    exact name_of_encodeMethod hn
  | initializer =>
    obtain ⟨m, -, -, hn⟩ := h
    exact name_of_encodeMethod hn
  | methods =>
    obtain ⟨m, hn⟩ := h
    exact name_of_encodeMethod hn
  | properties =>
    obtain ⟨p, hn⟩ := h
    obtain ⟨_, -, hn⟩ := bind_eq_ok.mp hn
    obtain ⟨_, -, hn⟩ := bind_eq_ok.mp hn
    obtain ⟨_, -, hn⟩ := bind_eq_ok.mp hn
    cases hn
    rfl
  | events =>
    obtain ⟨e, hn⟩ := h
    obtain ⟨_, -, hn⟩ := bind_eq_ok.mp hn
    obtain ⟨_, -, hn⟩ := bind_eq_ok.mp hn
    obtain ⟨_, -, hn⟩ := bind_eq_ok.mp hn
    obtain ⟨_, -, hn⟩ := bind_eq_ok.mp hn
    cases hn
    rfl
  | overrides =>
    obtain ⟨o, hn⟩ := h
    obtain ⟨_, -, hn⟩ := bind_eq_ok.mp hn
    obtain ⟨_, -, hn⟩ := bind_eq_ok.mp hn
    cases hn
    rfl

theorem wrote_of_encode {sec : Section} {content : List Node} (hnames : u.UsualNames t)
    (hsec : sec ≠ .initializer) (h : sec.encode u (u.record t) = .ok content) (hn : n ∈ content) :
    Wrote u n sec := by
  cases sec with
  | initializer => exact absurd rfl hsec
  | constructors =>
    obtain ⟨m, hm, hencode⟩ := exists_of_mem_mapM h hn
    exact ⟨m, hnames.constructors m hm, hencode⟩
  | interfaces | attributes | fields | methods | properties | events | overrides =>
    obtain ⟨item, -, hencode⟩ := exists_of_mem_mapM h hn
    exact ⟨item, hencode⟩

/-- The element of a type: attributes and sections, everything written for some member. -/
structure Written (u : Universe) (n : Node) : Prop where
  head : ∃ space name flags declaring base,
    n = (typeNode space name flags declaring base).append (Section.all.flatMap fun sec =>
      n.childrenNamed sec.element)
  wrote : ∀ sec : Section, ∀ m ∈ n.childrenNamed sec.element, Wrote u m sec
  initializer : (n.childrenNamed "initializer").length ≤ 1

theorem filter_sections {content : Section → List Node}
    (h : ∀ sec, ∀ c ∈ content sec, c.name = sec.element) (sec : Section) :
    (Section.all.flatMap content).filter (fun c => c.name == sec.element) = content sec := by
  have hother : ∀ other, (content other).filter (fun c => c.name == sec.element) =
      if other.element = sec.element then content other else [] :=
      fun other => filter_name (h other) sec.element
  rw [List.filter_flatMap]
  simp only [hother]
  cases sec <;> simp [Section.all, Section.element]

/-- What stands in the element of a type: its head, and each section as it was written. -/
theorem content_of_encodeType (hnames : u.UsualNames t) (hn : encodeType u t = .ok n) :
    ∃ head content, encodeTypeHead u t = .ok head ∧ encodeInitializer u (u.record t).initializer
    = .ok (content Section.initializer)
      ∧ (∀ sec : Section, sec ≠ .initializer → sec.encode u (u.record t) = .ok (content sec))
      ∧ n = head.append (Section.all.flatMap content) ∧ (∀ sec, ∀ m ∈ content sec, Wrote u m sec)
      ∧ ∀ sec : Section, n.childrenNamed sec.element = content sec := by
  obtain ⟨head, content, hhead, hinitializer, hcontent, hn⟩ := encodeType_eq_ok.mp hn
  have hwrote : ∀ sec, ∀ m ∈ content sec, Wrote u m sec := by
    intro sec m hm
    by_cases hsec : sec = .initializer
    · subst hsec
      obtain ⟨i, hi, hencode⟩ := exists_of_mem_mapM hinitializer hm
      obtain ⟨hname, hparameters⟩ := hnames.initializer i (Option.mem_toList.mp hi)
      exact ⟨_, hname, hparameters, hencode⟩
    · exact wrote_of_encode hnames hsec (hcontent sec hsec) hm
  refine ⟨head, content, hhead, hinitializer, hcontent, hn, hwrote, fun sec => ?_⟩
  obtain ⟨base, -, rfl⟩ := encodeTypeHead_eq_ok.mp hhead
  rw [hn, Node.childrenNamed, children_typeNode]
  exact filter_sections (fun sec c hc => (hwrote sec c hc).name) sec

theorem written_of_encodeType (hnames : u.UsualNames t) (hn : encodeType u t = .ok n) :
    Written u n := by
  obtain ⟨head, content, hhead, hinitializer, -, hn, hwrote, hfilter⟩ :=
    content_of_encodeType hnames hn
  obtain ⟨base, -, rfl⟩ := encodeTypeHead_eq_ok.mp hhead
  have hsections : (Section.all.flatMap fun sec => n.childrenNamed sec.element)
      = Section.all.flatMap content := by
    simp only [hfilter]
  refine ⟨⟨_, _, _, _, base, by rw [hsections]; exact hn⟩, fun sec m hm => ?_, ?_⟩
  · rw [hfilter] at hm
    exact hwrote sec m hm
  · rw [show "initializer" = Section.initializer.element from rfl, hfilter]
    cases hi : (u.record t).initializer with
    | none =>
      rw [hi] at hinitializer
      rw [← Except.ok.inj hinitializer]
      exact Nat.zero_le _
    | some m =>
      rw [hi] at hinitializer
      obtain ⟨first, rest, -, hrest, heq⟩ := mapM_cons_eq_ok.mp hinitializer
      cases hrest
      rw [heq]
      exact Nat.le_refl _

end Artifact

end TypeLoom
