import TypeLoom.Proofs.Doubles
import TypeLoom.Proofs.Wordings

/-!
# Bodies come back whole

An expression that was written is read as this expression, up to doubles that are no number: each
type that it refers to is found by its full name, and each member by its name and parameters. The
names of constructors and of the type initializer are reserved, so that a constructor is found among
constructors with its parameters, whatever they are called.
-/

namespace TypeLoom

/-! ### What comes back -/

/-- The value, with one double for all that is no number. -/
def Value.canonical : Value → Value
  | .r8 x => .r8 x.canonical
  | v => v

namespace Expr

mutual

/-- The expression with its constants so. -/
def canonical : Expr → Expr
  | constant value => constant value.canonical
  | this => this
  | argument index => argument index
  | block items => block (canonicalAll items)
  | call receiver method arguments dispatch =>
    call (canonicalOpt receiver) method (canonicalAll arguments) dispatch
  | new constructor arguments => new constructor (canonicalAll arguments)
  | load receiver field => load (canonicalOpt receiver) field
  | store receiver field value => store (canonicalOpt receiver) field (canonical value)
  | binary op left right => binary op (canonical left) (canonical right)
  | choose condition positive negative =>
    choose (canonical condition) (canonical positive) (canonical negative)

def canonicalAll : List Expr → List Expr
  | [] => []
  | item :: items => canonical item :: canonicalAll items

def canonicalOpt : Option Expr → Option Expr
  | none => none
  | some item => some (canonical item)

end

end Expr

/-! ### Members that are found again -/

namespace Universe

variable (u : Universe) (m : MethodId)

def sameTypes (other : MethodId) : Bool :=
  (u.method other).signature.types == (u.method m).signature.types

def sameWords (other : MethodId) : Bool :=
  (u.method other).name == (u.method m).name && u.sameTypes m other

/-- Of the members of its kind, on its type, the first one with its name and parameters; no
regular method is called like a constructor or a type initializer. -/
def IsFirst : Prop :=
  match m.slot with
  | .method _ =>
    (u.method m).name ≠ ".ctor" ∧ (u.method m).name ≠ ".cctor"
      ∧ (u.methodsOf m.owner).find? (u.sameWords m) = some m
  | .constructor _ => (u.constructorsOf m.owner).find? (u.sameWords m) = some m
  | .typeInitializer => (u.record m.owner).initializer = some m

/-- As `IsFirst`, but a constructor is called `.ctor`, and none before it has its parameters
under any name; and a type initializer is called `.cctor`. -/
def IsClear : Prop :=
  match m.slot with
  | .method _ =>
    (u.method m).name ≠ ".ctor" ∧ (u.method m).name ≠ ".cctor"
      ∧ (u.methodsOf m.owner).find? (u.sameWords m) = some m
  | .constructor _ =>
    (u.method m).name = ".ctor" ∧ (u.constructorsOf m.owner).find? (u.sameTypes m) = some m
  | .typeInitializer => (u.method m).name = ".cctor" ∧ (u.record m.owner).initializer = some m

variable {u m}

theorem IsClear.sought? (h : u.IsClear m) : u.sought? m = some m := by
  rw [Universe.sought?, Artifact.Scope.methodOn?]
  dsimp only
  unfold IsClear at h
  split at h
  · obtain ⟨hctor, hcctor, hfirst⟩ := h
    rw [if_neg hctor, if_neg hcctor]
    exact hfirst
  · obtain ⟨hname, hfirst⟩ := h
    rw [if_pos hname]
    exact hfirst
  · obtain ⟨hname, hown⟩ := h
    rw [hname, if_neg (by decide), if_pos rfl]
    exact hown

end Universe

namespace Artifact

open Markup

namespace Scope

variable (s : Scope)

def LeadsTo (t : TypeId) : Prop := s.type (s.program.fullName t) = .ok t

/-- The signature is one that its text leads to, also between semicolons. -/
def Tells : Signature → Prop
  | .ofClass t => s.program.isPresent t = true ∧ s.LeadsTo t ∧ ';' ∉ (s.program.fullName t).toList
  | .draft _ => False
  | _ => True

/-- The method is live, its type and its parameters are found by what is written of them, and it
is told from others. -/
structure Reaches (told : MethodId → Prop) (m : MethodId) : Prop where
  present : s.program.isPresent m.owner = true
  owner : s.LeadsTo m.owner
  parameters : ∀ g ∈ (s.program.method m).signature.types, s.Tells g
  told : told m

/-- The field is live, its type is found, and it is the first one of its name. -/
structure ReachesField (f : FieldId) : Prop where
  present : s.program.isPresent f.owner = true
  owner : s.LeadsTo f.owner
  first : s.program.ownField? f.owner (s.program.field f).name = some f

/-- The value is no object, and its type, if it names one, is found. -/
def CoversValue : Value → Prop
  | .object _ => False
  | .type t => s.LeadsTo t
  | .identifier id => s.LeadsTo id.requested
  | _ => True

/-- What the expression itself refers to is found; nothing of it belongs to a descriptor. -/
def Covers (told : MethodId → Prop) : Expr → Prop
  | .constant value => s.CoversValue value
  | .call _ (.member m) _ _ | .new (.member m) _ => s.Reaches told m
  | .load _ (.member f) | .store _ (.member f) _ => s.ReachesField f
  | .call _ (.draft _) _ _ | .new (.draft _) _ | .load _ (.draft _) | .store _ (.draft _) _ => False
  | _ => True

end Scope

variable {s : Scope} {t : TypeId} {m : MethodId} {f : FieldId} {receiver : Option Expr}
  {items : List Expr}
  {value left right condition positive negative : Expr}

theorem Scope.LeadsTo.type (h : s.LeadsTo t) : s.type (s.program.fullName t) = .ok t := h

/-! ### Values -/

theorem decodeValue_encodeValue {v : Value} (h : s.CoversValue v) :
    ∃ n, encodeValue s.program v = .ok n ∧ decodeValue s n = .ok v.canonical := by
  cases v with
  | void => exact ⟨_, rfl, rfl⟩
  | null => exact ⟨_, rfl, rfl⟩
  | boolean value =>
    refine ⟨_, rfl, ?_⟩
    show (do return Value.boolean (← readAttribute _ "value" Decimal.boolean?)) = _
    rw [readAttribute_valueNode (Decimal.boolean?_boolText value)]
    rfl
  | i4 value =>
    refine ⟨_, rfl, ?_⟩
    show (do return Value.i4 (← readAttribute _ "value" readInt32)) = _
    rw [readAttribute_valueNode (readInt32_toString value)]
    rfl
  | i8 value =>
    refine ⟨_, rfl, ?_⟩
    show (do return Value.i8 (← readAttribute _ "value" readInt64)) = _
    rw [readAttribute_valueNode (readInt64_toString value)]
    rfl
  | r8 value =>
    refine ⟨_, rfl, ?_⟩
    show (do return Value.r8 (← readAttribute _ "value" Decimal.double?)) = _
    rw [readAttribute_valueNode (Decimal.double?_doubleText value)]
    rfl
  | string value => exact ⟨_, rfl, rfl⟩
  | object reference => exact h.elim
  | type t =>
    refine ⟨_, rfl, ?_⟩
    show (do return Value.type (← s.type (s.program.fullName t))) = _
    rw [Scope.LeadsTo.type h]
    rfl
  | identifier id =>
    refine ⟨_, rfl, ?_⟩
    have hnames : ∀ c ∈ id.parts.map encodePart?, c.name = "part" := by
      intro c hc
      obtain ⟨p, -, rfl⟩ := List.mem_map.mp hc
      exact name_of_encodePart? p
    show (do
      let requested ← s.type (s.program.fullName id.requested)
      let parts ← ((id.parts.map encodePart?).filter fun c : Node =>
        c.name == "part").mapM decodePart
      return Value.identifier ⟨requested, parts⟩) = _
    rw [Scope.LeadsTo.type h, filter_name hnames, if_pos rfl, ok_bind, mapM_decodePart]
    rfl

/-! ### References -/

theorem signature_class (h : s.LeadsTo t) :
    s.signature ("class:" ++ s.program.fullName t) = .ok (.ofClass t) := by
  have hwords : ∀ plain ∈ [Signature.void, .boolean, .i4, .i8, .r8, .string, .object],
    plain.keyword ∈ keywords := by decide
  have hkeyword : Signature.ofKeyword? ("class:" ++ s.program.fullName t) = none := by
    rw [Signature.ofKeyword?, List.find?_eq_none]
    exact fun plain hplain heq => class_not_keyword _ (beq_iff_eq.mp heq ▸ hwords plain hplain)
  have hprefix : "class:".toList.isPrefixOf ("class:" ++ s.program.fullName t).toList = true := by
    rw [String.toList_append, List.isPrefixOf_iff_prefix]
    exact List.prefix_append _ _
  have hdrop : String.ofList (("class:" ++ s.program.fullName t).toList.drop 6)
      = s.program.fullName t := by
    rw [String.toList_append]
    exact String.ofList_toList
  rw [Scope.signature, hkeyword]
  show (if _ then _ else _) = _
  rw [if_pos hprefix, hdrop, h.type]
  rfl

theorem signature_encodeSignature {g : Signature} (h : s.Tells g) :
    ∃ text, encodeSignature s.program g = .ok text ∧ s.signature text = .ok g ∧ text ≠ ""
    ∧ ';' ∉ text.toList := by
  cases g with
  | ofClass t =>
    obtain ⟨hpresent, hleads, hname⟩ := h
    exact ⟨"class:" ++ s.program.fullName t, if_pos hpresent, signature_class hleads, by
      simp, by simp [hname]⟩
  | draft handle => exact h.elim
  | void | boolean | i4 | i8 | r8 | string | object => exact ⟨_, rfl, rfl, by decide, by decide⟩

theorem mapM_signature {types : List Signature} (h : ∀ g ∈ types, s.Tells g) :
    ∃ texts, types.mapM (encodeSignature s.program) = .ok texts ∧ texts.mapM s.signature = .ok types
    ∧
      ∀ x ∈ texts, x ≠ "" ∧ ';' ∉ x.toList := by
  induction types with
  | nil => exact ⟨[], rfl, rfl, List.forall_mem_nil _⟩
  | cons g types ih =>
    obtain ⟨hg, htypes⟩ := List.forall_mem_cons.mp h
    obtain ⟨text, hencode, hdecode, hclean⟩ := signature_encodeSignature hg
    obtain ⟨texts, htexts, hread, hrest⟩ := ih htypes
    exact ⟨text :: texts, mapM_cons_eq_ok.mpr ⟨text, texts, hencode, htexts, rfl⟩,
      mapM_cons_eq_ok.mpr ⟨g, types, hdecode, hread, rfl⟩,
      List.forall_mem_cons.mpr ⟨hclean, hrest⟩⟩

theorem signatures_encodeParameters {signature : MethodSignature}
    (h : ∀ g ∈ signature.types, s.Tells g) :
    ∃ params, encodeParameters s.program signature = .ok params
    ∧ s.signatures params = .ok signature.types := by
  obtain ⟨texts, htexts, hread, hclean⟩ := mapM_signature h
  refine ⟨";".intercalate texts, by rw [encodeParameters, htexts]; rfl, ?_⟩
  by_cases hempty : texts = []
  · subst hempty
    exact hread
  · have hsplit := splitOn_of_intercalate (fun x hx => (hclean x hx).2) hempty
    -- no signature has an empty text, so the text for one parameter is not taken for that of none
    have hfilled : (";".intercalate texts).isEmpty = false := by
      by_contra hblank
      have hnil : texts = [] :=
        eq_of_intercalate hclean (List.forall_mem_nil _)
        (String.isEmpty_iff.mp (by simpa using hblank))
      exact hempty hnil
    rw [Scope.signatures, hfilled, if_neg Bool.false_ne_true, hsplit, List.map_map]
    simpa [Function.comp_def] using hread

theorem method_encodeMethodReference (h : s.Reaches s.program.IsClear m) (element : String) :
    ∃ declaring name params,
      encodeMethodReference s.program element m
      = .ok (.element element [("declaring", declaring), ("name", name), ("params", params)] [])
        ∧ ∀ n : Node, n.get? "declaring" = some declaring → n.get? "name" = some name →
        n.get? "params" = some params →
          s.method n = .ok m := by
  obtain ⟨params, hparams, hread⟩ := signatures_encodeParameters h.parameters
  refine ⟨s.program.fullName m.owner, (s.program.method m).name, params, ?_,
    fun n hdeclaring hname hn => ?_⟩
  · rw [encodeMethodReference, Universe.methodOwner?, Universe.present?, if_pos h.present]
    show (encodeParameters s.program (s.program.method m).signature >>= _) = _
    rw [hparams]
    rfl
  · have hfound : s.methodOn? m.owner (s.program.method m).name (s.program.method m).signature.types
      = some m := h.told.sought?
    rw [Scope.method, require_of_get? hdeclaring, ok_bind, h.owner.type, ok_bind,
      Scope.methodOn, require_of_get? hname, ok_bind, require_of_get? hn, ok_bind, hread,
      ok_bind, hfound]
    rfl

theorem field_encodeFieldReference (h : s.ReachesField f) (element : String) :
    ∃ declaring name,
      encodeFieldReference s.program element f
      = .ok (.element element [("declaring", declaring), ("name", name)] [])
        ∧ ∀ n : Node, n.get? "declaring" = some declaring → n.get? "name" = some name →
        s.field n = .ok f := by
  refine ⟨s.program.fullName f.owner, (s.program.field f).name, ?_, fun n hdeclaring hname => ?_⟩
  · rw [encodeFieldReference, Universe.fieldOwner?, Universe.present?, if_pos h.present]
    rfl
  · rw [Scope.field, require_of_get? hdeclaring, ok_bind, h.owner.type, ok_bind,
      require_of_get? hname, ok_bind, h.first]
    rfl

/-! ### Expressions -/

def ComesBack (s : Scope) (e : Expr) : Prop := ∃ n, encodeExpr s.program e = .ok n
    ∧ decodeExpr s n = .ok e.canonical

theorem decodeAll_encodeAll (h : ∀ e ∈ items, ComesBack s e) :
    ∃ ns, encodeAll s.program items = .ok ns ∧ decodeAll s ns = .ok (Expr.canonicalAll items) := by
  induction items with
  | nil => exact ⟨[], rfl, rfl⟩
  | cons item items ih =>
    obtain ⟨⟨n, hn, he⟩, hitems⟩ := List.forall_mem_cons.mp h
    obtain ⟨ns, hns, hes⟩ := ih hitems
    refine ⟨n :: ns, ?_, ?_⟩
    · rw [encodeAll, hn, ok_bind, hns]
      rfl
    · rw [decodeAll, he, ok_bind, hes]
      rfl

theorem decodeReceiver_encodeReceiver (h : ∀ e ∈ receiver, ComesBack s e) :
    ∃ ns, encodeReceiver s.program receiver = .ok ns ∧
      ∀ rest, decodeReceiver s rest = .ok none → decodeReceiver s (ns ++ rest)
      = .ok (Expr.canonicalOpt receiver) := by
  cases receiver with
  | none => exact ⟨[], rfl, fun rest hrest => hrest⟩
  | some e =>
    obtain ⟨n, hn, he⟩ := h e rfl
    refine ⟨[.element "instance" [] [n]], by rw [encodeReceiver, hn]; rfl, fun rest _ => ?_⟩
    show (do return some (← decodeExpr s n)) = _
    rw [he]
    rfl

namespace ComesBack

theorem constant {v : Value} (h : s.CoversValue v) : ComesBack s (.constant v) := by
  obtain ⟨n, hn, hv⟩ := decodeValue_encodeValue h
  refine ⟨.element "constant" [] [n], by rw [encodeExpr, hn]; rfl, ?_⟩
  show (do return Expr.constant (← decodeValue s (← Node.requireChild (.element "constant" [] [n]) "value"))) = _
  rw [requireChild_value hn, ok_bind, hv]
  rfl

theorem argument (index : UInt16) : ComesBack s (.argument index) := by
  refine ⟨_, rfl, ?_⟩
  show (do return Expr.argument (← readAttribute (.element "argument" [("index", toString index.toNat)] []) "index" readIndex)) = _
  rw [readAttribute_of_get? rfl (readIndex_toString index)]
  rfl

theorem block (h : ∀ e ∈ items, ComesBack s e) : ComesBack s (.block items) := by
  obtain ⟨ns, hns, hes⟩ := decodeAll_encodeAll h
  refine ⟨.element "block" [] ns, by rw [encodeExpr, hns]; rfl, ?_⟩
  show (do return Expr.block (← decodeAll s ns)) = _
  rw [hes]
  rfl

theorem call (hm : s.Reaches s.program.IsClear m) (hreceiver : ∀ e ∈ receiver, ComesBack s e)
    (hitems : ∀ e ∈ items, ComesBack s e) (dispatch : Dispatch) :
    ComesBack s (.call receiver (.member m) items dispatch) := by
  obtain ⟨declaring, name, params, hreference, hmethod⟩ := method_encodeMethodReference hm "call"
  obtain ⟨rs, hrs, hr⟩ := decodeReceiver_encodeReceiver hreceiver
  obtain ⟨ns, hns, hes⟩ := decodeAll_encodeAll hitems
  refine ⟨.element "call" [("declaring", declaring), ("name", name), ("params", params),
    ("dispatch", dispatch.text)]
    (rs ++ [.element "arguments" [] ns]), ?_, ?_⟩
  · rw [encodeExpr, requireMethodTarget, if_pos hm.present, ok_bind, hreference, ok_bind,
      hrs, ok_bind, hns]
    rfl
  · rw [decodeExpr_call, hr _ rfl, ok_bind, hmethod _ rfl rfl rfl, ok_bind,
      decodeArguments_append hrs, hes, ok_bind,
      readAttribute_of_get? rfl dispatch.ofText?_text]
    rfl

theorem new (hm : s.Reaches s.program.IsClear m) (hitems : ∀ e ∈ items, ComesBack s e) :
    ComesBack s (.new (.member m) items) := by
  obtain ⟨declaring, name, params, hreference, hmethod⟩ := method_encodeMethodReference hm "new"
  obtain ⟨ns, hns, hes⟩ := decodeAll_encodeAll hitems
  refine ⟨.element "new" [("declaring", declaring), ("name", name), ("params", params)]
    [.element "arguments" [] ns], ?_, ?_⟩
  · rw [encodeExpr, requireMethodTarget, if_pos hm.present, ok_bind, hreference, ok_bind, hns]
    rfl
  · rw [decodeExpr_new, hmethod _ rfl rfl rfl, ok_bind]
    show (decodeAll s ns >>= _) = _
    rw [hes]
    rfl

theorem load (hf : s.ReachesField f) (hreceiver : ∀ e ∈ receiver, ComesBack s e) :
    ComesBack s (.load receiver (.member f)) := by
  obtain ⟨declaring, name, hreference, hfield⟩ := field_encodeFieldReference hf "load"
  obtain ⟨rs, hrs, hr⟩ := decodeReceiver_encodeReceiver hreceiver
  have hreceived : decodeReceiver s rs = .ok (Expr.canonicalOpt receiver) := by
    simpa using hr [] rfl
  refine ⟨.element "load" [("declaring", declaring), ("name", name)] rs, ?_, ?_⟩
  · rw [encodeExpr, requireFieldTarget, if_pos hf.present, ok_bind, hreference, ok_bind, hrs]
    rfl
  · rw [decodeExpr_load, hreceived, ok_bind, hfield _ rfl rfl]
    rfl

theorem store (hf : s.ReachesField f) (hreceiver : ∀ e ∈ receiver, ComesBack s e)
    (hvalue : ComesBack s value) :
    ComesBack s (.store receiver (.member f) value) := by
  obtain ⟨declaring, name, hreference, hfield⟩ := field_encodeFieldReference hf "store"
  obtain ⟨rs, hrs, hr⟩ := decodeReceiver_encodeReceiver hreceiver
  obtain ⟨n, hn, hv⟩ := hvalue
  refine ⟨.element "store" [("declaring", declaring), ("name", name)]
    (rs ++ [.element "value-of" [] [n]]), ?_, ?_⟩
  · rw [encodeExpr, requireFieldTarget, if_pos hf.present, ok_bind, hreference, ok_bind,
      hrs, ok_bind, hn]
    rfl
  · rw [decodeExpr_store, hr _ rfl, ok_bind, hfield _ rfl rfl, ok_bind, decodeStored_append hrs, hv]
    rfl

theorem binary (op : Operator) (hleft : ComesBack s left) (hright : ComesBack s right) :
    ComesBack s (.binary op left right) := by
  obtain ⟨l, hl, hel⟩ := hleft
  obtain ⟨r, hr, her⟩ := hright
  refine ⟨.element "binary" [("op", op.text)] [l, r], by rw [encodeExpr, hl, ok_bind, hr]; rfl, ?_⟩
  rw [decodeExpr_binary, hel, ok_bind, her, ok_bind, readAttribute_of_get? rfl op.ofText?_text]
  rfl

theorem choose (hcondition : ComesBack s condition) (hpositive : ComesBack s positive)
    (hnegative : ComesBack s negative) :
    ComesBack s (.choose condition positive negative) := by
  obtain ⟨c, hc, hec⟩ := hcondition
  obtain ⟨p, hp, hep⟩ := hpositive
  obtain ⟨n, hn, hen⟩ := hnegative
  refine ⟨.element "condition" [] [c, p, n], by
    rw [encodeExpr, hc, ok_bind, hp, ok_bind, hn]; rfl, ?_⟩
  rw [decodeExpr_choose, hec, ok_bind, hep, ok_bind, hen]
  rfl

end ComesBack

theorem comesBack (e : Expr) (h : ∀ n ∈ e.nodes, s.Covers s.program.IsClear n) : ComesBack s e := by
  -- each part is covered, for all inside it is inside the expression
  have hopt : ∀ {item : Option Expr}, (∀ e ∈ item, (∀ n ∈ e.nodes, s.Covers s.program.IsClear n) →
    ComesBack s e) →
      (∀ n ∈ Expr.nodesOpt item, s.Covers s.program.IsClear n) → ∀ e ∈ item, ComesBack s e :=
    fun ih hitem e he => ih e he fun n hn => hitem n (Expr.mem_nodesOpt he hn)
  have hall : ∀ {items : List Expr}, (∀ e ∈ items, (∀ n ∈ e.nodes, s.Covers s.program.IsClear n) →
    ComesBack s e) →
      (∀ n ∈ Expr.nodesAll items, s.Covers s.program.IsClear n) → ∀ e ∈ items, ComesBack s e :=
    fun ih hitems e he => ih e he fun n hn => hitems n (Expr.mem_nodesAll he hn)
  induction e using Expr.induction with
  | constant value => exact .constant (h _ (Expr.mem_nodes_self _))
  | this => exact ⟨_, rfl, rfl⟩
  | argument index => exact .argument index
  | block items ih =>
    rw [Expr.nodes, List.forall_mem_cons] at h
    exact .block (hall ih h.2)
  | call receiver method items dispatch hreceiver hitems =>
    rw [Expr.nodes, List.forall_mem_cons, List.forall_mem_append] at h
    cases method with
    | draft handle => exact False.elim h.1
    | member m => exact .call h.1 (hopt hreceiver h.2.1) (hall hitems h.2.2) dispatch
  | new constructor items hitems =>
    rw [Expr.nodes, List.forall_mem_cons] at h
    cases constructor with
    | draft handle => exact False.elim h.1
    | member m => exact .new h.1 (hall hitems h.2)
  | load receiver field hreceiver =>
    rw [Expr.nodes, List.forall_mem_cons] at h
    cases field with
    | draft handle => exact False.elim h.1
    | member f => exact .load h.1 (hopt hreceiver h.2)
  | store receiver field value hreceiver hvalue =>
    rw [Expr.nodes, List.forall_mem_cons, List.forall_mem_append] at h
    cases field with
    | draft handle => exact False.elim h.1
    | member f => exact .store h.1 (hopt hreceiver h.2.1) (hvalue h.2.2)
  | binary op left right hleft hright =>
    rw [Expr.nodes, List.forall_mem_cons, List.forall_mem_append] at h
    exact .binary op (hleft h.2.1) (hright h.2.2)
  | choose condition positive negative hcondition hpositive hnegative =>
    rw [Expr.nodes, List.forall_mem_cons, List.forall_mem_append, List.forall_mem_append] at h
    exact .choose (hcondition h.2.1.1) (hpositive h.2.1.2) (hnegative h.2.2)

/-- Expressions whose references are clear come back as they were written, up to doubles that are
no number. -/
theorem decodeExpr_encodeExpr (s : Scope) (e : Expr)
    (h : ∀ n ∈ e.nodes, s.Covers s.program.IsClear n) :
    (encodeExpr s.program e >>= decodeExpr s) = .ok e.canonical := by
  obtain ⟨n, hn, he⟩ := comesBack e h
  rw [hn]
  exact he

/-! ### Constructors of other names -/

/-- A module with the type `App.T`. Two constructors take a number, and the first of them is
called so. -/
def twoConstructors (name : String) : Scope :=
  let method (row : UInt32) (kind : MethodKind) (name : String) (types : List Signature) :
    MethodRecord :=
    { token := .ofParts .method row, name, kind, flags := 0, signature := .unnamed .void types }
  let record : TypeRecord :=
    { token := .ofParts .type 1, space := "App", name := "T", flags := 0, origin := .loaded,
      complete := true
      fields := #[{ token := .ofParts .field 1, name := "f", signature := .object, flags := 0 }]
      constructors := #[method 1 .constructor name [.i4], method 2 .constructor ".ctor" [.i4]]
      methods := #[method 3 .method "Keep" [.ofClass ⟨0⟩, .string]] }
  ⟨⟨#[record]⟩, {}, [("App.T", ⟨0⟩)]⟩

def construct (index : Nat) : Expr := .new (.member ⟨⟨0⟩, .constructor index⟩) [.constant (.i4 1)]

/-- Passes on a new object, in which it has stored an identifier with a missing part and an empty
list. -/
def keeping : Expr :=
  .call (some (construct 0)) (.member ⟨⟨0⟩, .method 0⟩)
    [.store none (.member ⟨⟨0⟩, 0⟩)
      (.constant (.identifier ⟨⟨0⟩, [none, some (.list [.list [], .text "a;b"])]⟩)),
      .constant (.string "")] .virtual

theorem reaches_construct {name : String} {told : MethodId → Prop} {index : Nat} (h : index < 2)
    (htold : told ⟨⟨0⟩, .constructor index⟩) :
    (twoConstructors name).Reaches told ⟨⟨0⟩, .constructor index⟩ := by
  have htypes : ((twoConstructors name).program.method ⟨⟨0⟩, .constructor index⟩).signature.types
      = [.i4] := by
    obtain rfl | rfl : index = 0 ∨ index = 1 := by omega
    · rfl
    · rfl
  refine ⟨rfl, rfl, fun g hg => ?_, htold⟩
  rw [htypes, List.mem_singleton] at hg
  rw [hg]
  trivial

theorem decodeExpr_encodeExpr_keeping :
    (∀ n ∈ keeping.nodes, (twoConstructors ".ctor").Covers (twoConstructors ".ctor").program.IsClear
      n)
      ∧ (encodeExpr (twoConstructors ".ctor").program keeping >>= decodeExpr
        (twoConstructors ".ctor")) = .ok keeping := by
  have hkeep : (twoConstructors ".ctor").Reaches (twoConstructors ".ctor").program.IsClear ⟨⟨0⟩,
      .method 0⟩ := by
    have htypes : ∀ g ∈ [Signature.ofClass ⟨0⟩, .string], (twoConstructors ".ctor").Tells g := by
      rw [List.forall_mem_cons, List.forall_mem_singleton]
      exact ⟨⟨rfl, rfl, by decide⟩, trivial⟩
    exact ⟨rfl, rfl, htypes, by decide, by decide, rfl⟩
  have hcovers : ∀ n ∈ keeping.nodes,
      (twoConstructors ".ctor").Covers (twoConstructors ".ctor").program.IsClear n := by
    simp only [keeping, construct, Expr.nodes, Expr.nodesOpt, Expr.nodesAll, List.append_nil,
      List.cons_append, List.nil_append,
      List.forall_mem_cons]
    exact ⟨hkeep, reaches_construct (by decide) ⟨rfl, rfl⟩, trivial, ⟨rfl, rfl, rfl⟩, rfl, trivial,
      List.forall_mem_nil _⟩
  exact ⟨hcovers, decodeExpr_encodeExpr _ _ hcovers⟩

/-- Every expression comes back whose members are the first ones with their names and parameters. -/
def BodiesComeBack : Prop :=
  ∀ (s : Scope) (e : Expr), (∀ n ∈ e.nodes, s.Covers s.program.IsFirst n) →
    (encodeExpr s.program e >>= decodeExpr s) = .ok e.canonical

/-- A constructor that is called `Make` is found for the one that is called `.ctor`. -/
theorem not_bodiesComeBack : ¬ BodiesComeBack := by
  intro hback
  have hcovers : ∀ n ∈ (construct 1).nodes,
      (twoConstructors "Make").Covers (twoConstructors "Make").program.IsFirst n := by
    simp only [construct, Expr.nodes, Expr.nodesAll, List.append_nil, List.forall_mem_cons]
    exact ⟨reaches_construct (by decide) rfl, trivial, List.forall_mem_nil _⟩
  have hother :
    (encodeExpr (twoConstructors "Make").program (construct 1) >>= decodeExpr
    (twoConstructors "Make")) =
      .ok (construct 0) := rfl
  have hsame := (Expr.new.inj (Except.ok.inj (hother.symm.trans (hback _ _ hcovers)))).1
  cases hsame

end Artifact

end TypeLoom
