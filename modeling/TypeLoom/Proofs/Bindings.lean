import Mathlib.Data.List.Find
import TypeLoom.Proofs.Mentions
import TypeLoom.Proofs.SpelledModules

/-!
# What words lead to

While a module is read each reference is looked up by its words, at a time when members may still be
missing. Members are only added behind those that are there, so the same words lead to the same
member when everything has been read.
-/

namespace TypeLoom

namespace Expr

def requestedFor : Expr → Option TypeId
  | constant (.identifier id) => some id.requested
  | _ => none

/-- The types that the identifiers among the constants were requested for. -/
def requested (e : Expr) : List TypeId := e.nodes.filterMap requestedFor

end Expr

namespace Artifact

open Markup Attempt

variable {s s' : Scope} {t : TypeId} {m : MethodId} {n : Node} {name : String}

/-! ### Scopes that fill up -/

/-- Names stand for the same types, and these have all the members that they had. -/
structure Scope.Later (s s' : Scope) : Prop where
  names : SameNames s s'
  growth : s.program.Extends s'.program
  initializer : ∀ t m, (s.program.record t).initializer = some m →
    (s'.program.record t).initializer = some m

namespace Scope.Later

theorem refl (s : Scope) : s.Later s := ⟨⟨rfl, rfl⟩, .refl _, fun _ _ h => h⟩

theorem trans {mid : Scope} (h : s.Later mid) (h' : mid.Later s') : s.Later s' where
  names := ⟨h'.names.here.trans h.names.here, h'.names.listings.trans h.names.listings⟩
  growth := h.growth.trans h'.growth
  initializer := fun t m hm => h'.initializer t m (h.initializer t m hm)

end Scope.Later

/-- What is found first among some items is found first when there are more behind them. -/
theorem find?_map_range {α : Type} {f : Nat → α} {fits fits' : α → Bool} {size size' : Nat} {a : α}
    (hle : size ≤ size') (hsame : ∀ index < size, fits' (f index) = fits (f index))
    (h : ((List.range size).map f).find? fits = some a) :
    ((List.range size').map f).find? fits' = some a := by
  obtain ⟨more, rfl⟩ := Nat.exists_eq_add_of_le hle
  have hfirst : ((List.range size).map f).find? fits' = some a := by
    rw [← h]
    rw [List.find?_map, List.find?_map]
    refine congrArg (Option.map f) (List.find?_congr fun index hindex => ?_)
    exact hsame index (List.mem_range.mp hindex)
  rw [List.range_add, List.map_append, List.find?_append, hfirst]
  rfl

theorem size_le_of_getElem? {α β : Type} {items : Array α} {items' : Array β}
    (h : ∀ index : Nat, items[index]?.isSome → items'[index]?.isSome) :
    items.size ≤ items'.size := by
  by_contra hlt
  have hsome := h items'.size (by simpa using Nat.not_le.mp hlt)
  simp at hsome

section Later

variable (h : s.Later s')
include h

theorem Scope.Later.sizes (t : TypeId) :
    (s.program.record t).methods.size ≤ (s'.program.record t).methods.size
    ∧ (s.program.record t).constructors.size ≤ (s'.program.record t).constructors.size
    ∧ (s.program.record t).fields.size ≤ (s'.program.record t).fields.size := by
  have hkept : ∀ slot, (s.program.method? ⟨t, slot⟩).isSome →
      (s'.program.method? ⟨t, slot⟩).isSome := by
    intro slot hslot
    obtain ⟨r, hr⟩ := Option.isSome_iff_exists.mp hslot
    obtain ⟨r', hr', -⟩ := h.growth.method? hr
    rw [hr']
    rfl
  refine ⟨size_le_of_getElem? fun index => hkept (.method index), size_le_of_getElem? fun index =>
    hkept (.constructor index),
    size_le_of_getElem? fun index hindex => ?_⟩
  obtain ⟨r, hr⟩ := Option.isSome_iff_exists.mp hindex
  obtain ⟨r', hr', -⟩ := h.growth.field? (f := ⟨t, index⟩) hr
  exact Option.isSome_iff_exists.mpr ⟨r', hr'⟩

theorem Scope.Later.head (hm : (s.program.method? m).isSome) :
    (s'.program.method m).name = (s.program.method m).name ∧ (s'.program.method m).signature
    = (s.program.method m).signature := by
  obtain ⟨r, hr⟩ := Option.isSome_iff_exists.mp hm
  obtain ⟨r', hr', hname, hsignature⟩ := h.growth.method? hr
  rw [Universe.method, Universe.method, hr, hr', Option.getD_some, Option.getD_some]
  exact ⟨hname, hsignature⟩

theorem Scope.Later.methodOn? {types : List Signature} (hm : s.methodOn? t name types = some m) :
    s'.methodOn? t name types = some m := by
  obtain ⟨hmethods, hconstructors, -⟩ := h.sizes t
  unfold Scope.methodOn? at hm ⊢
  dsimp only at hm ⊢
  split at hm
  · rename_i hname
    rw [if_pos hname]
    refine find?_map_range hconstructors (fun index hindex => ?_) hm
    obtain ⟨-, hsignature⟩ :=
      h.head (s.program.isSome_of_mem_constructorsOf
      (List.mem_map_of_mem (List.mem_range.mpr hindex)))
    exact congrArg (fun g : MethodSignature => g.types == types) hsignature
  rename_i hname
  rw [if_neg hname]
  split at hm
  · rename_i hname
    rw [if_pos hname]
    exact h.initializer t m hm
  · rename_i hname
    rw [if_neg hname]
    refine find?_map_range hmethods (fun index hindex => ?_) hm
    obtain ⟨hname, hsignature⟩ :=
      h.head (s.program.isSome_of_mem_methodsOf (List.mem_map_of_mem (List.mem_range.mpr hindex)))
    simp only [hname, hsignature]

theorem Scope.Later.ownField? {f : FieldId} (hf : s.program.ownField? t name = some f) :
    s'.program.ownField? t name = some f := by
  obtain ⟨-, -, hfields⟩ := h.sizes t
  refine find?_map_range hfields (fun index hindex => ?_) hf
  have hfield : s.program.field? ⟨t, index⟩ = some ((s.program.record t).fields[index]) := by
    rw [Universe.field?, Array.getElem?_eq_getElem hindex]
  obtain ⟨r', hr', hname⟩ := h.growth.field? hfield
  rw [Universe.field, Universe.field, hfield, hr', Option.getD_some, Option.getD_some, hname]

end Later

/-! ### References -/

def Scope.Finds (s : Scope) (t : TypeId) : Prop := ∃ name, s.type name = .ok t

/-- Some words lead to the member; those of an accessor name only the member, and it is looked
for on the type. -/
def Scope.Binds (s : Scope) (t : TypeId) : Reference → Prop
  | .method m =>
    ∃ declaring owner name types, s.type declaring = .ok owner
      ∧ s.methodOn? owner name types = some m
  | .field f =>
    ∃ declaring owner name, s.type declaring = .ok owner ∧ s.program.ownField? owner name = some f
  | .accessor m => ∃ name types, s.methodOn? t name types = some m

/-- Each class among the parameters has a name that stands for it. -/
def Scope.Resolves (s : Scope) (g : MethodSignature) : Prop := ∀ c, .ofClass c ∈ g.types → s.Finds c

theorem Scope.Later.finds (h : s.Later s') (ht : s.Finds t) : s'.Finds t := by
  rw [Scope.Finds, h.names.type]
  exact ht

theorem Scope.Later.binds (h : s.Later s') {r : Reference} (hr : s.Binds t r) : s'.Binds t r := by
  cases r with
  | method m =>
    obtain ⟨declaring, owner, name, types, howner, hm⟩ := hr
    exact ⟨declaring, owner, name, types, by rw [h.names.type]; exact howner, h.methodOn? hm⟩
  | field f =>
    obtain ⟨declaring, owner, name, howner, hf⟩ := hr
    exact ⟨declaring, owner, name, by rw [h.names.type]; exact howner, h.ownField? hf⟩
  | accessor m =>
    obtain ⟨name, types, hm⟩ := hr
    exact ⟨name, types, h.methodOn? hm⟩

theorem Scope.Later.resolves (h : s.Later s') {g : MethodSignature} (hg : s.Resolves g) :
    s'.Resolves g := fun c hc =>
  h.finds (hg c hc)

theorem methodOn?_of_methodOn (h : s.methodOn t n = .ok m) :
    ∃ name types, s.methodOn? t name types = some m := by
  obtain ⟨name, -, h⟩ := bind_eq_ok.mp h
  obtain ⟨text, -, h⟩ := bind_eq_ok.mp h
  obtain ⟨types, -, h⟩ := bind_eq_ok.mp h
  split at h
  · rename_i found hfound
    cases h
    exact ⟨name, types, hfound⟩
  · cases h

theorem binds_of_methodOn (h : s.methodOn t n = .ok m) : s.Binds t (.accessor m) :=
  methodOn?_of_methodOn h

theorem binds_of_method (h : s.method n = .ok m) : s.Binds t (.method m) := by
  obtain ⟨declaring, -, h⟩ := bind_eq_ok.mp h
  obtain ⟨owner, howner, h⟩ := bind_eq_ok.mp h
  obtain ⟨name, types, hm⟩ := methodOn?_of_methodOn h
  exact ⟨declaring, owner, name, types, howner, hm⟩

theorem binds_of_field {f : FieldId} (h : s.field n = .ok f) : s.Binds t (.field f) := by
  obtain ⟨declaring, -, h⟩ := bind_eq_ok.mp h
  obtain ⟨owner, howner, h⟩ := bind_eq_ok.mp h
  obtain ⟨name, -, h⟩ := bind_eq_ok.mp h
  split at h
  · rename_i found hfound
    cases h
    exact ⟨declaring, owner, name, howner, hfound⟩
  · cases h

theorem finds_of_signature {text : String} (h : s.signature text = .ok (.ofClass t)) :
    s.Finds t := by
  unfold Scope.signature at h
  split at h
  · rename_i plain hplain
    cases h
    have hkeyword := List.mem_of_find?_eq_some hplain
    simp at hkeyword
  split at h
  · cases hname : s.type (String.ofList (text.toList.drop 6)) with
    | error f =>
      rw [hname] at h
      cases h
    | ok found =>
      rw [hname] at h
      cases h
      exact ⟨_, hname⟩
  · cases h

theorem resolves_of_methodSignature {g : MethodSignature} (h : s.methodSignature n = .ok g) :
    s.Resolves g := by
  obtain ⟨parameters, hparameters, h⟩ := bind_eq_ok.mp h
  obtain ⟨text, -, h⟩ := bind_eq_ok.mp h
  obtain ⟨returns, -, h⟩ := bind_eq_ok.mp h
  cases h
  intro c hc
  obtain ⟨p, hp, htype⟩ := List.mem_map.mp hc
  obtain ⟨e, -, he⟩ := exists_of_mem_mapM hparameters hp
  obtain ⟨name, -, he⟩ := bind_eq_ok.mp he
  obtain ⟨text, -, he⟩ := bind_eq_ok.mp he
  obtain ⟨signature, hsignature, he⟩ := bind_eq_ok.mp he
  cases he
  change signature = .ofClass c at htype
  subst htype
  exact finds_of_signature hsignature

/-! ### Bodies and attributes -/

def ReadIn (s : Scope) (e : Expr) : Prop := ∀ part ∈ e.nodes, ∃ n, decodeExpr s n = .ok part

mutual

theorem readIn_of_decodeExpr : ∀ (n : Node) {e : Expr}, decodeExpr s n = .ok e → ReadIn s e
  | .element name attributes children, e, he => by
    have hself : ∃ n, decodeExpr s n = .ok e := ⟨_, he⟩
    unfold decodeExpr at he
    split at he
    · obtain ⟨c, -, he⟩ := bind_eq_ok.mp he
      obtain ⟨v, -, he⟩ := bind_eq_ok.mp he
      cases he
      exact List.forall_mem_singleton.mpr hself
    · cases he
      exact List.forall_mem_singleton.mpr hself
    · obtain ⟨index, -, he⟩ := bind_eq_ok.mp he
      cases he
      exact List.forall_mem_singleton.mpr hself
    · obtain ⟨items, hitems, he⟩ := bind_eq_ok.mp he
      cases he
      exact List.forall_mem_cons.mpr ⟨hself, readIn_of_decodeAll children hitems⟩
    · obtain ⟨receiver, hreceiver, he⟩ := bind_eq_ok.mp he
      obtain ⟨m, -, he⟩ := bind_eq_ok.mp he
      obtain ⟨arguments, harguments, he⟩ := bind_eq_ok.mp he
      obtain ⟨dispatch, -, he⟩ := bind_eq_ok.mp he
      cases he
      exact List.forall_mem_cons.mpr ⟨hself, List.forall_mem_append.mpr
        ⟨readIn_of_decodeReceiver children hreceiver,
          readIn_of_decodeArguments children harguments⟩⟩
    · obtain ⟨m, -, he⟩ := bind_eq_ok.mp he
      obtain ⟨arguments, harguments, he⟩ := bind_eq_ok.mp he
      cases he
      exact List.forall_mem_cons.mpr ⟨hself, readIn_of_decodeArguments children harguments⟩
    · obtain ⟨receiver, hreceiver, he⟩ := bind_eq_ok.mp he
      obtain ⟨f, -, he⟩ := bind_eq_ok.mp he
      cases he
      exact List.forall_mem_cons.mpr ⟨hself, readIn_of_decodeReceiver children hreceiver⟩
    · obtain ⟨receiver, hreceiver, he⟩ := bind_eq_ok.mp he
      obtain ⟨f, -, he⟩ := bind_eq_ok.mp he
      obtain ⟨stored, hstored, he⟩ := bind_eq_ok.mp he
      cases stored with
      | none => cases he
      | some value =>
        cases he
        exact List.forall_mem_cons.mpr ⟨hself, List.forall_mem_append.mpr
          ⟨readIn_of_decodeReceiver children hreceiver, readIn_of_decodeStored children hstored⟩⟩
    · obtain ⟨items, hitems, he⟩ := bind_eq_ok.mp he
      have hall := readIn_of_decodeAll children hitems
      split at he
      · obtain ⟨op, -, he⟩ := bind_eq_ok.mp he
        cases he
        simp only [Expr.nodesAll, List.append_nil] at hall
        exact List.forall_mem_cons.mpr ⟨hself, hall⟩
      · cases he
    · obtain ⟨items, hitems, he⟩ := bind_eq_ok.mp he
      have hall := readIn_of_decodeAll children hitems
      split at he
      · cases he
        simp only [Expr.nodesAll, List.append_nil, ← List.append_assoc] at hall
        exact List.forall_mem_cons.mpr ⟨hself, hall⟩
      · cases he
    · cases he

theorem readIn_of_decodeAll :
    ∀ (ns : List Node) {es : List Expr}, decodeAll s ns = .ok es → ∀ part ∈ Expr.nodesAll es, ∃ n,
    decodeExpr s n = .ok part
  | [], es, hes => by
    cases hes
    exact nofun
  | n :: ns, es, hes => by
    rw [decodeAll] at hes
    obtain ⟨e, he, hes⟩ := bind_eq_ok.mp hes
    obtain ⟨rest, hrest, hes⟩ := bind_eq_ok.mp hes
    cases hes
    exact List.forall_mem_append.mpr ⟨readIn_of_decodeExpr n he, readIn_of_decodeAll ns hrest⟩

theorem readIn_of_decodeSingle : ∀ (ns : List Node) {name : String}
    {e : Expr}, decodeSingle s name ns = .ok e → ReadIn s e
  | [n], _, _, he => readIn_of_decodeExpr n he
  | [], _, _, he => by cases he
  | _ :: _ :: _, _, _, he => by cases he

theorem readIn_of_decodeReceiver : ∀ (ns : List Node)
    {receiver : Option Expr}, decodeReceiver s ns = .ok receiver →
    ∀ part ∈ Expr.nodesOpt receiver, ∃ n, decodeExpr s n = .ok part
  | [], _, hreceiver => by
    cases hreceiver
    exact nofun
  | .element name _ children :: ns, _, hreceiver => by
    rw [decodeReceiver] at hreceiver
    split at hreceiver
    · obtain ⟨inner, hinner, hreceiver⟩ := bind_eq_ok.mp hreceiver
      cases hreceiver
      exact readIn_of_decodeSingle children hinner
    · exact readIn_of_decodeReceiver ns hreceiver

theorem readIn_of_decodeArguments : ∀ (ns : List Node)
    {arguments : List Expr}, decodeArguments s ns = .ok arguments →
    ∀ part ∈ Expr.nodesAll arguments, ∃ n, decodeExpr s n = .ok part
  | [], _, harguments => by
    cases harguments
    exact nofun
  | .element name _ children :: ns, _, harguments => by
    rw [decodeArguments] at harguments
    split at harguments
    · exact readIn_of_decodeAll children harguments
    · exact readIn_of_decodeArguments ns harguments

theorem readIn_of_decodeStored : ∀ (ns : List Node)
    {value : Expr}, decodeStored s ns = .ok (some value) → ReadIn s value
  | [], _, hstored => by cases hstored
  | .element name _ children :: ns, _, hstored => by
    rw [decodeStored] at hstored
    split at hstored
    · obtain ⟨inner, hinner, hstored⟩ := bind_eq_ok.mp hstored
      cases hstored
      exact readIn_of_decodeSingle children hinner
    · exact readIn_of_decodeStored ns hstored

end

/-- The member that an expression itself names was found by its words. -/
theorem binds_of_decodeExpr {e : Expr} (he : decodeExpr s n = .ok e) :
    ∀ r ∈ e.member, s.Binds t r := by
  obtain ⟨name, attributes, children⟩ := n
  unfold decodeExpr at he
  split at he
  · obtain ⟨c, -, he⟩ := bind_eq_ok.mp he
    obtain ⟨v, -, he⟩ := bind_eq_ok.mp he
    cases he
    exact nofun
  · cases he
    exact nofun
  · obtain ⟨index, -, he⟩ := bind_eq_ok.mp he
    cases he
    exact nofun
  · obtain ⟨items, -, he⟩ := bind_eq_ok.mp he
    cases he
    exact nofun
  · obtain ⟨receiver, -, he⟩ := bind_eq_ok.mp he
    obtain ⟨m, hm, he⟩ := bind_eq_ok.mp he
    obtain ⟨arguments, -, he⟩ := bind_eq_ok.mp he
    obtain ⟨dispatch, -, he⟩ := bind_eq_ok.mp he
    cases he
    exact List.forall_mem_singleton.mpr (binds_of_method hm)
  · obtain ⟨m, hm, he⟩ := bind_eq_ok.mp he
    obtain ⟨arguments, -, he⟩ := bind_eq_ok.mp he
    cases he
    exact List.forall_mem_singleton.mpr (binds_of_method hm)
  · obtain ⟨receiver, -, he⟩ := bind_eq_ok.mp he
    obtain ⟨f, hf, he⟩ := bind_eq_ok.mp he
    cases he
    exact List.forall_mem_singleton.mpr (binds_of_field hf)
  · obtain ⟨receiver, -, he⟩ := bind_eq_ok.mp he
    obtain ⟨f, hf, he⟩ := bind_eq_ok.mp he
    obtain ⟨stored, -, he⟩ := bind_eq_ok.mp he
    cases stored with
    | none => cases he
    | some value =>
      cases he
      exact List.forall_mem_singleton.mpr (binds_of_field hf)
  · obtain ⟨items, -, he⟩ := bind_eq_ok.mp he
    split at he
    · obtain ⟨op, -, he⟩ := bind_eq_ok.mp he
      cases he
      exact nofun
    · cases he
  · obtain ⟨items, -, he⟩ := bind_eq_ok.mp he
    split at he
    · cases he
      exact nofun
    · cases he
  · cases he

theorem binds_of_readIn {e : Expr} (he : ReadIn s e) : ∀ r ∈ e.references, s.Binds t r := by
  intro r hr
  obtain ⟨part, hpart, hr⟩ := List.mem_flatMap.mp hr
  obtain ⟨n, hn⟩ := he part hpart
  exact binds_of_decodeExpr hn r hr

theorem value_of_decodeExpr {v : Value} (he : decodeExpr s n = .ok (.constant v)) :
    ∃ c, decodeValue s c = .ok v := by
  obtain ⟨name, attributes, children⟩ := n
  unfold decodeExpr at he
  split at he
  · obtain ⟨c, -, he⟩ := bind_eq_ok.mp he
    obtain ⟨w, hw, he⟩ := bind_eq_ok.mp he
    cases he
    exact ⟨c, hw⟩
  all_goals simp only [bind, Except.bind, pure, Except.pure, throw, throwThe,
    MonadExceptOf.throw] at he
  all_goals grind

theorem finds_of_decodeValue {id : Identifier} (hv : decodeValue s n = .ok (.identifier id)) :
    s.Finds id.requested := by
  obtain ⟨kind, -, hv⟩ := bind_eq_ok.mp hv
  split at hv
  case h_9 =>
    obtain ⟨name, -, hv⟩ := bind_eq_ok.mp hv
    obtain ⟨requested, hrequested, hv⟩ := bind_eq_ok.mp hv
    obtain ⟨parts, -, hv⟩ := bind_eq_ok.mp hv
    cases hv
    exact ⟨name, hrequested⟩
  all_goals simp only [bind, Except.bind, pure, Except.pure, throw, throwThe,
    MonadExceptOf.throw] at hv
  all_goals grind

theorem finds_of_readIn {e : Expr} (he : ReadIn s e) : ∀ t ∈ e.requested, s.Finds t := by
  intro t ht
  obtain ⟨part, hpart, hfor⟩ := List.mem_filterMap.mp ht
  obtain ⟨n, hn⟩ := he part hpart
  unfold Expr.requestedFor at hfor
  split at hfor
  · cases hfor
    obtain ⟨c, hc⟩ := value_of_decodeExpr hn
    exact finds_of_decodeValue hc
  · cases hfor

theorem binds_of_decodeAttribute {a : Attribute} (ha : decodeAttribute s n = .ok a) :
    s.Binds t a.reference := by
  obtain ⟨arguments, -, ha⟩ := bind_eq_ok.mp ha
  obtain ⟨named, -, ha⟩ := bind_eq_ok.mp ha
  obtain ⟨m, hm, ha⟩ := bind_eq_ok.mp ha
  cases ha
  exact binds_of_method hm

end Artifact

end TypeLoom
