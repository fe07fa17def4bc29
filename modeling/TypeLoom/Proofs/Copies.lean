import Mathlib.Data.List.Forall2
import TypeLoom.Proofs.Histories
import TypeLoom.Proofs.Wordings

/-!
# References to copies

A module that was written and read again has a copy of each of its types. What a copy refers to are
the copies of what the original refers to, unless the original refers to a member that its words do
not lead to: the first member with the same name and parameters is another one.
-/

namespace TypeLoom

/-- The type whose member is referred to. -/
def Reference.owner : Reference → TypeId
  | .method m => m.owner
  | .field f => f.owner
  | .accessor m => m.owner

/-- The same member of another type. -/
def Reference.moved (move : TypeId → TypeId) : Reference → Reference
  | .method m => .method ⟨move m.owner, m.slot⟩
  | .field f => .field ⟨move f.owner, f.index⟩
  | .accessor m => .accessor ⟨move m.owner, m.slot⟩

/-- The copy of a type of a module; types outside of it are not copied. -/
def copyOf (types copies : List TypeId) (t : TypeId) : TypeId :=
  (((types.zip copies).find? fun p => p.1 == t).map (·.2)).getD t

namespace Artifact

open Markup Attempt

variable {space : TypeSpace} {originals copies : List TypeId} {s : Scope} {u u' : Universe}
  {t c : TypeId} {n : Node}

/-! ### Types outside of the module -/

theorem mapM_encodeSignature_extend (hspace : Tidy space)
    (hmodule : ModuleTypes space.program originals) (hgrowth : space.program.Extends u')
    {types : List Signature} (h : ∀ g ∈ types, Legible space originals g) :
    types.mapM (encodeSignature u') = types.mapM (encodeSignature space.program) := by
  induction types with
  | nil => rfl
  | cons g types ih =>
    obtain ⟨hg, htypes⟩ := List.forall_mem_cons.mp h
    have hfirst : encodeSignature u' g = encodeSignature space.program g := by
      cases g with
      | ofClass c =>
        have hnamed := hg.1.named hspace hmodule
        have hafter := hnamed.extend hspace.enclosed hgrowth
        rw [encodeSignature, encodeSignature, if_pos hnamed.present, if_pos hafter.present,
          hafter.fullName]
      | draft handle => exact hg.elim
      | void | boolean | i4 | i8 | r8 | string | object => rfl
    rw [List.mapM_cons, List.mapM_cons, hfirst, ih htypes]

theorem alike_outside (hspace : Tidy space) (hmodule : ModuleTypes space.program originals)
    (hread : ReadInto space copies s) (h : LegibleType space originals t) :
    Alike space.program s.program t t := by
  have hnamed := h.stands.named hspace hmodule
  obtain ⟨nested, complete, hrecord⟩ := hread.old t (space.program.lt_of_isPresent t hnamed.present)
  have hmethod? : ∀ slot, s.program.method? ⟨t, slot⟩ = space.program.method? ⟨t, slot⟩ :=
      fun slot => by
    rw [Universe.method?, Universe.method?, hrecord]
    cases slot <;> rfl
  have hmethod : ∀ slot, s.program.method ⟨t, slot⟩ = space.program.method ⟨t, slot⟩ :=
      fun slot => by
    rw [Universe.method, Universe.method, hmethod?]
  refine ⟨fun slot => by
    rw [hmethod?], fun slot => by
      rw [hmethod], fun slot _ => ?_, fun a b _ _ => by rw [hmethod, hmethod], ?_,
    fun index => ?_⟩
  · rw [hmethod, encodeParameters, encodeParameters,
      mapM_encodeSignature_extend hspace hmodule hread.growth (h.parameters slot)]
  · have hproper := h.stands.proper hspace hmodule
    rw [hrecord]
    cases hinitializer : (space.program.record t).initializer with
    | none => rfl
    | some m =>
      obtain ⟨rfl, -⟩ := hproper.initializer m hinitializer
      rfl
  · rw [Universe.field?, Universe.field?, hrecord]

/-! ### Copies of the types of the module -/

theorem usualNames_of_proper (h : (u.record t).Proper t) : u.UsualNames t := by
  refine ⟨fun c hc => ?_, fun m hm => ?_⟩
  · obtain ⟨index, hindex⟩ := List.mem_iff_getElem?.mp hc
    rw [Array.getElem?_toList] at hindex
    exact h.constructors index c hindex
  · obtain ⟨howner, r, hr, hname, hparameters⟩ := h.initializer m hm
    have hmethod : u.method m = r := by
      rw [Universe.method, Universe.method?, howner, hr, Option.getD_some]
    rw [hmethod]
    exact ⟨hname, hparameters⟩

theorem sections_of_encodeType (hnames : u.UsualNames t) (hown : (u.record t).OwnInitializer t)
    (hn : encodeType u t = .ok n) (sec : Section) :
    sec.encode u (u.record t) = .ok (n.childrenNamed sec.element) := by
  obtain ⟨head, content, -, hinitializer, hcontent, -, -, hfilter⟩ :=
    content_of_encodeType hnames hn
  rw [hfilter]
  by_cases hsec : sec = .initializer
  · subst hsec
    rw [← encodeInitializer_of_own hown]
    exact hinitializer
  · exact hcontent sec hsec

def slotList (r : TypeRecord) : Slot → List MethodRecord
  | .method _ => r.methods.toList
  | .constructor _ => r.constructors.toList
  | .typeInitializer => r.ownInitializer.toList

theorem getElem?_slotList (r : TypeRecord) (slot : Slot) :
    (slotList r slot)[slotPosition slot]? = r.method? slot := by
  cases slot with
  | method index => exact Array.getElem?_toList
  | constructor index => exact Array.getElem?_toList
  | typeInitializer =>
    show r.ownInitializer.toList[0]? = r.ownInitializer
    cases r.ownInitializer <;> rfl

section Pairs

variable {α β γ : Type} {f : α → Except Fault γ} {g : β → Except Fault γ} {items : List α}
  {items' : List β} {vs : List γ}

theorem getElem?_of_mapM (h : items.mapM f = .ok vs) {index : Nat} {a : α}
    (ha : items[index]? = some a) :
    ∃ v, vs[index]? = some v ∧ f a = .ok v := by
  induction items generalizing vs index with
  | nil => cases ha
  | cons item items ih =>
    obtain ⟨v, rest, hv, hrest, rfl⟩ := mapM_cons_eq_ok.mp h
    cases index with
    | zero =>
      cases ha
      exact ⟨v, rfl, hv⟩
    | succ index => exact ih hrest ha

theorem pairs_of_mapM (h : items.mapM f = .ok vs) (h' : items'.mapM g = .ok vs) (index : Nat) :
    items'[index]?.isSome = items[index]?.isSome
      ∧ ∀ a b, items[index]? = some a → items'[index]? = some b → ∃ v, f a = .ok v
      ∧ g b = .ok v := by
  refine ⟨?_, fun a b ha hb => ?_⟩
  · have hlength : items'.length = items.length := (length_mapM h').symm.trans (length_mapM h)
    rw [Bool.eq_iff_iff]
    simp [hlength]
  · obtain ⟨v, hv, hfa⟩ := getElem?_of_mapM h ha
    obtain ⟨w, hw, hgb⟩ := getElem?_of_mapM h' hb
    rw [hv] at hw
    cases hw
    exact ⟨v, hfa, hgb⟩

end Pairs

theorem texts_of_parameters {parameters : List Parameter} {ns : List Node}
    (h : parameters.mapM (encodeParameter u) = .ok ns) :
    (parameters.map (·.type)).mapM (encodeSignature u)
    = .ok (ns.map fun n => (n.get? "type").getD "") := by
  induction parameters generalizing ns with
  | nil =>
    cases h
    rfl
  | cons p parameters ih =>
    obtain ⟨n, rest, hn, hrest, rfl⟩ := mapM_cons_eq_ok.mp h
    obtain ⟨type, htype, rfl⟩ := node_of_encodeParameter hn
    exact mapM_cons_eq_ok.mpr ⟨type, _, htype, ih hrest, rfl⟩

/-- The element of a method tells its name, and its parameters as they are written. -/
theorem head_of_encodeMethod {element : String} {m m' : MethodRecord}
    (h : encodeMethod u element m = .ok n) (h' : encodeMethod u' element m' = .ok n) :
    m'.name = m.name ∧ ∃ texts, m.signature.types.mapM (encodeSignature u) = .ok texts
      ∧ m'.signature.types.mapM (encodeSignature u') = .ok texts := by
  obtain ⟨returns, parameters, attributes, body, -, hparameters, hattributes, hbody, rfl⟩ :=
    encodeMethod_eq_ok.mp h
  obtain ⟨returns', parameters', attributes', body', -, hparameters', hattributes', hbody', heq⟩ :=
    encodeMethod_eq_ok.mp h'
  have hname := congrArg (fun n : Node => n.get? "name") heq
  have hfilter := congrArg (fun n : Node => n.childrenNamed "param") heq
  change (parameters ++ attributes ++ body).filter (fun c => c.name == "param") =
    (parameters' ++ attributes' ++ body').filter (fun c => c.name == "param") at hfilter
  rw [(methodChildren hparameters hattributes hbody).filter_param,
    (methodChildren hparameters' hattributes' hbody').filter_param]
    at hfilter
  subst hfilter
  exact ⟨(Option.some.inj hname).symm, _, texts_of_parameters hparameters,
    texts_of_parameters hparameters'⟩

theorem encode_slotSection (u : Universe) (r : TypeRecord) (slot : Slot) :
    (slotSection slot).encode u r
    = (slotList r slot).mapM (encodeMethod u (slotSection slot).element) := by
  cases slot <;> rfl

/-- Methods at one place of two types with one element have the same words. -/
theorem heads_of_encodeType (h : ∀ sec : Section, sec.encode u (u.record t)
      = .ok (n.childrenNamed sec.element))
    (h' : ∀ sec : Section, sec.encode u' (u'.record c) = .ok (n.childrenNamed sec.element))
    (slot : Slot) :
    (u'.method? ⟨c, slot⟩).isSome = (u.method? ⟨t, slot⟩).isSome
      ∧ ((u.method? ⟨t, slot⟩).isSome → (u'.method ⟨c, slot⟩).name = (u.method ⟨t, slot⟩).name
        ∧ ∃ texts, (u.method ⟨t, slot⟩).signature.types.mapM (encodeSignature u) = .ok texts
          ∧ (u'.method ⟨c, slot⟩).signature.types.mapM (encodeSignature u') = .ok texts) := by
  have hlist := h (slotSection slot)
  have hlist' := h' (slotSection slot)
  rw [encode_slotSection] at hlist hlist'
  obtain ⟨hsome, hpair⟩ := pairs_of_mapM hlist hlist' (slotPosition slot)
  rw [getElem?_slotList, getElem?_slotList] at hsome hpair
  refine ⟨hsome, fun hslot => ?_⟩
  obtain ⟨m, hm⟩ := Option.isSome_iff_exists.mp hslot
  obtain ⟨m', hm'⟩ := Option.isSome_iff_exists.mp (hsome.trans hslot)
  obtain ⟨v, hv, hv'⟩ := hpair m m' hm hm'
  have hmethod : u.method ⟨t, slot⟩ = m := by
    rw [Universe.method, show u.method? ⟨t, slot⟩ = some m from hm, Option.getD_some]
  have hmethod' : u'.method ⟨c, slot⟩ = m' := by
    rw [Universe.method, show u'.method? ⟨c, slot⟩ = some m' from hm', Option.getD_some]
  rw [hmethod, hmethod']
  exact head_of_encodeMethod hv hv'

theorem flagsText_injective {flags flags' : UInt32} (h : flagsText flags = flagsText flags') :
    flags = flags' := by
  refine UInt32.toNat_inj.mp (Decimal.toDigits_injective ?_)
  simpa only [flagsText, Nat.toString_eq_repr, Nat.toList_repr] using congrArg String.toList h

theorem fieldHeads_of_encodeType (h : Section.encode u (u.record t) .fields
      = .ok (n.childrenNamed "field"))
    (h' : Section.encode u' (u'.record c) .fields = .ok (n.childrenNamed "field")) (index : Nat) :
    ((u'.record c).fields[index]?).map (fun f => (f.name, f.flags))
        = ((u.record t).fields[index]?).map fun f => (f.name, f.flags) := by
  obtain ⟨hsome, hpair⟩ := pairs_of_mapM h h' index
  rw [Array.getElem?_toList, Array.getElem?_toList] at hsome hpair
  cases hf : (u.record t).fields[index]? with
  | none =>
    cases hf' : (u'.record c).fields[index]? with
    | none => rfl
    | some f' => simp [hf, hf'] at hsome
  | some f =>
    cases hf' : (u'.record c).fields[index]? with
    | none => simp [hf, hf'] at hsome
    | some f' =>
      obtain ⟨v, hv, hv'⟩ := hpair f f' hf hf'
      obtain ⟨type, -, hv⟩ := bind_eq_ok.mp hv
      obtain ⟨attributes, -, hv⟩ := bind_eq_ok.mp hv
      obtain ⟨type', -, hv'⟩ := bind_eq_ok.mp hv'
      obtain ⟨attributes', -, hv'⟩ := bind_eq_ok.mp hv'
      have hsame := (Except.ok.inj hv').trans (Except.ok.inj hv).symm
      have hname : f'.name = f.name :=
        Option.some.inj (congrArg (fun n : Node => n.get? "name") hsame)
      have hflags : f'.flags = f.flags :=
        flagsText_injective (Option.some.inj (congrArg (fun n : Node => n.get? "flags") hsame))
      show some (f'.name, f'.flags) = some (f.name, f.flags)
      rw [hname, hflags]

theorem fields_of_encodeType (h : Section.encode u (u.record t) .fields
      = .ok (n.childrenNamed "field"))
    (h' : Section.encode u' (u'.record c) .fields = .ok (n.childrenNamed "field")) (index : Nat) :
    (u'.field? ⟨c, index⟩).map FieldRecord.name = (u.field? ⟨t, index⟩).map FieldRecord.name := by
  simpa [Universe.field?, Function.comp_def] using congrArg (Option.map Prod.fst)
    (fieldHeads_of_encodeType h h' index)

/-- The full name of a class among the parameters of a copy stands for it. -/
theorem type_of_parameter (hread : ReadInto space copies s) (hc : c ∈ copies) {slot : Slot}
    (hslot : (s.program.method? ⟨c, slot⟩).isSome) {k : TypeId}
    (hk : .ofClass k ∈ (s.program.method ⟨c, slot⟩).signature.types) :
    s.type (s.program.fullName k) = .ok k := by
  obtain ⟨m, hm⟩ := Option.isSome_iff_exists.mp hslot
  rw [Universe.method, hm, Option.getD_some] at hk
  have hresolves : s.Resolves m.signature := by
    cases slot with
    | method index =>
      refine hread.signatures c hc _ (List.mem_map_of_mem (List.mem_append_right _ ?_))
      exact Array.mem_toList_iff.mpr (Array.mem_of_getElem? hm)
    | constructor index =>
      refine hread.signatures c hc _ (List.mem_map_of_mem (List.mem_append_left _ ?_))
      exact Array.mem_toList_iff.mpr (Array.mem_of_getElem? hm)
    | typeInitializer =>
      -- a type initializer takes nothing
      have hown := hread.own c hc
      have hm' : (s.program.record c).ownInitializer = some m := hm
      rw [TypeRecord.OwnInitializer, hm', Option.map_some] at hown
      obtain ⟨-, r, hr, -, hparameters⟩ :=
        (hread.ready.proper c (.inl (hread.new c hc))).initializer _ hown
      obtain rfl : m = r := Option.some.inj (hm'.symm.trans hr)
      intro k hk
      rw [MethodSignature.types, hparameters] at hk
      exact absurd hk List.not_mem_nil
  obtain ⟨name, hname⟩ := hresolves k hk
  rw [(hread.ready.type_ok hname).2.fullName]
  exact hname

theorem alike_copy (hmodule : ModuleTypes space.program originals) (hread : ReadInto space copies s)
    (h : LegibleType space originals t) (ht : t ∈ originals) (hc : c ∈ copies)
    (hn : encodeType space.program t = .ok n) (hn' : encodeType s.program c = .ok n) :
        Alike space.program s.program t c := by
  have hsections := sections_of_encodeType (usualNames_of_proper (hmodule.proper t ht))
    (hmodule.own t ht) hn
  have hsections' :=
    sections_of_encodeType (usualNames_of_proper (hread.ready.proper c (.inl (hread.new c hc))))
    (hread.own c hc) hn'
  have hheads := heads_of_encodeType hsections hsections'
  have hslots : ∀ slot, (s.program.method? ⟨c, slot⟩).isSome
    = (space.program.method? ⟨t, slot⟩).isSome := fun slot => (hheads slot).1
  refine ⟨hslots, fun slot => ?_, fun slot hslot => ?_, fun a b ha hb => ?_, ?_,
    fields_of_encodeType (hsections .fields) (hsections' .fields)⟩
  · by_cases hslot : (space.program.method? ⟨t, slot⟩).isSome
    · exact ((hheads slot).2 hslot).1
    · have hnone : space.program.method? ⟨t, slot⟩ = none := Option.not_isSome_iff_eq_none.mp hslot
      have hnone' : s.program.method? ⟨c, slot⟩ = none :=
        Option.not_isSome_iff_eq_none.mp (by rw [hslots]; exact hslot)
      rw [Universe.method, Universe.method, hnone, hnone']
  · obtain ⟨-, texts, htexts, htexts'⟩ := (hheads slot).2 hslot
    rw [encodeParameters, encodeParameters, htexts, htexts']
  · obtain ⟨-, texts, htexts, htexts'⟩ := (hheads a).2 ha
    obtain ⟨-, more, hmore, hmore'⟩ := (hheads b).2 hb
    constructor
    · intro hsame
      rw [hsame, hmore'] at htexts'
      cases htexts'
      exact types_of_legible hmodule (h.parameters a) (h.parameters b) htexts hmore
    · intro hsame
      rw [hsame, hmore] at htexts
      cases htexts
      refine types_of_texts htexts' hmore' fun k k' hk hk' hname => ?_
      have hfirst := type_of_parameter hread hc ((hslots a).trans ha) hk
      rw [hname, type_of_parameter hread hc ((hslots b).trans hb) hk'] at hfirst
      exact (Except.ok.inj hfirst).symm
  · have hsome : (s.program.record c).ownInitializer.isSome
      = (space.program.record t).ownInitializer.isSome := hslots .typeInitializer
    rw [hmodule.own t ht, hread.own c hc]
    cases hown : (space.program.record t).ownInitializer <;> cases hown' :
      (s.program.record c).ownInitializer <;> simp_all

/-! ### Types and their copies -/

theorem fullName_eq (h : u.Named t (u.fullName t)) :
    u.fullName t = match (u.declaring? t).map u.fullName with
    | some outer => outer ++ "+" ++ (u.record t).name
    | none =>
      if (u.record t).space.isEmpty then (u.record t).name else (u.record t).space ++ "."
          ++ (u.record t).name := by
  refine (h.settled (u.types.size + 1) (Nat.le_succ _)).symm.trans ?_
  rw [Universe.fullNameWithin]
  cases u.declaring? t <;> rfl

theorem fullName_of_encodeType (h : u.Named t (u.fullName t)) (h' : u'.Named c (u'.fullName c))
    (hn : encodeType u t = .ok n) (hn' : encodeType u' c = .ok n) :
    u'.fullName c = u.fullName t := by
  obtain ⟨head, content, hhead, -, -, hn⟩ := encodeType_eq_ok.mp hn
  obtain ⟨base, -, rfl⟩ := encodeTypeHead_eq_ok.mp hhead
  obtain ⟨head', content', hhead', -, -, hn'⟩ := encodeType_eq_ok.mp hn'
  obtain ⟨base', -, rfl⟩ := encodeTypeHead_eq_ok.mp hhead'
  obtain ⟨hspace, hname, -, hdeclaring, -⟩ :=
    get?_typeNode (u.record t).space (u.record t).name (u.record t).flags
    ((u.declaring? t).map u.fullName) base (Section.all.flatMap content)
  obtain ⟨hspace', hname', -, hdeclaring', -⟩ :=
    get?_typeNode (u'.record c).space (u'.record c).name (u'.record c).flags
    ((u'.declaring? c).map u'.fullName) base' (Section.all.flatMap content')
  rw [← hn] at hspace hname hdeclaring
  rw [← hn'] at hspace' hname' hdeclaring'
  rw [fullName_eq h', fullName_eq h, ← hdeclaring, ← hdeclaring',
    Option.some.inj (hspace'.symm.trans hspace),
    Option.some.inj (hname'.symm.trans hname)]

theorem exists_of_mem_zip {α β γ : Type} {f : α → Except Fault γ} {g : β → Except Fault γ}
    {items : List α} {items' : List β} {vs : List γ} (h : items.mapM f = .ok vs)
    (h' : items'.mapM g = .ok vs) {p : α × β} (hp : p ∈ items.zip items') :
    ∃ v, f p.1 = .ok v ∧ g p.2 = .ok v := by
  obtain ⟨index, hindex⟩ := List.mem_iff_getElem?.mp hp
  obtain ⟨hfirst, hsecond⟩ := List.getElem?_zip_eq_some.mp hindex
  exact (pairs_of_mapM h h' index).2 _ _ hfirst hsecond

theorem copyOf_of_mem (hnodup : originals.Nodup) (hlength : originals.length = copies.length)
    {p : TypeId × TypeId} (hp : p ∈ originals.zip copies) : copyOf originals copies p.1 = p.2 := by
  obtain ⟨q, hq⟩ :=
    Option.isSome_iff_exists.mp (List.find?_isSome.mpr ⟨p, hp, beq_self_eq_true p.1⟩ :
    ((originals.zip copies).find? fun q => q.1 == p.1).isSome)
  have hfst : ((originals.zip copies).map Prod.fst).Nodup := by
    rw [List.map_fst_zip (Nat.le_of_eq hlength)]
    exact hnodup
  have hsame : q = p := List.inj_on_of_nodup_map hfst (List.mem_of_find?_eq_some hq) hp
    (by simpa using List.find?_some hq)
  rw [copyOf, hq, hsame]
  rfl

theorem copyOf_of_notMem (h : t ∉ originals) : copyOf originals copies t = t := by
  have hnone : ((originals.zip copies).find? fun q => q.1 == t) = none := by
    refine List.find?_eq_none.mpr fun q hq heq => h ?_
    rw [← beq_iff_eq.mp heq]
    exact (List.of_mem_zip hq).1
  rw [copyOf, hnone]
  rfl

/-- Everything about a module that was written and read into a space where its types are named as
it says. -/
structure Copied (space : TypeSpace) (originals copies : List TypeId) (s : Scope) : Prop where
  tidy : Tidy space
  types : ModuleTypes space.program originals
  read : ReadInto space copies s
  length : originals.length = copies.length
  element : ∀ p ∈ originals.zip copies, ∃ n, encodeType space.program p.1 = .ok n
    ∧ encodeType s.program p.2 = .ok n

namespace Copied

variable (h : Copied space originals copies s)
include h

theorem nodup : originals.Nodup := List.Nodup.of_map _ h.types.distinct

theorem exists_copy (ht : t ∈ originals) : ∃ c, (t, c) ∈ originals.zip copies := by
  rw [← List.map_fst_zip (Nat.le_of_eq h.length)] at ht
  obtain ⟨⟨_, c⟩, hp, rfl⟩ := List.mem_map.mp ht
  exact ⟨c, hp⟩

theorem exists_original (hc : c ∈ copies) : ∃ t, (t, c) ∈ originals.zip copies := by
  rw [← List.map_snd_zip (Nat.le_of_eq h.length.symm)] at hc
  obtain ⟨⟨t, _⟩, hp, rfl⟩ := List.mem_map.mp hc
  exact ⟨t, hp⟩

theorem fullName {p : TypeId × TypeId} (hp : p ∈ originals.zip copies) :
    s.program.fullName p.2 = space.program.fullName p.1 := by
  obtain ⟨n, hn, hn'⟩ := h.element p hp
  obtain ⟨name, hnamed, -⟩ := h.read.found p.2 (List.of_mem_zip hp).2
  exact fullName_of_encodeType (h.types.named p.1 (List.of_mem_zip hp).1)
    (hnamed.fullName ▸ hnamed) hn hn'

theorem inj {p q : TypeId × TypeId} (hp : p ∈ originals.zip copies) (hq : q ∈ originals.zip copies)
    (hname : s.program.fullName p.2 = s.program.fullName q.2) : p = q := by
  rw [h.fullName hp, h.fullName hq] at hname
  have hfirst : p.1 = q.1 :=
    List.inj_on_of_nodup_map h.types.distinct (List.of_mem_zip hp).1 (List.of_mem_zip hq).1 hname
  refine Prod.ext hfirst ?_
  rw [← copyOf_of_mem h.nodup h.length hp, ← copyOf_of_mem h.nodup h.length hq, hfirst]

theorem type_of_copy (hc : c ∈ copies) : s.type (s.program.fullName c) = .ok c := by
  obtain ⟨name, hnamed, hfound⟩ := h.read.found c hc
  obtain ⟨other, hother⟩ := Option.isSome_iff_exists.mp hfound
  obtain ⟨t, hp⟩ := h.exists_original hc
  obtain ⟨t', hq⟩ := h.exists_original (h.read.here name other hother)
  have hsame : (t', other) = (t, c) :=
    h.inj hq hp (by rw [(h.read.ready.here name other hother).2.fullName, hnamed.fullName])
  cases hsame
  rw [hnamed.fullName, Scope.type, hother]

theorem type_eq (ht : Stands space originals t) (hc : s.type (s.program.fullName c) = .ok c)
    (hname : s.program.fullName c = space.program.fullName t) : c = copyOf originals copies t := by
  rcases ht with ht | ⟨hfirst, hnone⟩
  · obtain ⟨copy, hp⟩ := h.exists_copy ht
    rw [hname, ← h.fullName hp, h.type_of_copy (List.of_mem_zip hp).2] at hc
    rw [copyOf_of_mem h.nodup h.length hp]
    exact (Except.ok.inj hc).symm
  · have hout : t ∉ originals := fun ht => hnone (List.mem_map_of_mem ht)
    have hhere : s.here.find? (space.program.fullName t) = none := by
      cases hfound : s.here.find? (space.program.fullName t) with
      | none => rfl
      | some other =>
        obtain ⟨t', hq⟩ := h.exists_original (h.read.here _ other hfound)
        have hother := h.fullName hq
        rw [(h.read.ready.here _ other hfound).2.fullName] at hother
        exact absurd (List.mem_map.mpr ⟨t', (List.of_mem_zip hq).1, hother.symm⟩) hnone
    have hlisted : s.registry.named (space.program.fullName t)
        = space.registry.named (space.program.fullName t) := by
      rw [Registry.named, Registry.named, h.read.listings]
    rw [hname, Scope.type, hhere, hlisted, hfirst] at hc
    rw [copyOf_of_notMem hout]
    exact (Except.ok.inj hc).symm

theorem alike (ht : LegibleType space originals t) :
    Alike space.program s.program t (copyOf originals copies t) := by
  by_cases hmem : t ∈ originals
  · obtain ⟨c, hp⟩ := h.exists_copy hmem
    obtain ⟨n, hn, hn'⟩ := h.element _ hp
    rw [copyOf_of_mem h.nodup h.length hp]
    exact alike_copy h.types h.read ht hmem (List.of_mem_zip hp).2 hn hn'
  · rw [copyOf_of_notMem hmem]
    exact alike_outside h.tidy h.types h.read ht

theorem eq_of_copyOf {o : TypeId} (ho : Stands space originals o)
    (hp : (t, c) ∈ originals.zip copies) (heq : copyOf originals copies o = c) : o = t := by
  by_cases hmem : o ∈ originals
  · obtain ⟨copy, hq⟩ := h.exists_copy hmem
    rw [copyOf_of_mem h.nodup h.length hq] at heq
    exact congrArg Prod.fst (h.inj hq hp (congrArg s.program.fullName heq))
  · rw [copyOf_of_notMem hmem] at heq
    have hlt := space.program.lt_of_isPresent o (ho.named h.tidy h.types).present
    have hnew := h.read.new c (List.of_mem_zip hp).2
    rw [heq] at hlt
    exact absurd hnew (Nat.not_le.mpr hlt)

/-! ### References -/

/-- A method that was found by the words of another one is at its place if these lead there. -/
theorem slot_eq_iff {m m' : MethodId} (hm : LegibleType space originals m.owner)
    (howner : m'.owner = copyOf originals copies m.owner) (hsome : (s.program.method? m').isSome)
    (hfound : s.program.sought? m' = some m') (hname : (s.program.method m').name
      = (space.program.method m).name)
    (hparams : (encodeParameters s.program (s.program.method m').signature).toOption =
      (encodeParameters space.program (space.program.method m).signature).toOption) :
    m'.slot = m.slot ↔ space.program.sought? m = some m := by
  obtain ⟨owner, slot⟩ := m'
  change owner = _ at howner
  subst howner
  have halike := h.alike hm
  refine halike.slot_eq_iff (hm.stands.proper h.tidy h.types) hsome hfound hname fun _ => ?_
  refine types_of_params h.tidy h.types (hm.parameters slot) (hm.parameters m.slot) ?_
  rw [← halike.params slot ((halike.slots slot).symm.trans hsome)]
  exact hparams

theorem reference_iff (hp : (t, c) ∈ originals.zip copies) {x x' : Reference}
    (hx : LegibleType space originals x.owner) (hbinds : s.Binds c x')
    (hwording : wording space.program x = wording s.program x') :
    x' = x.moved (copyOf originals copies) ↔ space.program.Recovers t x := by
  cases x with
  | method m =>
    cases x' with
    | method m' =>
      change LegibleType space originals m.owner at hx
      obtain ⟨declaring, owner, name, types, htype, hm⟩ := hbinds
      obtain ⟨hknown, hnamed⟩ := h.read.ready.type_ok htype
      obtain ⟨rfl, hsome, hfound⟩ := sought?_of_methodOn? (h.read.ready.proper owner hknown) hm
      simp only [wording, Mention.method.injEq, Option.some.injEq] at hwording
      obtain ⟨hfull, hname, hparams⟩ := hwording
      have howner := h.type_eq hx.stands (hnamed.fullName ▸ htype) hfull.symm
      have hslot := h.slot_eq_iff hx howner hsome hfound hname.symm hparams.symm
      rw [Universe.Recovers, ← hslot, Reference.moved, Reference.method.injEq, ← howner]
      exact ⟨congrArg MethodId.slot, fun heq => congrArg (MethodId.mk m'.owner) heq⟩
    | field f' => cases hwording
    | accessor m' => cases hwording
  | accessor m =>
    cases x' with
    | accessor m' =>
      change LegibleType space originals m.owner at hx
      obtain ⟨name, types, hm⟩ := hbinds
      have hc := (List.of_mem_zip hp).2
      obtain ⟨howner, hsome, hfound⟩ :=
        sought?_of_methodOn? (h.read.ready.proper c (.inl (h.read.new c hc))) hm
      simp only [wording, Mention.accessor.injEq, Option.some.injEq] at hwording
      obtain ⟨hname, hparams⟩ := hwording
      have hslot : m.owner = t → (m'.slot = m.slot ↔ space.program.sought? m = some m) :=
          fun ht => by
        refine h.slot_eq_iff hx ?_ hsome hfound hname.symm hparams.symm
        rw [ht, howner]
        exact (copyOf_of_mem h.nodup h.length hp).symm
      rw [Reference.moved, Reference.accessor.injEq]
      constructor
      · intro heq
        have hcopy : copyOf originals copies m.owner = c := by rw [← howner, heq]
        have hplace : m'.slot = m.slot := by rw [heq]
        have ht : m.owner = t := h.eq_of_copyOf hx.stands hp hcopy
        exact ⟨ht, (hslot ht).mp hplace⟩
      · rintro ⟨ht, hsought⟩
        have hplace := (hslot ht).mpr hsought
        rw [ht, copyOf_of_mem h.nodup h.length hp, ← howner, ← hplace]
    | method m' => cases hwording
    | field f' => cases hwording
  | field f =>
    cases x' with
    | field f' =>
      change LegibleType space originals f.owner at hx
      obtain ⟨declaring, owner, name, htype, hf⟩ := hbinds
      obtain ⟨rfl, hfound⟩ := ownField?_of_found hf
      simp only [wording, Mention.field.injEq, Option.some.injEq] at hwording
      obtain ⟨hfull, hname⟩ := hwording
      have howner :=
        h.type_eq hx.stands ((h.read.ready.type_ok htype).2.fullName ▸ htype) hfull.symm
      have hplace := (h.alike hx).ownField? (space.program.field f).name
      rw [← hname, howner] at hfound
      rw [hplace] at hfound
      obtain ⟨g, hg, heq⟩ := Option.map_eq_some_iff.mp hfound
      have hgowner : g.owner = f.owner := (ownField?_of_found (s := ⟨space.program, {}, []⟩) hg).1
      rw [Universe.Recovers, Reference.moved, Reference.field.injEq]
      show _ ↔ space.program.ownField? f.owner _ = some f
      rw [hg, ← heq, Option.some.injEq]
      constructor
      · intro hsame
        obtain ⟨owner, index⟩ := g
        cases hgowner
        exact congrArg (FieldId.mk f.owner) (congrArg FieldId.index hsame)
      · rintro rfl
        rfl
    | method m' => cases hwording
    | accessor m' => cases hwording

end Copied

/-! ### Modules that were written and read -/

theorem copied_of_load {types loaded : List TypeId} {nodes : List Node} {header : Header}
    {after : Loading} (hspace : Tidy space) (htypes : ModuleTypes space.program types)
    (hnodes : types.mapM (encodeType space.program) = .ok nodes) (hexact : ∀ n ∈ nodes,
      exactTree n = true)
    (hload : (Loading.load ((header.node.append nodes).childrenNamed "type")).start { space }
      = (.ok loaded, after)) :
    Copied space types loaded ⟨after.space.program, space.registry, after.here⟩ := by
  have hnames : ∀ t ∈ types, space.program.UsualNames t :=
    fun t ht => usualNames_of_proper (htypes.proper t ht)
  have hwritten : ∀ n ∈ nodes, Written space.program n := by
    intro n hn
    obtain ⟨t, ht, hencode⟩ := exists_of_mem_mapM hnodes hn
    exact written_of_encodeType (hnames t ht) hencode
  rw [childrenNamed_module header hwritten] at hload
  obtain ⟨hagain, hread⟩ := wp_ok (Loading.wp_loadRead hspace hwritten hexact) hload
  exact ⟨hspace, htypes, hread, (length_mapM hnodes).symm.trans (length_mapM hagain), fun p hp =>
    exists_of_mem_zip hnodes hagain hp⟩

/-- Two lists with the same images are related member by member, if members with one image are. -/
theorem forall₂_of_map {α β γ : Type} {f : α → γ} {g : β → γ} {related : α → β → Prop}
    {items : List α} {items' : List β} (hmap : items.map f = items'.map g)
    (h : ∀ a ∈ items, ∀ b ∈ items', f a = g b → related a b) :
    List.Forall₂ related items items' := by
  have hpairs : List.Forall₂ (fun a b => f a = g b) items items' := by
    rwa [← List.forall₂_map_right_iff, ← List.forall₂_map_left_iff, List.forall₂_eq_eq_eq]
  rw [List.forall₂_iff_zip] at hpairs ⊢
  exact ⟨hpairs.1, fun hp => h _ (List.of_mem_zip hp).1 _ (List.of_mem_zip hp).2 (hpairs.2 hp)⟩

/-- What a type that was read refers to is what the original refers to, in the same order: each
of these references leads to the copy of the member exactly if the words for the member lead to
it. -/
theorem references_copied_iff {types loaded : List TypeId} {nodes : List Node} {header : Header}
    {after : Loading} (hspace : Tidy space) (htypes : ModuleTypes space.program types)
    (hnodes : types.mapM (encodeType space.program) = .ok nodes) (hexact : ∀ n ∈ nodes,
      exactTree n = true)
    (hlegible : ∀ t ∈ types, ∀ x ∈ (space.program.record t).references,
      LegibleType space types x.owner)
    (hload : (Loading.load ((header.node.append nodes).childrenNamed "type")).start { space }
      = (.ok loaded, after)) :
    ∀ p ∈ types.zip loaded,
      List.Forall₂ (fun x x' => x' = x.moved (copyOf types loaded) ↔ space.program.Recovers p.1 x)
        (space.program.record p.1).references (after.space.program.record p.2).references := by
  intro p hp
  have hcopied := copied_of_load hspace htypes hnodes hexact hload
  obtain ⟨ht, hc⟩ := List.of_mem_zip hp
  obtain ⟨n, hn, hn'⟩ := hcopied.element p hp
  have hmentions : mentions n = (space.program.record p.1).references.map (wording space.program) :=
    mentions_of_encodeType (htypes.own p.1 ht) hn
  have hmentions' : mentions n = (after.space.program.record p.2).references.map
    (wording after.space.program) :=
    mentions_of_encodeType (hcopied.read.own p.2 hc) hn'
  refine forall₂_of_map (hmentions.symm.trans hmentions') fun x hx x' hx' hwording => ?_
  exact hcopied.reference_iff hp (hlegible p.1 ht x hx) (hcopied.read.references p.2 hc x' hx')
    hwording

/-! ### A module whose references are kept, and one where they are not -/

/-- Types are written as a module and read back into the same space. -/
def rereading (space : TypeSpace) (types : List TypeId) :
    Except Fault (List Node × List TypeId × Loading) := do
  let nodes ← types.mapM (encodeType space.program)
  let run := (Loading.load ((callingHeader.node.append nodes).childrenNamed "type")).start { space }
  return (nodes, ← run.1, run.2)

theorem steps_of_rereading {types : List TypeId} {r : List Node × List TypeId × Loading}
    (h : rereading space types = .ok r) :
    types.mapM (encodeType space.program) = .ok r.1
      ∧ (Loading.load ((callingHeader.node.append r.1).childrenNamed "type")).start { space }
      = (.ok r.2.1, r.2.2) := by
  obtain ⟨nodes, hnodes, h⟩ := bind_eq_ok.mp h
  obtain ⟨loaded, hloaded, h⟩ := bind_eq_ok.mp h
  obtain rfl := Except.ok.inj h
  exact ⟨hnodes, Prod.ext hloaded rfl⟩

theorem rereading_calling :
    (rereading (callingSpace .typeInitializer []) [⟨0⟩, ⟨1⟩]).toOption.map (fun r => exactTrees r.1)
    = some true := by
  decide +kernel

theorem moduleTypes_calling :
    ModuleTypes (callingSpace .typeInitializer []).program [⟨0⟩, ⟨1⟩] := by
  have hlisted : ∀ t ∈ [TypeId.mk 0, TypeId.mk 1],
      ∃ l ∈ (callingSpace .typeInitializer []).registry.listings, l.type = t := by
    decide
  have hown : ∀ t ∈ [TypeId.mk 0, TypeId.mk 1],
    ((callingSpace .typeInitializer []).program.record t).initializer =
      ((callingSpace .typeInitializer []).program.record t).ownInitializer.map fun _ =>
      ⟨t, .typeInitializer⟩ := by
    decide
  refine ⟨fun t ht => ?_, fun t ht => ?_, hown, by decide⟩
  · obtain ⟨l, hl, rfl⟩ := hlisted t ht
    have hnamed := tidy_callingSpace.named l hl
    rwa [hnamed.fullName]
  · obtain ⟨l, hl, rfl⟩ := hlisted t ht
    exact tidy_callingSpace.proper l hl

theorem legible_calling : LegibleType (callingSpace .typeInitializer []) [⟨0⟩, ⟨1⟩] ⟨0⟩ := by
  refine ⟨.inl List.mem_cons_self, fun slot g hg => ?_⟩
  -- the only parameter of a method of the type is a number
  rcases slot with (_ | index) | index | _
  · rw [List.mem_singleton.mp (show g ∈ [Signature.i4] from hg)]
    trivial
  all_goals exact absurd hg List.not_mem_nil

/-- When both types have been read, the copy of `App.K` calls the type initializer of the copy of
`App.X`. -/
theorem references_copied_initializer : ∃ nodes loaded after,
    [⟨0⟩, ⟨1⟩].mapM (encodeType (callingSpace .typeInitializer []).program) = .ok nodes
      ∧ (Loading.load ((callingHeader.node.append nodes).childrenNamed "type")).start
      { space := callingSpace .typeInitializer [] } =
        (.ok loaded, after)
      ∧ ∀ p ∈ [⟨0⟩, ⟨1⟩].zip loaded,
        List.Forall₂ (fun x x' => x' = x.moved (copyOf [⟨0⟩, ⟨1⟩] loaded) ↔
          (callingSpace .typeInitializer []).program.Recovers p.1 x)
          ((callingSpace .typeInitializer []).program.record p.1).references
          (after.space.program.record p.2).references := by
  obtain ⟨r, hrun, hexact⟩ := exists_of_toOption_map rereading_calling
  obtain ⟨hnodes, hload⟩ := steps_of_rereading hrun
  have hlegible : ∀ t ∈ [TypeId.mk 0, TypeId.mk 1],
    ∀ x ∈ ((callingSpace .typeInitializer []).program.record t).references,
      LegibleType (callingSpace .typeInitializer []) [⟨0⟩, ⟨1⟩] x.owner := by
    intro t ht x hx
    have howner : ∀ t ∈ [TypeId.mk 0, TypeId.mk 1],
      ∀ x ∈ ((callingSpace .typeInitializer []).program.record t).references,
        x.owner = ⟨0⟩ := by decide
    rw [howner t ht x hx]
    exact legible_calling
  exact ⟨r.1, r.2.1, r.2.2, hnodes, hload,
    references_copied_iff tidy_callingSpace moduleTypes_calling hnodes
    (exactTrees_iff.mp hexact) hlegible hload⟩

/-- The types of a module that was generated; full names tell them from each other and from all
that is listed. -/
structure GeneratedTypes (space : TypeSpace) (types : List TypeId) : Prop where
  generated : ∃ (w : World) (place : Nat) (output : Array TypeId) (g : Generated), w.Reachable
    ∧ w.outcome place output = .ok g
    ∧ (w.after (.generate place output)).space = space ∧ g.types.map (·.2) = types
  distinct : (types.map space.program.fullName).Nodup
  unused : ∀ t ∈ types, ∀ l ∈ space.registry.listings, l.name = space.program.fullName t →
    l.type = t

/-- Whatever is generated, when it has been written and read its types refer to the copies of
what they referred to. -/
def ReferencesKept : Prop :=
  ∀ (space : TypeSpace) (types : List TypeId) (nodes : List Node) (header : Header)
    (loaded : List TypeId) (after : Loading),
    GeneratedTypes space types →
    types.mapM (encodeType space.program) = .ok nodes →
    (Loading.load ((header.node.append nodes).childrenNamed "type")).start { space }
      = (.ok loaded, after) →
    ∀ p ∈ types.zip loaded, (after.space.program.record p.2).references =
      (space.program.record p.1).references.map (Reference.moved (copyOf types loaded))

/-- A class has a method of the name of a base method that returns something else, and then an
override of that one. -/
def shadowingMoves : List Move :=
  [.build (({ space := "App", name := "A" } : ClassSpec).isPublic.method "M"
      ((({} : MethodSpec).virtual.returning .string).withBody (.fixed (.constant (.string "a"))))),
    .openBatch, .edit 0 (.createType "App" "B" TypeFlags.isPublic (some (.ofClass ⟨3⟩))),
    .edit 0 (.addMethod ⟨0⟩ "M" (MethodFlags.isPublic ||| MethodFlags.hideBySig) { returns := .i4 }
      (some (.constant (.i4 1)))),
    .edit 0 (.overrideMethod ⟨0⟩ ⟨⟨3⟩, .method 0⟩)]

def shadowingSpace : TypeSpace := ((World.fresh.run shadowingMoves).after (.generate 0 #[])).space

theorem generated_shadowing :
    ((World.fresh.run shadowingMoves).outcome 0 #[]).toOption.map (fun g => g.types.map (·.2))
    = some [⟨4⟩] := by
  decide +kernel

theorem rereading_shadowing :
    (rereading shadowingSpace [⟨4⟩]).toOption.map (fun r => decide (∀ p ∈ [⟨4⟩].zip r.2.1,
    (r.2.2.space.program.record p.2).references =
      (shadowingSpace.program.record p.1).references.map (Reference.moved (copyOf [⟨4⟩] r.2.1))))
      = some false := by
  decide +kernel

/-- In the copy of `App.B` the method that was read first takes the place of the override. -/
theorem not_referencesKept : ¬ ReferencesKept := by
  intro hkept
  obtain ⟨g, hg, htypes⟩ := exists_of_toOption_map generated_shadowing
  obtain ⟨r, hrun, hdiffer⟩ := exists_of_toOption_map rereading_shadowing
  obtain ⟨hnodes, hload⟩ := steps_of_rereading hrun
  have hgenerated : GeneratedTypes shadowingSpace [⟨4⟩] := by
    refine ⟨⟨_, 0, #[], g, World.later_run shadowingMoves (by decide +kernel), hg, rfl, htypes⟩, by
      decide +kernel, ?_⟩
    decide +kernel
  exact of_decide_eq_false hdiffer (hkept _ _ _ _ _ _ hgenerated hnodes hload)

end Artifact

end TypeLoom
