import Mathlib.Data.List.Nodup
import TypeLoom.Proofs.ReadModules

/-!
# Members by their words

The words of a reference lead to the first member with the same name and parameters, which may be
another one. In types that are alike they lead to the same place. The text of the parameters stands
for them if full names stand for types.
-/

namespace TypeLoom

/-! ### Members by their words -/

/-- The member that is found by the name and the parameters of a member, on the type of this
member. -/
def Universe.sought? (u : Universe) (m : MethodId) : Option MethodId :=
  Artifact.Scope.methodOn? ⟨u, {}, []⟩ m.owner (u.method m).name (u.method m).signature.types

/-- The member that is referred to is found by its words. An accessor is looked for on the type
itself. -/
def Universe.Recovers (u : Universe) (t : TypeId) : Reference → Prop
  | .method m => u.sought? m = some m
  | .field f => u.ownField? f.owner (u.field f).name = some f
  | .accessor m => m.owner = t ∧ u.sought? m = some m

namespace Artifact

open Markup

variable {s : Scope} {first : Nat} {t o : TypeId} {m : MethodId} {f : FieldId} {name : String}
  {types : List Signature}

theorem sought?_of_methodOn? (hproper : (s.program.record t).Proper t)
    (hm : s.methodOn? t name types = some m) :
    m.owner = t ∧ (s.program.method? m).isSome ∧ s.program.sought? m = some m := by
  unfold Scope.methodOn? at hm
  dsimp only at hm
  split at hm
  · have hamong : ∀ m ∈ s.program.constructorsOf t, m.owner = t ∧ (s.program.method? m).isSome :=
        fun m hm =>
          ⟨s.program.owner_of_mem_constructorsOf hm, s.program.isSome_of_mem_constructorsOf hm⟩
    obtain ⟨howner, hr, hfits⟩ := method?_of_find? hamong hm
    obtain ⟨index, -, rfl⟩ := List.mem_map.mp (List.mem_of_find?_eq_some hm)
    refine ⟨howner, by rw [hr]; rfl, ?_⟩
    have hname : (s.program.method ⟨t, .constructor index⟩).name = ".ctor" :=
      hproper.constructors index _ hr
    rw [Universe.sought?, hname, show (s.program.method ⟨t, .constructor index⟩).signature.types
      = types by simpa using hfits]
    exact hm
  split at hm
  · obtain ⟨howner, c, hc, hname, -⟩ := hproper.initializer m hm
    have hr : s.program.method? m = some c := by rw [Universe.method?, howner, hc]
    refine ⟨howner, by rw [hr]; rfl, ?_⟩
    have hname' : (s.program.method m).name = ".cctor" := by
      rw [Universe.method, hr, Option.getD_some, hname]
    rw [Universe.sought?, hname', howner]
    exact hm
  · rename_i hctor hcctor
    have hamong : ∀ m ∈ s.program.methodsOf t, m.owner = t ∧ (s.program.method? m).isSome :=
        fun m hm =>
          ⟨s.program.owner_of_mem_methodsOf hm, s.program.isSome_of_mem_methodsOf hm⟩
    obtain ⟨howner, hr, hfits⟩ := method?_of_find? hamong hm
    simp only [Bool.and_eq_true, beq_iff_eq] at hfits
    refine ⟨howner, by rw [hr]; rfl, ?_⟩
    rw [Universe.sought?, hfits.1, hfits.2, howner, Scope.methodOn?]
    dsimp only
    rw [if_neg hctor, if_neg hcctor]
    exact hm

theorem ownField?_of_found (hf : s.program.ownField? t name = some f) :
    f.owner = t ∧ s.program.ownField? f.owner (s.program.field f).name = some f := by
  obtain ⟨index, -, rfl⟩ := List.mem_map.mp (List.mem_of_find?_eq_some hf)
  refine ⟨rfl, ?_⟩
  rw [show (s.program.field ⟨t, index⟩).name = name by simpa using List.find?_some hf]
  exact hf

/-! ### Types that are alike -/

variable {u u' : Universe} {o' : TypeId} {a b : Slot} {n : Node}

/-- Two types have the same members at the same places, as far as words tell. -/
structure Alike (u u' : Universe) (o o' : TypeId) : Prop where
  slots : ∀ slot, (u'.method? ⟨o', slot⟩).isSome = (u.method? ⟨o, slot⟩).isSome
  name : ∀ slot, (u'.method ⟨o', slot⟩).name = (u.method ⟨o, slot⟩).name
  params : ∀ slot, (u.method? ⟨o, slot⟩).isSome →
    encodeParameters u' (u'.method ⟨o', slot⟩).signature
    = encodeParameters u (u.method ⟨o, slot⟩).signature
  types : ∀ a b, (u.method? ⟨o, a⟩).isSome → (u.method? ⟨o, b⟩).isSome →
    ((u'.method ⟨o', a⟩).signature.types = (u'.method ⟨o', b⟩).signature.types ↔
      (u.method ⟨o, a⟩).signature.types = (u.method ⟨o, b⟩).signature.types)
  initializer : (u'.record o').initializer = (u.record o).initializer.map fun m => ⟨o', m.slot⟩
  fields : ∀ index, (u'.field? ⟨o', index⟩).map FieldRecord.name
    = (u.field? ⟨o, index⟩).map FieldRecord.name

namespace Alike

variable (h : Alike u u' o o')
include h

theorem size_methods : (u'.record o').methods.size = (u.record o).methods.size :=
  Nat.le_antisymm (size_le_of_getElem? fun index hindex =>
    (h.slots (.method index)).symm.trans hindex)
    (size_le_of_getElem? fun index hindex => (h.slots (.method index)).trans hindex)

theorem size_constructors : (u'.record o').constructors.size = (u.record o).constructors.size :=
  Nat.le_antisymm (size_le_of_getElem? fun index hindex =>
    (h.slots (.constructor index)).symm.trans hindex)
    (size_le_of_getElem? fun index hindex => (h.slots (.constructor index)).trans hindex)

theorem size_fields : (u'.record o').fields.size = (u.record o).fields.size := by
  have hsome : ∀ index : Nat, ((u'.record o').fields[index]?).isSome
      = ((u.record o).fields[index]?).isSome := fun index => by
    have hname := congrArg Option.isSome (h.fields index)
    rwa [Option.isSome_map, Option.isSome_map] at hname
  exact Nat.le_antisymm (size_le_of_getElem? fun index hindex => (hsome index).symm.trans hindex)
    (size_le_of_getElem? fun index hindex => (hsome index).trans hindex)

theorem fits (ha : (u.method? ⟨o, a⟩).isSome) (hb : (u.method? ⟨o, b⟩).isSome) :
    ((u'.method ⟨o', b⟩).signature.types == (u'.method ⟨o', a⟩).signature.types) =
      ((u.method ⟨o, b⟩).signature.types == (u.method ⟨o, a⟩).signature.types) := by
  rw [Bool.eq_iff_iff, beq_iff_eq, beq_iff_eq]
  exact h.types b a hb ha

/-- The words of a member lead to the same place in both types. -/
theorem sought? (ha : (u.method? ⟨o, a⟩).isSome) :
    u'.sought? ⟨o', a⟩ = (u.sought? ⟨o, a⟩).map fun m => ⟨o', m.slot⟩ := by
  rw [Universe.sought?, Universe.sought?, h.name, Scope.methodOn?, Scope.methodOn?]
  dsimp only
  split
  · rw [Universe.constructorsOf, Universe.constructorsOf, h.size_constructors, List.find?_map,
      List.find?_map, Option.map_map]
    refine congrArg (Option.map _) (List.find?_congr fun index hindex => ?_)
    exact h.fits ha (u.isSome_of_mem_constructorsOf (List.mem_map_of_mem hindex))
  split
  · exact h.initializer
  · rw [Universe.methodsOf, Universe.methodsOf, h.size_methods, List.find?_map,
      List.find?_map, Option.map_map]
    refine congrArg (Option.map _) (List.find?_congr fun index hindex => ?_)
    show ((u'.method ⟨o', .method index⟩).name == _ && _)
      = ((u.method ⟨o, .method index⟩).name == _ && _)
    rw [h.name, h.fits ha (u.isSome_of_mem_methodsOf (List.mem_map_of_mem hindex))]

theorem ownField? (name : String) : u'.ownField? o' name = (u.ownField? o name).map fun f =>
    ⟨o', f.index⟩ := by
  rw [Universe.ownField?, Universe.ownField?, Universe.fieldsOf, Universe.fieldsOf, h.size_fields,
    List.find?_map, List.find?_map,
    Option.map_map]
  refine congrArg (Option.map _) (List.find?_congr fun index hindex => ?_)
  have hname : (u'.field ⟨o', index⟩).name = (u.field ⟨o, index⟩).name := by
    have hfields := h.fields index
    have hsome : (u.field? ⟨o, index⟩).isSome := by
      simpa [Universe.field?] using List.mem_range.mp hindex
    obtain ⟨r, hr⟩ := Option.isSome_iff_exists.mp hsome
    rw [hr, Option.map_some, Option.map_eq_some_iff] at hfields
    obtain ⟨r', hr', heq⟩ := hfields
    rw [Universe.field, Universe.field, hr, hr', Option.getD_some, Option.getD_some, heq]
  show ((u'.field ⟨o', index⟩).name == name) = ((u.field ⟨o, index⟩).name == name)
  rw [hname]

/-- A method of one type is at the place of a method of the other with the same words exactly if
these lead there. -/
theorem slot_eq_iff (hproper : (u.record o).Proper o) (hb : (u'.method? ⟨o', b⟩).isSome)
    (hfound : u'.sought? ⟨o', b⟩ = some ⟨o', b⟩)
    (hname : (u'.method ⟨o', b⟩).name = (u.method ⟨o, a⟩).name)
    (htypes : (u.method? ⟨o, a⟩).isSome → (u.method ⟨o, b⟩).signature.types
      = (u.method ⟨o, a⟩).signature.types) :
    b = a ↔ u.sought? ⟨o, a⟩ = some ⟨o, a⟩ := by
  constructor
  · rintro rfl
    have hold : (u.method? ⟨o, b⟩).isSome := (h.slots b).symm.trans hb
    rw [h.sought? hold, Option.map_eq_some_iff] at hfound
    obtain ⟨m, hm, heq⟩ := hfound
    obtain ⟨howner, -, -⟩ := sought?_of_methodOn? (s := ⟨u, {}, []⟩) hproper hm
    rw [hm]
    obtain ⟨owner, slot⟩ := m
    cases heq
    exact congrArg (fun owner => some (MethodId.mk owner slot)) howner
  · intro hsought
    obtain ⟨-, ha, -⟩ := sought?_of_methodOn? (s := ⟨u, {}, []⟩) hproper hsought
    have hold : (u.method? ⟨o, b⟩).isSome := (h.slots b).symm.trans hb
    have hplace : u'.sought? ⟨o', a⟩ = some ⟨o', a⟩ := by
      rw [h.sought? ha, hsought, Option.map_some]
    have hsame : u'.sought? ⟨o', b⟩ = u'.sought? ⟨o', a⟩ := by
      rw [Universe.sought?, Universe.sought?, (h.types b a hold ha).mpr (htypes ha),
        hname, ← h.name a]
    rw [hfound, hplace] at hsame
    exact congrArg MethodId.slot (Option.some.inj hsame)

end Alike

/-! ### Texts of parameters -/

theorem splitOn_of_intercalate {texts : List String} (h : ∀ x ∈ texts, ';' ∉ x.toList)
    (hne : texts ≠ []) :
    (";".intercalate texts).toList.splitOn ';' = texts.map String.toList := by
  rw [String.toList_intercalate]
  refine List.splitOn_intercalate ';' (fun x hx => ?_) (by simpa using hne)
  obtain ⟨text, htext, rfl⟩ := List.mem_map.mp hx
  exact h text htext

/-- Texts without semicolons can be told from the text between semicolons. -/
theorem eq_of_intercalate {texts texts' : List String} (h : ∀ x ∈ texts, x ≠ "" ∧ ';' ∉ x.toList)
    (h' : ∀ x ∈ texts', x ≠ "" ∧ ';' ∉ x.toList)
    (heq : ";".intercalate texts = ";".intercalate texts') : texts = texts' := by
  have hnil : ∀ ys : List String, (∀ x ∈ ys, x ≠ "" ∧ ';' ∉ x.toList) →
      ";".intercalate ys = "" → ys = [] := by
    intro ys hys hempty
    by_contra hne
    have hsplit := splitOn_of_intercalate (fun x hx => (hys x hx).2) hne
    rw [hempty] at hsplit
    cases ys with
    | nil => exact hne rfl
    | cons y ys =>
      have hfirst : [] = y.toList := List.head_eq_of_cons_eq hsplit
      exact (hys y List.mem_cons_self).1 (String.toList_inj.mp (hfirst.symm.trans rfl))
  by_cases hempty : texts = []
  · subst hempty
    exact (hnil texts' h' heq.symm).symm
  · have hother : texts' ≠ [] := by
      rintro rfl
      exact hempty (hnil texts h heq)
    have hsplit := splitOn_of_intercalate (fun x hx => (h x hx).2) hempty
    rw [heq, splitOn_of_intercalate (fun x hx => (h' x hx).2) hother] at hsplit
    exact ((List.map_injective_iff.mpr fun _ _ => String.toList_inj.mp) hsplit).symm

def keywords : List String := ["void", "bool", "int32", "int64", "float64", "string", "object"]

theorem text_of_encodeSignature {g : Signature} {text : String}
    (hg : encodeSignature u g = .ok text) :
    (∃ c, g = .ofClass c ∧ text = "class:" ++ u.fullName c)
    ∨ (text ∈ keywords ∧ Signature.ofKeyword? text = some g) := by
  cases g with
  | ofClass c =>
    change (if u.isPresent c then Except.ok ("class:" ++ u.fullName c) else _) = .ok text at hg
    split at hg
    · cases hg
      exact .inl ⟨c, rfl, rfl⟩
    · cases hg
  | draft handle => cases hg
  | void | boolean | i4 | i8 | r8 | string | object =>
    cases hg
    exact .inr (by decide)

theorem class_not_keyword (name : String) : "class:" ++ name ∉ keywords := by
  intro hmem
  have htoList := List.mem_map_of_mem (f := String.toList) hmem
  simp [keywords] at htoList

theorem signature_of_text {g g' : Signature} {text : String} (hg : encodeSignature u g = .ok text)
    (hg' : encodeSignature u g' = .ok text)
    (hnames : ∀ c c', g = .ofClass c → g' = .ofClass c' → u.fullName c = u.fullName c' → c = c') :
    g = g' := by
  rcases text_of_encodeSignature hg with ⟨c, rfl, rfl⟩ | ⟨hkeyword, hplain⟩
  · rcases text_of_encodeSignature hg' with ⟨c', rfl, htext⟩ | ⟨hkeyword, -⟩
    · have hname : u.fullName c = u.fullName c' := (String.append_right_inj _).mp htext
      rw [hnames c c' rfl rfl hname]
    · exact absurd hkeyword (class_not_keyword _)
  · rcases text_of_encodeSignature hg' with ⟨c', rfl, rfl⟩ | ⟨-, hplain'⟩
    · exact absurd hkeyword (class_not_keyword _)
    · exact Option.some.inj (hplain.symm.trans hplain')

theorem types_of_texts {types types' : List Signature} {texts : List String}
    (h : types.mapM (encodeSignature u) = .ok texts)
    (h' : types'.mapM (encodeSignature u) = .ok texts) (hnames : ∀ c c', .ofClass c ∈ types →
        .ofClass c' ∈ types' → u.fullName c = u.fullName c' → c = c') : types = types' := by
  induction types generalizing types' texts with
  | nil =>
    cases h
    exact (List.length_eq_zero_iff.mp (length_mapM h').symm).symm
  | cons g types ih =>
    obtain ⟨text, rest, hg, hrest, rfl⟩ := mapM_cons_eq_ok.mp h
    cases types' with
    | nil => cases h'
    | cons g' types' =>
      obtain ⟨text', rest', hg', hrest', heq⟩ := mapM_cons_eq_ok.mp h'
      cases heq
      rw [signature_of_text hg hg' fun c c' hc hc' =>
        hnames c c' (hc ▸ List.mem_cons_self) (hc' ▸ List.mem_cons_self),
        ih hrest hrest' fun c c' hc hc' =>
        hnames c c' (List.mem_cons_of_mem _ hc) (List.mem_cons_of_mem _ hc')]

/-! ### Modules -/

/-- Types that make up a module: no two have one full name, their constructors and type
initializers are named as usual. -/
structure ModuleTypes (u : Universe) (types : List TypeId) : Prop where
  named : ∀ t ∈ types, u.Named t (u.fullName t)
  proper : ∀ t ∈ types, (u.record t).Proper t
  own : ∀ t ∈ types, (u.record t).OwnInitializer t
  distinct : (types.map u.fullName).Nodup

/-- The full name of the type stands for it: it is a type of the module, or listed before all
others of the name, of which none is in the module. -/
def Stands (space : TypeSpace) (types : List TypeId) (t : TypeId) : Prop :=
  t ∈ types ∨ (space.registry.named (space.program.fullName t)).head? = some t
    ∧ space.program.fullName t ∉ types.map space.program.fullName

/-- The text of the signature stands for it, also between semicolons. -/
def Legible (space : TypeSpace) (types : List TypeId) : Signature → Prop
  | .ofClass c => Stands space types c ∧ ';' ∉ (space.program.fullName c).toList
  | .draft _ => False
  | _ => True

/-- References to members of the type can be read: its full name stands for it, and so do the
texts of the parameters of its members for these. -/
structure LegibleType (space : TypeSpace) (types : List TypeId) (o : TypeId) : Prop where
  stands : Stands space types o
  parameters : ∀ slot, ∀ g ∈ (space.program.method ⟨o, slot⟩).signature.types, Legible space types g

variable {space : TypeSpace} {originals copies : List TypeId}

theorem Stands.inj (hmodule : ModuleTypes space.program originals) {c c' : TypeId}
    (h : Stands space originals c) (h' : Stands space originals c')
    (hname : space.program.fullName c = space.program.fullName c') : c = c' := by
  rcases h with hc | ⟨hfirst, hnone⟩
  · rcases h' with hc' | ⟨-, hnone'⟩
    · exact List.inj_on_of_nodup_map hmodule.distinct hc hc' hname
    · exact absurd (hname ▸ List.mem_map_of_mem hc) hnone'
  · rcases h' with hc' | ⟨hfirst', -⟩
    · exact absurd (hname ▸ List.mem_map_of_mem hc') hnone
    · rw [hname, hfirst'] at hfirst
      exact (Option.some.inj hfirst).symm

/-- A type whose full name stands for it is in the module or listed. -/
theorem Stands.known (h : Stands space originals t) :
    t ∈ originals ∨ ∃ l ∈ space.registry.listings, l.type = t
    ∧ l.name = space.program.fullName t := by
  refine h.imp_right fun ⟨hfirst, _⟩ => ?_
  have hmem := List.mem_of_head? hfirst
  simp only [Registry.named, List.mem_map, List.mem_filter, beq_iff_eq] at hmem
  obtain ⟨l, ⟨hl, hname⟩, htype⟩ := hmem
  exact ⟨l, Array.mem_toList_iff.mp hl, htype, hname⟩

theorem Stands.named (hspace : Tidy space) (hmodule : ModuleTypes space.program originals)
    (h : Stands space originals t) :
    space.program.Named t (space.program.fullName t) := by
  rcases h.known with ht | ⟨l, hl, rfl, hname⟩
  · exact hmodule.named t ht
  · rw [← hname]
    exact hspace.named l hl

theorem Stands.proper (hspace : Tidy space) (hmodule : ModuleTypes space.program originals)
    (h : Stands space originals t) :
    (space.program.record t).Proper t := by
  rcases h.known with ht | ⟨l, hl, rfl, -⟩
  · exact hmodule.proper t ht
  · exact hspace.proper l hl

theorem texts_of_legible (hspace : Tidy space) (hmodule : ModuleTypes space.program originals)
    {types : List Signature} (h : ∀ g ∈ types, Legible space originals g) :
    ∃ texts, types.mapM (encodeSignature space.program) = .ok texts ∧ ∀ x ∈ texts, x ≠ ""
        ∧ ';' ∉ x.toList := by
  induction types with
  | nil => exact ⟨[], rfl, nofun⟩
  | cons g types ih =>
    obtain ⟨hg, htypes⟩ := List.forall_mem_cons.mp h
    obtain ⟨texts, htexts, hclean⟩ := ih htypes
    have htext : ∃ text, encodeSignature space.program g = .ok text ∧ text ≠ ""
        ∧ ';' ∉ text.toList := by
      cases g with
      | ofClass c =>
        obtain ⟨hstands, hname⟩ := hg
        refine ⟨"class:" ++ space.program.fullName c, if_pos (hstands.named hspace hmodule).present,
          by simp, ?_⟩
        simp [hname]
      | draft handle => exact hg.elim
      | void | boolean | i4 | i8 | r8 | string | object => exact ⟨_, rfl, by decide⟩
    obtain ⟨text, hencode, hfirst⟩ := htext
    exact ⟨text :: texts, mapM_cons_eq_ok.mpr ⟨text, texts, hencode, htexts, rfl⟩,
      List.forall_mem_cons.mpr ⟨hfirst, hclean⟩⟩

theorem types_of_legible (hmodule : ModuleTypes space.program originals)
    {types types' : List Signature} {texts : List String}
    (h : ∀ g ∈ types, Legible space originals g) (h' : ∀ g ∈ types', Legible space originals g)
    (htexts : types.mapM (encodeSignature space.program) = .ok texts)
    (htexts' : types'.mapM (encodeSignature space.program) = .ok texts) : types = types' :=
  types_of_texts htexts htexts' fun _ _ hc hc' hname => (h _ hc).1.inj hmodule (h' _ hc').1 hname

theorem types_of_params (hspace : Tidy space) (hmodule : ModuleTypes space.program originals)
    {g g' : MethodSignature} (h : ∀ x ∈ g.types, Legible space originals x)
    (h' : ∀ x ∈ g'.types, Legible space originals x)
    (hparams : (encodeParameters space.program g).toOption
      = (encodeParameters space.program g').toOption) : g.types = g'.types := by
  obtain ⟨texts, htexts, hclean⟩ := texts_of_legible hspace hmodule h
  obtain ⟨texts', htexts', hclean'⟩ := texts_of_legible hspace hmodule h'
  rw [encodeParameters, encodeParameters, htexts, htexts'] at hparams
  have hsame : texts = texts' := eq_of_intercalate hclean hclean' (Option.some.inj hparams)
  exact types_of_legible hmodule h h' htexts (hsame ▸ htexts')

end Artifact

end TypeLoom
