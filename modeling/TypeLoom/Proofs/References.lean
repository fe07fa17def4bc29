import TypeLoom.Artifact.Encode
import TypeLoom.Artifact.Reference
import TypeLoom.Proofs.Extending
import TypeLoom.Proofs.Numerals

/-!
# References read back

What a reference resolves to is written as the same text again: now, and when more has been added to
the universe. This holds in scopes whose types still have the names that they are found under, and
in which the names of constructors and type initializers are the usual ones.
-/

namespace TypeLoom

/-- Constructors are called `.ctor`; the type initializer is a member, is called `.cctor` and
takes nothing. -/
structure TypeRecord.Proper (r : TypeRecord) (t : TypeId) : Prop where
  constructors : ∀ (index : Nat) (c : MethodRecord), r.constructors[index]? = some c →
    c.name = ".ctor"
  initializer : ∀ m : MethodId, r.initializer = some m →
    m.owner = t ∧ ∃ c : MethodRecord, r.method? m.slot = some c ∧ c.name = ".cctor"
    ∧ c.signature.parameters = []

theorem TypeRecord.Proper.keep {r r' : TypeRecord} {t : TypeId} (h : r.Proper t)
    (hk : TypeRecord.Keeps r r')
    (hconstructors : ∀ (index : Nat) (c : MethodRecord), r'.constructors[index]? = some c →
      c.name = ".ctor" ∨ ∃ c' : MethodRecord, r.constructors[index]? = some c' ∧ c.name = c'.name)
    (hinitializer : r'.initializer = r.initializer) : r'.Proper t := by
  refine ⟨fun index c hc => ?_, fun m hm => ?_⟩
  · rcases hconstructors index c hc with hname | ⟨c', hc', hname⟩
    · exact hname
    · rw [hname]
      exact h.constructors index c' hc'
  · rw [hinitializer] at hm
    obtain ⟨howner, c, hc, hname, hparameters⟩ := h.initializer m hm
    obtain ⟨c', hc', hname', hsignature⟩ := hk.method? hc
    exact ⟨howner, c', hc', hname'.trans hname, by rw [hsignature]; exact hparameters⟩

namespace Artifact

open Markup

def Scope.Known (s : Scope) (first : Nat) (t : TypeId) : Prop :=
  first ≤ t.index ∨ ∃ l ∈ s.registry.listings, l.type = t

/-- Names lead to types that are called so. Types from the first new one on are known, and so are
listed ones. -/
structure Scope.Ready (s : Scope) (first : Nat) : Prop where
  enclosed : s.program.Enclosed
  listed : ∀ l ∈ s.registry.listings, s.program.Named l.type l.name
  here : ∀ name t, s.here.find? name = some t → first ≤ t.index ∧ s.program.Named t name
  proper : ∀ t, s.Known first t → (s.program.record t).Proper t

variable {s : Scope} {first : Nat} {u : Universe} {n : Node} {t : TypeId} {m : MethodId}
  {name text params : String}

/-! ### Types -/

theorem Scope.Ready.type_ok (h : s.Ready first) (ht : s.type name = .ok t) :
    s.Known first t ∧ s.program.Named t name := by
  unfold Scope.type at ht
  split at ht
  · rename_i here hfound
    cases ht
    obtain ⟨hnew, hnamed⟩ := h.here name _ hfound
    exact ⟨.inl hnew, hnamed⟩
  · split at ht
    · rename_i listed hfound
      cases ht
      have hmem := List.mem_of_head? hfound
      simp only [Registry.named, List.mem_map, List.mem_filter, beq_iff_eq] at hmem
      obtain ⟨l, ⟨hl, hname⟩, rfl⟩ := hmem
      rw [Array.mem_toList_iff] at hl
      refine ⟨.inr ⟨l, hl, rfl⟩, ?_⟩
      rw [← hname]
      exact h.listed l hl
    · cases ht

theorem encodeSignature_of_ofKeyword? {plain : Signature}
    (h : Signature.ofKeyword? text = some plain) :
    encodeSignature u plain = .ok text := by
  have hkeyword : plain.keyword = text := by simpa using List.find?_some h
  have hmem := List.mem_of_find?_eq_some h
  rw [← hkeyword]
  simp only [List.mem_cons, List.not_mem_nil, or_false] at hmem
  rcases hmem with rfl | rfl | rfl | rfl | rfl | rfl | rfl
  all_goals rfl

section Printing

variable (h : s.Ready first) (hu : s.program.Extends u)
include h hu

theorem encodeSignature_of_signature {signature : Signature}
    (hs : s.signature text = .ok signature) :
    encodeSignature u signature = .ok text := by
  unfold Scope.signature at hs
  split at hs
  · rename_i plain hplain
    cases hs
    exact encodeSignature_of_ofKeyword? hplain
  · split at hs
    · rename_i hclass
      cases ht : s.type (String.ofList (text.toList.drop 6)) with
      | error f =>
        rw [ht] at hs
        cases hs
      | ok t =>
        rw [ht] at hs
        cases hs
        have hnamed := (h.type_ok ht).2.extend h.enclosed hu
        obtain ⟨rest, hrest⟩ := List.isPrefixOf_iff_prefix.mp hclass
        have htext : "class:" ++ String.ofList (text.toList.drop 6) = text := by
          apply String.toList_inj.mp
          simp [← hrest]
        rw [encodeSignature, if_pos hnamed.present, hnamed.fullName, htext]
    · cases hs

/-- The signatures between semicolons are written between semicolons. -/
theorem encodeSignatures_of_signatures {types : List Signature}
    (hs : s.signatures params = .ok types) :
    ∃ texts, types.mapM (encodeSignature u) = .ok texts ∧ ";".intercalate texts = params := by
  unfold Scope.signatures at hs
  split at hs
  · rename_i hempty
    cases hs
    exact ⟨[], rfl, (String.isEmpty_iff.mp hempty).symm⟩
  · refine ⟨(params.toList.splitOn ';').map String.ofList, ?_, ?_⟩
    · exact mapM_inverse hs fun text _ signature hsignature =>
        encodeSignature_of_signature h hu hsignature
    · apply String.toList_inj.mp
      rw [String.toList_intercalate, List.map_map]
      simp [Function.comp_def, List.intercalate_splitOn]

end Printing

/-! ### Members -/

theorem method?_of_find? {among : List MethodId} {fits : MethodId → Bool}
    (hamong : ∀ m ∈ among, m.owner = t ∧ (s.program.method? m).isSome)
    (hm : among.find? fits = some m) :
    m.owner = t ∧ s.program.method? m = some (s.program.method m) ∧ fits m = true := by
  obtain ⟨howner, hsome⟩ := hamong m (List.mem_of_find?_eq_some hm)
  obtain ⟨r, hr⟩ := Option.isSome_iff_exists.mp hsome
  refine ⟨howner, ?_, List.find?_some hm⟩
  rw [Universe.method, hr, Option.getD_some]

/-- The method that an element names, as far as the element tells: its name, and its parameters
as they are written. -/
structure Denotes (u : Universe) (m : MethodId) (name params : String) : Prop where
  name : (u.method m).name = name
  params : encodeParameters u (u.method m).signature = .ok params

section Printing

variable (h : s.Ready first) (hu : s.program.Extends u)
include h hu

theorem denotes_of_types {r : MethodRecord} {types : List Signature}
    (hr : s.program.method? m = some r) (hname : r.name = name) (htypes : r.signature.types = types)
    (hs : s.signatures params = .ok types) : Denotes u m name params := by
  obtain ⟨r', hr', hname', hsignature⟩ := hu.method? hr
  have hmethod : u.method m = r' := by rw [Universe.method, hr', Option.getD_some]
  obtain ⟨texts, htexts, hparams⟩ := encodeSignatures_of_signatures h hu hs
  refine ⟨by rw [hmethod, hname', hname], ?_⟩
  rw [hmethod, hsignature, encodeParameters, htypes, htexts]
  exact congrArg Except.ok hparams

theorem denotes_of_methodOn? {types : List Signature} (hproper : (s.program.record t).Proper t)
    (hinitializer : name = ".cctor" → params = "") (hs : s.signatures params = .ok types)
    (hm : s.methodOn? t name types = some m) : m.owner = t ∧ Denotes u m name params := by
  unfold Scope.methodOn? at hm
  split at hm
  · rename_i hctor
    have hamong : ∀ m ∈ s.program.constructorsOf t, m.owner = t ∧ (s.program.method? m).isSome :=
        fun m hm =>
          ⟨s.program.owner_of_mem_constructorsOf hm, s.program.isSome_of_mem_constructorsOf hm⟩
    have hmem := List.mem_of_find?_eq_some hm
    obtain ⟨howner, hr, hfits⟩ := method?_of_find? hamong hm
    obtain ⟨index, -, rfl⟩ := List.mem_map.mp hmem
    refine ⟨howner, denotes_of_types h hu hr ?_ (by simpa using hfits) hs⟩
    rw [hctor]
    exact hproper.constructors index _ hr
  split at hm
  · rename_i hcctor
    obtain ⟨howner, c, hc, hcname, hcparameters⟩ := hproper.initializer m hm
    have hr : s.program.method? m = some c := by rw [Universe.method?, howner, hc]
    refine ⟨howner, denotes_of_types h hu hr (hcname.trans hcctor.symm) rfl ?_⟩
    rw [hinitializer hcctor, MethodSignature.types, hcparameters]
    rfl
  · have hamong : ∀ m ∈ s.program.methodsOf t, m.owner = t ∧ (s.program.method? m).isSome :=
        fun m hm =>
          ⟨s.program.owner_of_mem_methodsOf hm, s.program.isSome_of_mem_methodsOf hm⟩
    obtain ⟨howner, hr, hfits⟩ := method?_of_find? hamong hm
    simp only [Bool.and_eq_true, beq_iff_eq] at hfits
    exact ⟨howner, denotes_of_types h hu hr hfits.1 hfits.2 hs⟩

theorem denotes_of_methodOn (hproper : (s.program.record t).Proper t)
    (hname : n.get? "name" = some name) (hparams : n.get? "params" = some params)
    (hinitializer : name = ".cctor" → params = "") (hm : s.methodOn t n = .ok m) :
    m.owner = t ∧ Denotes u m name params := by
  rw [Scope.methodOn, require_of_get? hname, ok_bind, require_of_get? hparams, ok_bind] at hm
  obtain ⟨types, htypes, hm⟩ := bind_eq_ok.mp hm
  split at hm
  · rename_i found hfound
    cases hm
    exact denotes_of_methodOn? h hu hproper hinitializer htypes hfound
  · cases hm

theorem encodeMethodReference_of_method (element : String) {declaring : String}
    (hdeclaring : n.get? "declaring" = some declaring) (hname : n.get? "name" = some name)
    (hparams : n.get? "params" = some params) (hinitializer : name = ".cctor" →
      params = "") (hm : s.method n = .ok m) : u.isPresent m.owner
      ∧ encodeMethodReference u element m =
      .ok (.element element [("declaring", declaring), ("name", name), ("params", params)] []) := by
  rw [Scope.method, require_of_get? hdeclaring, ok_bind] at hm
  obtain ⟨t, ht, hm⟩ := bind_eq_ok.mp hm
  obtain ⟨hknown, hnamed⟩ := h.type_ok ht
  obtain ⟨howner, hdenotes⟩ :=
    denotes_of_methodOn h hu (h.proper t hknown) hname hparams hinitializer hm
  have hafter := hnamed.extend h.enclosed hu
  rw [← howner] at hafter
  refine ⟨hafter.present, ?_⟩
  rw [encodeMethodReference, Universe.methodOwner?, Universe.present?, if_pos hafter.present]
  show (encodeParameters u (u.method m).signature >>= _) = _
  rw [hdenotes.params, hdenotes.name, hafter.fullName]
  rfl

theorem encodeAccessor_of_methodOn (element : String) (hproper : (s.program.record t).Proper t)
    (hname : n.get? "name" = some name) (hparams : n.get? "params" = some params)
    (hinitializer : name = ".cctor" → params = "") (hm : s.methodOn t n = .ok m) :
    encodeAccessor u element m
        = .ok (.element element [("name", name), ("params", params)] []) := by
  obtain ⟨-, hdenotes⟩ := denotes_of_methodOn h hu hproper hname hparams hinitializer hm
  rw [encodeAccessor, hdenotes.params, hdenotes.name]
  rfl

theorem encodeFieldReference_of_field (element : String) {declaring : String} {f : FieldId}
    (hdeclaring : n.get? "declaring" = some declaring) (hname : n.get? "name" = some name)
    (hf : s.field n = .ok f) : u.isPresent f.owner ∧ encodeFieldReference u element f =
      .ok (.element element [("declaring", declaring), ("name", name)] []) := by
  rw [Scope.field, require_of_get? hdeclaring, ok_bind] at hf
  obtain ⟨t, ht, hf⟩ := bind_eq_ok.mp hf
  rw [require_of_get? hname, ok_bind] at hf
  split at hf
  · rename_i found hfound
    cases hf
    have hafter := (h.type_ok ht).2.extend h.enclosed hu
    have hmem := List.mem_of_find?_eq_some hfound
    obtain ⟨index, hindex, rfl⟩ := List.mem_map.mp hmem
    have hr : s.program.field? ⟨t, index⟩ = some (s.program.field ⟨t, index⟩) := by
      rw [Universe.field]
      simp [Universe.field?, List.mem_range.mp hindex]
    obtain ⟨r', hr', hname'⟩ := hu.field? hr
    have hfield : (u.field ⟨t, index⟩).name = name := by
      rw [Universe.field, hr', Option.getD_some, hname']
      simpa using List.find?_some hfound
    refine ⟨hafter.present, ?_⟩
    rw [encodeFieldReference, Universe.fieldOwner?, Universe.present?, if_pos hafter.present]
    show Except.ok _ = _
    rw [hfield, hafter.fullName]
    rfl
  · cases hf

end Printing

end Artifact

end TypeLoom
