import TypeLoom.Proofs.Declaring

/-!
# What steps of a construction do

A step that adds a part to a type changes the record of that type and no other one. Each law below
says how the record changes, and what was the matter with it when the step fails: a type that is
finished takes no more parts, and a few steps check something else.
-/

namespace TypeLoom

namespace TypeSpace

open Attempt

structure Edited (s : TypeSpace) (t : TypeId) (r : TypeRecord) (s' : TypeSpace) : Prop where
  listings : s'.registry.listings = s.registry.listings
  size : s'.program.types.size = s.program.types.size
  self : s'.program.record t = r
  other : ∀ other, other ≠ t → s'.program.record other = s.program.record other

variable {s s' : TypeSpace} {t : TypeId} {fail : TypeSpace → Prop}

theorem edited_modify (ht : t.index < s.program.types.size) {registry : Registry}
    (hlistings : registry.listings = s.registry.listings) (change : TypeRecord → TypeRecord) :
    Edited s t (change (s.program.record t))
        { program := s.program.modify t change, registry } where
  listings := hlistings
  size := Universe.size_modify _ _ _
  self := by rw [Universe.record_modify, if_pos ⟨rfl, ht⟩]
  other := fun other hne => by rw [Universe.record_modify, if_neg fun h => hne h.1]

theorem Edited.trans {mid : TypeSpace} {r r' : TypeRecord} (h : Edited s t r mid)
    (h' : Edited mid t r' s') :
    Edited s t r' s' where
  listings := h'.listings.trans h.listings
  size := h'.size.trans h.size
  self := h'.self
  other := fun other hne => (h'.other other hne).trans (h.other other hne)

/-! ### Single steps -/

theorem wp_nextToken {post : Token → TypeSpace → Prop} {kind : TokenKind}
    (h : ∀ token mid, mid.program = s.program → mid.registry.listings = s.registry.listings →
      post token mid) :
    (nextToken kind).wp post fail s := h _ _ rfl rfl

theorem wp_ensureOpen_of {post : PUnit → TypeSpace → Prop}
    (h : (s.program.record t).complete = false → post ⟨⟩ s)
    (hfail : (s.program.record t).complete = true → fail s) : (ensureOpen t).wp post fail s := by
  simp only [ensureOpen, currentProgram, wp_bind, wp_get, wp_pure, wp_ite, wp_throw]
  exact ⟨hfail, fun hopen => h (by simpa using hopen)⟩

theorem wp_edit {post : PUnit → TypeSpace → Prop} {change : TypeRecord → TypeRecord}
    (ht : t.index < s.program.types.size)
    (h : ∀ after, Edited s t (change (s.program.record t)) after → post ⟨⟩ after) :
        (edit t change).wp post fail s := by
  rw [edit, wp_modify]
  exact h _ (edited_modify ht rfl change)

theorem wp_takeToken {α : Type} {post : α → TypeSpace → Prop} {kind : TokenKind}
    {next : Token → Attempt TypeSpace α}
    (h : ∀ token mid, mid.program = s.program → mid.registry.listings = s.registry.listings →
      (next token).wp post fail mid)
    (hfail : (s.program.record t).complete = true → fail s) :
    (ensureOpen t >>= fun _ => nextToken kind >>= next).wp post fail s := by
  rw [wp_bind]
  refine wp_ensureOpen_of (fun _ => ?_) hfail
  rw [wp_bind]
  exact wp_nextToken h

/-! ### Parts of types -/

section Parts

variable (ht : t.index < s.program.types.size)
include ht

theorem wp_setParent_edited {post : PUnit → TypeSpace → Prop} {base : TypeId}
    (h : ∀ after, Edited s t { s.program.record t with base := some base } after → post ⟨⟩ after)
    (hfail : ¬ ((s.program.record t).complete = false ∧ (s.program.record t).base = none
      ∧ (s.program.record base).isSealed = false ∧ (s.program.record base).isInterface = false) →
      fail s) :
    (setParent t base).wp post fail s := by
  unfold setParent
  rw [wp_bind]
  refine wp_ensureOpen_of (fun _ => ?_) fun hcomplete => hfail fun hall => by
    rw [hcomplete] at hall; cases hall.1
  simp only [checkBase, currentProgram, wp_bind, wp_get, wp_pure, wp_ite, wp_throw]
  refine ⟨fun hrefused => hfail fun hall => ?_, fun haccepted => ?_⟩
  · rw [hall.2.2.1, hall.2.2.2] at hrefused
    cases hrefused
  · simp only [apply, wp_bind, wp_get]
    split
    · rename_i u hu
      unfold Universe.setBase at hu
      split at hu
      · cases hu
      · cases hu
        exact h _ (edited_modify ht rfl fun r => { r with base := some base })
    · rename_i f hf
      refine hfail fun hall => ?_
      rw [Universe.setBase, hall.2.1] at hf
      cases hf

theorem wp_implementInterface_edited {post : PUnit → TypeSpace → Prop} {interface : TypeId}
    (h : ∀ after, let r := s.program.record t
      Edited s t { r with interfaces := r.interfaces.push interface } after → post ⟨⟩ after)
    (hfail : ¬ ((s.program.record t).complete = false ∧ (s.program.record interface).isInterface
      = true) → fail s) :
    (implementInterface t interface).wp post fail s := by
  unfold implementInterface appendInterface checkInterface
  rw [wp_bind]
  refine wp_ensureOpen_of (fun _ => ?_) fun hcomplete => hfail fun hall => by
    rw [hcomplete] at hall; cases hall.1
  simp only [currentProgram, wp_bind, wp_get, wp_pure, wp_ite, wp_throw]
  refine ⟨fun hnot => hfail fun hall => ?_, fun _ => wp_edit ht h⟩
  rw [hall.2] at hnot
  cases hnot

variable (hfail : (s.program.record t).complete = true → fail s)

section
include hfail

theorem wp_setAttribute_edited {post : PUnit → TypeSpace → Prop} {a : Attribute}
    (h : ∀ after, let r := s.program.record t
      Edited s t { r with attributes := r.attributes.push a } after → post ⟨⟩ after) :
    (setAttribute t a).wp post fail s := by
  unfold setAttribute
  rw [wp_bind]
  exact wp_ensureOpen_of (fun _ => wp_edit ht h) hfail

theorem wp_defineField_edited {post : FieldId → TypeSpace → Prop} {name : String}
    {signature : Signature} {flags : UInt32}
    (h : ∀ token after, let r := s.program.record t
      Edited s t { r with fields := r.fields.push { token, name, signature, flags } } after →
        post ⟨t, r.fields.size⟩ after) : (defineField t name signature flags).wp post fail s := by
  refine wp_takeToken (fun token mid hprogram hlistings => ?_) hfail
  simp only [wp_bind, currentProgram, wp_get, wp_pure, edit, wp_modify, hprogram]
  exact h token _ (edited_modify ht hlistings fun r =>
    { r with fields := r.fields.push { token, name, signature, flags } })

theorem wp_defineConstructor_edited {post : MethodId → TypeSpace → Prop} {flags : UInt32}
    {signature : MethodSignature} (h : ∀ token after, let r := s.program.record t
      Edited s t
        { r with
          constructors := r.constructors.push
            { token, name := ".ctor", kind := .constructor, flags := flags ||| specialNames,
              signature } } after →
        post ⟨t, .constructor r.constructors.size⟩ after) :
            (defineConstructor t flags signature).wp post fail s := by
  refine wp_takeToken (fun token mid hprogram hlistings => ?_) hfail
  simp only [wp_bind, currentProgram, wp_get, wp_pure, edit, wp_modify, hprogram]
  exact h token _ (edited_modify ht hlistings fun r =>
    { r with
      constructors := r.constructors.push
        { token, name := ".ctor", kind := .constructor, flags := flags ||| specialNames,
          signature } })

theorem wp_defineMethod_edited {post : MethodId → TypeSpace → Prop} {name : String} {flags : UInt32}
    {signature : MethodSignature}
    (h : ∀ token after, let r := s.program.record t
      Edited s t { r with methods := r.methods.push { token, name, kind := .method, flags, signature } } after →
        post ⟨t, .method r.methods.size⟩ after) :
        (defineMethod t name flags signature).wp post fail s := by
  refine wp_takeToken (fun token mid hprogram hlistings => ?_) hfail
  simp only [wp_bind, currentProgram, wp_get, wp_pure, edit, wp_modify, hprogram]
  exact h token _ (edited_modify ht hlistings fun r =>
    { r with methods := r.methods.push { token, name, kind := .method, flags, signature } })

theorem wp_defineProperty_edited {post : PropertyId → TypeSpace → Prop} {name : String}
    {signature : Signature} {getter setter : Option MethodId}
    (h : ∀ token after, let r := s.program.record t
      Edited s t
        { r with
          properties := r.properties.push { token, name, signature, flags := 0, getter, setter } } after →
        post ⟨t, r.properties.size⟩ after) :
            (defineProperty t name signature getter setter).wp post fail s := by
  refine wp_takeToken (fun token mid hprogram hlistings => ?_) hfail
  simp only [wp_bind, currentProgram, wp_get, wp_pure, edit, wp_modify, hprogram]
  exact h token _ (edited_modify ht hlistings fun r =>
    { r with
      properties := r.properties.push { token, name, signature, flags := 0, getter, setter } })

theorem wp_defineEvent_edited {post : EventId → TypeSpace → Prop} {name : String} {type : Signature}
    {add remove : MethodId} {raise : Option MethodId}
    (h : ∀ token after, let r := s.program.record t
      Edited s t { r with events := r.events.push { token, name, type, flags := 0, add, remove, raise } } after →
        post ⟨t, r.events.size⟩ after) :
        (defineEvent t name type add remove raise).wp post fail s := by
  refine wp_takeToken (fun token mid hprogram hlistings => ?_) hfail
  simp only [wp_bind, currentProgram, wp_get, wp_pure, edit, wp_modify, hprogram]
  exact h token _ (edited_modify ht hlistings fun r =>
    { r with events := r.events.push { token, name, type, flags := 0, add, remove, raise } })

end

omit hfail in
/-- A failure may have taken a token already. -/
theorem wp_defineInitializer_edited {post : MethodId → TypeSpace → Prop}
    (h : ∀ token after, let r := s.program.record t
      let made : MethodRecord :=
        { token, name := ".cctor", kind := .typeInitializer, signature := {}
          flags := MethodFlags.isPrivate ||| MethodFlags.static ||| MethodFlags.hideBySig
          ||| specialNames }
      Edited s t { r with initializer := some ⟨t, .typeInitializer⟩, ownInitializer := some made }
        after →
        post ⟨t, .typeInitializer⟩ after)
    (hfail : ¬ ((s.program.record t).complete = false ∧ (s.program.record t).initializer = none) →
      ∀ after,
      after.program = s.program → after.registry.listings = s.registry.listings → fail after) :
    (defineInitializer t).wp post fail s := by
  refine wp_takeToken (fun token mid hprogram hlistings => ?_) fun hcomplete =>
    hfail (fun hall => by rw [hcomplete] at hall; cases hall.1) s rfl rfl
  simp only [apply, wp_bind, wp_get, hprogram]
  split
  · rename_i u hu
    unfold Universe.setInitializer at hu
    split at hu
    · cases hu
    · cases hu
      -- The initializer is named first and then placed: two changes of one record.
      have hfirst := edited_modify ht hlistings fun r =>
        { r with initializer := some ⟨t, .typeInitializer⟩ }
      have hlt := ht
      rw [← hfirst.size] at hlt
      let placed : MethodRecord :=
        { token, name := ".cctor", kind := .typeInitializer, signature := {}
          flags := MethodFlags.isPrivate ||| MethodFlags.static ||| MethodFlags.hideBySig
          ||| specialNames }
      have hsecond := edited_modify hlt rfl fun r => { r with ownInitializer := some placed }
      rw [hfirst.self] at hsecond
      exact h token _ (hfirst.trans hsecond)
  · rename_i f hf
    refine hfail (fun hall => ?_) mid hprogram hlistings
    rw [Universe.setInitializer, hall.2] at hf
    cases hf

end Parts

/-! ### Bodies and overrides -/

section Own

variable {m : MethodId} (ht : m.owner.index < s.program.types.size)

theorem wp_ensureOwn_owner {post : PUnit → TypeSpace → Prop} (h : post ⟨⟩ s)
    (hfail : (s.program.record m.owner).present = false → fail s) :
    (ensureOwn m.owner m).wp post fail s := by
  simp only [ensureOwn, currentProgram, wp_bind, wp_get, wp_pure]
  by_cases hpresent : (s.program.record m.owner).present = true
  · have howner : s.program.methodOwner? m = some m.owner := if_pos hpresent
    simp only [howner, beq_self_eq_true, if_true, wp_pure]
    exact h
  · have howner : s.program.methodOwner? m = none := if_neg hpresent
    simp only [howner, wp_throw]
    exact hfail (by simpa using hpresent)

include ht

theorem wp_defineBody_edited {post : PUnit → TypeSpace → Prop} {body : Expr}
    (h : ∀ after, let r := s.program.record m.owner
      Edited s m.owner (r.modifyMethod m.slot fun own => { own with body := some body }) after →
      post ⟨⟩ after)
    (hfail : ¬ ((s.program.record m.owner).complete = false
      ∧ (s.program.record m.owner).present = true
      ∧ (s.program.method m).isAbstract = false ∧ (s.program.method m).body = none) → fail s) :
    (defineBody m.owner m body).wp post fail s := by
  unfold defineBody
  rw [wp_bind]
  refine wp_ensureOpen_of (fun _ => ?_) fun hcomplete => hfail fun hall => by
    rw [hcomplete] at hall; cases hall.1
  rw [wp_bind]
  refine wp_ensureOwn_owner ?_ fun hgone => hfail fun hall => by rw [hgone] at hall; cases hall.2.1
  simp only [setBody, apply, wp_bind, wp_get]
  split
  · rename_i u hu
    unfold Universe.setBody at hu
    split at hu
    · cases hu
    · split at hu
      · cases hu
      · cases hu
        exact h _ (edited_modify ht rfl fun r => r.modifyMethod m.slot fun own =>
          { own with body := some body })
  · rename_i f hf
    refine hfail fun hall => ?_
    rw [Universe.setBody, hall.2.2.1, hall.2.2.2] at hf
    cases hf

theorem wp_defineOverride_edited {post : PUnit → TypeSpace → Prop} {declaration : MethodId}
    (h : ∀ after, let r := s.program.record m.owner
      Edited s m.owner { r with overrides := r.overrides.push { declaration, body := m } } after →
      post ⟨⟩ after)
    (hfail : ¬ ((s.program.record m.owner).complete = false
      ∧ (s.program.record m.owner).present = true
      ∧ (s.program.method declaration).isVirtual = true) → fail s) :
    (defineOverride m.owner m declaration).wp post fail s := by
  unfold defineOverride
  rw [wp_bind]
  refine wp_ensureOpen_of (fun _ => ?_) fun hcomplete => hfail fun hall => by
    rw [hcomplete] at hall; cases hall.1
  rw [wp_bind]
  refine wp_ensureOwn_owner ?_ fun hgone => hfail fun hall => by rw [hgone] at hall; cases hall.2.1
  simp only [currentProgram, wp_bind, wp_get, wp_pure, wp_ite, wp_throw]
  refine ⟨fun hnot => hfail fun hall => ?_, fun _ => wp_edit ht h⟩
  rw [hall.2.2] at hnot
  cases hnot

end Own

end TypeSpace

end TypeLoom
