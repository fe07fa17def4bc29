import Mathlib.Data.List.Find
import TypeLoom.Proofs.Chains

/-!
# Slots

The steps from override to overridden method lead towards the first type of a well-formed universe,
so a slot root is reached whatever the bound. A method has the name and the signature of its slot
root. A class either gives a slot a body of its own or leaves the slot to its base, and on classes
an interface method is resolved in one step. Growing the universe moves no method to another slot
and changes no resolution on the types that were there.
-/

namespace TypeLoom.Universe

/-! ### Searches -/

theorem findSome?_congr {α β : Type} {f g : α → Option β} {items : List α}
    (h : ∀ a ∈ items, f a = g a) :
    items.findSome? f = items.findSome? g := by
  induction items with
  | nil => rfl
  | cons a items ih =>
    rw [List.findSome?_cons, List.findSome?_cons, h a (by simp), ih fun b hb => h b (by simp [hb])]

variable {u after : Universe} {size : Nat}

theorem owner_of_methodOwner? {m : MethodId} {owner : TypeId} (h : u.methodOwner? m = some owner) :
    owner = m.owner := by
  rw [methodOwner?_eq] at h
  split at h
  · exact (Option.some.inj h).symm
  · cases h

/-! ### Finding virtual methods -/

theorem mem_of_findVirtual? {t : TypeId} {name : String} {s : MethodSignature} {m : MethodId}
    (h : u.findVirtual? t name s = some m) :
    m ∈ u.methodsOf t ∧ (u.method m).isVirtual = true ∧ (u.method m).name = name
      ∧ (u.method m).signature.agrees s := by
  obtain ⟨hfind, hvirtual⟩ := Option.filter_eq_some_iff.mp h
  have hmatch := List.find?_some hfind
  simp only [Bool.and_eq_true, beq_iff_eq] at hmatch
  exact ⟨List.mem_of_find?_eq_some hfind, hvirtual, hmatch.1, hmatch.2⟩

theorem Agree.findVirtual? (ha : Agree size u after) {t : TypeId}
    (ht : t.index < size) (name : String) (s : MethodSignature) :
    after.findVirtual? t name s = u.findVirtual? t name s := by
  have hown : ∀ m ∈ u.methodsOf t, m.owner.index < size := by
    intro m hm
    rw [u.owner_of_mem_methodsOf hm]
    exact ht
  have hfind : after.findMethod? t name s = u.findMethod? t name s := by
    rw [Universe.findMethod?, Universe.findMethod?, ha.methodsOf ht]
    refine List.find?_congr fun m hm => ?_
    rw [ha.name (hown m hm), ha.signature (hown m hm)]
  rw [Universe.findVirtual?, Universe.findVirtual?, hfind]
  cases hf : u.findMethod? t name s with
  | none => rfl
  | some m => simp only [Option.filter_some, ha.isVirtual (hown m (List.mem_of_find?_eq_some hf))]

/-! ### Overridden methods -/

/-- An explicit declaration comes from an override of the owner, and its class is present. -/
theorem explicit_of_eq_some {owner : TypeId} {m o : MethodId}
    (h : u.explicitDeclaration? owner m = some o) :
    (u.record o.owner).isInterface = false ∧
      ∃ v ∈ (u.record owner).overrides, (u.method v.body).token = (u.method m).token
      ∧ v.declaration = o := by
  obtain ⟨v, hv, hd⟩ := Option.bind_eq_some_iff.mp h
  have hmem := Array.mem_of_find?_eq_some hv
  have htoken := Array.find?_some hv
  split at hd
  · rename_i declaring hdeclaring
    have hown := owner_of_methodOwner? hdeclaring
    split at hd
    · cases hd
    · rename_i hclass
      cases hd
      exact ⟨by rw [← hown]; simpa using hclass, v, hmem, by simpa using htoken, rfl⟩
  · cases hd

/-- An implicit declaration is the first virtual method of the same name and signature on the
bases. -/
theorem implicit_of_eq_some {owner : TypeId} {m o : MethodId}
    (h : u.implicitDeclaration? owner m = some o) :
    o.owner ∈ u.bases owner ∧ o ∈ u.methodsOf o.owner ∧ (u.method o).isVirtual = true
      ∧ (u.method o).name = (u.method m).name
      ∧ (u.method o).signature.agrees (u.method m).signature := by
  obtain ⟨level, hlevel, hfound⟩ := List.exists_of_findSome?_eq_some h
  obtain ⟨hmem, hvirtual, hname, hsig⟩ := mem_of_findVirtual? hfound
  have hown := u.owner_of_mem_methodsOf hmem
  exact ⟨hown ▸ hlevel, hown.symm ▸ hmem, hvirtual, hname, hsig⟩

/-- Only a virtual method without a slot of its own overrides another one. -/
theorem overriddenBy?_eq_some {m o : MethodId} (h : u.overriddenBy? m = some o) :
    (u.method m).isVirtual = true ∧ (u.method m).isNewSlot = false
      ∧ (u.explicitDeclaration? m.owner m = some o
        ∨ u.implicitDeclaration? m.owner m = some o) := by
  unfold overriddenBy? at h
  split at h
  · cases h
  · rename_i hguard
    split at h
    · cases h
    · rename_i owner howner
      cases owner_of_methodOwner? howner
      refine ⟨by simp_all, by simp_all, ?_⟩
      cases he : u.explicitDeclaration? m.owner m with
      | some d => exact .inl (by rwa [he, Option.some_or] at h)
      | none => exact .inr (by rwa [he, Option.none_or] at h)

theorem WellFormed.overridden_lt (hu : WellFormed u) {m o : MethodId}
    (h : u.overriddenBy? m = some o) :
    o.owner.index < m.owner.index := by
  obtain ⟨_, _, he | hi⟩ := overriddenBy?_eq_some h
  · obtain ⟨_, v, hv, _, rfl⟩ := explicit_of_eq_some he
    exact ((hu m.owner).overrides v (Array.mem_toList_iff.mpr hv)).2.1
  · exact hu.index_lt_of_mem_bases (implicit_of_eq_some hi).1

/-- A class method overrides class methods that exist. -/
theorem WellFormed.overridden_exists (hu : WellFormed u) {m o : MethodId}
    (h : u.overriddenBy? m = some o) :
    (u.method? o).isSome ∧ (u.record o.owner).isInterface = false := by
  obtain ⟨_, _, he | hi⟩ := overriddenBy?_eq_some h
  · obtain ⟨hclass, v, hv, _, rfl⟩ := explicit_of_eq_some he
    obtain ⟨_, _, body, declared, _, hdeclared, _⟩ :=
      (hu m.owner).overrides v (Array.mem_toList_iff.mpr hv)
    refine ⟨?_, hclass⟩
    rw [isSome_method?]
    exact Option.isSome_of_eq_some hdeclared
  · obtain ⟨hbase, hmem, _⟩ := implicit_of_eq_some hi
    exact ⟨u.isSome_of_mem_methodsOf hmem, hu.class_of_mem_bases hbase⟩

/-- An override has the name and the signature of the method it overrides. -/
theorem WellFormed.overridden_matches (hu : WellFormed u) (hd : u.LocalTokens) {m o : MethodId}
    (hm : (u.method? m).isSome) (h : u.overriddenBy? m = some o) :
    (u.method o).name = (u.method m).name
        ∧ (u.method o).signature.agrees (u.method m).signature := by
  obtain ⟨_, _, he | hi⟩ := overriddenBy?_eq_some h
  · obtain ⟨hclass, v, hv, htoken, rfl⟩ := explicit_of_eq_some he
    obtain ⟨hown, _, body, declared, hbody, hdeclared, hagree⟩ :=
      (hu m.owner).overrides v (Array.mem_toList_iff.mpr hv)
    have hbodySome : (u.method? v.body).isSome := by
      rw [isSome_method?, hown]
      exact Option.isSome_of_eq_some hbody
    have hbodyEq : v.body = m := hd v.body m hown hbodySome hm htoken
    obtain ⟨hname, hsig⟩ := hagree hclass
    have hheadBody : u.head m = body := by
      rw [head_eq, ← hbodyEq, hown, hbody, Option.getD_some]
    have hheadDeclared : u.head v.declaration = declared := by
      rw [head_eq, hdeclared, Option.getD_some]
    constructor
    · show (u.head v.declaration).name = (u.head m).name
      rw [hheadBody, hheadDeclared, hname]
    · show ((u.head v.declaration).signature.agrees (u.head m).signature) = true
      rw [hheadBody, hheadDeclared]
      exact MethodSignature.agrees_symm hsig
  · obtain ⟨_, _, _, hname, hsig⟩ := implicit_of_eq_some hi
    exact ⟨hname, hsig⟩

theorem Agree.overriddenBy? (ha : Agree size u after) (hu : WellFormed u)
    (hle : size ≤ u.types.size) (hle' : size ≤ after.types.size) {m : MethodId}
    (hm : m.owner.index < size) :
    after.overriddenBy? m = u.overriddenBy? m := by
  have hexplicit : after.explicitDeclaration? m.owner m = u.explicitDeclaration? m.owner m := by
    have hrows : ∀ v ∈ (u.record m.owner).overrides, v.body.owner.index < size
        ∧ v.declaration.owner.index < size := by
      intro v hv
      obtain ⟨hown, hlt, _⟩ := (hu m.owner).overrides v (Array.mem_toList_iff.mpr hv)
      exact ⟨hown ▸ hm, by omega⟩
    have hfind : ((u.record m.owner).overrides.find? fun v => (after.method v.body).token
      == (after.method m).token)
        = (u.record m.owner).overrides.find? fun v => (u.method v.body).token
        == (u.method m).token := by
      rw [← Array.find?_toList, ← Array.find?_toList]
      refine List.find?_congr fun v hv => ?_
      rw [ha.token (hrows v (Array.mem_toList_iff.mp hv)).1, ha.token hm]
    rw [Universe.explicitDeclaration?, Universe.explicitDeclaration?, ha.overrides hm, hfind]
    refine Option.bind_congr fun v hv => ?_
    have hlt := (hrows v (Array.mem_of_find?_eq_some hv)).2
    rw [ha.methodOwner? hlt]
    cases ho : u.methodOwner? v.declaration with
    | none => rfl
    | some declaring =>
      cases owner_of_methodOwner? ho
      simp only [ha.isInterface hlt]
  have himplicit : after.implicitDeclaration? m.owner m = u.implicitDeclaration? m.owner m := by
    rw [Universe.implicitDeclaration?, Universe.implicitDeclaration?,
      Universe.bases, Universe.bases,
      ha.hierarchy hu hle hle' hm, ha.name hm, ha.signature hm]
    refine findSome?_congr fun level hlevel => ?_
    have hlt := hu.index_lt_of_mem_bases hlevel
    exact ha.findVirtual? (by omega) _ _
  unfold Universe.overriddenBy?
  rw [ha.isVirtual hm, ha.isNewSlot hm, ha.methodOwner? hm]
  cases ho : u.methodOwner? m with
  | none => rfl
  | some owner =>
    cases owner_of_methodOwner? ho
    simp only [hexplicit, himplicit]

/-! ### Slot roots -/

theorem overriddenBy?_of_le {m : MethodId} (h : u.types.size ≤ m.owner.index) :
    u.overriddenBy? m = none := by
  have hm : u.method m = noMethod := by
    rw [method, method?, u.record_of_le m.owner h]
    cases m.slot <;> rfl
  unfold Universe.overriddenBy?
  rw [hm]
  rfl

/-- The bound on the way to a slot root is larger than the number of types. -/
theorem size_le_methodCount (u : Universe) : u.types.size ≤ u.methodCount := by
  have hfold : ∀ (types : List TypeRecord) (total : Nat), total + types.length ≤
      types.foldl (fun total t => total + t.methods.size + t.constructors.size + 1) total := by
    intro types
    induction types with
    | nil => intro total; simp
    | cons t types ih =>
      intro total
      have := ih (total + t.methods.size + t.constructors.size + 1)
      simp only [List.foldl_cons, List.length_cons]
      omega
  have := hfold u.types.toList 0
  simpa [methodCount, ← Array.foldl_toList] using this

/-- The way to a slot root does not depend on the bound, nor on what comes after the method. -/
theorem Agree.slotRootWithin (ha : Agree size u after) (hu : WellFormed u)
    (hle : size ≤ u.types.size) (hle' : size ≤ after.types.size) :
    ∀ (steps steps' : Nat) (m : MethodId), m.owner.index < size → m.owner.index ≤ steps →
      m.owner.index ≤ steps' → after.slotRootWithin steps' m = u.slotRootWithin steps m := by
  have hstop : ∀ (v : Universe), Agree size u v → size ≤ v.types.size →
    ∀ (steps : Nat) (m : MethodId),
      m.owner.index < size → u.overriddenBy? m = none → v.slotRootWithin steps m = m := by
    intro v hv hlev steps m hm hnone
    cases steps with
    | zero => rfl
    | succ steps =>
      have hsame := hv.overriddenBy? hu hle hlev hm
      simp only [Universe.slotRootWithin, hsame, hnone]
  intro steps
  induction steps with
  | zero =>
    intro steps' m hm hs _
    have hnone : u.overriddenBy? m = none := by
      cases ho : u.overriddenBy? m with
      | none => rfl
      | some o => exact absurd (hu.overridden_lt ho) (by omega)
    rw [hstop after ha hle' steps' m hm hnone, Universe.slotRootWithin]
  | succ steps ih =>
    intro steps' m hm hs hs'
    cases ho : u.overriddenBy? m with
    | none =>
      rw [hstop after ha hle' steps' m hm ho, hstop u (Agree.refl size u) hle _ m hm ho]
    | some o =>
      have hlt := hu.overridden_lt ho
      cases steps' with
      | zero => omega
      | succ steps' =>
        have hsame := ha.overriddenBy? hu hle hle' hm
        simp only [Universe.slotRootWithin, hsame, ho]
        exact ih steps' o (by omega) (by omega) (by omega)

theorem Agree.slotRoot (ha : Agree size u after) (hu : WellFormed u) (hle : size ≤ u.types.size)
    (hle' : size ≤ after.types.size) {m : MethodId} (hm : m.owner.index < size) :
    after.slotRoot m = u.slotRoot m := by
  have hcount := u.size_le_methodCount
  have hcount' := after.size_le_methodCount
  exact ha.slotRootWithin hu hle hle' _ _ m hm (by omega) (by omega)

theorem WellFormed.slotRoot_eq (hu : WellFormed u) (m : MethodId) :
    u.slotRoot m = match u.overriddenBy? m with
      | some o => u.slotRoot o
      | none => m := by
  have hcount := u.size_le_methodCount
  cases ho : u.overriddenBy? m with
  | none =>
    unfold Universe.slotRoot
    cases u.methodCount <;> simp [Universe.slotRootWithin, ho]
  | some o =>
    have hlt := hu.overridden_lt ho
    have hin : m.owner.index < u.types.size := by
      by_contra hge
      rw [overriddenBy?_of_le (by omega)] at ho
      cases ho
    unfold Universe.slotRoot
    obtain ⟨count, hc⟩ : ∃ count, u.methodCount = count + 1 := ⟨u.methodCount - 1, by omega⟩
    rw [hc, Universe.slotRootWithin, ho]
    exact (Agree.refl u.types.size u).slotRootWithin hu (Nat.le_refl _) (Nat.le_refl _)
      _ _ o (by omega)
      (by omega) (by omega)

/-- What passes from overridden methods to the methods that override them holds of all methods. -/
theorem WellFormed.induct_overridden (hu : WellFormed u) {P : MethodId → Prop}
    (h : ∀ m, (∀ o, u.overriddenBy? m = some o → P o) → P m) (m : MethodId) : P m := by
  induction hn : m.owner.index using Nat.strongRecOn generalizing m with
  | ind n ih =>
    refine h m fun o ho => ?_
    have hlt := hu.overridden_lt ho
    exact ih o.owner.index (by omega) o rfl

theorem WellFormed.slotRoot_le (hu : WellFormed u) (m : MethodId) :
    (u.slotRoot m).owner.index ≤ m.owner.index := by
  induction m using hu.induct_overridden with
  | h m ih =>
    rw [hu.slotRoot_eq m]
    cases ho : u.overriddenBy? m with
    | none => exact Nat.le_refl _
    | some o => exact Nat.le_trans (ih o ho) (Nat.le_of_lt (hu.overridden_lt ho))

theorem WellFormed.slotRoot_exists (hu : WellFormed u) {m : MethodId} (hm : (u.method? m).isSome)
    (hclass : (u.record m.owner).isInterface = false) :
    (u.method? (u.slotRoot m)).isSome ∧ (u.record (u.slotRoot m).owner).isInterface = false := by
  induction m using hu.induct_overridden with
  | h m ih =>
    rw [hu.slotRoot_eq m]
    cases ho : u.overriddenBy? m with
    | none => exact ⟨hm, hclass⟩
    | some o =>
      obtain ⟨hsome, hoclass⟩ := hu.overridden_exists ho
      exact ih o ho hsome hoclass

theorem WellFormed.slotRoot_matches (hu : WellFormed u) (hd : u.LocalTokens) {m : MethodId}
    (hm : (u.method? m).isSome) :
    (u.method (u.slotRoot m)).name = (u.method m).name
      ∧ (u.method (u.slotRoot m)).signature.agrees (u.method m).signature := by
  induction m using hu.induct_overridden with
  | h m ih =>
    rw [hu.slotRoot_eq m]
    cases ho : u.overriddenBy? m with
    | none => exact ⟨rfl, MethodSignature.agrees_refl _⟩
    | some o =>
      obtain ⟨hname, hsig⟩ := hu.overridden_matches hd hm ho
      obtain ⟨hrootName, hrootSig⟩ := ih o ho (hu.overridden_exists ho).1
      exact ⟨hrootName.trans hname, MethodSignature.agrees_trans hrootSig hsig⟩

theorem WellFormed.matches_of_slotRoot_eq (hu : WellFormed u) (hd : u.LocalTokens) {m m' : MethodId}
    (hm : (u.method? m).isSome) (hm' : (u.method? m').isSome)
    (hroot : u.slotRoot m = u.slotRoot m') :
    (u.method m).name = (u.method m').name
        ∧ (u.method m).signature.agrees (u.method m').signature := by
  obtain ⟨hname, hsig⟩ := hu.slotRoot_matches hd hm
  obtain ⟨hname', hsig'⟩ := hu.slotRoot_matches hd hm'
  rw [hroot] at hname hsig
  exact ⟨hname.symm.trans hname',
    MethodSignature.agrees_trans (MethodSignature.agrees_symm hsig) hsig'⟩

theorem WellFormed.slotRoot_of_interface (hu : WellFormed u) {m : MethodId}
    (h : (u.record m.owner).isInterface = true) : u.slotRoot m = m := by
  rw [hu.slotRoot_eq m]
  cases ho : u.overriddenBy? m with
  | none => rfl
  | some o =>
    obtain ⟨_, _, he | hi⟩ := overriddenBy?_eq_some ho
    · obtain ⟨hclass, v, hv, _, rfl⟩ := explicit_of_eq_some he
      have hrows := ((hu m.owner).rootless h).2 v (Array.mem_toList_iff.mpr hv)
      rw [show (u.record v.declaration.owner).isInterface = true from hrows] at hclass
      cases hclass
    · have hbase := (implicit_of_eq_some hi).1
      rw [hu.bases_eq, hu.bases_of_interface h] at hbase
      cases hbase

/-! ### Slot tokens -/

theorem Agree.slotToken (ha : Agree size u after) (hu : WellFormed u) (hle : size ≤ u.types.size)
    (hle' : size ≤ after.types.size) {m : MethodId} (hm : m.owner.index < size) :
    after.slotToken m = u.slotToken m := by
  have hroot := hu.slotRoot_le m
  rw [Universe.slotToken, Universe.slotToken, ha.slotRoot hu hle hle' hm, ha.token (by omega)]

theorem WellFormed.slotToken_eq (hu : WellFormed u) {m o : MethodId}
    (h : u.overriddenBy? m = some o) :
    u.slotToken m = u.slotToken o := by
  rw [slotToken, slotToken, hu.slotRoot_eq m, h]

theorem WellFormed.matches_of_slotToken_eq (hu : WellFormed u) (hd : u.DistinctTokens)
    {m m' : MethodId} (hm : (u.method? m).isSome) (hm' : (u.method? m').isSome)
    (hclass : (u.record m.owner).isInterface = false) (hclass' : (u.record m'.owner).isInterface
      = false)
    (h : u.slotToken m = u.slotToken m') :
    (u.method m).name = (u.method m').name
        ∧ (u.method m).signature.agrees (u.method m').signature := by
  have hroot : u.slotRoot m = u.slotRoot m' :=
    hd _ _ (hu.slotRoot_exists hm hclass).1 (hu.slotRoot_exists hm' hclass').1 h
  exact hu.matches_of_slotRoot_eq hd.localTokens hm hm' hroot

/-! ### Bodies for slots -/

/-- The body that a level gives to a slot comes from an override of the level or is in the slot
itself. -/
theorem slotBody?_eq_some {level : TypeId} {slot : Token} {k : MethodId}
    (h : u.slotBody? level slot = some k) :
    (∃ v ∈ (u.record level).overrides, u.slotToken v.declaration = slot ∧ v.body = k)
      ∨ (k ∈ u.methodsOf level ∧ (u.method k).isVirtual = true ∧ u.slotToken k = slot) := by
  unfold slotBody? at h
  cases hv : (u.record level).overrides.find? fun v => u.slotToken v.declaration == slot with
  | some v =>
    rw [hv, Option.map_some, Option.some_or] at h
    cases h
    exact .inl ⟨v, Array.mem_of_find?_eq_some hv, by simpa using Array.find?_some hv, rfl⟩
  | none =>
    rw [hv, Option.map_none, Option.none_or] at h
    have hk := List.find?_some h
    simp only [Bool.and_eq_true, beq_iff_eq] at hk
    exact .inr ⟨List.mem_of_find?_eq_some h, hk.1, hk.2⟩

theorem slotBody?_eq_none {level : TypeId} {slot : Token} :
    u.slotBody? level slot = none ↔
      (∀ v ∈ (u.record level).overrides, u.slotToken v.declaration ≠ slot)
        ∧ ∀ k ∈ u.methodsOf level, (u.method k).isVirtual = true → u.slotToken k ≠ slot := by
  simp [slotBody?]

theorem exists_slotBody?_of_method {level : TypeId} {k : MethodId} (hk : k ∈ u.methodsOf level)
    (hvirtual : (u.method k).isVirtual = true) :
    ∃ body, u.slotBody? level (u.slotToken k) = some body := by
  cases hbody : u.slotBody? level (u.slotToken k) with
  | some body => exact ⟨body, rfl⟩
  | none => exact absurd rfl ((slotBody?_eq_none.mp hbody).2 k hk hvirtual)

theorem WellFormed.owner_of_slotBody? (hu : WellFormed u) {level : TypeId}
    {slot : Token} {k : MethodId} (h : u.slotBody? level slot = some k) : k.owner = level := by
  rcases slotBody?_eq_some h with ⟨v, hv, _, rfl⟩ | ⟨hk, _⟩
  · exact ((hu level).overrides v (Array.mem_toList_iff.mpr hv)).1
  · exact u.owner_of_mem_methodsOf hk

theorem Agree.slotBody? (ha : Agree size u after) (hu : WellFormed u) (hle : size ≤ u.types.size)
    (hle' : size ≤ after.types.size) {level : TypeId} (hl : level.index < size) (slot : Token) :
    after.slotBody? level slot = u.slotBody? level slot := by
  have hrow : ((u.record level).overrides.find? fun v => after.slotToken v.declaration == slot)
      = (u.record level).overrides.find? fun v => u.slotToken v.declaration == slot := by
    rw [← Array.find?_toList, ← Array.find?_toList]
    refine List.find?_congr fun v hv => ?_
    have hlt := ((hu level).overrides v hv).2.1
    rw [ha.slotToken hu hle hle' (show v.declaration.owner.index < size by omega)]
  have hown : ((u.methodsOf level).find? fun m => (after.method m).isVirtual && after.slotToken m
    == slot)
      = (u.methodsOf level).find? fun m => (u.method m).isVirtual && u.slotToken m == slot := by
    refine List.find?_congr fun m hm => ?_
    have hm' : m.owner.index < size := by rw [u.owner_of_mem_methodsOf hm]; exact hl
    rw [ha.isVirtual hm', ha.slotToken hu hle hle' hm']
  rw [Universe.slotBody?, Universe.slotBody?, ha.overrides hl, ha.methodsOf hl, hrow, hown]

/-! ### Slots of class methods -/

theorem resolveSlot_eq (u : Universe) (t : TypeId) (m : MethodId) :
    u.resolveSlot t m = ((u.hierarchy t).findSome? fun level =>
      u.slotBody? level (u.slotToken m)).getD m := rfl

theorem WellFormed.resolveSlot_of_base (hu : WellFormed u) {t b : TypeId}
    (hb : (u.record t).base = some b) (m : MethodId) :
    u.resolveSlot t m = (u.slotBody? t (u.slotToken m)).getD (u.resolveSlot b m) := by
  simp only [resolveSlot_eq, hu.hierarchy_eq t, hb, List.findSome?_cons]
  cases u.slotBody? t (u.slotToken m) <;> rfl

theorem WellFormed.owner_of_resolveSlot (hu : WellFormed u) (t : TypeId) (m : MethodId) :
    (u.resolveSlot t m).owner.index ≤ t.index ∨ u.resolveSlot t m = m := by
  rw [resolveSlot_eq]
  cases h : (u.hierarchy t).findSome? fun level => u.slotBody? level (u.slotToken m) with
  | none => exact .inr rfl
  | some k =>
    obtain ⟨level, hlevel, hk⟩ := List.exists_of_findSome?_eq_some h
    left
    rw [Option.getD_some, hu.owner_of_slotBody? hk]
    exact hu.index_le_of_mem_hierarchy hlevel

theorem Agree.resolveSlot (ha : Agree size u after) (hu : WellFormed u) (hle : size ≤ u.types.size)
    (hle' : size ≤ after.types.size) {t : TypeId} {m : MethodId} (ht : t.index < size)
    (hm : m.owner.index < size) : after.resolveSlot t m = u.resolveSlot t m := by
  rw [resolveSlot_eq, resolveSlot_eq, ha.hierarchy hu hle hle' ht, ha.slotToken hu hle hle' hm]
  congr 1
  refine findSome?_congr fun level hlevel => ?_
  have hlt := hu.index_le_of_mem_hierarchy hlevel
  exact ha.slotBody? hu hle hle' (by omega) _

/-! ### Class methods and interface methods -/

theorem isInterfaceMethod_of_class {m : MethodId} (h : (u.record m.owner).isInterface = false) :
    u.isInterfaceMethod m = false := by
  unfold isInterfaceMethod
  cases ho : u.methodOwner? m with
  | none => rfl
  | some owner =>
    cases owner_of_methodOwner? ho
    exact h

theorem resolveVirtual_of_class {t : TypeId} {m : MethodId}
    (h : (u.record m.owner).isInterface = false) (hv : (u.method m).isVirtual = true) :
    u.resolveVirtual t m = u.resolveSlot t m := by
  simp [resolveVirtual, hv, isInterfaceMethod_of_class h]

end TypeLoom.Universe
