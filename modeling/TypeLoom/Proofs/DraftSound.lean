import TypeLoom.Proofs.DraftSteps
import TypeLoom.Proofs.Slots

/-!
# Sound descriptors

What holds of a descriptor after any run of steps: its methods carry their own handles, the methods
that stand in for base methods have their names and signatures, at most one method without a slot of
its own answers to a name and a signature, and each registered slot has such a method. Registered
slots keep their handles.
-/

namespace TypeLoom

namespace DraftMethod

/-- The method replaces inherited methods of its name and signature. -/
def Replaces (m : DraftMethod) : Prop := m.isVirtual = true ∧ m.isNewSlot = false

theorem takesSlot_iff (m : DraftMethod) (name : String) (s : MethodSignature) :
    m.takesSlot name s ↔ m.Replaces ∧ m.name = name ∧ m.signature.agrees s := by
  simp [takesSlot, Replaces, and_assoc]

theorem takesSlot_congr (m : DraftMethod) (name : String) {s s' : MethodSignature}
    (h : s.agrees s') :
    m.takesSlot name s' = m.takesSlot name s := by
  rw [Bool.eq_iff_iff, takesSlot_iff, takesSlot_iff]
  refine and_congr_right fun _ => and_congr_right fun _ => ?_
  exact ⟨fun hm => MethodSignature.agrees_trans hm (MethodSignature.agrees_symm h), fun hm =>
    MethodSignature.agrees_trans hm h⟩

theorem Revised.refl (m : DraftMethod) : m.Revised m :=
  ⟨rfl, rfl, rfl, rfl, rfl, rfl, rfl, rfl, rfl, rfl⟩

theorem Revised.trans {m mid m' : DraftMethod} (h : m.Revised mid) (h' : mid.Revised m') :
    m.Revised m' where
  handle := h'.handle.trans h.handle
  name := h'.name.trans h.name
  kind := h'.kind.trans h.kind
  signature := h'.signature.trans h.signature
  isVirtual := h'.isVirtual.trans h.isVirtual
  isNewSlot := h'.isNewSlot.trans h.isNewSlot
  isStatic := h'.isStatic.trans h.isStatic
  access := h'.access.trans h.access
  baseMethod := h'.baseMethod.trans h.baseMethod
  explicitOverrides := h'.explicitOverrides.trans h.explicitOverrides

theorem Revised.replaces {m m' : DraftMethod} (h : m.Revised m') : m'.Replaces ↔ m.Replaces := by
  rw [Replaces, Replaces, h.isVirtual, h.isNewSlot]

end DraftMethod

namespace Descriptor

open Universe MethodSignature

variable {u after : Universe} {d d' : Descriptor}

/-! ### Rows of slots -/

def KeepsRows (rows rows' : Keyed Token MethodHandle) : Prop :=
  ∀ slot h, rows.find? slot = some h → rows'.find? slot = some h

theorem KeepsRows.refl (rows : Keyed Token MethodHandle) : KeepsRows rows rows := fun _ _ h => h

theorem keepsRows_put {rows : Keyed Token MethodHandle} {slot : Token} (handle : MethodHandle)
    (free : rows.find? slot = none) : KeepsRows rows (rows.put slot handle) := by
  intro other h hrow
  have hne : slot ≠ other := by
    rintro rfl
    rw [free] at hrow
    cases hrow
  rw [Keyed.find?_put_of_ne _ _ _ _ hne, hrow]

theorem find?_put_cases {rows : Keyed Token MethodHandle} {slot other : Token}
    {handle h : MethodHandle} (hrow : (rows.put slot handle).find? other = some h) :
    (slot = other ∧ handle = h) ∨ rows.find? other = some h := by
  by_cases heq : slot = other
  · subst heq
    rw [Keyed.find?_put_self] at hrow
    exact .inl ⟨rfl, Option.some.inj hrow⟩
  · rw [Keyed.find?_put_of_ne _ _ _ _ heq] at hrow
    exact .inr hrow

/-! ### The invariant -/

/-- A method stands in for a base method: it was made for the slot of that method. -/
structure StandsIn (u : Universe) (d : Descriptor) (own : DraftMethod) (b : MethodId) : Prop where
  replaces : own.Replaces
  name : own.name = (u.method b).name
  signature : own.signature = (u.method b).signature
  explicit : own.explicitOverrides = #[]
  exists' : (u.method? b).isSome
  isClass : (u.record b.owner).isInterface = false
  present : u.isPresent b.owner = true
  virtual : (u.method b).isVirtual = true
  base : ∃ t, d.base = some (.ofClass t)
  row : d.overrides.find? (u.slotToken b) = some own.handle

/-- A row for a slot names a method that takes the slot by name and signature. -/
def RowFor (u : Universe) (d : Descriptor) (slot : Token) (h : MethodHandle) : Prop :=
  ∃ own b, own ∈ d.methods ∧ h = own.handle ∧ u.slotToken b = slot ∧ (u.method? b).isSome
    ∧ (u.record b.owner).isInterface = false
    ∧ own.takesSlot (u.method b).name (u.method b).signature = true

structure Sound (u : Universe) (d : Descriptor) : Prop where
  handles : ∀ (i : Nat) (m : DraftMethod), d.methods[i]? = some m → m.handle = ⟨d.handle, .method i⟩
  standsIn : ∀ m ∈ d.methods, ∀ b, m.baseMethod = some b → d.StandsIn u m b
  implements : ∀ m ∈ d.methods, ∀ i ∈ m.explicitOverrides, m.isNewSlot = true ∧ (u.method? i).isSome
    ∧ (u.record i.owner).isInterface = true
  rows : ∀ slot h, d.overrides.find? slot = some h → d.RowFor u slot h
  unique : ∀ (i j : Nat) (m m' : DraftMethod), d.methods[i]? = some m → d.methods[j]? = some m' →
    m.Replaces → m'.Replaces → m.name = m'.name → m.signature.agrees m'.signature → i = j
  methodsKnown : ∀ m ∈ d.methods, m.signature.Known u.types.size
  constructorsKnown : ∀ s ∈ d.constructors.map (·.signature), s.Known u.types.size
  base : ∀ t, d.base = some (.ofClass t) → t.index < u.types.size
  draftBase : ∀ b, d.base = some (.draft b) → b.index < d.handle.index
  interfaces : ∀ t, .ofClass t ∈ d.interfaces → t.index < u.types.size
    ∧ (u.record t).isInterface = true
  rootless : d.isInterface = true → d.base = none

theorem StandsIn.of_same {own : DraftMethod} {b : MethodId} (h : d.StandsIn u own b)
    (hbase : d'.base = d.base) (hkeep : KeepsRows d.overrides d'.overrides) :
    d'.StandsIn u own b := by
  obtain ⟨hr, hn, hs, he, hex, hc, hp, hv, hb, hrow⟩ := h
  exact ⟨hr, hn, hs, he, hex, hc, hp, hv, by rw [hbase]; exact hb, hkeep _ _ hrow⟩

theorem RowFor.of_same {slot : Token} {handle : MethodHandle} (h : d.RowFor u slot handle)
    (hmethods : ∀ m ∈ d.methods, m ∈ d'.methods) : d'.RowFor u slot handle := by
  obtain ⟨own, b, hown, hrest⟩ := h
  exact ⟨own, b, hmethods own hown, hrest⟩

/-! ### Growing universes -/

/-- Nothing that a descriptor refers to moves when the universe grows. -/
theorem Sound.grow (h : d.Sound u) (hu : u.WellFormed) (ha : Agree u.types.size u after)
    (hle : u.types.size ≤ after.types.size) : d.Sound after := by
  have hslot : ∀ b, (u.method? b).isSome → after.slotToken b = u.slotToken b := fun b hb =>
    ha.slotToken hu (Nat.le_refl _) hle (u.lt_of_isSome_method? b hb)
  have hexists : ∀ b, (u.method? b).isSome → (after.method? b).isSome := fun b hb => by
    rw [ha.isSome_method? (u.lt_of_isSome_method? b hb)]
    exact hb
  have hkind : ∀ b, (u.method? b).isSome →
      (after.record b.owner).isInterface = (u.record b.owner).isInterface := fun b hb =>
    ha.isInterface (u.lt_of_isSome_method? b hb)
  refine ⟨h.handles, ?_, ?_, ?_, h.unique, ?_, ?_, ?_, h.draftBase, ?_, h.rootless⟩
  · intro m hm b hb
    obtain ⟨hr, hn, hs, he, hex, hc, hp, hv, hbase, hrow⟩ := h.standsIn m hm b hb
    have hlt := u.lt_of_isSome_method? b hex
    exact ⟨hr, by rw [ha.name hlt]; exact hn, by rw [ha.signature hlt]; exact hs, he, hexists b hex,
      by
        rw [hkind b hex]; exact hc, by
          rw [ha.isPresent hlt]; exact hp, by rw [ha.isVirtual hlt]; exact hv,
      hbase, by rw [hslot b hex]; exact hrow⟩
  · intro m hm i hi
    obtain ⟨hn, hex, hint⟩ := h.implements m hm i hi
    exact ⟨hn, hexists i hex, by rw [hkind i hex]; exact hint⟩
  · intro slot handle hrow
    obtain ⟨own, b, hown, hh, hs, hex, hc, htakes⟩ := h.rows slot handle hrow
    have hlt := u.lt_of_isSome_method? b hex
    exact ⟨own, b, hown, hh, by
      rw [hslot b hex]; exact hs, hexists b hex, by rw [hkind b hex]; exact hc,
      by rw [ha.name hlt, ha.signature hlt]; exact htakes⟩
  · exact fun m hm => (h.methodsKnown m hm).mono hle
  · exact fun s hs => (h.constructorsKnown s hs).mono hle
  · exact fun t ht => Nat.lt_of_lt_of_le (h.base t ht) hle
  · intro t ht
    obtain ⟨hlt, hint⟩ := h.interfaces t ht
    exact ⟨Nat.lt_of_lt_of_le hlt hle, by rw [ha.isInterface hlt]; exact hint⟩

/-! ### Steps keep descriptors sound -/

theorem Sound.alike (h : d.Sound u) (ha : Alike d d') : d'.Sound u := by
  obtain ⟨hhandle, hflags, hbase, hinterfaces, hconstructors, hmethods, hoverrides, -⟩ := ha
  refine ⟨?_, ?_, ?_, ?_, ?_, ?_, ?_, ?_, ?_, ?_, ?_⟩
  · rw [hmethods, hhandle]; exact h.handles
  · rw [hmethods]
    exact fun m hm b hb => (h.standsIn m hm b hb).of_same hbase (by rw [hoverrides]; exact .refl _)
  · rw [hmethods]; exact h.implements
  · rw [hoverrides]
    exact fun slot handle hrow => (h.rows slot handle hrow).of_same fun m hm => by
      rw [hmethods]; exact hm
  · rw [hmethods]; exact h.unique
  · rw [hmethods]; exact h.methodsKnown
  · rw [hconstructors]; exact h.constructorsKnown
  · rw [hbase]; exact h.base
  · rw [hbase, hhandle]; exact h.draftBase
  · rw [hinterfaces]; exact h.interfaces
  · rw [isInterface, hflags, hbase]; exact h.rootless

theorem Sound.addRows (h : d.Sound u) {rows : Keyed Token MethodHandle}
    (hkeep : KeepsRows d.overrides rows) (hrows : ∀ slot handle, rows.find? slot = some handle →
      d.overrides.find? slot = some handle ∨ d.RowFor u slot handle) :
    ({ d with overrides := rows } : Descriptor).Sound u where
  handles := h.handles
  standsIn := fun m hm b hb => (h.standsIn m hm b hb).of_same rfl hkeep
  implements := h.implements
  rows := fun slot handle hrow => by
    rcases hrows slot handle hrow with hold | hnew
    · exact h.rows slot handle hold
    · exact hnew
  unique := h.unique
  methodsKnown := h.methodsKnown
  constructorsKnown := h.constructorsKnown
  base := h.base
  draftBase := h.draftBase
  interfaces := h.interfaces
  rootless := h.rootless

/-- One more method, that does not take over what another one has, with rows for the slots it
takes. -/
theorem Sound.addMethod (h : d.Sound u) {m : DraftMethod} {rows : Keyed Token MethodHandle}
    (hhandle : m.handle = d.nextMethod)
    (himplements : ∀ i ∈ m.explicitOverrides, m.isNewSlot = true ∧ (u.method? i).isSome
      ∧ (u.record i.owner).isInterface = true)
    (hunique : m.Replaces → ∀ own ∈ d.methods, own.Replaces → own.name = m.name →
      own.signature.agrees m.signature → False)
    (hknown : m.signature.Known u.types.size) (hkeep : KeepsRows d.overrides rows)
    (hstands : ∀ b, m.baseMethod = some b →
      ({ d with methods := d.methods.push m, overrides := rows } : Descriptor).StandsIn u m b)
    (hrows : ∀ slot handle, rows.find? slot = some handle → d.overrides.find? slot = some handle
      ∨ ({ d with methods := d.methods.push m, overrides := rows } : Descriptor).RowFor
      u slot handle) :
    ({ d with methods := d.methods.push m, overrides := rows } : Descriptor).Sound u where
  handles := fun i own hown => by
    rw [Array.getElem?_push] at hown
    split at hown
    · rename_i hi
      cases hown
      rw [hhandle, hi]
      rfl
    · exact h.handles i own hown
  standsIn := fun own hown b hb => by
    rcases Array.mem_push.mp hown with hold | rfl
    · exact (h.standsIn own hold b hb).of_same rfl hkeep
    · exact hstands b hb
  implements := fun own hown => by
    rcases Array.mem_push.mp hown with hold | rfl
    · exact h.implements own hold
    · exact himplements
  rows := fun slot handle hrow => by
    rcases hrows slot handle hrow with hold | hnew
    · exact (h.rows slot handle hold).of_same fun own hown => Array.mem_push.mpr (.inl hown)
    · exact hnew
  unique := fun i j own other hi hj hown hother hname hagrees => by
    rw [Array.getElem?_push] at hi hj
    split at hi <;> split at hj
    · omega
    · cases hi
      exact (hunique hown other (Array.mem_of_getElem? hj) hother hname.symm
        (agrees_symm hagrees)).elim
    · cases hj
      exact (hunique hother own (Array.mem_of_getElem? hi) hown hname hagrees).elim
    · exact h.unique i j own other hi hj hown hother hname hagrees
  methodsKnown := fun own hown => by
    rcases Array.mem_push.mp hown with hold | rfl
    · exact h.methodsKnown own hold
    · exact hknown
  constructorsKnown := h.constructorsKnown
  base := h.base
  draftBase := h.draftBase
  interfaces := h.interfaces
  rootless := h.rootless

theorem getElem?_modify_cases {methods : Array DraftMethod} {index : Nat}
    {change : DraftMethod → DraftMethod} (revised : ∀ m : DraftMethod, m.Revised (change m))
    {i : Nat} {own : DraftMethod} (hown : (methods.modify index change)[i]? = some own) :
    ∃ old, methods[i]? = some old ∧ old.Revised own := by
  rw [Array.getElem?_modify] at hown
  split at hown
  · obtain ⟨old, hold, rfl⟩ := Option.map_eq_some_iff.mp hown
    exact ⟨old, hold, revised old⟩
  · exact ⟨own, hown, .refl own⟩

theorem getElem?_modify_exists {methods : Array DraftMethod} {index : Nat}
    {change : DraftMethod → DraftMethod} (revised : ∀ m : DraftMethod, m.Revised (change m))
    {i : Nat} {old : DraftMethod} (hold : methods[i]? = some old) :
    ∃ own, (methods.modify index change)[i]? = some own ∧ old.Revised own := by
  rw [Array.getElem?_modify, hold]
  split
  · exact ⟨change old, rfl, revised old⟩
  · exact ⟨old, rfl, .refl old⟩

theorem StandsIn.revised {m m' : DraftMethod} {b : MethodId} (h : d.StandsIn u m b)
    (hr : m.Revised m') :
    d.StandsIn u m' b where
  replaces := hr.replaces.mpr h.replaces
  name := hr.name.trans h.name
  signature := hr.signature.trans h.signature
  explicit := hr.explicitOverrides.trans h.explicit
  exists' := h.exists'
  isClass := h.isClass
  present := h.present
  virtual := h.virtual
  base := h.base
  row := by rw [hr.handle]; exact h.row

theorem Sound.revise (h : d.Sound u) {index : Nat} {change : DraftMethod → DraftMethod}
    (revised : ∀ m : DraftMethod, m.Revised (change m)) :
    ({ d with methods := d.methods.modify index change } : Descriptor).Sound u := by
  have hold : ∀ own ∈ d.methods.modify index change, ∃ old ∈ d.methods, old.Revised own := by
    intro own hown
    obtain ⟨i, hi⟩ := Array.mem_iff_getElem?.mp hown
    obtain ⟨old, hold, hr⟩ := getElem?_modify_cases revised hi
    exact ⟨old, Array.mem_of_getElem? hold, hr⟩
  refine ⟨?_, ?_, ?_, ?_, ?_, ?_, h.constructorsKnown, h.base, h.draftBase,
    h.interfaces, h.rootless⟩
  · intro i own hown
    obtain ⟨old, hi, hr⟩ := getElem?_modify_cases revised hown
    rw [hr.handle, h.handles i old hi]
  · intro own hown b hb
    obtain ⟨old, hmem, hr⟩ := hold own hown
    exact ((h.standsIn old hmem b (hr.baseMethod ▸ hb)).revised hr).of_same rfl (.refl _)
  · intro own hown
    obtain ⟨old, hmem, hr⟩ := hold own hown
    rw [hr.explicitOverrides, hr.isNewSlot]
    exact h.implements old hmem
  · intro slot handle hrow
    obtain ⟨old, b, hmem, hhandle, hslot, hex, hc, htakes⟩ := h.rows slot handle hrow
    obtain ⟨i, hi⟩ := Array.mem_iff_getElem?.mp hmem
    obtain ⟨own, hown, hr⟩ := getElem?_modify_exists revised hi
    refine ⟨own, b, Array.mem_of_getElem? hown, by
      rw [hr.handle]; exact hhandle, hslot, hex, hc, ?_⟩
    rw [DraftMethod.takesSlot_iff] at htakes ⊢
    rw [hr.replaces, hr.name, hr.signature]
    exact htakes
  · intro i j own other hi hj hown hother hname hagrees
    obtain ⟨old, hold, hr⟩ := getElem?_modify_cases revised hi
    obtain ⟨old', hold', hr'⟩ := getElem?_modify_cases revised hj
    rw [hr.name, hr'.name] at hname
    rw [hr.signature, hr'.signature] at hagrees
    exact h.unique i j old old' hold hold' (hr.replaces.mp hown)
      (hr'.replaces.mp hother) hname hagrees
  · intro own hown
    obtain ⟨old, hmem, hr⟩ := hold own hown
    rw [hr.signature]
    exact h.methodsKnown old hmem

theorem Sound.addConstructor (h : d.Sound u) {c : DraftMethod}
    (hknown : c.signature.Known u.types.size) :
    ({ d with constructors := d.constructors.push c } : Descriptor).Sound u where
  handles := h.handles
  standsIn := fun m hm b hb => (h.standsIn m hm b hb).of_same rfl (.refl _)
  implements := h.implements
  rows := fun slot handle hrow => (h.rows slot handle hrow).of_same fun _ hm => hm
  unique := h.unique
  methodsKnown := h.methodsKnown
  constructorsKnown := fun s hs => by
    rw [Array.map_push] at hs
    rcases Array.mem_push.mp hs with hold | rfl
    · exact h.constructorsKnown s hold
    · exact hknown
  base := h.base
  draftBase := h.draftBase
  interfaces := h.interfaces
  rootless := h.rootless

theorem Sound.addInterface (h : d.Sound u) {s : Signature}
    (exists' : ∀ t, s = .ofClass t → (u.record t).isInterface = true) :
    ({ d with interfaces := d.interfaces.push s } : Descriptor).Sound u where
  handles := h.handles
  standsIn := fun m hm b hb => (h.standsIn m hm b hb).of_same rfl (.refl _)
  implements := h.implements
  rows := fun slot handle hrow => (h.rows slot handle hrow).of_same fun _ hm => hm
  unique := h.unique
  methodsKnown := h.methodsKnown
  constructorsKnown := h.constructorsKnown
  base := h.base
  draftBase := h.draftBase
  interfaces := fun t ht => by
    rcases Array.mem_push.mp ht with hold | hnew
    · exact h.interfaces t hold
    · exact ⟨u.lt_of_isInterface t (exists' t hnew.symm), exists' t hnew.symm⟩
  rootless := h.rootless

theorem Sound.setImplementations (h : d.Sound u) (rows : Keyed Token MethodHandle) :
    ({ d with implementations := rows } : Descriptor).Sound u where
  handles := h.handles
  standsIn := fun m hm b hb => (h.standsIn m hm b hb).of_same rfl (.refl _)
  implements := h.implements
  rows := fun slot handle hrow => (h.rows slot handle hrow).of_same fun _ hm => hm
  unique := h.unique
  methodsKnown := h.methodsKnown
  constructorsKnown := h.constructorsKnown
  base := h.base
  draftBase := h.draftBase
  interfaces := h.interfaces
  rootless := h.rootless

/-! ### What the checks say -/

theorem baseType?_eq_some {t : TypeId} (h : d.baseType? u = some t) :
    d.base = some (.ofClass t) ∧ u.isPresent t := by
  obtain ⟨s, hs, hpresent⟩ := Option.bind_eq_some_iff.mp h
  obtain ⟨base, hbase, hclass⟩ := Option.bind_eq_some_iff.mp hs
  unfold Universe.present? at hpresent
  split at hpresent
  · rename_i hp
    cases hpresent
    cases base <;> simp only [Signature.class?] at hclass <;> cases hclass
    exact ⟨hbase, hp⟩
  · cases hpresent

/-- A method that can be overridden: a virtual one of a class, declared on the base chain. -/
structure Overridable (u : Universe) (d : Descriptor) (m : MethodId) (base : TypeId) : Prop where
  isBase : d.baseType? u = some base
  isClass : (u.record m.owner).isInterface = false
  present : u.isPresent m.owner = true
  onChain : (u.record m.owner).token = (u.record base).token ∨ u.isSubclassOf base m.owner
  virtual : (u.method m).isVirtual = true

theorem checkOverride_ok {m : MethodId} {base : TypeId} (h : d.checkOverride u m = .ok base) :
    d.Overridable u m base := by
  unfold checkOverride at h
  cases hbase : d.baseType? u with
  | none => rw [hbase] at h; cases h
  | some b =>
    cases howner : u.methodOwner? m with
    | none => rw [hbase, howner] at h; cases h
    | some owner =>
      obtain rfl : owner = m.owner := owner_of_methodOwner? howner
      have hpresent : u.isPresent m.owner = true := by
        by_contra hdropped
        rw [methodOwner?_eq, if_neg (by exact hdropped)] at howner
        cases howner
      rw [hbase, howner] at h
      by_cases hi : (u.record m.owner).isInterface = true
      · simp only [hi] at h; cases h
      · by_cases hc : ((u.record m.owner).token != (u.record b).token && !u.isSubclassOf b m.owner)
          = true
        · simp only [hi, hc] at h; cases h
        · by_cases hv : (u.method m).isVirtual = true
          · simp only [hi, hc, hv] at h
            cases h
            refine ⟨hbase, by simpa using hi, hpresent, ?_, hv⟩
            simpa [or_iff_not_imp_left] using hc
          · simp only [hi, hc, hv] at h; cases h

theorem isSome_of_isVirtual {m : MethodId} (h : (u.method m).isVirtual = true) :
    (u.method? m).isSome := by
  cases hm : u.method? m with
  | some _ => rfl
  | none => rw [Universe.method, hm] at h; exact absurd h (by decide)

theorem checkMethod_ok {name : String} {flags : UInt32} {s : MethodSignature} {hasBody : Bool}
    (h : d.checkMethod name flags s hasBody = .ok ()) :
    name ≠ "" ∧ ∀ own ∈ d.methods, own.name = name → own.signature.sameParameters s = false := by
  simp only [checkMethod, guard_bind_eq_ok, guard_eq_ok] at h
  obtain ⟨hname, -, -, -, -, -, -, hany⟩ := h
  refine ⟨fun hempty => hname (by rw [hempty]; rfl), fun own hown hsame => ?_⟩
  by_contra hparameters
  exact hany (Array.any_eq_true'.mpr ⟨own, hown, by simpa [hsame] using hparameters⟩)

theorem checkImplementation_ok {m : MethodId} (h : d.checkImplementation u m = .ok ()) :
    (u.record m.owner).isInterface = true := by
  unfold checkImplementation at h
  cases howner : (u.methodOwner? m).filter fun t => (u.record t).isInterface with
  | none => rw [howner] at h; cases h
  | some owner =>
    obtain ⟨hown, hi⟩ := Option.filter_eq_some_iff.mp howner
    rw [← owner_of_methodOwner? hown]
    exact hi

theorem isSome_of_name {m : MethodId} (h : (u.method m).name ≠ "") : (u.method? m).isSome := by
  cases hm : u.method? m with
  | some _ => rfl
  | none => rw [Universe.method, hm] at h; exact absurd rfl h

/-! ### Runs keep descriptors sound -/

theorem newOverride_replaces (u : Universe) (h : MethodHandle) (m implementation : MethodId)
    (access : Access) :
    (newOverride u h m implementation access).Replaces := by
  have hflags : ∀ (isAbstract : Bool) (access : Access),
      let flags := withAccess (MethodFlags.virtual ||| MethodFlags.hideBySig) access
      hasBits (if isAbstract then flags ||| MethodFlags.abstract else flags) MethodFlags.virtual
        = true
        ∧ hasBits (if isAbstract then flags ||| MethodFlags.abstract else flags) MethodFlags.newSlot
        = false := by
    intro isAbstract access
    cases isAbstract <;> cases access <;> decide
  exact hflags (u.method implementation).isAbstract access

theorem Sound.reuse (h : d.Sound u) {m : MethodId} {base : TypeId} {own : DraftMethod}
    (check : d.checkOverride u m = .ok base) (free : d.overrides.find? (u.slotToken m) = none)
    (found : d.methods.find? (fun own => own.takesSlot (u.method m).name (u.method m).signature)
      = some own) :
    ({ d with overrides := d.overrides.put (u.slotToken m) own.handle } : Descriptor).Sound u := by
  refine h.addRows (keepsRows_put own.handle free) fun slot handle hrow => ?_
  rcases find?_put_cases hrow with ⟨rfl, rfl⟩ | hold
  · have hover := checkOverride_ok check
    exact .inr ⟨own, m, Array.mem_of_find?_eq_some found, rfl, rfl,
      isSome_of_isVirtual hover.virtual,
      hover.isClass,
      (Array.find?_some found :)⟩
  · exact .inl hold

theorem Sound.override (hu : u.WellFormed) (h : d.Sound u) {m : MethodId} {base : TypeId}
    {access : Access} (check : d.checkOverride u m = .ok base)
    (free : d.overrides.find? (u.slotToken m) = none)
    (missing : d.methods.find? (fun own => own.takesSlot (u.method m).name (u.method m).signature)
      = none) :
    ({ d with
      methods := d.methods.push (newOverride u d.nextMethod m (u.resolveVirtual base m) access)
      overrides := d.overrides.put (u.slotToken m) d.nextMethod } : Descriptor).Sound u := by
  have hover := checkOverride_ok check
  have hexists := isSome_of_isVirtual hover.virtual
  have hreplaces := newOverride_replaces u d.nextMethod m (u.resolveVirtual base m) access
  have htakes : (newOverride u d.nextMethod m (u.resolveVirtual base m) access).takesSlot
    (u.method m).name
      (u.method m).signature := by
    rw [DraftMethod.takesSlot_iff]
    exact ⟨hreplaces, rfl, agrees_refl _⟩
  have hrow : (d.overrides.put (u.slotToken m) d.nextMethod).find? (u.slotToken m)
    = some d.nextMethod :=
    Keyed.find?_put_self _ _ _
  refine h.addMethod rfl (fun i hi => absurd hi (by simp [newOverride])) ?_ ?_
    (keepsRows_put _ free) ?_ ?_
  · intro _ other hother hreplaces' hname hagrees
    refine Array.find?_eq_none.mp missing other hother ?_
    rw [DraftMethod.takesSlot_iff]
    exact ⟨hreplaces', hname, hagrees⟩
  · exact (hu.signature_settled hexists).known
  · rintro b ⟨⟩
    exact ⟨hreplaces, rfl, rfl, rfl, hexists, hover.isClass, hover.present, hover.virtual,
      ⟨base, (baseType?_eq_some hover.isBase).1⟩, hrow⟩
  · intro slot handle hfound
    rcases find?_put_cases hfound with ⟨rfl, rfl⟩ | hold
    · exact .inr ⟨_, m, Array.mem_push_self, rfl, rfl, hexists, hover.isClass, htakes⟩
    · exact .inl hold

theorem Sound.change (hu : u.WellFormed) (h : d.Sound u) (hc : Change u d d') : d'.Sound u := by
  cases hc with
  | aside ha => exact h.alike ha
  | constructor c known ha => exact (h.addConstructor known).alike ha
  | interface s exists' ha => exact (h.addInterface exists').alike ha
  | method name flags signature body known check ha =>
    refine (h.addMethod (m :=
      { handle := d.nextMethod, name, kind := .method, flags, signature, body })
      rfl nofun ?_ known (.refl _) nofun fun _ _ hrow => .inl hrow).alike ha
    intro _ own hown _ hname hagrees
    have hfree := (checkMethod_ok check).2 own hown hname
    rw [sameParameters_of_agrees hagrees] at hfree
    cases hfree
  | revise index change revised ha => exact (h.revise revised).alike ha
  | reuse m base own check free found ha => exact (h.reuse check free found).alike ha
  | override m base access check free missing allowed ha =>
    exact (h.override hu check free missing).alike ha
  | claim m own check free found ha => exact (h.setImplementations _).alike ha
  | inherit m inherited base handle check free isBase found row only ha =>
    exact (h.setImplementations _).alike ha
  | implement m check free missing checkMethod ha =>
    obtain ⟨hname, hfree⟩ := checkMethod_ok checkMethod
    have hexists := isSome_of_name hname
    refine ((h.addMethod (m := {
        handle := d.nextMethod, name := (u.method m).name, kind := .method, flags :=
        newImplementationFlags,
        signature := (u.method m).signature, body := none, explicitOverrides := #[m] })
      rfl ?_ ?_ (hu.signature_settled hexists).known (.refl _) nofun
      fun _ _ hrow => .inl hrow).setImplementations _).alike ha
    · intro i hi
      obtain rfl := Array.mem_singleton.mp hi
      exact ⟨(by decide : hasBits newImplementationFlags MethodFlags.newSlot = true), hexists,
        checkImplementation_ok check⟩
    · rintro ⟨-, hslot⟩
      exact absurd hslot (by decide : ¬ hasBits newImplementationFlags MethodFlags.newSlot = false)

theorem Sound.evolution (hu : u.WellFormed) (h : d.Sound u) (he : Evolution u d d') :
    d'.Sound u := by
  induction he with
  | refl => exact h
  | tail _ step ih => exact ih.change hu step

/-! ### What runs keep -/

/-- What is never taken back: the handle, the flags, the base, the rows of slots and the methods
at their places, up to bodies and attributes. -/
structure Keeps (d d' : Descriptor) : Prop where
  handle : d'.handle = d.handle
  flags : d'.flags = d.flags
  base : d'.base = d.base
  rows : KeepsRows d.overrides d'.overrides
  methods : ∀ (i : Nat) (m : DraftMethod), d.methods[i]? = some m → ∃ m', d'.methods[i]? = some m'
    ∧ m.Revised m'

theorem Keeps.refl (d : Descriptor) :
    Keeps d d := ⟨rfl, rfl, rfl, .refl _, fun _ m hm => ⟨m, hm, .refl m⟩⟩

theorem Keeps.trans {mid : Descriptor} (h : Keeps d mid) (h' : Keeps mid d') : Keeps d d' where
  handle := h'.handle.trans h.handle
  flags := h'.flags.trans h.flags
  base := h'.base.trans h.base
  rows := fun slot handle hrow => h'.rows slot handle (h.rows slot handle hrow)
  methods := fun i m hm => by
    obtain ⟨m', hm', hr⟩ := h.methods i m hm
    obtain ⟨m'', hm'', hr'⟩ := h'.methods i m' hm'
    exact ⟨m'', hm'', hr.trans hr'⟩

theorem Alike.keeps (h : Alike d d') : Keeps d d' where
  handle := h.handle
  flags := h.flags
  base := h.base
  rows := by rw [h.overrides]; exact .refl _
  methods := fun i m hm => ⟨m, by rw [h.methods]; exact hm, .refl m⟩

theorem keeps_with {constructors methods : Array DraftMethod} {interfaces : Array Signature}
    {rows implementations : Keyed Token MethodHandle} (hkeep : KeepsRows d.overrides rows)
    (hmethods : ∀ (i : Nat) (m : DraftMethod), d.methods[i]? = some m → ∃ m', methods[i]? = some m'
      ∧ m.Revised m') :
    Keeps d { d with constructors, interfaces, methods, overrides := rows, implementations } :=
  ⟨rfl, rfl, rfl, hkeep, hmethods⟩

theorem getElem?_push_exists {methods : Array DraftMethod} (m : DraftMethod) {i : Nat}
    {own : DraftMethod} (hown : methods[i]? = some own) : ∃ own', (methods.push m)[i]? = some own'
    ∧ own.Revised own' := by
  refine ⟨own, ?_, .refl own⟩
  have hlt : i < methods.size := (Array.getElem?_eq_some_iff.mp hown).1
  rw [Array.getElem?_push, if_neg (by omega)]
  exact hown

theorem Change.keeps (hc : Change u d d') : Keeps d d' := by
  have hsame : ∀ (i : Nat) (m : DraftMethod), d.methods[i]? = some m → ∃ m', d.methods[i]? = some m'
    ∧ m.Revised m' :=
    fun _ m hm => ⟨m, hm, .refl m⟩
  have hpush : ∀ (new : DraftMethod) (i : Nat) (m : DraftMethod), d.methods[i]? = some m →
      ∃ m', (d.methods.push new)[i]? = some m' ∧ m.Revised m' :=
      fun new _ _ hm => getElem?_push_exists new hm
  cases hc with
  | aside ha => exact ha.keeps
  | constructor c known ha => exact (keeps_with (.refl _) hsame).trans ha.keeps
  | interface s exists' ha => exact (keeps_with (.refl _) hsame).trans ha.keeps
  | method name flags signature body known check ha =>
    exact (keeps_with (.refl _) (hpush _)).trans ha.keeps
  | revise index change revised ha =>
    exact (keeps_with (.refl _) fun _ _ hm => getElem?_modify_exists revised hm).trans ha.keeps
  | reuse m base own check free found ha =>
    exact (keeps_with (keepsRows_put _ free) hsame).trans ha.keeps
  | override m base access check free missing allowed ha =>
    exact (keeps_with (keepsRows_put _ free) (hpush _)).trans ha.keeps
  | claim m own check free found ha => exact (keeps_with (.refl _) hsame).trans ha.keeps
  | inherit m inherited base handle check free isBase found row only ha =>
    exact (keeps_with (.refl _) hsame).trans ha.keeps
  | implement m check free missing checkMethod ha =>
    exact (keeps_with (.refl _) (hpush _)).trans ha.keeps

theorem Evolution.keeps (he : Evolution u d d') : Keeps d d' := by
  induction he with
  | refl => exact .refl d
  | tail _ step ih => exact ih.trans step.keeps

end Descriptor

end TypeLoom
