import TypeLoom.Build.Class
import TypeLoom.Proofs.Attempts
import TypeLoom.Proofs.Chains

/-!
# Growing universes

How the steps that build types act on outlines: most of them leave every outline as it is, the
others change the outline of one type in one place. A universe stays well-formed if the changed
outline fits.
-/

namespace TypeLoom

/-! ### Changes of one outline -/

namespace TypeOutline

def setBase (b : TypeId) (o : TypeOutline) : TypeOutline := { o with base := some b }

def addInterface (i : TypeId) (o : TypeOutline) : TypeOutline :=
  { o with interfaces := o.interfaces ++ [i] }

def addMethod (m : MethodOutline) (o : TypeOutline) : TypeOutline :=
  { o with methods := o.methods ++ [m] }

def addConstructor (m : MethodOutline) (o : TypeOutline) : TypeOutline :=
  { o with constructors := o.constructors ++ [m] }

def setInitializer (id : MethodId) (m : MethodOutline) (o : TypeOutline) : TypeOutline :=
  { o with initializer := some id, ownInitializer := some m }

def addOverride (v : Override) (o : TypeOutline) : TypeOutline :=
  { o with overrides := o.overrides ++ [v] }

theorem outline_pushOverride (r : TypeRecord) (v : Override) :
    TypeRecord.outline { r with overrides := r.overrides.push v } = r.outline.addOverride v := by
  simp [TypeRecord.outline, addOverride]

def hide (o : TypeOutline) : TypeOutline := { o with present := false }

structure Keeps (o o' : TypeOutline) : Prop where
  flags : o'.flags = o.flags
  method : ∀ slot m, o.method? slot = some m → o'.method? slot = some m

theorem Keeps.refl (o : TypeOutline) : Keeps o o := ⟨rfl, fun _ _ h => h⟩

theorem keeps_setBase (b : TypeId) (o : TypeOutline) : Keeps o (o.setBase b) :=
  ⟨rfl, fun slot _ h => by cases slot <;> exact h⟩

theorem keeps_addInterface (i : TypeId) (o : TypeOutline) : Keeps o (o.addInterface i) :=
  ⟨rfl, fun slot _ h => by cases slot <;> exact h⟩

theorem keeps_addOverride (v : Override) (o : TypeOutline) : Keeps o (o.addOverride v) :=
  ⟨rfl, fun slot _ h => by cases slot <;> exact h⟩

theorem keeps_hide (o : TypeOutline) : Keeps o o.hide :=
  ⟨rfl, fun slot _ h => by cases slot <;> exact h⟩

theorem getElem?_append_one {α : Type} {items : List α} {index : Nat} {a b : α}
    (h : (items ++ [b])[index]? = some a) : items[index]? = some a ∨ a = b := by
  rw [List.getElem?_append] at h
  split at h
  · exact .inl h
  · right
    have := List.mem_of_getElem? h
    simpa using this

theorem getElem?_append_left {α : Type} {items : List α} {index : Nat} {a b : α}
    (h : items[index]? = some a) : (items ++ [b])[index]? = some a := by
  rw [List.getElem?_append_left, h]
  exact (List.getElem?_eq_some_iff.mp h).1

theorem keeps_addMethod (m : MethodOutline) (o : TypeOutline) : Keeps o (o.addMethod m) := by
  refine ⟨rfl, fun slot r h => ?_⟩
  cases slot with
  | method index => exact getElem?_append_left h
  | constructor index => exact h
  | typeInitializer => exact h

theorem keeps_addConstructor (m : MethodOutline) (o : TypeOutline) :
    Keeps o (o.addConstructor m) := by
  refine ⟨rfl, fun slot r h => ?_⟩
  cases slot with
  | method index => exact h
  | constructor index => exact getElem?_append_left h
  | typeInitializer => exact h

theorem keeps_setInitializer (id : MethodId) (m : MethodOutline) {o : TypeOutline}
    (h : o.ownInitializer = none) : Keeps o (o.setInitializer id m) := by
  refine ⟨rfl, fun slot r hr => ?_⟩
  cases slot with
  | method index => exact hr
  | constructor index => exact hr
  | typeInitializer => rw [method?, h] at hr; cases hr

/-! ### Changes that fit -/

namespace Fits

variable {look look' : TypeId → TypeOutline} {size size' : Nat} {t : TypeId} {o : TypeOutline}

theorem grow (h : o.Fits look size t) (hle : size ≤ size')
    (hlook : ∀ b : TypeId, b.index ≤ t.index → Keeps (look b) (look' b)) :
    o.Fits look' size' t := by
  have hsame : ∀ b : TypeId, b.index ≤ t.index → (look' b).isInterface = (look b).isInterface := by
    intro b hb
    rw [isInterface, isInterface, (hlook b hb).flags]
  refine ⟨h.base_lt, ?_, ?_, ?_, ?_, ?_, h.initializer⟩
  · intro b hb
    rw [hsame b (Nat.le_of_lt (h.base_lt b hb))]
    exact h.base_class b hb
  · intro hi
    refine ⟨(h.rootless hi).1, fun v hv => ?_⟩
    rw [hsame _ (Nat.le_of_lt (h.overrides v hv).2.1)]
    exact (h.rootless hi).2 v hv
  · intro i hi
    obtain ⟨hle, hint⟩ := h.interfaces i hi
    exact ⟨hle, by rw [hsame i hle]; exact hint⟩
  · intro v hv
    obtain ⟨hown, hlt, body, declared, hbody, hdeclared, hagree⟩ := h.overrides v hv
    refine ⟨hown, hlt, body, declared, hbody, (hlook _ (Nat.le_of_lt hlt)).method _ _ hdeclared, ?_⟩
    rw [hsame _ (Nat.le_of_lt hlt)]
    exact hagree
  · intro slot m hm
    exact (h.signatures slot m hm).mono hle

theorem setBase (h : o.Fits look size t) {b : TypeId} (hlt : b.index < t.index)
    (hb : (look b).isInterface = false) (ho : o.isInterface = false) :
    (o.setBase b).Fits look size t := by
  refine ⟨?_, ?_, ?_, h.interfaces, h.overrides, h.signatures, h.initializer⟩
  · intro b' hb'
    cases hb'
    exact hlt
  · intro b' hb'
    cases hb'
    exact hb
  · intro hi
    rw [show o.isInterface = true from hi] at ho
    cases ho

theorem addInterface (h : o.Fits look size t) {i : TypeId} (hle : i.index ≤ t.index)
    (hi : (look i).isInterface = true) : (o.addInterface i).Fits look size t := by
  refine ⟨h.base_lt, h.base_class, h.rootless, ?_, h.overrides, h.signatures, h.initializer⟩
  intro j hj
  rcases List.mem_append.mp hj with hj | hj
  · exact h.interfaces j hj
  · cases List.mem_singleton.mp hj
    exact ⟨hle, hi⟩

theorem addOverride (h : o.Fits look size t) {v : Override} {body declared : MethodOutline}
    (hown : v.body.owner = t) (hlt : v.declaration.owner.index < t.index)
    (hbody : o.method? v.body.slot = some body)
    (hdeclared : (look v.declaration.owner).method? v.declaration.slot = some declared)
    (hagree : (look v.declaration.owner).isInterface = false →
      o.isInterface = false ∧ body.name = declared.name
      ∧ body.signature.agrees declared.signature) :
    (o.addOverride v).Fits look size t := by
  refine ⟨h.base_lt, h.base_class, ?_, h.interfaces, ?_, h.signatures, h.initializer⟩
  · intro hi
    refine ⟨(h.rootless hi).1, fun w hw => ?_⟩
    rcases List.mem_append.mp hw with hw | hw
    · exact (h.rootless hi).2 w hw
    · cases List.mem_singleton.mp hw
      cases hd : (look v.declaration.owner).isInterface with
      | true => rfl
      | false => rw [show o.isInterface = true from hi] at hagree; cases (hagree hd).1
  · intro w hw
    rcases List.mem_append.mp hw with hw | hw
    · exact h.overrides w hw
    · cases List.mem_singleton.mp hw
      exact ⟨hown, hlt, body, declared, hbody, hdeclared, fun hd => (hagree hd).2⟩

theorem hide (h : o.Fits look size t) : o.hide.Fits look size t :=
  ⟨h.base_lt, h.base_class, h.rootless, h.interfaces, h.overrides, h.signatures, h.initializer⟩

theorem addMember {o' : TypeOutline} (h : o.Fits look size t) (hbase : o'.base = o.base)
    (hinterfaces : o'.interfaces = o.interfaces) (hoverrides : o'.overrides = o.overrides)
    (hk : Keeps o o') (hsignatures : ∀ slot m, o'.method? slot = some m → m.signature.Settled size)
    (hinitializer : o'.initializer = none → o'.ownInitializer = none) : o'.Fits look size t := by
  refine ⟨by rw [hbase]; exact h.base_lt, by rw [hbase]; exact h.base_class, ?_,
    by rw [hinterfaces]; exact h.interfaces, ?_, hsignatures, hinitializer⟩
  · rw [isInterface, hk.flags, hbase, hoverrides]
    exact h.rootless
  · intro v hv
    rw [hoverrides] at hv
    obtain ⟨hown, hlt, body, declared, hbody, hrest⟩ := h.overrides v hv
    exact ⟨hown, hlt, body, declared, hk.method _ _ hbody, hrest⟩

theorem addMethod (h : o.Fits look size t) {m : MethodOutline} (hs : m.signature.Settled size) :
    (o.addMethod m).Fits look size t := by
  refine h.addMember rfl rfl rfl (keeps_addMethod m o) ?_ h.initializer
  intro slot r hr
  cases slot with
  | method index =>
    rcases getElem?_append_one hr with hr | rfl
    · exact h.signatures (.method index) r hr
    · exact hs
  | constructor index => exact h.signatures (.constructor index) r hr
  | typeInitializer => exact h.signatures .typeInitializer r hr

theorem addConstructor (h : o.Fits look size t) {m : MethodOutline}
    (hs : m.signature.Settled size) :
    (o.addConstructor m).Fits look size t := by
  refine h.addMember rfl rfl rfl (keeps_addConstructor m o) ?_ h.initializer
  intro slot r hr
  cases slot with
  | method index => exact h.signatures (.method index) r hr
  | constructor index =>
    rcases getElem?_append_one hr with hr | rfl
    · exact h.signatures (.constructor index) r hr
    · exact hs
  | typeInitializer => exact h.signatures .typeInitializer r hr

theorem setInitializer (h : o.Fits look size t) {id : MethodId} {m : MethodOutline}
    (hs : m.signature.Settled size) (hnone : o.initializer = none) :
    (o.setInitializer id m).Fits look size t := by
  refine h.addMember rfl rfl rfl (keeps_setInitializer id m (h.initializer hnone)) ?_ nofun
  intro slot r hr
  cases slot with
  | method index => exact h.signatures (.method index) r hr
  | constructor index => exact h.signatures (.constructor index) r hr
  | typeInitializer =>
    cases Option.some.inj hr
    exact hs

end Fits

end TypeOutline

/-! ### Universes after a change -/

namespace Universe

variable {u mid after : Universe} {t : TypeId}

def Reshaped (u : Universe) (t : TypeId) (change : TypeOutline → TypeOutline) (after : Universe) :
    Prop :=
  after.types.size = u.types.size
    ∧ ∀ other, after.outline other = if other = t then change (u.outline t) else u.outline other

def Same (u after : Universe) : Prop :=
  after.types.size = u.types.size ∧ ∀ t, after.outline t = u.outline t

theorem Same.refl (u : Universe) : Same u u := ⟨rfl, fun _ => rfl⟩

theorem Same.trans (h : Same u mid) (h' : Same mid after) : Same u after :=
  ⟨h'.1.trans h.1, fun t => (h'.2 t).trans (h.2 t)⟩

theorem same_modify (t : TypeId) {change : TypeRecord → TypeRecord}
    (h : ∀ r, (change r).outline = r.outline) :
    Same u (u.modify t change) :=
  ⟨u.size_modify t change, fun other => u.outline_modify_quiet t other change h⟩

theorem reshaped_modify (ht : t.index < u.types.size) {change : TypeRecord → TypeRecord}
    {shape : TypeOutline → TypeOutline} (h : ∀ r, (change r).outline = shape r.outline) :
    Reshaped u t shape (u.modify t change) := by
  refine ⟨u.size_modify t change, fun other => ?_⟩
  rw [u.outline_modify t other change ht, h]
  rfl

theorem Same.agree (h : Same u after) (size : Nat) : Agree size u after := fun t _ => h.2 t

theorem Reshaped.agree {change : TypeOutline → TypeOutline} (h : Reshaped u t change after) :
    Agree t.index u after := by
  intro other hlt
  rw [h.2, if_neg]
  rintro rfl
  exact Nat.lt_irrefl _ hlt

theorem Reshaped.self {change : TypeOutline → TypeOutline} (h : Reshaped u t change after) :
    after.outline t = change (u.outline t) := by
  rw [h.2, if_pos rfl]

theorem Reshaped.other {change : TypeOutline → TypeOutline} (h : Reshaped u t change after)
    {other : TypeId} (hne : other ≠ t) : after.outline other = u.outline other := by
  rw [h.2, if_neg hne]

theorem Same.wellFormed (h : Same u after) (hu : WellFormed u) : WellFormed after := by
  intro t
  have hlook : after.outline = u.outline := funext h.2
  rw [hlook, h.1]
  exact hu t

theorem Reshaped.wellFormed {change : TypeOutline → TypeOutline} (h : Reshaped u t change after)
    (hu : WellFormed u) (hk : TypeOutline.Keeps (u.outline t) (change (u.outline t)))
    (hfits : (change (u.outline t)).Fits u.outline u.types.size t) : WellFormed after := by
  have hlook : ∀ b, TypeOutline.Keeps (u.outline b) (after.outline b) := by
    intro b
    by_cases hb : b = t
    · subst hb
      rw [h.self]
      exact hk
    · rw [h.other hb]
      exact .refl _
  intro other
  rw [h.1]
  refine TypeOutline.Fits.grow ?_ (Nat.le_refl _) fun b _ => hlook b
  by_cases ho : other = t
  · subst ho
    rw [h.self]
    exact hfits
  · rw [h.other ho]
    exact hu other

/-- A new type without members fits anywhere. -/
theorem WellFormed.push (hu : WellFormed u) {r : TypeRecord} (hbase : r.base = none)
    (hinterfaces : r.interfaces = #[]) (hmethods : ∀ slot, r.method? slot = none)
    (hoverrides : r.overrides = #[]) :
    WellFormed (u.push r) := by
  intro t
  rw [size_push]
  have hlook : ∀ b : TypeId, b.index < u.types.size →
      TypeOutline.Keeps (u.outline b) ((u.push r).outline b) := by
    intro b hb
    rw [Agree.push r b hb]
    exact .refl _
  by_cases ht : t = u.nextId
  · rw [outline_push, if_pos ht]
    have hnone : ∀ slot, r.outline.method? slot = none := fun slot => by
      rw [r.outline_method?, hmethods, Option.map_none]
    refine ⟨?_, ?_, ?_, ?_, ?_, ?_, ?_⟩
    · intro b hb
      rw [show r.outline.base = r.base from rfl, hbase] at hb
      cases hb
    · intro b hb
      rw [show r.outline.base = r.base from rfl, hbase] at hb
      cases hb
    · intro _
      refine ⟨hbase, fun v hv => ?_⟩
      simp [TypeRecord.outline, hoverrides] at hv
    · intro i hi
      simp [TypeRecord.outline, hinterfaces] at hi
    · intro v hv
      simp [TypeRecord.outline, hoverrides] at hv
    · intro slot m hm
      rw [hnone slot] at hm
      cases hm
    · intro _
      exact hnone .typeInitializer
  · rw [outline_push, if_neg ht]
    have hne : t.index ≠ u.types.size := fun heq => ht (by cases t; simp_all [nextId])
    by_cases hlt : t.index < u.types.size
    · exact (hu t).grow (Nat.le_succ _) fun b hb => hlook b (by omega)
    · have hnone := u.outline_of_le t (by omega)
      have hfit := hu t
      rw [hnone] at hfit ⊢
      refine ⟨?_, ?_, ?_, ?_, ?_, fun slot m hm => (hfit.signatures slot m hm).mono (Nat.le_succ _),
        fun _ => rfl⟩
      · intro b hb
        cases hb
      · intro b hb
        cases hb
      · intro _
        refine ⟨rfl, fun v hv => ?_⟩
        cases hv
      · intro i hi
        cases hi
      · intro v hv
        cases hv

end Universe

end TypeLoom
