import TypeLoom.Proofs.Image

/-!
# What operations have checked

A base of a descriptor was checked to be one when the descriptor was made, an interface when it was
added, and a base method when it was overridden. What was checked then still holds however the batch
and the universe went on, since flags do not change.
-/

namespace TypeLoom

open Attempt

/-- Types have kept their flags, and virtual methods are still virtual. -/
structure Universe.Continues (u u' : Universe) : Prop where
  size : u.types.size ≤ u'.types.size
  flags : ∀ t : TypeId, t.index < u.types.size → (u'.record t).flags = (u.record t).flags
  virtual : ∀ m : MethodId, (u.method m).isVirtual = true → (u'.method m).isVirtual = true

def Batch.Continues (b b' : Batch) : Prop :=
  ∀ h d, b.find? h = some d → ∃ d', b'.find? h = some d' ∧ d'.flags = d.flags

/-- The signature names a type with flags that are accepted: one of the universe, or a descriptor
of the batch. -/
def Signature.Suits (u : Universe) (b : Batch) (accepts : UInt32 → Prop) : Signature → Prop
  | .draft h => ∃ d, b.find? h = some d ∧ accepts d.flags
  | .ofClass t => t.index < u.types.size ∧ accepts (u.record t).flags
  | _ => False

theorem Signature.Suits.mono {u u' : Universe} {b b' : Batch}
    {accepts : UInt32 → Prop} {s : Signature} (hs : s.Suits u b accepts) (hu : u.Continues u')
    (hb : b.Continues b') : s.Suits u' b' accepts := by
  cases s with
  | draft h =>
    obtain ⟨d, hd, haccepts⟩ := hs
    obtain ⟨d', hd', hflags⟩ := hb h d hd
    exact ⟨d', hd', hflags ▸ haccepts⟩
  | ofClass t => exact ⟨Nat.lt_of_lt_of_le hs.1 hu.size, (hu.flags t hs.1).symm ▸ hs.2⟩
  | _ => exact hs.elim

theorem Universe.Continues.refl (u : Universe) : u.Continues u :=
  ⟨Nat.le_refl _, fun _ _ => rfl, fun _ h => h⟩

theorem Batch.Continues.refl (b : Batch) : b.Continues b := fun _ d hd => ⟨d, hd, rfl⟩

theorem Universe.Agree.continues {u after : Universe} (ha : Universe.Agree u.types.size u after)
    (hle : u.types.size ≤ after.types.size) : u.Continues after where
  size := hle
  flags := fun t ht => congrArg TypeOutline.flags (ha t ht)
  virtual := fun m hm => by
    rw [ha.isVirtual (u.lt_of_isSome_method? m (Descriptor.isSome_of_isVirtual hm))]
    exact hm

/-! ### Descriptors -/

namespace Descriptor

/-- What was checked of a descriptor with these flags that stands at this place. -/
structure Vetted (u : Universe) (b : Batch) (h : TypeHandle) (flags : UInt32) (d : Descriptor) :
    Prop where
  flags : d.flags = flags
  base : ∀ s, d.base = some s → s.Suits u b TypeFlags.Derivable
  earlier : ∀ x, d.base = some (.draft x) → x.index < h.index
  interfaces : ∀ s ∈ d.interfaces, s.Suits u b (hasBits · TypeFlags.interface = true)
  declaring : ∀ outer, d.declaring = some outer → outer.index < h.index
  overrides : ∀ m ∈ d.methods, ∀ declaration, m.baseMethod = some declaration →
    (u.method declaration).isVirtual = true

variable {u u' : Universe} {b b' : Batch} {h : TypeHandle} {flags : UInt32} {d : Descriptor}

theorem Vetted.mono (hd : d.Vetted u b h flags) (hu : u.Continues u') (hb : b.Continues b') :
    d.Vetted u' b' h flags where
  flags := hd.flags
  base := fun s hs => (hd.base s hs).mono hu hb
  earlier := hd.earlier
  interfaces := fun s hs => (hd.interfaces s hs).mono hu hb
  declaring := hd.declaring
  overrides := fun m hm declaration hdeclaration =>
    hu.virtual _ (hd.overrides m hm declaration hdeclaration)

theorem Vetted.addMethod (hd : d.Vetted u b h flags) {m : DraftMethod}
    (hm : ∀ declaration, m.baseMethod = some declaration → (u.method declaration).isVirtual = true)
    (overrides implementations : Keyed Token MethodHandle) :
    Vetted u b h flags (touch { d with methods := d.methods.push m, overrides, implementations }) :=
  { hd with
    overrides := fun own hown => by
      rcases Array.mem_push.mp hown with hold | rfl
      · exact hd.overrides own hold
      · exact hm }

theorem Vetted.modifyMethod (hd : d.Vetted u b h flags) (slot : Slot)
    {change : DraftMethod → DraftMethod} (hsame : ∀ m, (change m).baseMethod = m.baseMethod) :
    (d.modifyMethod slot change).touch.Vetted u b h flags := by
  cases slot with
  | method index =>
    exact { hd with
      overrides := fun own hown => by
        obtain ⟨i, hi⟩ := Array.mem_iff_getElem?.mp hown
        change (d.methods.modify index change)[i]? = some own at hi
        rw [Array.getElem?_modify] at hi
        split at hi
        · obtain ⟨old, hold, rfl⟩ := Option.map_eq_some_iff.mp hi
          rw [hsame old]
          exact hd.overrides old (Array.mem_of_getElem? hold)
        · exact hd.overrides own (Array.mem_of_getElem? hi) }
  | constructor index => exact { hd with }
  | typeInitializer => exact { hd with }

theorem vetted_addField (name : String) (signature : Signature) (bits : UInt32) :
    Maintains (Vetted u b h flags) (addField name signature bits) :=
  fun _ hd => wp_addField (fun _ _ => { hd with }) fun _ => hd

theorem vetted_addConstructor (bits : UInt32) (parameters : List Parameter) (body : Expr) :
    Maintains (Vetted u b h flags) (addConstructor bits parameters body) :=
  fun _ hd => wp_addConstructor (fun _ _ _ _ _ => { hd with }) hd

theorem vetted_addTypeInitializer (body : Expr) : Maintains (Vetted u b h flags)
    (addTypeInitializer body) :=
  fun _ hd => wp_addTypeInitializer (fun _ _ => { hd with }) hd

theorem vetted_addTypeInitialization (e : Expr) : Maintains (Vetted u b h flags)
    (addTypeInitialization e) :=
  fun _ hd => wp_addTypeInitialization (fun _ => { hd with }) hd

theorem vetted_addInitialization (e : Expr) : Maintains (Vetted u b h flags)
    (addInitialization e) :=
  fun _ hd => wp_addInitialization (fun _ _ => { hd with }) hd

theorem vetted_addMethod (name : String) (bits : UInt32) (signature : MethodSignature)
    (body : Option Expr) :
    Maintains (Vetted u b h flags) (addMethod name bits signature body) :=
  fun _ hd => wp_addMethod (fun _ _ => hd.addMethod (fun _ hnone => (by cases hnone)) _ _) fun _ =>
    hd

theorem vetted_setMethodBody (handle : MethodHandle) (body : Expr) :
    Maintains (Vetted u b h flags) (setMethodBody handle body) :=
  fun _ hd => wp_setMethodBody (fun _ _ _ _ => hd.modifyMethod handle.slot fun _ => rfl) hd

theorem vetted_addMethodAttribute (handle : MethodHandle) (a : Attribute) :
    Maintains (Vetted u b h flags) (addMethodAttribute handle a) :=
  fun _ hd => wp_addMethodAttribute (fun _ _ => hd.modifyMethod handle.slot fun _ => rfl) hd

theorem vetted_addProperty (name : String) (signature : Signature)
    (getter setter : Option MethodHandle) :
    Maintains (Vetted u b h flags) (addProperty u name signature getter setter) :=
  fun _ hd => wp_addProperty (fun _ _ _ _ => { hd with }) fun _ => hd

theorem vetted_addPropertyAccessors (name : String) (signature : Signature) (access : Access)
    (getterBody setterBody : Option Expr) :
    Maintains (Vetted u b h flags) (addPropertyAccessors u name signature access getterBody
        setterBody) := by
  refine fun d hd => wp_addPropertyAccessors (fun _ _ => ?_) fun _ => hd
  refine maintains_bind (maintains_option getterBody fun body => vetted_addMethod _ _ _ _)
    (fun getter => ?_) d hd
  exact maintains_bind (maintains_option setterBody fun body =>
      vetted_addMethod _ _ _ _) fun setter =>
    vetted_addProperty _ _ _ _

theorem vetted_addAutoProperty (name : String) (signature : Signature) (access : Access) :
    Maintains (Vetted u b h flags) (addAutoProperty u name signature access) :=
  maintains_bind (vetted_addField _ _ _) fun _ => vetted_addPropertyAccessors _ _ _ _ _

theorem vetted_addEvent (name : String) (type : Signature) (add remove : MethodHandle)
    (raise : Option MethodHandle) :
    Maintains (Vetted u b h flags) (addEvent u name type add remove raise) :=
  fun _ hd => wp_addEvent (fun _ _ _ _ => { hd with }) hd

theorem vetted_addAttribute (a : Attribute) : Maintains (Vetted u b h flags) (addAttribute a) :=
  fun _ hd => wp_addAttribute (fun _ => { hd with }) hd

theorem vetted_addFieldAttribute (handle : FieldHandle) (a : Attribute) :
    Maintains (Vetted u b h flags) (addFieldAttribute handle a) :=
  fun _ hd => wp_addFieldAttribute (fun _ _ _ => { hd with }) hd

theorem Vetted.addInterface (hd : d.Vetted u b h flags) {s : Signature}
    (hs : s.Suits u b (hasBits · TypeFlags.interface = true)) :
    Vetted u b h flags (touch { d with interfaces := d.interfaces.push s }) :=
  { hd with
    interfaces := fun listed hlisted => by
      rcases Array.mem_push.mp hlisted with hold | rfl
      · exact hd.interfaces listed hold
      · exact hs }

theorem vetted_addInterface (interface : TypeId) (allow : Bool) :
    Maintains (Vetted u b h flags) (addInterface u interface allow) :=
  fun _ hd => wp_addInterface (fun _ hi _ => hd.addInterface ⟨u.lt_of_isInterface interface hi, hi⟩)
    hd hd

theorem vetted_addDraftInterface {interface : TypeHandle} {i : Descriptor}
    (hi : b.find? interface = some i) (hinterface : i.isInterface = true) :
    Maintains (Vetted u b h flags) (addDraftInterface interface) :=
  fun _ hd => wp_addDraftInterface (fun _ _ => hd.addInterface ⟨i, hi, hinterface⟩) hd

theorem vetted_getOrAddOverride (m : MethodId) : Maintains (Vetted u b h flags)
    (getOrAddOverride u m) := by
  refine fun d hd => wp_getOrAddOverride (fun _ _ _ _ => hd) (fun _ _ _ _ _ => { hd with })
    (fun base access check _ _ _ => hd.addMethod ?_ _ _) hd
  rintro declaration ⟨⟩
  exact (checkOverride_ok check).virtual

theorem vetted_getOrAddImplementation (m : MethodId) : Maintains (Vetted u b h flags)
    (getOrAddImplementation u m) := by
  refine fun d hd => wp_getOrAddImplementation (fun _ _ _ => hd) (fun _ _ _ _ => { hd with })
    (fun inherited _ _ _ _ _ => ?_) (fun _ _ _ _ =>
      hd.addMethod (fun _ hnone => (by cases hnone)) _ _) hd
  exact wp_mono (vetted_getOrAddOverride inherited d hd) (fun _ _ hd' => { hd' with }) fun _ h => h

theorem vetted_operation {α : Type} {act : Attempt Descriptor α} (operation : Operation u act) :
    Maintains (Vetted u b h flags) act := by
  cases operation with
  | addition addition =>
    cases addition with
    | addField name signature flags => exact vetted_addField name signature flags
    | addConstructor bits parameters body => exact vetted_addConstructor bits parameters body
    | addTypeInitializer body => exact vetted_addTypeInitializer body
    | addTypeInitialization e => exact vetted_addTypeInitialization e
    | addInitialization e => exact vetted_addInitialization e
    | addMethod name bits signature body => exact vetted_addMethod name bits signature body
    | setMethodBody handle body => exact vetted_setMethodBody handle body
    | addProperty name signature getter setter =>
      exact vetted_addProperty name signature getter setter
    | addPropertyAccessors name signature access getterBody setterBody =>
      exact vetted_addPropertyAccessors name signature access getterBody setterBody
    | addAutoProperty name signature access => exact vetted_addAutoProperty name signature access
    | addEvent name type add remove raise => exact vetted_addEvent name type add remove raise
    | addInterface interface allow => exact vetted_addInterface interface allow
    | addAttribute a => exact vetted_addAttribute a
    | addMethodAttribute handle a => exact vetted_addMethodAttribute handle a
    | addFieldAttribute handle a => exact vetted_addFieldAttribute handle a
  | getOrAddOverride m => exact vetted_getOrAddOverride m
  | getOrAddImplementation m => exact vetted_getOrAddImplementation m

end Descriptor

/-! ### Batches -/

namespace Batch

variable {α : Type} {u u' : Universe} {b b' : Batch}

def Vetted (u : Universe) (b : Batch) : Prop := ∀ h d, b.find? h = some d → d.Vetted u b h d.flags

theorem vetted_empty (u : Universe) : Vetted u {} := fun _ _ hd => by cases hd

theorem Vetted.later (hb : b.Vetted u) (hu : u.Continues u') : b.Vetted u' :=
  fun h d hd => (hb h d hd).mono hu (.refl b)

theorem Vetted.set (hb : b.Vetted u) {t : TypeHandle} {d d' : Descriptor} (hd : b.find? t = some d)
    (hd' : d'.Vetted u b t d.flags) :
    Vetted u { b with types := b.types.setIfInBounds t.index d' } := by
  have hlt : t.index < b.types.size := (Array.getElem?_eq_some_iff.mp hd).1
  have hfind : ∀ h : TypeHandle, find? { b with types := b.types.setIfInBounds t.index d' } h
      = if t.index = h.index then some d' else b.find? h := by
    intro h
    rw [find?, Array.getElem?_setIfInBounds, if_pos hlt]
    rfl
  have hcontinues : b.Continues { b with types := b.types.setIfInBounds t.index d' } := by
    intro h old hold
    rw [hfind]
    split
    · rename_i hsame
      obtain rfl : d = old := Option.some.inj (hd.symm.trans (by rw [← hold, find?, find?, hsame]))
      exact ⟨d', rfl, hd'.flags⟩
    · exact ⟨old, hold, rfl⟩
  intro h e he
  rw [hfind] at he
  split at he
  · rename_i hsame
    obtain rfl : d' = e := Option.some.inj he
    obtain rfl : t = h := by
      cases t
      cases h
      exact congrArg TypeHandle.mk hsame
    rw [hd'.flags]
    exact hd'.mono (.refl u) hcontinues
  · exact (hb h e he).mono (.refl u) hcontinues

theorem Vetted.push (hb : b.Vetted u) {d : Descriptor} (hd : d.Vetted u b ⟨b.types.size⟩ d.flags) :
    Vetted u { b with types := b.types.push d } := by
  have hfind : ∀ h : TypeHandle, find? { b with types := b.types.push d } h
      = if h.index = b.types.size then some d else b.find? h := by
    intro h
    rw [find?, Array.getElem?_push]
    rfl
  have hcontinues : b.Continues { b with types := b.types.push d } := by
    intro h old hold
    have hlt : h.index < b.types.size := (Array.getElem?_eq_some_iff.mp hold).1
    rw [hfind, if_neg (Nat.ne_of_lt hlt)]
    exact ⟨old, hold, rfl⟩
  intro h e he
  rw [hfind] at he
  split at he
  · rename_i hlast
    obtain rfl : d = e := Option.some.inj he
    obtain rfl : h = ⟨b.types.size⟩ := congrArg TypeHandle.mk hlast
    exact hd.mono (.refl u) hcontinues
  · exact (hb h e he).mono (.refl u) hcontinues

theorem Vetted.remembers (hb : b.Vetted u) (hr : b.Remembers b') : b'.Vetted u := by
  have hread : ∀ e : Descriptor, e.flags = e.forget.flags := fun _ => rfl
  have hcontinues : b.Continues b' := fun h d hd => by
    obtain ⟨d', hd', hforget⟩ := hr.find hd
    exact ⟨d', hd', by rw [hread d', hforget]; rfl⟩
  intro h d hd
  obtain ⟨known, hknown, hforget⟩ := hr.symm.find hd
  have hvetted : known.Vetted u b' h d.flags := by
    rw [hread d, ← hforget]
    exact (hb h known hknown).mono (.refl u) hcontinues
  have hforgotten : d.forget.Vetted u b' h d.flags := by
    rw [← hforget]
    exact { hvetted with }
  exact { hforgotten with }

theorem Vetted.closeAll (hb : b.Vetted u) : b.closeAll.Vetted u := by
  have hcontinues : b.Continues b.closeAll :=
    fun h d hd => ⟨d.close, by rw [find?_closeAll, hd, Option.map_some], rfl⟩
  intro h d hd
  rw [find?_closeAll] at hd
  obtain ⟨old, hold, rfl⟩ := Option.map_eq_some_iff.mp hd
  exact { (hb h old hold).mono (.refl u) hcontinues with }

theorem vetted_onType {t : TypeHandle} {act : Attempt Descriptor α}
    (h : ∀ b flags, Maintains (Descriptor.Vetted u b t flags) act) : Maintains (Vetted u)
    (onType t act) := by
  refine fun b hb => wp_onType (fun _ => hb) fun d hd => ?_
  exact wp_mono (h b d.flags d (hb t d hd)) (fun _ _ hd' => hb.set hd hd') fun _ hd' =>
    hb.set hd hd'

theorem suits_of_checkBase {flags : UInt32} {base : Option Signature}
    (h : b.checkBase u flags base = .ok ()) :
    ∀ s, base = some s → s.Suits u b TypeFlags.Derivable := by
  rintro s rfl
  unfold checkBase at h
  dsimp only at h
  by_cases hi : hasBits flags TypeFlags.interface = true
  · rw [if_pos hi] at h
    cases h
  rw [if_neg hi] at h
  cases s with
  | ofClass t =>
    dsimp only at h
    split at h
    · cases h
    · rename_i hpresent
      split at h
      · cases h
      · rename_i hopen
        rw [Bool.or_eq_true, not_or, Bool.not_eq_true, Bool.not_eq_true] at hopen
        exact ⟨u.lt_of_isPresent t (by simpa using hpresent), hopen⟩
  | draft x =>
    dsimp only at h
    cases hx : b.find? x with
    | none =>
      rw [hx] at h
      cases h
    | some d =>
      rw [hx] at h
      dsimp only at h
      split at h
      · cases h
      · rename_i hopen
        rw [Bool.or_eq_true, not_or, Bool.not_eq_true, Bool.not_eq_true] at hopen
        exact ⟨d, hx, hopen.2, hopen.1⟩
  | _ => cases h

theorem vetted_made {space name : String} {flags : UInt32} {base : Option Signature}
    {declaring : Option TypeHandle} (check : b.checkBase u flags base = .ok ())
    (hdeclaring : ∀ outer, declaring = some outer → outer.index < b.types.size) :
    (Descriptor.touch { handle := ⟨b.types.size⟩, space, name, flags, base, declaring }).Vetted u b
        ⟨b.types.size⟩ flags where
  flags := rfl
  base := suits_of_checkBase check
  earlier := fun x hx => by
    obtain ⟨d, hd, -⟩ := suits_of_checkBase check _ hx
    exact (Array.getElem?_eq_some_iff.mp hd).1
  interfaces := fun _ hnone => absurd hnone (Array.not_mem_empty _)
  declaring := hdeclaring
  overrides := fun _ hnone => absurd hnone (Array.not_mem_empty _)

theorem vetted_createType (space name : String) (flags : UInt32) (base : Option Signature) :
    Maintains (Vetted u) (createType u space name flags base) :=
  fun _ hb => wp_createType (fun _ check =>
    hb.push (vetted_made check fun _ hnone => (by cases hnone))) hb

theorem vetted_addNested (outer : TypeHandle) (name : String) (flags : UInt32)
    (base : Option Signature) :
    Maintains (Vetted u) (addNested u outer name flags base) := by
  refine fun b hb => wp_addNested (fun d hd _ _ check => ?_) hb
  have hlt : outer.index < b.types.size := (Array.getElem?_eq_some_iff.mp hd).1
  let made : Descriptor :=
    { handle := ⟨b.types.size⟩, space := "", name, flags := nestedFlags flags, base,
      declaring := some outer }
  have hmade : made.touch.Vetted u b ⟨b.types.size⟩ made.touch.flags :=
    vetted_made check fun _ heq => by cases heq; exact hlt
  have hpushed := hb.push hmade
  have hfound : find? { b with types := b.types.push made.touch } outer = some d := by
    rw [find?, Array.getElem?_push, if_neg (Nat.ne_of_lt hlt)]
    exact hd
  exact hpushed.set hfound { hpushed outer d hfound with }

theorem vetted_addBatchInterface (t interface : TypeHandle) : Maintains (Vetted u)
    (addBatchInterface t interface) := by
  refine fun b hb => wp_addBatchInterface (fun i hi hinterface => ?_) hb
  refine wp_onType (fun _ => hb) fun d hd => ?_
  exact wp_mono (Descriptor.vetted_addDraftInterface hi hinterface d (hb t d hd))
    (fun _ _ hd' => hb.set hd hd')
    fun _ hd' => hb.set hd hd'

theorem vetted_askAbstract (t : TypeHandle) : Maintains (Vetted u) (askAbstract u t) :=
  fun b hb => wp_mono (b.remembers_askAbstract u t b (.refl b)) (fun _ _ hr => hb.remembers hr)
    fun _ hr => hb.remembers hr

theorem Vetted.createProxy (hb : b.Vetted u) {requested : TypeId}
    (hpresent : u.isPresent requested = true)
    (hopen : TypeFlags.Derivable (u.record requested).flags) (name : String) :
    (b.createProxy u requested name).2.Vetted u :=
  hb.push {
    flags := rfl
    base := by
      rintro s ⟨⟩
      exact ⟨u.lt_of_isPresent requested hpresent, hopen⟩
    earlier := nofun
    interfaces := fun _ hnone => absurd hnone (Array.not_mem_empty _)
    declaring := fun _ hnone => (by cases hnone)
    overrides := fun _ hnone => absurd hnone (Array.not_mem_empty _) }

theorem vetted_perform (e : Edit) : Maintains (Vetted u) (e.perform u) :=
  maintains_perform vetted_createType vetted_addNested vetted_addBatchInterface
    (fun _ _ operation => vetted_onType fun _ _ => Descriptor.vetted_operation operation) e fun t
    _ => vetted_askAbstract t

/-! ### Built batches -/

/-- A batch that was built beside a universe, which may go on at any time: by edits, whether they
succeed or fail, and by proxies of types that can be a base. -/
inductive Built : Universe → Batch → Prop
  | empty (u : Universe) : Built u {}
  | edit {u : Universe} {b : Batch} (e : Edit) (held : e.Held u) (h : Built u b) :
    Built u ((e.perform u).start b).2
  | proxy {u : Universe} {b : Batch} (requested : TypeId) (name : String)
    (present : u.isPresent requested = true)
      (derivable : TypeFlags.Derivable (u.record requested).flags) (h : Built u b) :
      Built u (b.createProxy u requested name).2
  | later {u u' : Universe} {b : Batch} (continues : u.Continues u') (h : Built u b) : Built u' b

theorem Built.formed (h : b.Built u) : b.Formed := by
  induction h with
  | empty u => exact .empty
  | edit e held _ ih => exact .edit _ e held ih
  | proxy requested name _ _ _ ih => exact .proxy _ requested name ih
  | later _ _ ih => exact ih

theorem Built.vetted (h : b.Built u) : b.Vetted u := by
  induction h with
  | empty u => exact vetted_empty u
  | edit e _ _ ih => exact wp_const.mp (vetted_perform e _ ih)
  | proxy requested name present derivable _ ih => exact ih.createProxy present derivable name
  | later continues _ ih => exact ih.later continues

theorem Built.run (h : b.Built u) {edits : List Edit} (held : ∀ e ∈ edits, e.Held u) :
    (Edit.run u b edits).Built u := by
  induction edits generalizing b with
  | nil => exact h
  | cons e edits ih =>
    obtain ⟨hfirst, hrest⟩ := List.forall_mem_cons.mp held
    exact ih (.edit e hfirst h) hrest

end Batch

end TypeLoom
