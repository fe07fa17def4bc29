import TypeLoom.Proofs.Searches

/-!
# Assignability

A type is assignable to what is reached from it over some bases and then along listed interfaces.
What such a type is assignable to in turn is reached in the same way, unless a listed interface has
a base of its own.
-/

namespace TypeLoom

namespace Universe

open Grounded Relation

variable {u : Universe} {r s t b : TypeId}

/-- Over some bases, and from there along listed interfaces. -/
def Reaches (u : Universe) (t s : TypeId) : Prop := ∃ level, ReflTransGen u.HasBase t level
    ∧ ReflTransGen u.Lists level s

theorem Traversable.isAssignableTo_iff (h : u.Traversable t) :
    u.isAssignableTo t s = true ↔ ∃ found, u.Reaches t found
    ∧ (u.record found).token = (u.record s).token := by
  have hderived : u.isSubclassOf t s = true
      ↔ ∃ found, TransGen u.HasBase t found ∧ (u.record found).token = (u.record s).token := by
    simp [isSubclassOf, mem_bases_iff h.bases]
  have himplements : u.implements t s = true
      ↔ ∃ level, ReflTransGen u.HasBase t level ∧ ∃ found, TransGen u.Lists level found
        ∧ (u.record found).token = (u.record s).token := by
    rw [implements, List.any_eq_true]
    constructor
    · rintro ⟨level, hlevel, hlisted⟩
      have hpath := (mem_hierarchy_iff h.bases).mp hlevel
      exact ⟨level, hpath, (listsInterface_iff (h.interfaces level hpath)).mp hlisted⟩
    · rintro ⟨level, hpath, hlisted⟩
      exact ⟨level, (mem_hierarchy_iff h.bases).mpr hpath,
        (listsInterface_iff (h.interfaces level hpath)).mpr hlisted⟩
  rw [isAssignableTo, Bool.or_eq_true, Bool.or_eq_true, beq_iff_eq, hderived, himplements]
  constructor
  · rintro ((hsame | ⟨found, hpath, hfound⟩) | ⟨level, hpath, found, hlisted, hfound⟩)
    · exact ⟨t, ⟨t, .refl, .refl⟩, hsame⟩
    · exact ⟨found, ⟨found, hpath.to_reflTransGen, .refl⟩, hfound⟩
    · exact ⟨found, ⟨level, hpath, hlisted.to_reflTransGen⟩, hfound⟩
  · rintro ⟨found, ⟨level, hpath, hlisted⟩, hfound⟩
    -- Without a listed interface the way ends at the type or at a base of it.
    rcases reflTransGen_iff_eq_or_transGen.mp hlisted with rfl | hlisted
    · rcases reflTransGen_iff_eq_or_transGen.mp hpath with rfl | hpath
      · exact .inl (.inl hfound)
      · exact .inl (.inr ⟨_, hpath, hfound⟩)
    · exact .inr ⟨level, hpath, found, hlisted, hfound⟩

/-! ### Types of one registry -/

/-- The second type is the base of the first one, or is listed by it. -/
def Above (u : Universe) (t s : TypeId) : Prop := u.HasBase t s ∨ u.Lists t s

theorem path_of_bases (hpath : ReflTransGen u.HasBase t s) : ReflTransGen u.Above t s :=
  ReflTransGen.mono (fun _ _ => .inl) t s hpath

theorem path_of_lists (hpath : ReflTransGen u.Lists t s) : ReflTransGen u.Above t s :=
  ReflTransGen.mono (fun _ _ => .inr) t s hpath

/-- The types of one registry: none is above itself, and each has a token of its own. -/
structure Genealogy (u : Universe) : Prop where
  closed : ∀ t s, u.Above t s → s.index < u.types.size
  acyclic : ∀ t, ¬ TransGen u.Above t t
  tokens : ∀ s t : TypeId, s.index < u.types.size → t.index < u.types.size →
    (u.record s).token = (u.record t).token → s = t

namespace Genealogy

variable (h : u.Genealogy)
include h

theorem traversable (t : TypeId) : u.Traversable t := by
  have hbases : ∀ t, ¬ TransGen u.HasBase t t :=
    fun t hcycle => h.acyclic t (TransGen.mono (fun _ _ => .inl) t t hcycle)
  have hlists : ∀ t, ¬ TransGen u.Lists t t :=
    fun t hcycle => h.acyclic t (TransGen.mono (fun _ _ => .inr) t t hcycle)
  exact ⟨of_acyclic (fun _ _ => lt_of_hasBase) hbases t, fun level _ =>
    of_acyclic (fun _ _ => lt_of_lists) hlists level⟩

theorem lt_of_path (ht : t.index < u.types.size) (hpath : ReflTransGen u.Above t s) :
    s.index < u.types.size := by
  cases hpath with
  | refl => exact ht
  | tail _ hlast => exact h.closed _ _ hlast

theorem lt_of_reaches (ht : t.index < u.types.size) (hreaches : u.Reaches t s) :
    s.index < u.types.size := by
  obtain ⟨level, hbases, hlists⟩ := hreaches
  exact h.lt_of_path ht ((path_of_bases hbases).trans (path_of_lists hlists))

theorem isAssignableTo_iff (ht : t.index < u.types.size) (hs : s.index < u.types.size) :
    u.isAssignableTo t s = true ↔ u.Reaches t s := by
  rw [(h.traversable t).isAssignableTo_iff]
  constructor
  · rintro ⟨found, hreaches, htoken⟩
    rwa [← h.tokens found s (h.lt_of_reaches ht hreaches) hs htoken]
  · intro hreaches
    exact ⟨s, hreaches, rfl⟩

theorem isSubclassOf_iff (ht : t.index < u.types.size) (hs : s.index < u.types.size) :
    u.isSubclassOf t s = true ↔ TransGen u.HasBase t s := by
  simp only [isSubclassOf, List.any_eq_true, beq_iff_eq, mem_bases_iff (h.traversable t).bases]
  constructor
  · rintro ⟨found, hpath, htoken⟩
    have hfound := h.lt_of_path ht (path_of_bases hpath.to_reflTransGen)
    rwa [← h.tokens found s hfound hs htoken]
  · intro hpath
    exact ⟨s, hpath, rfl⟩

end Genealogy

/-! ### Transitivity -/

/-- A type is assignable to what the interfaces that it lists derive from. -/
def TakesOver (u : Universe) : Prop :=
  ∀ t i b : TypeId, b.index < u.types.size → u.Lists t i → u.isSubclassOf i b = true →
    u.isAssignableTo t b = true

theorem takesOver_of_baseless (hnone : ∀ t i, u.Lists t i → (u.record i).base = none) :
    u.TakesOver := by
  intro t i b _ hlists hsubclass
  rw [isSubclassOf, bases, hierarchy, chainWithin, hnone t i hlists] at hsubclass
  cases hsubclass

/-- From one interface to what it lists, and from there over some bases: this way does not lead
out. -/
theorem Reaches.along (h : u.Genealogy) (htakes : u.TakesOver)
    (hpath : ReflTransGen u.Lists level s) (hlevel : level.index < u.types.size)
    (hreaches : u.Reaches s r) : u.Reaches level r := by
  induction hpath using ReflTransGen.head_induction_on with
  | refl => exact hreaches
  | @head t i hlists hrest ih =>
    have hi : i.index < u.types.size := h.closed t i (.inr hlists)
    obtain ⟨b, hbases, hlisted⟩ := ih hi
    rcases reflTransGen_iff_eq_or_transGen.mp hbases with rfl | hbases
    · exact ⟨t, .refl, .head hlists hlisted⟩
    · have hb : b.index < u.types.size := h.lt_of_path hi (path_of_bases hbases.to_reflTransGen)
      have hassignable := htakes t i b hb hlists ((h.isSubclassOf_iff hi hb).mpr hbases)
      obtain ⟨top, hup, halong⟩ := (h.isAssignableTo_iff hlevel hb).mp hassignable
      exact ⟨top, hup, halong.trans hlisted⟩

theorem Genealogy.isAssignableTo_trans (h : u.Genealogy) (htakes : u.TakesOver)
    (ht : t.index < u.types.size) (hs : s.index < u.types.size) (hr : r.index < u.types.size)
    (hfirst : u.isAssignableTo t s = true) (hsecond : u.isAssignableTo s r = true) :
        u.isAssignableTo t r = true := by
  rw [h.isAssignableTo_iff ht hs] at hfirst
  rw [h.isAssignableTo_iff hs hr] at hsecond
  obtain ⟨level, hbases, hlists⟩ := hfirst
  have hlevel : level.index < u.types.size := h.lt_of_path ht (path_of_bases hbases)
  obtain ⟨top, hup, halong⟩ := Reaches.along h htakes hlists hlevel hsecond
  exact (h.isAssignableTo_iff ht hr).mpr ⟨top, hbases.trans hup, halong⟩

/-! ### Values -/

/-- What fits into one place fits into every place of a wider signature. -/
theorem Genealogy.accepts_of_isAssignableFrom (h : u.Genealogy) (htakes : u.TakesOver)
    {target source : Signature} {v : Value} (hv : ∀ o ∈ v.object?, o.type.index < u.types.size)
    (hwider : target.isAssignableFrom u source = true) (haccepts : source.accepts u v = true) :
        target.accepts u v = true := by
  unfold Signature.isAssignableFrom at hwider
  rw [Bool.or_eq_true, beq_iff_eq] at hwider
  rcases hwider with rfl | hwider
  · exact haccepts
  split at hwider
  · -- What holds references does not hold the empty value.
    cases source <;> cases v <;> simp_all [Signature.accepts, Signature.isReference]
  · rename_i d c
    simp only [Bool.and_eq_true] at hwider
    obtain ⟨⟨hd, hc⟩, hsubtype⟩ := hwider
    cases v with
    | null => rfl
    | object o =>
      simp only [Signature.accepts, Bool.and_eq_true] at haccepts ⊢
      exact ⟨hd, h.isAssignableTo_trans htakes (hv o rfl) (u.lt_of_isPresent c hc)
        (u.lt_of_isPresent d hd) haccepts.2 hsubtype⟩
    | _ => cases haccepts
  · cases hwider

/-! ### Assignability as an order -/

/-- Every type is assignable to itself, and to whatever a type is assignable to that it is
assignable to itself; and what a signature holds, each wider one holds too. -/
structure Ordered (u : Universe) : Prop where
  refl : ∀ t, u.isAssignableTo t t = true
  trans : ∀ t s r : TypeId, t.index < u.types.size → s.index < u.types.size →
    r.index < u.types.size →
    u.isAssignableTo t s = true → u.isAssignableTo s r = true → u.isAssignableTo t r = true
  values : ∀ (target source : Signature) (v : Value),
    (∀ o ∈ v.object?, o.type.index < u.types.size) →
    target.isAssignableFrom u source = true → source.accepts u v = true → target.accepts u v = true

/-- Every type is assignable to itself. The rest of an order holds just if every type is
assignable to what its interfaces derive from, and that is so where interfaces have no base. -/
theorem assignability_order (h : u.Genealogy) :
    (∀ t, u.isAssignableTo t t = true) ∧ (u.Ordered ↔ u.TakesOver)
      ∧ ((∀ t i, u.Lists t i → (u.record i).base = none) → u.TakesOver) := by
  refine ⟨u.isAssignableTo_refl, ⟨fun hordered => ?_, fun htakes => ?_⟩, takesOver_of_baseless⟩
  · intro t i b hb hlists hsubclass
    have hi : i.index < u.types.size := h.closed t i (.inr hlists)
    have ht : t.index < u.types.size := lt_of_lists hlists
    apply hordered.trans t i b ht hi hb
    · exact (h.isAssignableTo_iff ht hi).mpr ⟨t, .refl, .single hlists⟩
    · rw [isAssignableTo, hsubclass, Bool.or_true, Bool.true_or]
  · exact ⟨u.isAssignableTo_refl, fun _ _ _ => h.isAssignableTo_trans htakes,
      fun _ _ _ => h.accepts_of_isAssignableFrom htakes⟩

/-- A table of types that go back to earlier ones only, with different tokens. -/
theorem genealogy_of_earlier
    (hearlier : ∀ place < u.types.size, ∀ s ∈ (u.record ⟨place⟩).base.toList
      ++ (u.record ⟨place⟩).interfaces.toList,
      s.index < place)
    (htokens : (u.types.toList.map (·.token)).Nodup) : u.Genealogy := by
  have hdown : ∀ t s, u.Above t s → t.index < u.types.size ∧ s.index < t.index := by
    intro t s habove
    have ht : t.index < u.types.size := habove.elim lt_of_hasBase lt_of_lists
    refine ⟨ht, hearlier t.index ht s ?_⟩
    rw [List.mem_append, Option.mem_toList, Array.mem_toList_iff]
    exact habove
  refine ⟨fun t s habove => ?_, not_transGen_of_lt fun t s habove => (hdown t s habove).2,
    fun s t hs ht hsame => ?_⟩
  · have hboth := hdown t s habove
    omega
  · have hplace : ∀ x : TypeId, x.index < u.types.size → (u.types.toList.map (·.token))[x.index]?
        = some (u.record x).token := by
      intro x hx
      simp [record, Array.getD, hx]
    have hindex := (List.getElem?_inj (by simpa using hs) htokens).mp
      ((hplace s hs).trans (hsame ▸ (hplace t ht).symm))
    cases s
    cases t
    simpa using hindex

def bareType (token : UInt32) (name : String) (flags : UInt32) (base : Option TypeId)
    (interfaces : Array TypeId) : TypeRecord :=
  { token := ⟨token⟩, space := "App", name, flags, origin := .native, base, interfaces }

/-- A class, an interface that extends another one, and a class above the first one that lists
it. -/
def kin : Universe :=
  { types := #[bareType 1 "A" TypeFlags.isPublic none #[], bareType 2 "I" TypeFlags.interface none #[],
      bareType 3 "J" TypeFlags.interface none #[⟨1⟩],
      bareType 4 "B" TypeFlags.isPublic (some ⟨0⟩) #[⟨2⟩]] }

/-- An object of the class stands where the interface is expected that its interface extends. -/
theorem assignability_order_kin :
    kin.Genealogy ∧ kin.isAssignableTo ⟨3⟩ ⟨1⟩ = true
      ∧ (Signature.ofClass ⟨1⟩).accepts kin (.object ⟨0, ⟨3⟩⟩) = true := by
  have h : kin.Genealogy := genealogy_of_earlier (by decide +kernel) (by decide +kernel)
  obtain ⟨-, hiff, hbaseless⟩ := assignability_order h
  have hnone : ∀ t i, kin.Lists t i → (kin.record i).base = none := by
    intro t i hlists
    have hlisted : ∀ place < kin.types.size, ∀ i ∈ (kin.record ⟨place⟩).interfaces,
      (kin.record i).base = none := by decide
    exact hlisted t.index (lt_of_lists hlists) i hlists
  have hordered := hiff.mpr (hbaseless hnone)
  refine ⟨h, hordered.trans ⟨3⟩ ⟨2⟩ ⟨1⟩ (by decide +kernel) (by decide +kernel) (by decide +kernel)
    (by decide +kernel) (by decide +kernel), ?_⟩
  exact hordered.values (.ofClass ⟨1⟩) (.ofClass ⟨2⟩) (.object ⟨0, ⟨3⟩⟩)
    (by simp [Value.object?, kin]) (by decide +kernel) (by decide +kernel)

/-- Assignability is an order whatever the interfaces derive from. -/
def AssignabilityIsOrder : Prop := ∀ u : Universe, u.Genealogy → u.Ordered

/-- A class, an interface that was given it as a base, and a class that lists the interface. -/
def strayInterface : Universe :=
  { types := #[bareType 1 "A" TypeFlags.isPublic none #[], bareType 2 "I" TypeFlags.interface (some ⟨0⟩) #[],
      bareType 3 "C" TypeFlags.isPublic none #[⟨1⟩]] }

/-- The class is assignable to its interface and this to its base, but the class is not
assignable to that. -/
theorem not_assignabilityIsOrder : ¬ AssignabilityIsOrder := by
  intro horder
  have hordered :=
    horder strayInterface (genealogy_of_earlier (by decide +kernel) (by decide +kernel))
  have hassignable := hordered.trans ⟨2⟩ ⟨1⟩ ⟨0⟩ (by decide +kernel) (by decide +kernel)
    (by decide +kernel) (by decide +kernel) (by decide +kernel)
  revert hassignable
  decide +kernel

end Universe

end TypeLoom
