import Mathlib.Algebra.Ring.Nat
import Mathlib.Data.List.Induction
import Mathlib.Data.List.Nodup
import TypeLoom.Build.Member
import TypeLoom.Proofs.Outline
import TypeLoom.Proofs.Attempts

/-!
# Sequences of tokens

A counter of 32 bits is packed into a row of 24 bits, so the tokens of a table start over after 2^24
of them. Up to there no token is handed out twice and a registry finds every type that was made with
one of its tokens; beyond, a new type can have the token of a listed one, and listing it does
nothing.
-/

namespace TypeLoom

/-! ### Tokens as numbers -/

namespace TokenKind

theorem table_injective {kind kind' : TokenKind} (h : kind.table = kind'.table) : kind = kind' := by
  have hsame := congrArg ofTable? h
  rw [ofTable?_table, ofTable?_table] at hsame
  exact Option.some.inj hsame

end TokenKind

namespace Token

variable {kind kind' : TokenKind} {row row' : UInt32}

theorem toNat_ofParts (kind : TokenKind) (row : UInt32) :
    (ofParts kind row).value.toNat = kind.table.toNat * 2 ^ 24 + row.toNat % 2 ^ 24 := by
  have hmask : (row &&& 0x00FFFFFF).toNat = row.toNat % 2 ^ 24 := by
    rw [UInt32.toNat_and]
    exact Nat.and_two_pow_sub_one_eq_mod _ 24
  have hlow : row.toNat % 2 ^ 24 < 2 ^ 24 := Nat.mod_lt _ (by decide)
  have htable : (kind.table.toUInt32 <<< 24).toNat = kind.table.toNat * 2 ^ 24 := by
    cases kind <;> decide
  rw [ofParts, UInt32.toNat_or, hmask, htable, ← Nat.shiftLeft_eq,
    Nat.shiftLeft_add_eq_or_of_lt hlow]

theorem ofParts_inj : ofParts kind row = ofParts kind' row' ↔ kind = kind'
    ∧ row.toNat % 2 ^ 24 = row'.toNat % 2 ^ 24 := by
  constructor
  · intro h
    have hvalue := congrArg (fun token => token.value.toNat) h
    simp only [toNat_ofParts] at hvalue
    have htable : kind.table.toNat = kind'.table.toNat := by omega
    exact ⟨TokenKind.table_injective (UInt8.toNat_inj.mp htable), by omega⟩
  · rintro ⟨rfl, hrow⟩
    refine congrArg Token.mk (UInt32.toNat_inj.mp ?_)
    have hvalue := toNat_ofParts kind row
    rw [hrow, ← toNat_ofParts kind row'] at hvalue
    exact hvalue

theorem kind?_ofParts (kind : TokenKind) (row : UInt32) : (ofParts kind row).kind? = some kind := by
  have htable : (ofParts kind row).table = kind.table := by
    refine UInt8.toNat_inj.mp ?_
    have hbound := kind.table.toNat_lt
    rw [table, UInt32.toNat_toUInt8, UInt32.toNat_shiftRight, toNat_ofParts]
    show (kind.table.toNat * 2 ^ 24 + row.toNat % 2 ^ 24) >>> 24 % 2 ^ 8 = kind.table.toNat
    rw [Nat.shiftRight_eq_div_pow]
    omega
  rw [kind?, htable, TokenKind.ofTable?_table]

theorem isNull_ofParts (kind : TokenKind) (row : UInt32) : (ofParts kind row).isNull = false := by
  have hpositive : 0 < kind.table.toNat := by cases kind <;> decide
  rw [isNull, beq_eq_false_iff_ne]
  intro hnull
  have hvalue := toNat_ofParts kind row
  rw [hnull] at hvalue
  have hzero : (0 : UInt32).toNat = 0 := rfl
  omega

end Token

/-! ### What the counters hand out -/

namespace TokenCounters

variable {c : TokenCounters} {kind : TokenKind} {kinds : List TokenKind}

/-- The counters after tokens of these tables were taken. -/
def afterAll (c : TokenCounters) (kinds : List TokenKind) : TokenCounters := kinds.foldl bump c

def allot : TokenCounters → List TokenKind → List Token
  | _, [] => []
  | c, kind :: kinds => (c.next kind).1 :: allot (c.next kind).2 kinds

theorem afterAll_concat (c : TokenCounters) (kinds : List TokenKind) (kind : TokenKind) :
    c.afterAll (kinds ++ [kind]) = (c.afterAll kinds).bump kind := by
  rw [afterAll, List.foldl_append, List.foldl_cons, List.foldl_nil, afterAll]

theorem allot_concat (c : TokenCounters) (kinds : List TokenKind) (kind : TokenKind) :
    c.allot (kinds ++ [kind]) = c.allot kinds ++ [((c.afterAll kinds).next kind).1] := by
  induction kinds generalizing c with
  | nil => rfl
  | cons first kinds ih => exact congrArg (List.cons _) (ih (c.bump first))

/-- A row counts the tokens of its table, modulo the width of the counter. -/
theorem toNat_rowOf_afterAll (c : TokenCounters) (kinds : List TokenKind) (kind : TokenKind) :
    ((c.afterAll kinds).rowOf kind).toNat = ((c.rowOf kind).toNat + kinds.count kind) % 2 ^ 32 := by
  induction kinds generalizing c with
  | nil => exact (Nat.mod_eq_of_lt (c.rowOf kind).toNat_lt).symm
  | cons first kinds ih =>
    have hone : (1 : UInt32).toNat = 1 := rfl
    rw [show c.afterAll (first :: kinds) = (c.bump first).afterAll kinds from rfl, ih, rowOf_bump,
      List.count_cons]
    by_cases hfirst : first = kind
    · rw [if_pos hfirst, if_pos (beq_iff_eq.mpr hfirst), UInt32.toNat_add, hone]
      omega
    · rw [if_neg hfirst, if_neg (by simpa using hfirst), Nat.add_zero]

/-- The tokens of a table that were handed out have the rows from the first one on, modulo 2^24. -/
theorem ofParts_mem_allot {row : UInt32} :
    Token.ofParts kind row ∈ c.allot kinds ↔ ∃ i < kinds.count kind, row.toNat % 2 ^ 24
    = ((c.rowOf kind).toNat + i) % 2 ^ 24 := by
  induction kinds generalizing c with
  | nil => simp [allot]
  | cons first kinds ih =>
    have hone : (1 : UInt32).toNat = 1 := rfl
    rw [allot, List.mem_cons, next, Token.ofParts_inj, ih, rowOf_bump, List.count_cons]
    by_cases hfirst : first = kind
    · subst hfirst
      rw [if_pos rfl, if_pos (beq_iff_eq.mpr rfl), UInt32.toNat_add, hone]
      constructor
      · rintro (⟨-, hrow⟩ | ⟨i, hi, hrow⟩)
        · exact ⟨0, by omega, by omega⟩
        · exact ⟨i + 1, by omega, by omega⟩
      · rintro ⟨i, hi, hrow⟩
        cases i with
        | zero => exact .inl ⟨rfl, by omega⟩
        | succ i => exact .inr ⟨i, by omega, by omega⟩
    · rw [if_neg hfirst, if_neg (by simpa using hfirst), Nat.add_zero]
      exact or_iff_right fun h => hfirst h.1.symm

theorem next_mem_allot : ((c.afterAll kinds).next kind).1 ∈ c.allot kinds ↔
    2 ^ 24 ≤ kinds.count kind := by
  rw [next, ofParts_mem_allot, toNat_rowOf_afterAll]
  constructor
  · rintro ⟨i, hi, hrow⟩
    omega
  · intro hmany
    exact ⟨kinds.count kind - 2 ^ 24, by omega, by omega⟩

/-- The tokens of one table among those that were handed out. -/
def allotted (c : TokenCounters) (kind : TokenKind) (kinds : List TokenKind) : List Token :=
  (c.allot kinds).filter (·.kind? == some kind)

theorem kind?_next (c : TokenCounters) (kind : TokenKind) : (c.next kind).1.kind? = some kind :=
  Token.kind?_ofParts _ _

theorem allotted_concat (c : TokenCounters) (kinds : List TokenKind) (kind last : TokenKind) :
    c.allotted kind (kinds ++ [last])
      = if last = kind then c.allotted kind kinds ++ [((c.afterAll kinds).next last).1]
      else c.allotted kind kinds := by
  rw [allotted, allot_concat, List.filter_append, List.filter_cons, List.filter_nil,
    kind?_next, allotted]
  by_cases hlast : last = kind
  · rw [if_pos hlast, if_pos (beq_iff_eq.mpr (congrArg some hlast))]
  · rw [if_neg hlast, if_neg (by simpa using hlast), List.append_nil]

theorem next_mem_allotted : ((c.afterAll kinds).next kind).1 ∈ c.allotted kind kinds ↔
    2 ^ 24 ≤ kinds.count kind := by
  rw [allotted, List.mem_filter, kind?_next, beq_self_eq_true, next_mem_allot]
  exact and_iff_left rfl

/-- No token is handed out twice exactly as long as no table has given more than 2^24. -/
theorem nodup_allot (c : TokenCounters) (kinds : List TokenKind) :
    (c.allot kinds).Nodup ↔ ∀ kind, kinds.count kind ≤ 2 ^ 24 := by
  induction kinds using List.reverseRecOn with
  | nil => simp [allot]
  | append_singleton kinds last ih =>
    rw [allot_concat, (List.perm_append_singleton _ _).nodup_iff, List.nodup_cons,
      ih, next_mem_allot]
    constructor
    · rintro ⟨hnew, hold⟩ kind
      have hkind := hold kind
      rw [List.count_append, List.count_singleton]
      split
      · rename_i heq
        obtain rfl : last = kind := beq_iff_eq.mp heq
        omega
      · exact hkind
    · intro hcount
      refine ⟨?_, fun kind => ?_⟩
      · have hlast := hcount last
        rw [List.count_append, List.count_singleton_self] at hlast
        omega
      · have hkind := hcount kind
        rw [List.count_append] at hkind
        omega

theorem nodup_allotted (c : TokenCounters) (kind : TokenKind) (kinds : List TokenKind) :
    (c.allotted kind kinds).Nodup ↔ kinds.count kind ≤ 2 ^ 24 := by
  induction kinds using List.reverseRecOn with
  | nil => simp [allotted, allot]
  | append_singleton kinds last ih =>
    rw [allotted_concat, List.count_append, List.count_singleton]
    by_cases hlast : last = kind
    · subst hlast
      rw [if_pos rfl, if_pos (beq_iff_eq.mpr rfl), (List.perm_append_singleton _ _).nodup_iff,
        List.nodup_cons, ih, next_mem_allotted]
      omega
    · rw [if_neg hlast, if_neg (by simpa using hlast), ih, Nat.add_zero]

end TokenCounters

/-! ### What a registry finds -/

namespace Registry

variable {r : Registry} {u : Universe} {t : TypeId}

/-- A type that was listed with the token stays; otherwise the new one is found. -/
theorem find?_insert (r : Registry) (u : Universe) (t : TypeId) :
    (r.insert u t).find? (u.record t).token = some ((r.find? (u.record t).token).getD t) := by
  unfold insert
  cases hfound : r.find? (u.record t).token with
  | some other => rw [Option.isSome_some, if_pos rfl, hfound, Option.getD_some]
  | none =>
    have hnone : r.listings.find? (fun l => l.token == (u.record t).token) = none :=
      Option.map_eq_none_iff.mp hfound
    rw [Option.isSome_none, if_neg Bool.false_ne_true, find?, Array.find?_push, hnone]
    simp

theorem mem_named_insert (hfree : r.find? (u.record t).token = none) :
    t ∈ (r.insert u t).named (u.fullName t) := by
  have hlisted : ⟨(u.record t).token, u.fullName t, t⟩ ∈ (r.insert u t).listings.toList := by
    rw [insert, hfree, Option.isSome_none, if_neg Bool.false_ne_true, Array.toList_push]
    exact List.mem_append_right _ List.mem_cons_self
  exact List.mem_map.mpr ⟨_, List.mem_filter.mpr ⟨hlisted, beq_iff_eq.mpr rfl⟩, rfl⟩

end Registry

namespace TypeSpace

variable {kinds : List TokenKind} {made : List TypeId} {s : TypeSpace} {t : TypeId}

/-- What can become of a new registry: tokens of these tables are taken, these types are made
with some of them and are listed now and then. Other changes leave the tokens of the types alone. -/
inductive Course : List TokenKind → List TypeId → TypeSpace → Prop
  | start (u : Universe) : Course [] [] { program := u }
  | take (kind : TokenKind) {kinds : List TokenKind} {made : List TypeId} {s : TypeSpace}
    (h : Course kinds made s) :
      Course (kinds ++ [kind]) made ((nextToken kind).start s).2
  | make (space name : String) (flags : UInt32) (origin : Origin) {kinds : List TokenKind}
    {made : List TypeId} {s : TypeSpace}
      (h : Course kinds made s) :
      Course (kinds ++ [.type]) (made ++ [s.program.nextId])
        ((newType space name flags origin).start s).2
  | list {kinds : List TokenKind} {made : List TypeId} {s : TypeSpace} {t : TypeId} (ht : t ∈ made)
    (h : Course kinds made s) :
      Course kinds made ((list t).start s).2
  | change (u : Universe) (core : CoreTypes) {kinds : List TokenKind}
    {made : List TypeId} {s : TypeSpace}
      (hsize : s.program.types.size ≤ u.types.size)
      (htokens : ∀ t ∈ made, (u.record t).token = (s.program.record t).token)
      (h : Course kinds made s) :
        Course kinds made { program := u, registry := { s.registry with core } }

/-- The tokens that a new registry hands out for these tables. -/
def issued (kinds : List TokenKind) : List Token := ({} : TokenCounters).allot kinds

/-- What holds all the way: the made types have tokens of their own, in order, and the listed
ones are among them. -/
structure Tracked (kinds : List TokenKind) (made : List TypeId) (s : TypeSpace) : Prop where
  counters : s.registry.counters = ({} : TokenCounters).afterAll kinds
  inTable : ∀ t ∈ made, t.index < s.program.types.size
  tokens : (made.map fun t => (s.program.record t).token).Sublist
    (({} : TokenCounters).allotted .type kinds)
  listed : ∀ l ∈ s.registry.listings, l.type ∈ made ∧ l.token = (s.program.record l.type).token

theorem allotted_sublist_concat (c : TokenCounters) (kind last : TokenKind)
    (kinds : List TokenKind) :
    (c.allotted kind kinds).Sublist (c.allotted kind (kinds ++ [last])) := by
  rw [TokenCounters.allotted_concat]
  split
  · exact List.sublist_append_left _ _
  · exact .refl _

theorem Tracked.take (h : Tracked kinds made s) (kind : TokenKind) :
    Tracked (kinds ++ [kind]) made ((nextToken kind).start s).2 where
  counters := by
    rw [TokenCounters.afterAll_concat, ← h.counters]
    rfl
  inTable := h.inTable
  tokens := h.tokens.trans (allotted_sublist_concat _ _ _ _)
  listed := h.listed

theorem token_newType (space name : String) (flags : UInt32) (origin : Origin) (s : TypeSpace) :
    (((newType space name flags origin).start s).2.program.record s.program.nextId).token
    = (s.registry.counters.next .type).1 :=
  congrArg TypeRecord.token (s.program.record_push_self _)

theorem Tracked.make (h : Tracked kinds made s) (space name : String) (flags : UInt32)
    (origin : Origin) :
    Tracked (kinds ++ [.type]) (made ++ [s.program.nextId])
    ((newType space name flags origin).start s).2 := by
  let r : TypeRecord := { token := (s.registry.counters.next .type).1, space, name, flags, origin }
  have hold : ∀ t ∈ made, (s.program.push r).record t = s.program.record t := fun t ht =>
    s.program.record_push_of_lt r t (h.inTable t ht)
  have hnew : ((s.program.push r).record s.program.nextId).token
    = (s.registry.counters.next .type).1 :=
    token_newType space name flags origin s
  refine ⟨(h.take .type).counters, fun t ht => ?_, ?_, fun l hl => ?_⟩
  · show t.index < (s.program.push r).types.size
    rw [Universe.size_push]
    rcases List.mem_append.mp ht with ht | ht
    · exact Nat.lt_succ_of_lt (h.inTable t ht)
    · rw [List.mem_singleton.mp ht]
      exact Nat.lt_succ_self _
  · show ((made ++ [s.program.nextId]).map fun t => ((s.program.push r).record t).token).Sublist _
    have hsame : (made.map fun t => ((s.program.push r).record t).token) = made.map fun t =>
      (s.program.record t).token :=
      List.map_congr_left fun t ht => congrArg TypeRecord.token (hold t ht)
    rw [List.map_append, List.map_singleton, hsame, hnew, TokenCounters.allotted_concat,
      if_pos rfl, ← h.counters]
    exact h.tokens.append (.refl _)
  · obtain ⟨hmade, htoken⟩ := h.listed l hl
    refine ⟨List.mem_append_left _ hmade, ?_⟩
    show l.token = ((s.program.push r).record l.type).token
    rw [hold _ hmade, htoken]

theorem Tracked.list (h : Tracked kinds made s) (ht : t ∈ made) :
    Tracked kinds made ((list t).start s).2 := by
  have hinsert : ((TypeSpace.list t).start s).2
    = { s with registry := s.registry.insert s.program t } := rfl
  rw [hinsert]
  unfold Registry.insert
  split
  · exact h
  · refine ⟨h.counters, h.inTable, h.tokens, fun l hl => ?_⟩
    rcases Array.mem_push.mp hl with hl | rfl
    · exact h.listed l hl
    · exact ⟨ht, rfl⟩

theorem Tracked.change (h : Tracked kinds made s) {u : Universe} {core : CoreTypes}
    (hsize : s.program.types.size ≤ u.types.size)
    (htokens : ∀ t ∈ made, (u.record t).token = (s.program.record t).token) :
    Tracked kinds made { program := u, registry := { s.registry with core } } where
  counters := h.counters
  inTable := fun t ht => Nat.lt_of_lt_of_le (h.inTable t ht) hsize
  tokens := by
    rw [List.map_congr_left htokens]
    exact h.tokens
  listed := fun l hl => by
    obtain ⟨hmade, htoken⟩ := h.listed l hl
    exact ⟨hmade, htoken.trans (htokens _ hmade).symm⟩

theorem Course.tracked (h : Course kinds made s) : Tracked kinds made s := by
  induction h with
  | start u => exact ⟨rfl, nofun, List.Sublist.refl _, nofun⟩
  | take kind _ ih => exact ih.take kind
  | make space name flags origin _ ih => exact ih.make space name flags origin
  | list ht _ ih => exact ih.list ht
  | change u core hsize htokens _ ih => exact ih.change hsize htokens

/-- As long as the tokens of types do not repeat, they tell the made types apart. -/
theorem Tracked.token_inj (h : Tracked kinds made s) (hfew : kinds.count .type ≤ 2 ^ 24)
    {t t' : TypeId} (ht : t ∈ made) (ht' : t' ∈ made)
    (htoken : (s.program.record t).token = (s.program.record t').token) : t = t' :=
  List.inj_on_of_nodup_map (h.tokens.nodup ((TokenCounters.nodup_allotted _ _ _).mpr hfew)) ht ht'
    htoken

/-- What is found under the token of a made type is that type. -/
theorem Tracked.eq_of_find? (h : Tracked kinds made s) (hfew : kinds.count .type ≤ 2 ^ 24)
    (ht : t ∈ made) {other : TypeId}
    (hother : s.registry.find? (s.program.record t).token = some other) :
    other = t ∧ ∃ l ∈ s.registry.listings, l.type = t := by
  obtain ⟨l, hl, rfl⟩ := Option.map_eq_some_iff.mp hother
  have hmem := Array.mem_of_find?_eq_some hl
  obtain ⟨hmade, htoken⟩ := h.listed l hmem
  have hsame := Array.find?_some hl
  rw [beq_iff_eq] at hsame
  have heq : l.type = t := h.token_inj hfew hmade ht (htoken.symm.trans hsame)
  exact ⟨heq, l, hmem, heq⟩

/-- In every course of a registry, a fresh token is of its table and not null, and it was handed
out before exactly if 2^24 tokens of its table were; so no token is handed out twice exactly as
long as no table has given more than 2^24. What is found under the token of a made type, once it
is inserted, is the type that was listed with this token before, if any; as long as no more than
2^24 types were made, it is the type itself, and listing it for the first time puts it under its
full name. -/
theorem tokens_of_course (h : Course kinds made s) :
    (∀ kind, (s.registry.counters.next kind).1.kind? = some kind
      ∧ (s.registry.counters.next kind).1.isNull = false
      ∧ ((s.registry.counters.next kind).1 ∈ issued kinds ↔ 2 ^ 24 ≤ kinds.count kind))
    ∧ ((issued kinds).Nodup ↔ ∀ kind, kinds.count kind ≤ 2 ^ 24)
    ∧ ∀ t ∈ made,
      (s.registry.insert s.program t).find? (s.program.record t).token
        = some ((s.registry.find? (s.program.record t).token).getD t)
      ∧ (kinds.count .type ≤ 2 ^ 24 →
        (s.registry.insert s.program t).find? (s.program.record t).token = some t
        ∧ ((∀ l ∈ s.registry.listings, l.type ≠ t) →
            t ∈ (s.registry.insert s.program t).named (s.program.fullName t))) := by
  have htracked := h.tracked
  refine ⟨fun kind => ⟨Token.kind?_ofParts _ _, Token.isNull_ofParts _ _, ?_⟩,
    TokenCounters.nodup_allot _ _, fun t ht => ?_⟩
  · rw [htracked.counters]
    exact TokenCounters.next_mem_allot
  · have hfound := s.registry.find?_insert s.program t
    refine ⟨hfound, fun hfew => ⟨?_, fun hunlisted => Registry.mem_named_insert ?_⟩⟩
    · rw [hfound]
      cases hother : s.registry.find? (s.program.record t).token with
      | none => rfl
      | some other => rw [Option.getD_some, (htracked.eq_of_find? hfew ht hother).1]
    · refine Option.eq_none_iff_forall_ne_some.mpr fun other hother => ?_
      obtain ⟨-, l, hl, heq⟩ := htracked.eq_of_find? hfew ht hother
      exact hunlisted l hl heq

def oneType : TypeSpace := ((newType "App" "First" 0 .native).start {}).2

theorem course_oneType : Course [.type] [⟨0⟩] oneType := .make "App" "First" 0 .native (.start {})

theorem tokens_of_course_first :
    issued [.type] = [⟨0x02000001⟩]
      ∧ (oneType.registry.insert oneType.program ⟨0⟩).find? ⟨0x02000001⟩ = some ⟨0⟩
      ∧ ⟨0⟩ ∈ (oneType.registry.insert oneType.program ⟨0⟩).named "App.First" := by
  obtain ⟨-, -, hmade⟩ := tokens_of_course course_oneType
  obtain ⟨-, hfound⟩ := hmade ⟨0⟩ List.mem_cons_self
  obtain ⟨htoken, hname⟩ := hfound (by decide)
  exact ⟨by decide, htoken, hname nofun⟩

/-! ### Beyond 2^24 tokens -/

/-- A fresh token was never handed out before. -/
def TokensDiffer : Prop := ∀ kinds made s, Course kinds made s →
    ∀ kind, (s.registry.counters.next kind).1 ∉ issued kinds

/-- A type that is made with a fresh token is found as soon as it is inserted. -/
def FreshTypesFound : Prop := ∀ kinds made s, Course kinds made s → ∀ space name flags origin,
  let after := ((newType space name flags origin).start s).2
  (after.registry.insert after.program s.program.nextId).find?
    (after.program.record s.program.nextId).token = some s.program.nextId

theorem Course.takeAll (h : Course kinds made s) (kind : TokenKind) (n : Nat) :
    ∃ after, Course (kinds ++ List.replicate n kind) made after ∧ after.program = s.program
      ∧ after.registry.listings = s.registry.listings := by
  induction n with
  | zero => exact ⟨s, by rwa [List.replicate_zero, List.append_nil], rfl, rfl⟩
  | succ n ih =>
    obtain ⟨mid, hmid, hprogram, hlistings⟩ := ih
    refine ⟨((nextToken kind).start mid).2, ?_, hprogram, hlistings⟩
    rw [List.replicate_succ', ← List.append_assoc]
    exact hmid.take kind

/-- The first type is listed, and then 2^24 - 1 more tokens of types are taken. -/
theorem course_overrun :
    ∃ s, Course ([.type] ++ List.replicate (2 ^ 24 - 1) .type) [⟨0⟩] s ∧ s.program = oneType.program
      ∧ s.registry.listings = #[⟨⟨0x02000001⟩, "App.First", ⟨0⟩⟩] := by
  obtain ⟨s, hs, hprogram, hlistings⟩ :=
    (course_oneType.list List.mem_cons_self).takeAll .type (2 ^ 24 - 1)
  exact ⟨s, hs, hprogram, hlistings⟩

/-- The next token is that of the first type, and a type that is made with it is not found. -/
theorem not_tokensDiffer : ¬ TokensDiffer ∧ ¬ FreshTypesFound := by
  obtain ⟨s, hs, hprogram, hlistings⟩ := course_overrun
  have hcount : List.count TokenKind.type ([.type] ++ List.replicate (2 ^ 24 - 1) .type)
      = 2 ^ 24 := by
    rw [List.count_append, List.count_replicate_self, List.count_singleton_self]
    omega
  have htoken : (s.registry.counters.next .type).1 = ⟨0x02000001⟩ := by
    rw [hs.tracked.counters]
    show Token.ofParts .type _ = Token.ofParts .type 1
    refine Token.ofParts_inj.mpr ⟨rfl, ?_⟩
    rw [TokenCounters.toNat_rowOf_afterAll, hcount]
    rfl
  refine ⟨fun hdiffer => hdiffer _ _ s hs .type ?_, fun hfound => ?_⟩
  · rw [hs.tracked.counters]
    exact TokenCounters.next_mem_allot.mpr (Nat.le_of_eq hcount.symm)
  · let after := ((newType "App" "Last" 0 .native).start s).2
    have hlisted : after.registry.find? ⟨0x02000001⟩ = some ⟨0⟩ := by
      show (s.registry.listings.find? _).map _ = _
      rw [hlistings]
      rfl
    have hlast : (after.registry.insert after.program s.program.nextId).find?
      (after.program.record s.program.nextId).token
        = some s.program.nextId := hfound _ _ s hs "App" "Last" 0 .native
    rw [Registry.find?_insert, token_newType, htoken, hlisted, hprogram] at hlast
    cases hlast

end TypeSpace

end TypeLoom
