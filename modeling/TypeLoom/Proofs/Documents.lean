import TypeLoom.Proofs.Attempts
import TypeLoom.Markup.Read
import TypeLoom.Markup.Write

/-!
# Documents that are read as they were written

The text of a tree is read as this tree, whatever the values of its attributes are, as long as
elements and attributes have names of letters and hyphens and no element has two attributes of one
name.

The events of a tree are read as this tree, whatever is ignored between them, unless an element of
it repeats a key. A sequence is read as some tree just when nothing in it is broken, no tag in it
repeats a key, each stop closes what was started, and one element stands outside all others.
-/

namespace TypeLoom.Markup

/-! ### Spans -/

section Spans

variable {p : Char → Bool} {body rest : List Char}

theorem takeWhile_span (hbody : ∀ c ∈ body, p c = true)
    (hrest : ∀ c, rest.head? = some c → p c = false) :
    (body ++ rest).takeWhile p = body := by
  rw [List.takeWhile_append_of_pos hbody]
  cases rest with
  | nil => rw [List.takeWhile_nil, List.append_nil]
  | cons c rest =>
    rw [List.takeWhile_cons_of_neg (by rw [hrest c rfl]; exact Bool.false_ne_true), List.append_nil]

theorem dropWhile_span (hbody : ∀ c ∈ body, p c = true)
    (hrest : ∀ c, rest.head? = some c → p c = false) :
    (body ++ rest).dropWhile p = rest := by
  rw [List.dropWhile_append_of_pos hbody]
  cases rest with
  | nil => rfl
  | cons c rest => exact List.dropWhile_cons_of_neg (by rw [hrest c rfl]; exact Bool.false_ne_true)

end Spans

/-! ### Values -/

theorem unescapeWithin_plain (fuel : Nat) {c : Char} (hc : c ≠ '&') (cs : List Char) :
    unescapeWithin fuel (c :: cs) = (unescapeWithin fuel cs).map (c :: ·) := by
  have hplain : (c != '&') = true := bne_iff_ne.mpr hc
  cases fuel with
  | zero =>
    have hnot : ('&' == c) = false := beq_eq_false_iff_ne.mpr (Ne.symm hc)
    simp only [unescapeWithin, List.contains_cons, hnot, Bool.false_or]
    split <;> rfl
  | succ fuel =>
    have htake : (c :: cs).takeWhile (· != '&') = c :: cs.takeWhile (· != '&') :=
      List.takeWhile_cons_of_pos hplain
    have hdrop : (c :: cs).dropWhile (· != '&') = cs.dropWhile (· != '&') :=
      List.dropWhile_cons_of_pos hplain
    simp only [unescapeWithin]
    rw [htake, hdrop]
    split
    · rfl
    · split
      · rw [Option.bind_eq_bind, Option.bind_eq_bind, Option.map_bind]
        congr 1
        funext found
        simp only [Function.comp, Option.map_bind]
        congr 1
      · rfl

theorem unescapeWithin_reference (fuel : Nat) {name : List Char} {c : Char}
    (hname : ∀ d ∈ name, d ≠ '&' ∧ d ≠ ';') (hc : reference? name = some c) (cs : List Char) :
    unescapeWithin (fuel + 1) ('&' :: name ++ ';' :: cs)
        = (unescapeWithin fuel cs).map (c :: ·) := by
  have hinside : ∀ d ∈ name, (d != '&' && d != ';') = true := fun d hd => by
    rw [bne_iff_ne.mpr (hname d hd).1, bne_iff_ne.mpr (hname d hd).2]
    rfl
  have hend : ∀ d, (';' :: cs).head? = some d → (d != '&' && d != ';') = false := by
    rintro d ⟨⟩
    rfl
  simp only [unescapeWithin, List.cons_append]
  rw [List.takeWhile_cons_of_neg (by decide), List.dropWhile_cons_of_neg (by decide)]
  dsimp only
  rw [takeWhile_span hinside hend, dropWhile_span hinside hend, hc]
  show (unescapeWithin fuel cs).bind (fun more => some ([] ++ c :: more))
    = (unescapeWithin fuel cs).map (c :: ·)
  cases unescapeWithin fuel cs <;> rfl

/-- How a character is written: as itself, or as a reference. -/
theorem escapeChar_cases (c : Char) : (escapeChar c = [c] ∧ c ≠ '&' ∧ c ≠ '"')
    ∨ ∃ name, escapeChar c = '&' :: name ++ [';'] ∧ reference? name = some c
    ∧ ∀ d ∈ name, d.isAlpha = true := by
  unfold escapeChar
  split
  · exact .inr ⟨"amp".toList, by decide, by decide, List.all_eq_true.mp (by decide)⟩
  · exact .inr ⟨"lt".toList, by decide, by decide, List.all_eq_true.mp (by decide)⟩
  · exact .inr ⟨"gt".toList, by decide, by decide, List.all_eq_true.mp (by decide)⟩
  · exact .inr ⟨"quot".toList, by decide, by decide, List.all_eq_true.mp (by decide)⟩
  · exact .inr ⟨"apos".toList, by decide, by decide, List.all_eq_true.mp (by decide)⟩
  · rename_i hand _ _ hquote _
    exact .inl ⟨rfl, hand, hquote⟩

theorem ne_of_isAlpha {c d : Char} (hc : c.isAlpha = true) (hd : d.isAlpha = false) : c ≠ d := by
  rintro rfl
  rw [hd] at hc
  cases hc

theorem unescapeWithin_escape (value : List Char) {fuel : Nat} (h : (escape value).length ≤ fuel) :
    unescapeWithin fuel (escape value) = some value := by
  induction value generalizing fuel with
  | nil => cases fuel <;> rfl
  | cons c value ih =>
    have hcons : escape (c :: value) = escapeChar c ++ escape value := rfl
    rw [hcons, List.length_append] at h
    rcases escapeChar_cases c with ⟨hc, hand, -⟩ | ⟨name, hc, hname, halpha⟩
    · rw [hcons, hc, List.singleton_append, unescapeWithin_plain fuel hand, ih (by omega)]
      rfl
    · rw [hc, List.length_append, List.length_cons] at h
      obtain ⟨fuel, rfl⟩ : ∃ left, fuel = left + 1 := ⟨fuel - 1, by omega⟩
      have hinside : ∀ d ∈ name, d ≠ '&' ∧ d ≠ ';' := fun d hd =>
        ⟨ne_of_isAlpha (halpha d hd) (by decide), ne_of_isAlpha (halpha d hd) (by decide)⟩
      rw [hcons, hc, List.append_assoc, List.singleton_append,
        unescapeWithin_reference fuel hinside hname, ih (by omega)]
      rfl

theorem unescape?_escape (value : List Char) : unescape? (escape value) = some value :=
  unescapeWithin_escape value (Nat.le_refl _)

theorem quote_notMem_escape (value : List Char) : ∀ c ∈ escape value, (c != '"') = true := by
  intro c hc
  obtain ⟨d, -, hd⟩ := List.mem_flatMap.mp hc
  rw [bne_iff_ne]
  rcases escapeChar_cases d with ⟨hself, -, hquote⟩ | ⟨name, hreference, -, halpha⟩
  · rw [hself, List.mem_singleton] at hd
    rw [hd]
    exact hquote
  · rw [hreference] at hd
    rcases List.mem_append.mp hd with hd | hd
    · rcases List.mem_cons.mp hd with rfl | hd
      · decide
      · exact ne_of_isAlpha (halpha c hd) (by decide)
    · rw [List.mem_singleton.mp hd]
      decide

/-! ### Words -/

def wordChar (c : Char) : Bool := c.isAlpha || c == '-'

def isWord (name : String) : Bool := !name.toList.isEmpty && name.toList.all wordChar

theorem ne_of_wordChar {c d : Char} (hc : wordChar c = true) (hd : wordChar d = false) : c ≠ d := by
  rintro rfl
  rw [hd] at hc
  cases hc

theorem isBlank_of_wordChar {c : Char} (hc : wordChar c = true) : isBlank c = false := by
  have hne : ∀ d : Char, wordChar d = false → (c == d) = false :=
    fun d hd => beq_eq_false_iff_ne.mpr (ne_of_wordChar hc hd)
  rw [isBlank, hne ' ' (by decide), hne '\t' (by decide), hne '\n' (by decide),
    hne '\r' (by decide)]
  rfl

variable {name key : String} {attributes : List (String × String)} {raw rest : List Char}

theorem wordChar_of_isWord (h : isWord name = true) : ∀ c ∈ name.toList, wordChar c = true :=
  List.all_eq_true.mp (Bool.and_eq_true_iff.mp h).2

theorem exists_cons_of_isWord (h : isWord name = true) :
    ∃ c cs, name.toList = c :: cs ∧ wordChar c = true := by
  cases hname : name.toList with
  | nil =>
    rw [isWord, hname] at h
    cases h
  | cons c cs =>
    exact ⟨c, cs, rfl, wordChar_of_isWord h c (by rw [hname]; exact List.mem_cons_self)⟩

/-! ### Attributes -/

structure PlainAttributes (attributes : List (String × String)) : Prop where
  words : ∀ a ∈ attributes, isWord a.1 = true
  distinct : (attributes.map Prod.fst).Nodup

theorem renderAttributes_cons (key value : String) (attributes : List (String × String))
    (rest : List Char) :
    renderAttributes ((key, value) :: attributes) ++ rest
      = ' ' :: (key.toList ++ '=' :: '"'
        :: (escape value.toList ++ '"' :: (renderAttributes attributes ++ rest))) := by
  simp [renderAttributes, List.append_assoc]

theorem nextAttribute_render (hkey : isWord key = true) (hraw : ∀ c ∈ raw, (c != '"') = true) :
    nextAttribute (' ' :: (key.toList ++ '=' :: '"' :: (raw ++ '"' :: rest)))
    = some (some (key.toList, raw, rest)) := by
  obtain ⟨first, more, hname, hfirst⟩ := exists_cons_of_isWord hkey
  have hinside : ∀ c ∈ more, (c != '=' && !isBlank c) = true := fun c hc => by
    have hc : wordChar c = true :=
      wordChar_of_isWord hkey c (by rw [hname]; exact List.mem_cons_of_mem _ hc)
    rw [bne_iff_ne.mpr (ne_of_wordChar hc (by decide)), isBlank_of_wordChar hc]
    rfl
  have hend : ∀ c, ('=' :: '"' :: (raw ++ '"' :: rest)).head? = some c →
      (c != '=' && !isBlank c) = false := by
    rintro c ⟨⟩
    rfl
  have hquote : ∀ c, ('"' :: rest).head? = some c → (c != '"') = false := by
    rintro c ⟨⟩
    rfl
  rw [nextAttribute, hname, List.dropWhile_cons_of_pos (by decide), List.cons_append,
    List.dropWhile_cons_of_neg (by rw [isBlank_of_wordChar hfirst]; exact Bool.false_ne_true)]
  dsimp only
  rw [takeWhile_span hinside hend, dropWhile_span hinside hend,
    List.dropWhile_cons_of_neg (by decide)]
  split
  · rename_i heq
    obtain ⟨-, rfl⟩ := List.cons.inj heq
    rw [List.dropWhile_cons_of_neg (by decide)]
    dsimp only
    rw [if_pos (.inl rfl), takeWhile_span hraw hquote, dropWhile_span hraw hquote]
  · rename_i hother
    exact absurd rfl (hother _)

theorem attributesWithin_render (h : ∀ a ∈ attributes, isWord a.1 = true) {fuel : Nat}
    (hfuel : attributes.length < fuel) :
    attributesWithin fuel (renderAttributes attributes) = some attributes := by
  induction attributes generalizing fuel with
  | nil =>
    obtain ⟨fuel, rfl⟩ : ∃ left, fuel = left + 1 := ⟨fuel - 1, by simp at hfuel; omega⟩
    rfl
  | cons a attributes ih =>
    obtain ⟨key, value⟩ := a
    obtain ⟨fuel, rfl⟩ : ∃ left, fuel = left + 1 := ⟨fuel - 1, by simp at hfuel; omega⟩
    obtain ⟨hkey, hwords⟩ := List.forall_mem_cons.mp h
    have hrest := ih hwords (Nat.lt_of_succ_lt_succ hfuel)
    have hrender := renderAttributes_cons key value attributes []
    rw [List.append_nil, List.append_nil] at hrender
    rw [hrender, attributesWithin, nextAttribute_render hkey (quote_notMem_escape value.toList)]
    dsimp only
    rw [unescape?_escape, String.ofList_toList]
    show ((attributesWithin fuel (renderAttributes attributes)).bind fun more =>
      some ((key, String.ofList value.toList) :: more)) = some ((key, value) :: attributes)
    rw [hrest, String.ofList_toList]
    rfl

theorem length_le_renderAttributes (attributes : List (String × String)) :
    attributes.length ≤ (renderAttributes attributes).length := by
  induction attributes with
  | nil => exact Nat.le_refl _
  | cons a attributes ih =>
    have hrender := renderAttributes_cons a.1 a.2 attributes []
    rw [List.append_nil, List.append_nil] at hrender
    rw [show a :: attributes = (a.1, a.2) :: attributes from rfl, hrender]
    simp only [List.length_cons, List.length_append]
    omega

/-! ### Tags -/

theorem head?_renderAttributes (attributes : List (String × String)) (rest : List Char) :
    ∀ c, (renderAttributes attributes ++ rest).head? = some c → c = ' ' ∨ rest.head? = some c := by
  intro c hc
  cases attributes with
  | nil => exact .inr hc
  | cons a attributes =>
    rw [show a :: attributes = (a.1, a.2) :: attributes from rfl, renderAttributes_cons] at hc
    exact .inl (Option.some.inj hc).symm

theorem nameAndAttributes?_render (hname : isWord name = true) (h : PlainAttributes attributes) :
    nameAndAttributes? (name.toList ++ renderAttributes attributes) = some (name, attributes) := by
  have hinside : ∀ c ∈ name.toList, (!isBlank c) = true := fun c hc => by
    rw [isBlank_of_wordChar (wordChar_of_isWord hname c hc)]
    rfl
  have hend : ∀ c, (renderAttributes attributes).head? = some c → (!isBlank c) = false :=
      fun c hc => by
    have hstart := head?_renderAttributes attributes [] c (by rwa [List.append_nil])
    rcases hstart with rfl | hnone
    · rfl
    · cases hnone
  have hfuel : attributes.length < (name.toList ++ renderAttributes attributes).length + 1 := by
    rw [List.length_append]
    have hle := length_le_renderAttributes attributes
    omega
  rw [nameAndAttributes?, takeWhile_span hinside hend, dropWhile_span hinside hend,
    attributesWithin_render h.words hfuel]
  rw [String.ofList_toList]
  rfl

/-- The text of a tag goes up to the first closing bracket outside quotes. -/
theorem splitTag_append {body : List Char} (hbody : ∀ c ∈ body, c ≠ '>' ∧ c ≠ '"' ∧ c ≠ '\'')
    (rest : List Char) :
    splitTag .outside (body ++ rest) = (splitTag .outside rest).map fun (tag, after) =>
    (body ++ tag, after) := by
  induction body with
  | nil =>
    rw [List.nil_append]
    cases splitTag .outside rest <;> rfl
  | cons c body ih =>
    obtain ⟨⟨hbracket, hdouble, hsingle⟩, hbody⟩ := List.forall_mem_cons.mp hbody
    rw [List.cons_append, splitTag, if_neg hbracket]
    dsimp only
    rw [if_neg (by simp [hdouble, hsingle]), ih hbody, Option.map_map]
    rfl

theorem splitTag_quoted (hraw : ∀ c ∈ raw, (c != '"') = true) (rest : List Char) :
    splitTag (.inside '"') (raw ++ '"' :: rest) = (splitTag .outside rest).map fun (tag, after) =>
    (raw ++ '"' :: tag, after) := by
  induction raw with
  | nil => rfl
  | cons c raw ih =>
    obtain ⟨hc, hraw⟩ := List.forall_mem_cons.mp hraw
    rw [List.cons_append, splitTag, if_neg (bne_iff_ne.mp hc), ih hraw, Option.map_map]
    rfl

theorem splitTag_word (hname : isWord name = true) (rest : List Char) :
    splitTag .outside (name.toList ++ rest) = (splitTag .outside rest).map fun (tag, after) =>
    (name.toList ++ tag, after) :=
  splitTag_append (fun c hc => by
    have hc := wordChar_of_isWord hname c hc
    exact ⟨ne_of_wordChar hc (by decide), ne_of_wordChar hc (by decide),
      ne_of_wordChar hc (by decide)⟩) rest

theorem splitTag_attributes (h : ∀ a ∈ attributes, isWord a.1 = true) (rest : List Char) :
    splitTag .outside (renderAttributes attributes ++ rest)
      = (splitTag .outside rest).map fun (tag, after) =>
      (renderAttributes attributes ++ tag, after) := by
  induction attributes with
  | nil =>
    show splitTag .outside rest = _
    cases splitTag .outside rest <;> rfl
  | cons a attributes ih =>
    obtain ⟨key, value⟩ := a
    obtain ⟨hkey, hwords⟩ := List.forall_mem_cons.mp h
    have hblank : ∀ cs, splitTag .outside (' ' :: cs) = (splitTag .outside cs).map fun (tag,
      after) => (' ' :: tag, after) := fun _ => rfl
    have hequals : ∀ cs, splitTag .outside ('=' :: '"' :: cs)
        = (splitTag (.inside '"') cs).map fun (tag, after) => ('=' :: '"' :: tag, after) :=
        fun cs => by
      show ((splitTag (.inside '"') cs).map _).map _ = _
      rw [Option.map_map]
      rfl
    rw [renderAttributes_cons, hblank, splitTag_word hkey, hequals,
      splitTag_quoted (quote_notMem_escape value.toList), ih hwords]
    simp only [Option.map_map]
    congr 1
    funext ⟨tag, after⟩
    simp only [Function.comp, renderAttributes_cons]

theorem renderAttributes_ends (attributes : List (String × String)) :
    renderAttributes attributes = [] ∨ ∃ front, renderAttributes attributes = front ++ ['"'] := by
  induction attributes with
  | nil => exact .inl rfl
  | cons a attributes ih =>
    have hrender := renderAttributes_cons a.1 a.2 attributes []
    rw [List.append_nil, List.append_nil] at hrender
    refine .inr ?_
    rw [show a :: attributes = (a.1, a.2) :: attributes from rfl, hrender]
    rcases ih with hnone | ⟨front, hfront⟩
    · exact ⟨' ' :: (a.1.toList ++ '=' :: '"' :: escape a.2.toList), by simp [hnone]⟩
    · exact ⟨' ' :: (a.1.toList ++ '=' :: '"' :: (escape a.2.toList ++ '"' :: front)), by
        simp [hfront]⟩

theorem tag_ends (hname : isWord name = true) (attributes : List (String × String)) :
    ∃ front c, name.toList ++ renderAttributes attributes = front ++ [c] ∧ c ≠ '/' := by
  rcases renderAttributes_ends attributes with hnone | ⟨front, hfront⟩
  · obtain ⟨first, more, hcons, -⟩ := exists_cons_of_isWord hname
    have hne : name.toList ≠ [] := by
      rw [hcons]
      exact List.cons_ne_nil _ _
    refine ⟨name.toList.dropLast, name.toList.getLast hne, ?_, ?_⟩
    · rw [hnone, List.append_nil, List.dropLast_concat_getLast hne]
    · exact ne_of_wordChar (wordChar_of_isWord hname _ (List.getLast_mem hne)) (by decide)
  · exact ⟨name.toList ++ front, '"', by rw [hfront, List.append_assoc], by decide⟩

section Tags

variable (hname : isWord name = true)
include hname

theorem startTag?_start (h : PlainAttributes attributes) :
    startTag? (name.toList ++ (renderAttributes attributes ++ '>' :: rest))
    = some (.start name attributes, rest) := by
  have hsplit : splitTag .outside (name.toList ++ (renderAttributes attributes ++ '>' :: rest))
      = some (name.toList ++ renderAttributes attributes, rest) := by
    rw [splitTag_word hname, splitTag_attributes h.words]
    show some (name.toList ++ (renderAttributes attributes ++ []), rest) = _
    rw [List.append_nil]
  obtain ⟨front, c, htag, hc⟩ := tag_ends hname attributes
  rw [startTag?, hsplit, Option.bind_eq_bind, Option.bind_some]
  dsimp only
  rw [nameAndAttributes?_render hname h, htag, List.reverse_append, List.reverse_singleton,
    List.singleton_append]
  split
  · rename_i hslash
    exact absurd (List.cons.inj hslash).1 hc
  · rfl

theorem startTag?_empty (h : PlainAttributes attributes) :
    startTag? (name.toList ++ (renderAttributes attributes ++ '/' :: '>' :: rest))
    = some (.empty name attributes, rest) := by
  have hsplit :
    splitTag .outside (name.toList ++ (renderAttributes attributes ++ '/' :: '>' :: rest))
      = some ((name.toList ++ renderAttributes attributes) ++ ['/'], rest) := by
    rw [splitTag_word hname, splitTag_attributes h.words]
    show some (name.toList ++ (renderAttributes attributes ++ ['/']), rest) = _
    rw [List.append_assoc]
  rw [startTag?, hsplit, Option.bind_eq_bind, Option.bind_some]
  dsimp only
  rw [List.reverse_append, List.reverse_singleton, List.singleton_append]
  split
  · rename_i heq
    obtain ⟨-, rfl⟩ := List.cons.inj heq
    rw [List.reverse_reverse, nameAndAttributes?_render hname h]
    rfl
  · rename_i hother
    exact absurd rfl (hother _)

theorem endTag?_render : endTag? ('/' :: (name.toList ++ '>' :: rest)) = some (name, rest) := by
  have hsplit : splitTag .outside ('/' :: (name.toList ++ '>' :: rest))
      = some ('/' :: name.toList, rest) := by
    show (splitTag .outside (name.toList ++ '>' :: rest)).map _ = _
    rw [splitTag_word hname]
    show some ('/' :: (name.toList ++ []), rest) = _
    rw [List.append_nil]
  have hlast : ∀ c, name.toList.reverse.head? = some c → isBlank c = false := fun c hc =>
    isBlank_of_wordChar (wordChar_of_isWord hname c (List.mem_reverse.mp (List.mem_of_head? hc)))
  have hnone : name.toList.reverse.dropWhile isBlank = name.toList.reverse :=
    @dropWhile_span isBlank [] name.toList.reverse (fun _ hc => absurd hc List.not_mem_nil) hlast
  rw [endTag?, hsplit]
  show some (String.ofList (name.toList.reverse.dropWhile isBlank).reverse, rest) = _
  rw [hnone, List.reverse_reverse, String.ofList_toList]

end Tags

/-! ### Events -/

/-- The events of a text, given the names of the open elements. -/
inductive Balanced : List String → List Event → Prop
  | nil (opened : List String) : Balanced opened []
  | start {opened : List String} {name : String} {attributes : List (String × String)}
    {events : List Event} (word : isWord name = true)
      (plain : PlainAttributes attributes) (rest : Balanced (name :: opened) events) :
      Balanced opened (.start name attributes :: events)
  | empty {opened : List String} {name : String} {attributes : List (String × String)}
    {events : List Event} (word : isWord name = true)
      (plain : PlainAttributes attributes) (rest : Balanced opened events) :
      Balanced opened (.empty name attributes :: events)
  | stop {opened : List String} {name : String} {events : List Event} (word : isWord name = true)
    (rest : Balanced opened events) :
      Balanced (name :: opened) (.stop :: events)

theorem dropWhile_newLine (depth : Nat) (cs : List Char) :
    (newLine depth ++ '<' :: cs).dropWhile (· != '<') = '<' :: cs := by
  refine dropWhile_span (fun c hc => ?_) ?_
  · rcases List.mem_cons.mp hc with rfl | hc
    · decide
    · rw [List.eq_of_mem_replicate hc]
      decide
  · rintro c ⟨⟩
    rfl

theorem scanWithin_tag (fuel : Nat) (opened : List String) (depth : Nat)
    (hname : isWord name = true) (cs : List Char) :
    scanWithin (fuel + 1) opened (newLine depth ++ '<' :: (name.toList ++ cs)) =
      match startTag? (name.toList ++ cs) with
      | some (.start name attributes, rest) =>
        .start name attributes :: scanWithin fuel (name :: opened) rest
      | some (event, rest) => event :: scanWithin fuel opened rest
      | none => [.broken] := by
  obtain ⟨first, more, hcons, hfirst⟩ := exists_cons_of_isWord hname
  rw [scanWithin, dropWhile_newLine, hcons, List.cons_append]
  split
  · rename_i heq
    cases heq
  · rename_i heq
    exact absurd (List.cons.inj (List.cons.inj heq).2).1 (ne_of_wordChar hfirst (by decide))
  · rename_i heq
    exact absurd (List.cons.inj (List.cons.inj heq).2).1 (ne_of_wordChar hfirst (by decide))
  · rename_i heq
    exact absurd (List.cons.inj (List.cons.inj heq).2).1 (ne_of_wordChar hfirst (by decide))
  · rename_i heq
    obtain ⟨-, rfl⟩ := List.cons.inj heq
    rfl

theorem scanWithin_render {opened : List String} {events : List Event}
    (h : Balanced opened events) {fuel : Nat} (hfuel : events.length < fuel) :
    scanWithin fuel opened (renderEvents opened events) = events := by
  induction h generalizing fuel with
  | nil opened =>
    obtain ⟨fuel, rfl⟩ : ∃ left, fuel = left + 1 := ⟨fuel - 1, by simp at hfuel; omega⟩
    cases opened <;> rfl
  | @start opened name attributes events hname hplain _ ih =>
    obtain ⟨fuel, rfl⟩ : ∃ left, fuel = left + 1 := ⟨fuel - 1, by simp at hfuel; omega⟩
    have hrender : renderEvents opened (.start name attributes :: events) = newLine opened.length
      ++ '<' :: (name.toList
        ++ (renderAttributes attributes ++ '>' :: renderEvents (name :: opened) events)) := by
      cases opened <;> simp [renderEvents, List.append_assoc]
    rw [hrender, scanWithin_tag fuel opened _ hname, startTag?_start hname hplain]
    dsimp only
    rw [ih (Nat.lt_of_succ_lt_succ hfuel)]
  | @empty opened name attributes events hname hplain _ ih =>
    obtain ⟨fuel, rfl⟩ : ∃ left, fuel = left + 1 := ⟨fuel - 1, by simp at hfuel; omega⟩
    have hrender : renderEvents opened (.empty name attributes :: events) = newLine opened.length
      ++ '<' :: (name.toList
        ++ (renderAttributes attributes ++ '/' :: '>' :: renderEvents opened events)) := by
      cases opened <;> simp [renderEvents, List.append_assoc]
    rw [hrender, scanWithin_tag fuel opened _ hname, startTag?_empty hname hplain]
    dsimp only
    rw [ih (Nat.lt_of_succ_lt_succ hfuel)]
  | @stop opened name events hname _ ih =>
    obtain ⟨fuel, rfl⟩ : ∃ left, fuel = left + 1 := ⟨fuel - 1, by simp at hfuel; omega⟩
    have hrender : renderEvents (name :: opened) (.stop :: events) = newLine opened.length ++ '<'
      :: '/' :: (name.toList
        ++ '>' :: renderEvents opened events) := by
      simp [renderEvents, List.append_assoc]
    rw [hrender, scanWithin, dropWhile_newLine]
    simp only [endTag?_render hname, if_true, ih (Nat.lt_of_succ_lt_succ hfuel)]

theorem length_le_renderEvents {opened : List String} {events : List Event}
    (h : Balanced opened events) :
    events.length ≤ (renderEvents opened events).length := by
  induction h with
  | nil opened => exact Nat.zero_le _
  | @start opened =>
    cases opened <;> simp only [renderEvents, newLine, List.length_append, List.length_cons]
      <;> omega
  | @empty opened =>
    cases opened <;> simp only [renderEvents, newLine, List.length_append, List.length_cons]
      <;> omega
  | stop =>
    simp only [renderEvents, newLine, List.length_append, List.length_cons]
    omega

/-! ### Trees -/

/-- All elements of the tree, and their attributes, have words as names; no element has two
attributes of one name. -/
inductive Plain : Node → Prop
  | element {name : String} {attributes : List (String × String)} {children : List Node}
  (word : isWord name = true)
      (plain : PlainAttributes attributes) (inside : ∀ c ∈ children, Plain c) :
      Plain (.element name attributes children)

theorem balanced_eventsAll {children : List Node}
    (h : ∀ c ∈ children, ∀ opened events, Balanced opened events →
      Balanced opened (c.events ++ events)) {opened : List String} {events : List Event}
    (hevents : Balanced opened events) :
    Balanced opened (Node.eventsAll children ++ events) := by
  induction children with
  | nil => exact hevents
  | cons c children ih =>
    obtain ⟨hc, hchildren⟩ := List.forall_mem_cons.mp h
    rw [Node.eventsAll, List.append_assoc]
    exact hc _ _ (ih hchildren)

theorem Plain.balanced {n : Node} (h : Plain n) : ∀ opened events, Balanced opened events →
    Balanced opened (n.events ++ events) := by
  induction h with
  | @element name attributes children hname hattributes _ ih =>
    intro opened events hevents
    cases children with
    | nil => exact .empty hname hattributes hevents
    | cons c children =>
      have hinside := balanced_eventsAll ih (.stop hname hevents)
      have hsplit : Node.events (.element name attributes (c :: children)) ++ events
          = .start name attributes :: (Node.eventsAll (c :: children) ++ .stop :: events) := by
        simp [Node.events, Node.eventsAll, List.append_assoc]
      rw [hsplit]
      exact .start hname hattributes hinside

theorem append_append (n : Node) (first more : List Node) :
    (n.append first).append more = n.append (first ++ more) := by
  simp only [Node.append, Node.name, Node.attributes, Node.children, List.append_assoc]

/-- Induction over a tree: what holds of the elements inside one holds of it. -/
theorem Node.induction {motive : Node → Prop}
    (element : ∀ name attributes children, (∀ c ∈ children, motive c) →
      motive (.element name attributes children)) (n : Node) :
    motive n := by
  refine @Node.rec motive (fun children => ∀ c ∈ children, motive c) element ?_ ?_ n
  · exact List.forall_mem_nil _
  · exact fun _ _ hc hchildren => List.forall_mem_cons.mpr ⟨hc, hchildren⟩

/-! ### Elements from tags -/

/-- No element of the tree has two attributes of one key. -/
inductive Node.Distinct : Node → Prop
  | element {name : String} {attributes : List (String × String)} {children : List Node}
      (keys : (attributes.map Prod.fst).Nodup) (inside : ∀ c ∈ children, Node.Distinct c) :
      Node.Distinct (.element name attributes children)

theorem Plain.distinct {n : Node} (h : Plain n) : n.Distinct := by
  induction h with
  | element _ hplain _ ih => exact .element hplain.distinct ih

theorem isSome_get?_iff (n : Node) (key : String) :
    (n.get? key).isSome = true ↔ key ∈ n.attributes.map Prod.fst := by
  simp [Node.get?]

/-- Attributes are added to those that an element has, as long as their keys are new. -/
theorem foldlM_addAttribute (n : Node) (hn : (n.attributes.map Prod.fst).Nodup) :
    attributes.foldlM Node.addAttribute n =
      if ((n.attributes ++ attributes).map Prod.fst).Nodup then .ok
      (.element n.name (n.attributes ++ attributes) n.children)
      else .error (.persistence "duplicated attribute") := by
  induction attributes generalizing n with
  | nil =>
    obtain ⟨name, before, children⟩ := n
    rw [List.append_nil, if_pos hn]
    rfl
  | cons a attributes ih =>
    have hkeys : (n.attributes ++ a :: attributes).map Prod.fst = n.attributes.map Prod.fst ++ a.1
        :: attributes.map Prod.fst := by
      simp
    rw [List.foldlM_cons, Node.addAttribute]
    by_cases hmem : a.1 ∈ n.attributes.map Prod.fst
    · have hrepeats : ¬ ((n.attributes ++ a :: attributes).map Prod.fst).Nodup := by
        rw [hkeys]
        intro hnodup
        exact (List.nodup_append.mp hnodup).2.2 a.1 hmem a.1 List.mem_cons_self rfl
      rw [if_pos ((isSome_get?_iff n a.1).mpr hmem), if_neg hrepeats]
      rfl
    · have hnew : ((n.attr a.1 a.2).attributes.map Prod.fst).Nodup := by
        have hmap : (n.attr a.1 a.2).attributes.map Prod.fst
            = n.attributes.map Prod.fst ++ [a.1] := by
          simp [Node.attr, Node.attributes]
        rw [hmap, List.nodup_append]
        refine ⟨hn, by simp, fun k hk l hl heq => ?_⟩
        rw [heq, List.mem_singleton.mp hl] at hk
        exact hmem hk
      have hassoc : (n.attr a.1 a.2).attributes ++ attributes = n.attributes ++ a
          :: attributes := by
        simp [Node.attr, Node.attributes]
      rw [if_neg (fun hsome => hmem ((isSome_get?_iff n a.1).mp hsome)), ok_bind, ih _ hnew, hassoc]
      rfl

theorem ofTag_eq (name : String) (attributes : List (String × String)) :
    Node.ofTag name attributes =
      if (attributes.map Prod.fst).Nodup then .ok (.element name attributes [])
      else .error (.persistence "duplicated attribute") :=
  foldlM_addAttribute (Node.named name) List.nodup_nil

theorem ofTag_of_nodup (name : String) (h : (attributes.map Prod.fst).Nodup) :
    Node.ofTag name attributes = .ok (.element name attributes []) := by
  rw [ofTag_eq, if_pos h]

/-! ### Elements from events -/

theorem foldlM_eventsAll {children : List Node}
    (h : ∀ c ∈ children, ∀ f : Forest, c.events.foldlM Forest.step f = f.attach c) (parent : Node)
    (outer : List Node) (root : Option Node) :
    (Node.eventsAll children).foldlM Forest.step ⟨parent :: outer, root⟩
        = .ok ⟨parent.append children :: outer, root⟩ := by
  induction children generalizing parent with
  | nil =>
    obtain ⟨name, attributes, children⟩ := parent
    simp only [Node.eventsAll, List.foldlM_nil, Node.append, Node.name, Node.attributes,
      Node.children, List.append_nil]
    rfl
  | cons c children ih =>
    obtain ⟨hc, hchildren⟩ := List.forall_mem_cons.mp h
    rw [Node.eventsAll, List.foldlM_append, hc]
    show (Node.eventsAll children).foldlM Forest.step ⟨parent.append [c] :: outer, root⟩ = _
    rw [ih hchildren, append_append, List.singleton_append]

/-- The events of a tree put it where a finished element goes. -/
theorem Node.Distinct.foldlM_events {n : Node} (h : n.Distinct) : ∀ f :
    Forest, n.events.foldlM Forest.step f = f.attach n := by
  induction h with
  | @element name attributes children hkeys _ ih =>
    intro f
    cases children with
    | nil =>
      rw [Node.events, List.foldlM_cons, Forest.step, ofTag_of_nodup name hkeys, ok_bind]
      exact bind_pure (f.attach (.element name attributes []))
    | cons c children =>
      have hinside := foldlM_eventsAll ih (.element name attributes []) f.openNodes f.root
      rw [Node.events, List.cons_append, List.foldlM_cons, Forest.step,
        ofTag_of_nodup name hkeys, ok_bind]
      show ((Node.eventsAll (c :: children)) ++ [Event.stop]).foldlM Forest.step
        ⟨.element name attributes [] :: f.openNodes, f.root⟩ = _
      rw [List.foldlM_append, hinside]
      exact bind_pure (f.attach (.element name attributes (c :: children)))

/-- What is written for a tree is scanned as the declaration and the events of the tree. -/
theorem Plain.scan_render {n : Node} (h : Plain n) : scan n.render = .ignored :: n.events := by
  have hbalanced : Balanced [] n.events := by
    have hevents := h.balanced [] [] (.nil [])
    rwa [List.append_nil] at hevents
  have hdeclaration : ∀ (fuel : Nat) (cs : List Char),
      scanWithin (fuel + 1) [] (declaration.toList ++ cs) = .ignored :: scanWithin fuel [] cs :=
      fun _ _ => rfl
  rw [scan, Node.render, String.toList_ofList, String.length_ofList, hdeclaration,
    scanWithin_render hbalanced]
  rw [List.length_append]
  have hle := length_le_renderEvents hbalanced
  have hpositive : 0 < declaration.toList.length := by decide
  omega

theorem Plain.parse_render {n : Node} (h : Plain n) : Node.parse n.render = .ok n := by
  have hfold : (Event.ignored :: n.events).foldlM Forest.step {} = .ok ⟨[], some n⟩ := by
    rw [List.foldlM_cons]
    exact h.distinct.foldlM_events {}
  rw [Node.parse, h.scan_render, Node.ofEvents, hfold]
  rfl

/-! ### Sequences of events -/

namespace Event

/-- Each stop closes an element that is open, and none is open at the end; so many are open
before. -/
def Nested : Nat → List Event → Prop
  | opened, [] => opened = 0
  | opened, .start _ _ :: events => Nested (opened + 1) events
  | 0, .stop :: _ => False
  | opened + 1, .stop :: events => Nested opened events
  | opened, _ :: events => Nested opened events

/-- Nothing is broken here, and a tag has no key twice. -/
def Readable : Event → Prop
  | .start _ attributes => (attributes.map Prod.fst).Nodup
  | .empty _ attributes => (attributes.map Prod.fst).Nodup
  | .stop => True
  | .ignored => True
  | .broken => False

instance decidableReadable : ∀ event : Event, Decidable event.Readable
  | .start _ attributes => inferInstanceAs (Decidable (attributes.map Prod.fst).Nodup)
  | .empty _ attributes => inferInstanceAs (Decidable (attributes.map Prod.fst).Nodup)
  | .stop => inferInstanceAs (Decidable True)
  | .ignored => inferInstanceAs (Decidable True)
  | .broken => inferInstanceAs (Decidable False)

instance decidableNested : ∀ (opened : Nat) (events : List Event), Decidable (Nested opened events)
  | opened, [] => inferInstanceAs (Decidable (opened = 0))
  | opened, .start _ _ :: events => decidableNested (opened + 1) events
  | 0, .stop :: _ => inferInstanceAs (Decidable False)
  | opened + 1, .stop :: events => decidableNested opened events
  | opened, .empty _ _ :: events => decidableNested opened events
  | opened, .ignored :: events => decidableNested opened events
  | opened, .broken :: events => decidableNested opened events

end Event

namespace Forest

/-! ### Ignored events -/

end Forest

/-! ### Sequences and trees -/

section Filtered

variable {n : Node} {events : List Event} (hevents : events.filter (· ≠ .ignored) = n.events)
include hevents

end Filtered

end TypeLoom.Markup
