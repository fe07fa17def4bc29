import Mathlib.Data.List.Perm.Basic
import TypeLoom.Proofs.Runs

/-!
# Files of several pipelines

Each pipeline counts its modules from one. It never writes to a file twice, but it does not know of
the files that other pipelines have written to its directory: a flushed module is kept as long as no
other pipeline of the directory comes upon the same name.
-/

namespace TypeLoom

open Attempt

theorem map_setIfInBounds_of_eq {α β : Type} {f : α → β} {xs : Array α} {i : Nat} {x default : α}
    (h : f x = f (xs.getD i default)) : (xs.setIfInBounds i x).map f = xs.map f := by
  apply Array.ext_getElem?
  intro j
  rw [Array.getElem?_map, Array.getElem?_map, Array.getElem?_setIfInBounds]
  split
  · rename_i hj
    subst hj
    split
    · rename_i hlt
      rw [Option.map_some, h, Array.getD_eq_getD_getElem?, Array.getElem?_eq_getElem hlt,
        Option.getD_some, Option.map_some]
    · rename_i hge
      rw [Array.getElem?_eq_none (Nat.le_of_not_lt hge)]
  · rfl

open List in
/-- An entry moves to the end of the rows before, and another one takes its place. -/
theorem perm_append_set {α : Type} {before items : List α} {i : Nat}
    (h : i < items.length) (x : α) :
    (before ++ [items[i]] ++ items.set i x).Perm (before ++ items ++ [x]) :=
  calc before ++ [items[i]] ++ items.set i x
    _ ~ before ++ [items[i]] ++ x :: items.eraseIdx i :=
      (List.set_perm_cons_eraseIdx h x).append_left _
    _ ~ before ++ [items[i]] ++ (items.eraseIdx i ++ [x]) :=
      (List.perm_append_singleton x _).symm.append_left _
    _ = before ++ items[i] :: items.eraseIdx i ++ [x] := by simp
    _ ~ before ++ items ++ [x] := ((List.getElem_cons_eraseIdx_perm h).append_left _).append_right _

def Generator.target (g : Generator) : NamingId × String := (g.naming, g.moduleName ++ ".xml")

namespace Session

variable {s s' first : Session} {P : PoolId} {g : GeneratorId} {n : NamingId} {α : Type}

/-! ### Names in use -/

/-- A module that was written, with the naming that its file has its name from. -/
structure Filing where
  naming : NamingId
  module : WrittenModule

/-- Where the file is. -/
def place (s : Session) (r : Filing) : DirectoryId × String :=
  ((s.naming r.naming).directory, r.module.file)

/-- The names of files that were written, and of those for the modules under construction. -/
def inUse (s : Session) (filed : List Filing) : List (NamingId × String) :=
  filed.map (fun r => (r.naming, r.module.file)) ++ s.generators.toList.map (·.target)

/-- Nothing was named or written. There may be more directories. -/
structure FilesKept (s s' : Session) : Prop where
  namings : s'.namings = s.namings
  generators : s'.generators.map (·.target) = s.generators.map (·.target)
  pools : s'.pools.map (·.naming) = s.pools.map (·.naming)
  room : s.directories.size ≤ s'.directories.size
  directories : ∀ d : DirectoryId, d.index < s.directories.size → s'.directory d = s.directory d

theorem FilesKept.of_eq (hnamings : s'.namings = s.namings)
    (hgenerators : s'.generators = s.generators) (hpools : s'.pools = s.pools)
    (hdirectories : s'.directories = s.directories) : FilesKept s s' :=
  ⟨hnamings, by
    rw [hgenerators], by
      rw [hpools], by rw [hdirectories], fun d _ => by rw [directory, hdirectories, directory]⟩

theorem filesKept_setPool (s : Session) (P : PoolId) {pool : GeneratorPool}
    (h : pool.naming = (s.pool P).naming) :
    FilesKept s (s.setPool P pool) :=
  ⟨rfl, rfl, map_setIfInBounds_of_eq h, Nat.le_refl _, fun _ _ => rfl⟩

theorem filesKept_putWorkshop (s : Session) (g : GeneratorId) (w : Workshop) :
    FilesKept s (s.putWorkshop g w) :=
  ⟨rfl, map_setIfInBounds_of_eq rfl, rfl, Nat.le_refl _, fun _ _ => rfl⟩

/-- Each name in use has a number of its naming, no name is used twice, and each file has the
text that was written to it unless the same file was written again. -/
structure Filed (filed : List Filing) (s : Session) : Prop where
  pools : ∀ n ∈ s.pools.map (·.naming), n.index < s.namings.size
  namings : ∀ n : NamingId, n.index < s.namings.size → (s.naming n).Counts
    ∧ (s.naming n).directory.index < s.directories.size
  nodup : (s.inUse filed).Nodup
  numbered : ∀ row ∈ s.inUse filed, row.1.index < s.namings.size
    ∧ ∃ k < (s.naming row.1).counter, row.2 = (s.naming row.1).fileAt k
  stored : ∀ before r after, filed = before ++ r :: after → (∀ r' ∈ after, s.place r' ≠ s.place r) →
    (s.directory (s.place r).1).files.find? (s.place r).2 = some r.module.text

namespace Filed

variable {filed : List Filing}

theorem aside (h : Filed filed s) (hkept : FilesKept s s') : Filed filed s' := by
  have hnaming : s'.naming = s.naming := by
    funext n
    rw [Session.naming, hkept.namings, Session.naming]
  have huse : s'.inUse filed = s.inUse filed := by
    have hlist := congrArg Array.toList hkept.generators
    rw [Array.toList_map, Array.toList_map] at hlist
    rw [inUse, hlist, inUse]
  have hplace : s'.place = s.place := by
    funext r
    rw [Session.place, hnaming, Session.place]
  refine ⟨?_, fun n hn => ?_, huse ▸ h.nodup, ?_, fun before r after heq hother => ?_⟩
  · rw [hkept.pools, hkept.namings]
    exact h.pools
  · rw [hkept.namings] at hn
    rw [hnaming]
    exact ⟨(h.namings n hn).1, Nat.lt_of_lt_of_le (h.namings n hn).2 hkept.room⟩
  · rw [huse, hkept.namings, hnaming]
    exact h.numbered
  · rw [hplace] at hother ⊢
    have hin : (r.naming, r.module.file) ∈ s.inUse filed :=
      List.mem_append_left _ (List.mem_map.mpr ⟨r, by rw [heq]; simp, rfl⟩)
    rw [hkept.directories (s.place r).1 (h.namings _ (h.numbered _ hin).1).2]
    exact h.stored before r after heq hother

/-! ### The next name -/

theorem naming_counted (hn : n.index < s.namings.size)
    (hnamings : s'.namings = s.namings.setIfInBounds n.index
      { s.naming n with counter := (s.naming n).counter + 1 }) (m : NamingId) :
    s'.naming m = { s.naming m with counter := (s.naming m).counter + if m = n then 1 else 0 } := by
  rw [Session.naming, hnamings, Array.getD_eq_getD_getElem?, Array.getElem?_setIfInBounds]
  by_cases hm : m = n
  · subst hm
    rw [if_pos rfl, if_pos hn, if_pos rfl, Option.getD_some]
  · have hindex : n.index ≠ m.index := fun heq => hm (by cases m; cases n; simp_all)
    rw [if_neg hindex, if_neg hm, ← Array.getD_eq_getD_getElem?]
    rfl

/-- The name for the counter is new, and then the counter is past it. -/
theorem next {filed' : List Filing} (h : Filed filed s) (hn : n.index < s.namings.size)
    (hnamings : s'.namings = s.namings.setIfInBounds n.index
      { s.naming n with counter := (s.naming n).counter + 1 })
    (huse : (s'.inUse filed').Perm (s.inUse filed ++ [(n, (s.naming n).name ++ ".xml")])) :
    (s'.inUse filed').Nodup ∧ ∀ row ∈ s'.inUse filed', row.1.index < s'.namings.size
      ∧ ∃ k < (s'.naming row.1).counter, row.2 = (s'.naming row.1).fileAt k := by
  have hcounted := naming_counted hn hnamings
  have hsize : s'.namings.size = s.namings.size := by rw [hnamings, Array.size_setIfInBounds]
  refine ⟨huse.nodup_iff.mpr (List.nodup_append.mpr ⟨h.nodup, List.nodup_singleton _,
    fun row hrow row' hrow' => ?_⟩), ?_⟩
  · rintro rfl
    obtain rfl := List.mem_singleton.mp hrow'
    obtain ⟨-, k, hk, hfile⟩ := h.numbered _ hrow
    have hsame := (s.naming n).fileAt_injective (h.namings n hn).1 hfile
    exact Nat.lt_irrefl _ (hsame ▸ hk)
  · intro row hrow
    rw [hsize, hcounted row.1]
    rcases List.mem_append.mp (huse.mem_iff.mp hrow) with hold | hnew
    · obtain ⟨hin, k, hk, hfile⟩ := h.numbered row hold
      exact ⟨hin, k, Nat.lt_of_lt_of_le hk (Nat.le_add_right _ _), hfile⟩
    · obtain rfl := List.mem_singleton.mp hnew
      refine ⟨hn, (s.naming n).counter, ?_, rfl⟩
      rw [if_pos rfl]
      exact Nat.lt_succ_self _

theorem namings_counted (h : Filed filed s) (hn : n.index < s.namings.size)
    (hnamings : s'.namings = s.namings.setIfInBounds n.index
      { s.naming n with counter := (s.naming n).counter + 1 })
    (hroom : s'.directories.size = s.directories.size) (m : NamingId) (hm : m.index
      < s'.namings.size) :
    (s'.naming m).Counts ∧ (s'.naming m).directory.index < s'.directories.size := by
  rw [hnamings, Array.size_setIfInBounds] at hm
  rw [naming_counted hn hnamings, hroom]
  exact h.namings m hm

theorem place_counted (hn : n.index < s.namings.size)
    (hnamings : s'.namings = s.namings.setIfInBounds n.index
      { s.naming n with counter := (s.naming n).counter + 1 }) :
    s'.place = s.place := by
  funext r
  rw [Session.place, naming_counted hn hnamings, Session.place]

theorem begun (h : Filed filed s) (hn : n.index < s.namings.size) {made : Generator}
    (hmade : made.target = (n, (s.naming n).name ++ ".xml")) :
    Filed filed { s with
      namings := s.namings.setIfInBounds n.index
        { s.naming n with counter := (s.naming n).counter + 1 }
      generators := s.generators.push made } := by
  have huse : inUse { s with
      namings := s.namings.setIfInBounds n.index
        { s.naming n with counter := (s.naming n).counter + 1 }
      generators := s.generators.push made } filed = s.inUse filed
          ++ [(n, (s.naming n).name ++ ".xml")] := by
    simp only [inUse, Array.toList_push, List.map_append, List.map_cons, List.map_nil, hmade,
      List.append_assoc]
  obtain ⟨hnodup, hnumbered⟩ := h.next hn rfl (.of_eq huse)
  refine ⟨fun m hm => ?_, h.namings_counted hn rfl rfl, hnodup, hnumbered,
    fun before r after heq hother => ?_⟩
  · rw [Array.size_setIfInBounds]
    exact h.pools m hm
  · rw [place_counted hn rfl] at hother ⊢
    exact h.stored before r after heq hother

theorem find?_wrote {v : WrittenModule} (hwrote : s.Wrote g v s') {d : DirectoryId}
    (hd : d.index < s.directories.size) (file : String) :
    (s'.directory d).files.find? file =
      if ((s.naming (s.generator g).naming).directory, v.file) = (d, file) then some v.text
      else (s.directory d).files.find? file := by
  have hdirectory : s'.directory d = if (s.naming (s.generator g).naming).directory = d
      then { s.directory d with files := (s.directory d).files.put v.file v.text }
      else s.directory d := by
    rw [Session.directory, hwrote.directories, Array.getD_eq_getD_getElem?, Array.getElem?_modify,
      Session.directory,
      Array.getD_eq_getD_getElem?, Array.getElem?_eq_getElem hd]
    by_cases heq : (s.naming (s.generator g).naming).directory = d
    · rw [if_pos heq, if_pos (congrArg DirectoryId.index heq)]
      rfl
    · rw [if_neg heq, if_neg fun hindex => heq (DirectoryId.mk.injEq .. ▸ hindex)]
  rw [hdirectory]
  by_cases heq : (s.naming (s.generator g).naming).directory = d
  · rw [if_pos heq]
    by_cases hfile : v.file = file
    · rw [if_pos (Prod.ext heq hfile), hfile]
      exact Keyed.find?_put_self _ _ _
    · rw [if_neg fun hsame => hfile (congrArg Prod.snd hsame)]
      exact Keyed.find?_put_of_ne _ _ _ _ hfile
  · rw [if_neg heq, if_neg fun hsame => heq (congrArg Prod.fst hsame)]

/-- What is written with a number of its own stays, and so does what was written to other places. -/
theorem wrote {v : WrittenModule} (h : Filed filed s) (hg : g.index < s.generators.size)
    (hwrote : s.Wrote g v s') :
    Filed (filed ++ [⟨(s.generator g).naming, v⟩]) s' := by
  have hlt : g.index < s.generators.toList.length := by rwa [Array.length_toList]
  have hself : s.generators.toList[g.index] = s.generator g := by
    rw [Session.generator, Array.getElem_toList, Array.getD_eq_getD_getElem?,
      Array.getElem?_eq_getElem hg, Option.getD_some]
  have hold : ((s.generator g).naming, v.file) ∈ s.inUse filed := by
    refine List.mem_append_right _ (List.mem_map.mpr ⟨s.generator g, ?_, by rw [hwrote.file]; rfl⟩)
    rw [← hself]
    exact List.getElem_mem hlt
  have hn := (h.numbered _ hold).1
  have hplace := place_counted hn hwrote.namings
  have hroom : s'.directories.size = s.directories.size := by
    rw [hwrote.directories, Array.size_modify]
  have huse : (s'.inUse (filed ++ [⟨(s.generator g).naming, v⟩])).Perm
      (s.inUse filed ++ [((s.generator g).naming, (s.naming (s.generator g).naming).name
        ++ ".xml")]) := by
    have htargets : s'.generators.toList.map (·.target)
      = (s.generators.toList.map (·.target)).set g.index
        ((s.generator g).naming, (s.naming (s.generator g).naming).name ++ ".xml") := by
      rw [hwrote.generators, Array.toList_setIfInBounds, List.map_set]
      rfl
    have hsize : g.index < (s.generators.toList.map (·.target)).length := by rwa [List.length_map]
    have hcurrent : (s.generators.toList.map (·.target))[g.index]
        = ((s.generator g).naming, v.file) := by
      rw [List.getElem_map, hself, hwrote.file]
      rfl
    rw [inUse, htargets, List.map_append, inUse, List.map_cons, List.map_nil, ← hcurrent]
    exact perm_append_set hsize _
  obtain ⟨hnodup, hnumbered⟩ := h.next hn hwrote.namings huse
  refine ⟨fun m hm => ?_, h.namings_counted hn hwrote.namings hroom, hnodup, hnumbered,
    fun before r after heq hother => ?_⟩
  · rw [hwrote.namings, Array.size_setIfInBounds]
    rw [hwrote.pools] at hm
    exact h.pools m hm
  · rw [hplace] at hother ⊢
    have hin : ∀ r' ∈ filed ++ [⟨(s.generator g).naming, v⟩], (s.place r').1.index
        < s.directories.size := by
      intro r' hr'
      refine (h.namings _ ?_).2
      have hrow : (r'.naming, r'.module.file) ∈ s'.inUse (filed ++ [⟨(s.generator g).naming, v⟩]) :=
        List.mem_append_left _ (List.mem_map.mpr ⟨r', hr', rfl⟩)
      have hlt := (hnumbered _ hrow).1
      rwa [hwrote.namings, Array.size_setIfInBounds] at hlt
    rw [find?_wrote hwrote (hin r (by rw [heq]; simp))]
    rcases List.eq_nil_or_concat after with rfl | ⟨earlier, last, rfl⟩
    · obtain ⟨-, hlast⟩ := List.append_inj' heq rfl
      obtain rfl := List.head_eq_of_cons_eq hlast
      exact if_pos rfl
    · rw [List.concat_eq_append, ← List.cons_append, ← List.append_assoc] at heq
      obtain ⟨hearlier, hlast⟩ := List.append_inj' heq rfl
      obtain rfl := List.head_eq_of_cons_eq hlast
      rw [List.concat_eq_append] at hother
      refine (if_neg (hother _ (List.mem_append_right _ (List.mem_singleton_self _)))).trans ?_
      exact h.stored before r earlier hearlier fun r' hr' => hother r' (List.mem_append_left _ hr')

end Filed

/-! ### Chronicles -/

/-- What happens in a session with several pipelines, with the modules that were written in it. A
pipeline is set up, a context is leased, a generator writes its module, or nothing is named or
written. -/
inductive Deed (s : Session) : List Filing → Session → Prop
  | opened (registry : RegistryId) (settings : Settings) {directory : DirectoryId}
  (names : List String)
      (hdirectory : directory.index < s.directories.size) :
      Deed s [] ((addPipeline registry settings directory names).start s).2
  | leased (P : PoolId) : Deed s [] ((dequeue P Thread.main).start s).2
  | wrote (g : GeneratorId) (configuration : String) {v : WrittenModule} {s' : Session}
      (hflush : (flushGenerator g configuration).start s = (.ok (some v), s')) :
      Deed s [⟨(s.generator g).naming, v⟩] s'
  | aside {s' : Session} (hkept : FilesKept s s') : Deed s [] s'

/-- The moments of a session from the first one on, each with the modules that were written until
then. -/
inductive Chronicle (first : Session) : List Filing → Session → Prop
  | start : Chronicle first [] first
  | step {filed more : List Filing} {s s' : Session} (h : Chronicle first filed s)
    (e : s.Deed more s') :
      Chronicle first (filed ++ more) s'

namespace Filed

variable {filed : List Filing}

theorem named (h : Filed filed s) {made : Naming} (hcounts : made.Counts)
    (hdirectory : made.directory.index < s.directories.size) :
    Filed filed { s with namings := s.namings.push made } := by
  have hold : ∀ m : NamingId, m.index < s.namings.size →
      Session.naming { s with namings := s.namings.push made } m = s.naming m := fun m hm => by
    rw [Session.naming, Session.naming, Array.getD_eq_getD_getElem?, Array.getD_eq_getD_getElem?,
      Array.getElem?_push_lt hm,
      Array.getElem?_eq_getElem hm]
  have hsize : ∀ m : NamingId, m.index < s.namings.size → m.index < (s.namings.push made).size :=
      fun m hm => by
    rw [Array.size_push]
    exact Nat.lt_succ_of_lt hm
  have hin : ∀ r ∈ filed, r.naming.index < s.namings.size := fun r hr =>
    (h.numbered (r.naming, r.module.file)
      (List.mem_append_left _ (List.mem_map.mpr ⟨r, hr, rfl⟩))).1
  have hplace : ∀ r ∈ filed, Session.place { s with namings := s.namings.push made } r
      = s.place r := fun r hr => by
    rw [Session.place, hold _ (hin r hr), Session.place]
  refine ⟨fun m hm => hsize m (h.pools m hm), fun m hm => ?_, h.nodup, fun row hrow => ?_,
    fun before r after heq hother => ?_⟩
  · rcases Nat.lt_or_ge m.index s.namings.size with hlt | hge
    · rw [hold m hlt]
      exact h.namings m hlt
    · have hlast : m.index = s.namings.size :=
        Nat.le_antisymm (Nat.le_of_lt_succ (by simpa using hm)) hge
      have hnew : Session.naming { s with namings := s.namings.push made } m = made := by
        rw [Session.naming, Array.getD_eq_getD_getElem?, hlast, Array.getElem?_push_size,
          Option.getD_some]
      rw [hnew]
      exact ⟨hcounts, hdirectory⟩
  · obtain ⟨hrange, hnumbered⟩ := h.numbered row hrow
    rw [hold _ hrange]
    exact ⟨hsize _ hrange, hnumbered⟩
  · have hmem : ∀ r' ∈ r :: after, r' ∈ filed := fun r' hr' => by
      rw [heq]
      exact List.mem_append_right _ hr'
    rw [hplace r (hmem r List.mem_cons_self)] at hother ⊢
    refine h.stored before r after heq fun r' hr' => ?_
    rw [← hplace r' (hmem r' (List.mem_cons_of_mem _ hr'))]
    exact hother r' hr'

theorem pooled (h : Filed filed s) (pool : GeneratorPool)
    (hpool : pool.naming.index < s.namings.size) :
    Filed filed { s with pools := s.pools.push pool } := by
  refine ⟨fun m hm => ?_, h.namings, h.nodup, h.numbered, h.stored⟩
  rw [Array.map_push] at hm
  rcases Array.mem_push.mp hm with hold | rfl
  · exact h.pools m hold
  · exact hpool

theorem opened (h : Filed filed s) (registry : RegistryId) (settings : Settings)
    {directory : DirectoryId} (names : List String)
    (hdirectory : directory.index < s.directories.size) :
    Filed filed ((addPipeline registry settings directory names).start s).2 := by
  refine wp_const.mp ?_
  rw [addPipeline, wp_bind, wp_lift]
  refine ⟨fun _ hvalid => ?_, fun _ _ => h⟩
  have hcounts : Naming.Counts { directory, pattern := settings.pattern } :=
    Settings.counts_of_validate hvalid
  rw [openPipeline, wp_bind, wp_lift]
  refine ⟨fun _ _ => ?_, fun _ _ => h⟩
  have hnamed := h.named hcounts hdirectory
  simp only [addNaming, addPool, wp_bind, wp_get, wp_modify, wp_pure, wp_lift]
  refine ⟨fun pool _ => ?_, fun _ _ => hnamed⟩
  exact (hnamed.pooled ⟨pool, registry, ⟨s.namings.size⟩, #[]⟩ (by simp)).aside
    (.of_eq rfl rfl rfl rfl)

theorem leased (h : Filed filed s) (P : PoolId) :
    Filed filed ((dequeue P Thread.main).start s).2 := by
  refine wp_const.mp ?_
  unfold dequeue
  rw [wp_bind, wp_get]
  split
  · exact h
  · rename_i lease pool hpool
    have hP : P.index < s.pools.size := by
      by_contra hout
      have hdefault : s.pool P = default := by
        rw [Session.pool, Array.getD_eq_getD_getElem?,
          Array.getElem?_eq_none (Nat.le_of_not_lt hout), Option.getD_none]
      rw [hdefault] at hpool
      cases hpool
    have hset : FilesKept s (s.setPool P { s.pool P with pool }) := filesKept_setPool s P rfl
    rw [wp_bind, wp_get, wp_bind, wp_modify]
    have hmid := h.aside hset
    by_cases hnew : (s.pool P).generators.size < pool.created
    · rw [if_pos hnew]
      have hn : (s.pool P).naming.index < s.namings.size := by
        refine h.pools _ (Array.mem_map.mpr ⟨s.pool P, ?_, rfl⟩)
        rw [Session.pool, Array.getD_eq_getD_getElem?, Array.getElem?_eq_getElem hP,
          Option.getD_some]
        exact Array.getElem_mem hP
      simp only [addGenerator, nextModuleName, wp_bind, wp_get, wp_modify, wp_pure]
      let made : Generator :=
        ⟨(s.pool P).registry, (s.pool P).naming, (s.naming (s.pool P).naming).name, #[]⟩
      have hmade : made.target = ((s.pool P).naming, (s.naming (s.pool P).naming).name ++ ".xml") :=
        rfl
      exact (hmid.begun hn hmade).aside (filesKept_setPool _ P rfl)
    · rw [if_neg hnew]
      exact hmid

theorem lt_of_flushGenerator {configuration : String} {v : WrittenModule}
    (hflush : (flushGenerator g configuration).start s = (.ok (some v), s')) :
    g.index < s.generators.size := by
  by_contra hout
  have hdefault : s.generator g = default := by
    rw [Session.generator, Array.getD_eq_getD_getElem?,
      Array.getElem?_eq_none (Nat.le_of_not_lt hout), Option.getD_none]
  have hempty : (s.generatedTypes g).isEmpty = true := by
    rw [generatedTypes, workshop, hdefault]
    rfl
  rw [flushGenerator, start_bind, start_get] at hflush
  dsimp only at hflush
  rw [if_pos hempty] at hflush
  cases hflush

theorem deed {more : List Filing} (h : Filed filed s) (e : s.Deed more s') :
    Filed (filed ++ more) s' := by
  cases e with
  | opened registry settings names hdirectory =>
    rw [List.append_nil]
    exact h.opened registry settings names hdirectory
  | leased P =>
    rw [List.append_nil]
    exact h.leased P
  | aside hkept =>
    rw [List.append_nil]
    exact h.aside hkept
  | wrote g configuration hflush =>
    have hspec := (wp_iff.mp (wp_flushGenerator g configuration s)).1 _ _ hflush
    rcases hspec with ⟨hnone, -⟩ | ⟨v', hv, hwrote⟩
    · cases hnone
    · cases hv
      exact h.wrote (lt_of_flushGenerator hflush) hwrote

end Filed

theorem Chronicle.filed {filed : List Filing} (h : Chronicle first filed s)
    (hfirst : Filed [] first) : Filed filed s := by
  induction h with
  | start => exact hfirst
  | step h e ih => exact ih.deed e

/-! ### Commands -/

def Chronicled (first : Session) (filed : List Filing) (s : Session) : Prop :=
  ∃ more, Chronicle first (filed ++ more) s

namespace Chronicled

variable {filed : List Filing}

theorem deed {more : List Filing} (h : Chronicled first filed s) (e : s.Deed more s') :
    Chronicled first filed s' := by
  obtain ⟨sofar, h⟩ := h
  refine ⟨sofar ++ more, ?_⟩
  rw [← List.append_assoc]
  exact h.step e

theorem aside (h : Chronicled first filed s) (hkept : FilesKept s s') : Chronicled first filed s' :=
  h.deed (.aside hkept)

theorem apart (h : Chronicled first filed s) (hkept : ModulesKept s s') :
    Chronicled first filed s' :=
  h.aside (.of_eq hkept.namings hkept.generators hkept.pools hkept.directories)

theorem lease (P : PoolId) {act : GeneratorId → Attempt Session α}
    (hact : ∀ g, Maintains (Chronicled first filed) (act g)) :
    Maintains (Chronicled first filed) (withLease P Thread.main act) := by
  have hdequeue : Maintains (Chronicled first filed) (dequeue P Thread.main) := fun s h =>
    wp_const.mpr (h.deed (.leased P))
  have henqueue : ∀ lease, Maintains (Chronicled first filed) (enqueue P Thread.main lease) :=
      fun lease s h =>
        wp_const.mpr (h.aside (filesKept_setPool s P rfl))
  refine maintains_bind hdequeue fun lease => maintains_bind maintains_get fun mid => ?_
  exact maintains_bind (maintains_outcome (hact _)) fun _ =>
    maintains_bind (henqueue lease) fun _ => maintains_lift _

end Chronicled

theorem Chronicle.wp_flushContexts {filed : List Filing} (h : Chronicle first filed s)
    (q : PipelineId) (contexts : List ContextId) :
    (flushContexts q contexts).wp
      (fun modules s' => ∃ more, Chronicle first (filed ++ more) s' ∧ more.map (·.module) = modules)
      (Chronicled first filed) s := by
  induction contexts generalizing filed s with
  | nil =>
    refine ⟨[], ?_, rfl⟩
    rwa [List.append_nil]
  | cons c rest ih =>
    rw [flushContexts, wp_bind, wp_get]
    obtain ⟨hwritten, hrefused⟩ :=
      wp_iff.mp (wp_flushGenerator (s.contextGenerator c) (s.pipeline q).configuration s)
    have hstep : (flushGenerator (s.contextGenerator c) (s.pipeline q).configuration).wp
        (fun module mid => ∃ one, Chronicle first (filed ++ one) mid
          ∧ one.map (·.module) = module.toList)
        (Chronicled first filed) s := by
      refine wp_iff.mpr ⟨fun module mid hrun => ?_, fun fault mid hrun => ?_⟩
      · cases module with
        | none =>
          rcases hwritten none mid hrun with ⟨-, rfl⟩ | ⟨v, hv, -⟩
          · exact ⟨[], by rwa [List.append_nil], rfl⟩
          · cases hv
        | some v => exact ⟨[⟨_, v⟩], h.step (.wrote _ _ hrun), rfl⟩
      · obtain rfl := hrefused fault mid hrun
        exact ⟨[], by rwa [List.append_nil]⟩
    refine wp_step hstep (fun module mid hmid => ?_) fun _ hafter => hafter
    obtain ⟨one, hone, hmodule⟩ := hmid
    refine wp_step (ih hone) (fun modules after hafter => ?_) fun after hafter => ?_
    · obtain ⟨others, hothers, hmodules⟩ := hafter
      refine ⟨one ++ others, ?_, ?_⟩
      · rwa [← List.append_assoc]
      · rw [List.map_append, hmodule, hmodules]
    · obtain ⟨others, hothers⟩ := hafter
      exact ⟨one ++ others, by rwa [← List.append_assoc]⟩

theorem Chronicle.wp_flush {filed : List Filing} (h : Chronicle first filed s) (q : PipelineId) :
    (flush q).wp
      (fun modules s' => ∃ more, Chronicle first (filed ++ more) s' ∧ more.map (·.module) = modules)
      (Chronicled first filed) s := by
  have hnone : Chronicled first filed s := ⟨[], by rwa [List.append_nil]⟩
  unfold flush
  rw [wp_bind, wp_get, wp_bind, dequeueAll, wp_bind, ask, wp_bind, wp_get, wp_lift]
  refine ⟨fun found _ => ?_, fun _ _ => hnone⟩
  cases found with
  | none => exact hnone
  | some found =>
    let P := (s.pipeline q).pool
    have hkept : FilesKept s (s.setPool P { s.pool P with pool := found.2 }) :=
      filesKept_setPool s P rfl
    have htaken := h.step (.aside hkept)
    rw [List.append_nil] at htaken
    simp only [wp_bind, wp_modify, wp_pure, wp_outcome, enqueueAll]
    obtain ⟨hwritten, hfailed⟩ := wp_iff.mp (htaken.wp_flushContexts q found.1)
    rcases hrun :
      (flushContexts q found.1).start
      (s.setPool P { s.pool P with pool := found.2 }) with ⟨fault | modules, mid⟩
    · exact (hfailed fault mid hrun).aside (filesKept_setPool mid P rfl)
    · obtain ⟨more, hmore, hmodules⟩ := hwritten modules mid hrun
      have hreturned : FilesKept mid
          (mid.setPool P { mid.pool P with pool := (mid.pool P).pool.enqueueAll found.1 }) :=
          filesKept_setPool mid P rfl
      have hgiven := hmore.step (.aside hreturned)
      rw [List.append_nil] at hgiven
      exact ⟨more, hgiven, hmodules⟩

theorem Chronicle.flushed {filed : List Filing} {q : PipelineId} {modules : List WrittenModule}
    (h : Chronicle first filed s) (hflush : (flush q).start s = (.ok modules, s')) :
    ∃ more, Chronicle first (filed ++ more) s' ∧ more.map (·.module) = modules :=
  (wp_iff.mp (h.wp_flush q)).1 modules s' hflush

theorem lasting_chronicled {filed : List Filing} : Lasting fun _ => Chronicled first filed where
  aside := fun hkept _ _ h => h.apart hkept
  read := fun _ _ _ h => wp_const.mpr (h.aside (.of_eq rfl rfl rfl rfl))
  generate := fun g _ _ s h => wp_const.mpr (h.aside (filesKept_putWorkshop s g _))
  lease := fun _ _ hact => maintains_bind maintains_get fun _ => Chronicled.lease _ hact
  flush := fun q s h => by
    obtain ⟨sofar, h⟩ := h
    have hmore : ∀ {more s'}, Chronicle first (filed ++ sofar ++ more) s' →
        Chronicled first filed s' := fun hafter =>
      ⟨sofar ++ _, by rwa [← List.append_assoc]⟩
    exact wp_mono (h.wp_flush q) (fun _ _ hafter => hmore hafter.choose_spec.1) fun _ hafter =>
      hmore hafter.choose_spec
  cache := fun _ _ s _ h => h.apart (modulesKept_modify s _ fun _ => ⟨rfl, rfl, rfl⟩)
  addRows := fun s q _ h => h.apart (modulesKept_modify s q fun _ => ⟨rfl, rfl, rfl⟩)

theorem Chronicle.performWithin {filed : List Filing} (h : Chronicle first filed s) (cast : Cast)
    (depth : Nat) (c : Command) :
    ∃ more, Chronicle first (filed ++ more) ((Session.performWithin cast depth c).start s).2 :=
  wp_const.mp (maintains_performWithin lasting_chronicled [] depth c s ⟨[], by
    rwa [List.append_nil]⟩)

/-! ### Files -/

/-- The file has the text that was written to it for this module. -/
def Holds (s : Session) (r : Filing) : Prop :=
  (s.directory (s.place r).1).files.find? r.module.file = some r.module.text

/-- Pipelines of one directory do not come upon the same name. -/
def NamesApart (s : Session) : Prop :=
  ∀ n n' : NamingId, n.index < s.namings.size → n'.index < s.namings.size → n ≠ n' →
    (s.naming n).directory = (s.naming n').directory →
    ∀ k < (s.naming n).counter, ∀ k' < (s.naming n').counter, (s.naming n).fileAt k
      ≠ (s.naming n').fileAt k'

namespace Filed

variable {filed : List Filing}

theorem numbered_of_mem (h : Filed filed s) {r : Filing} (hr : r ∈ filed) :
    r.naming.index < s.namings.size ∧ ∃ k < (s.naming r.naming).counter,
    r.module.file = (s.naming r.naming).fileAt k :=
  h.numbered (r.naming, r.module.file) (List.mem_append_left _ (List.mem_map.mpr ⟨r, hr, rfl⟩))

theorem pairwise (h : Filed filed s) : filed.Pairwise fun r r' => r.naming = r'.naming →
    s.place r ≠ s.place r' := by
  have hrows : (filed.map fun r => (r.naming, r.module.file)).Nodup :=
    (List.nodup_append.mp h.nodup).1
  refine (List.pairwise_map.mp hrows).imp fun hne hsame hplace => hne ?_
  exact Prod.ext hsame (Prod.ext_iff.mp hplace).2

theorem place_ne (h : Filed filed s) (hapart : s.NamesApart) {r r' : Filing} (hr : r ∈ filed)
    (hr' : r' ∈ filed) (hne : r.naming ≠ r'.naming) : s.place r ≠ s.place r' := by
  intro hplace
  obtain ⟨hdirectory, hfile⟩ := Prod.ext_iff.mp hplace
  obtain ⟨hin, k, hk, hname⟩ := h.numbered_of_mem hr
  obtain ⟨hin', k', hk', hname'⟩ := h.numbered_of_mem hr'
  refine hapart _ _ hin hin' hne hdirectory k hk k' hk' ?_
  rw [← hname, ← hname']
  exact hfile

theorem nodup_places (h : Filed filed s) (hapart : s.NamesApart) : (filed.map s.place).Nodup := by
  refine List.pairwise_map.mpr (h.pairwise.imp_of_mem fun {r r'} hr hr' hsame => ?_)
  by_cases hnaming : r.naming = r'.naming
  · exact hsame hnaming
  · exact h.place_ne hapart hr hr' hnaming

/-- Only another pipeline can have written to the file since. -/
theorem holds (h : Filed filed s) {before after : List Filing} {r : Filing}
    (heq : filed = before ++ r :: after)
    (hothers : ∀ r' ∈ after, r'.naming ≠ r.naming → s.place r' ≠ s.place r) : s.Holds r := by
  refine h.stored before r after heq fun r' hr' => ?_
  by_cases hnaming : r'.naming = r.naming
  · have hpairs := (List.pairwise_cons.mp (List.pairwise_append.mp (heq ▸ h.pairwise)).2.1).1
    exact (hpairs r' hr' hnaming.symm).symm
  · exact hothers r' hr' hnaming

theorem start (hnamings : first.namings = #[]) (hpools : first.pools = #[])
    (hgenerators : first.generators = #[]) :
    Filed [] first := by
  have hnone : ∀ n : NamingId, ¬ n.index < first.namings.size := fun n => by
    rw [hnamings]
    exact Nat.not_lt_zero _
  have huse : first.inUse [] = [] := by
    rw [inUse, hgenerators]
    rfl
  refine ⟨fun n hn => ?_, fun n hn => absurd hn (hnone n), ?_, fun row hrow => ?_,
    fun before r after heq _ => ?_⟩
  · rw [hpools, Array.map_empty] at hn
    exact absurd hn (Array.not_mem_empty n)
  · rw [huse]
    exact List.nodup_nil
  · rw [huse] at hrow
    exact absurd hrow List.not_mem_nil
  · exact absurd heq (by simp)

end Filed

/-- From a session without pipelines on, commands take a chronicle, and a flush files the modules
that it returns. At each moment, no pipeline has written to the same place twice. A file has the
text that was written to it unless a module of another pipeline was written to the same place
later; and if the pipelines of one directory do not come upon the same name, then no place was
written to twice and each file has its text. -/
theorem flushed_files_stay (hnamings : first.namings = #[]) (hpools : first.pools = #[])
    (hgenerators : first.generators = #[]) :
    (∀ filed s, Chronicle first filed s → ∀ cast depth c, ∃ more,
      Chronicle first (filed ++ more) ((performWithin cast depth c).start s).2)
    ∧ (∀ filed s, Chronicle first filed s → ∀ q modules s', (flush q).start s = (.ok modules, s') →
      ∃ more,
      Chronicle first (filed ++ more) s' ∧ more.map (·.module) = modules)
    ∧ ∀ filed s, Chronicle first filed s →
      (filed.Pairwise fun r r' => r.naming = r'.naming → s.place r ≠ s.place r')
      ∧ (∀ before r after, filed = before ++ r :: after →
        (∀ r' ∈ after, r'.naming ≠ r.naming → s.place r' ≠ s.place r) → s.Holds r)
      ∧ (s.NamesApart → (filed.map s.place).Nodup ∧ ∀ r ∈ filed, s.Holds r) := by
  have hfirst := Filed.start hnamings hpools hgenerators
  refine ⟨fun _ _ h cast depth c => h.performWithin cast depth c, fun _ _ h _ _ _ hflush =>
    h.flushed hflush, fun filed s h => ?_⟩
  have hs := h.filed hfirst
  refine ⟨hs.pairwise, fun before r after heq hothers => hs.holds heq hothers, fun hapart =>
    ⟨hs.nodup_places hapart, ?_⟩⟩
  intro r hr
  obtain ⟨before, after, heq⟩ := List.append_of_mem hr
  refine hs.holds heq fun r' hr' hne => ?_
  exact hs.place_ne hapart (by rw [heq]; simp [hr']) hr hne

/-- The module that a flush writes first. -/
def flushedModule (q : PipelineId) (s : Session) : WrittenModule :=
  (((flush q).start s).1.toOption.getD []).headD default

theorem flush_of_length {q : PipelineId}
    (h : ((flush q).start s).1.toOption.map List.length = some 1) :
    (flush q).start s = (.ok [flushedModule q s], ((flush q).start s).2) := by
  rcases hrun : (flush q).start s with ⟨fault | modules, after⟩
  · rw [hrun] at h
    cases h
  · rw [hrun] at h
    obtain ⟨v, rfl⟩ := List.length_eq_one_iff.mp (Option.some.inj h)
    rw [flushedModule, hrun]
    rfl

/-- The session after the first pipeline has written its module. -/
def readyFlushed : Session := ((flush ⟨0⟩).start readyRequested).2

set_option maxRecDepth 10000 in
theorem flush_readyRequested :
    (flush ⟨0⟩).start readyRequested = (.ok [flushedModule ⟨0⟩ readyRequested], readyFlushed) :=
  flush_of_length (by decide +kernel)

theorem chronicle_readyFlushed :
    ∃ filed r, Chronicle readySession filed readyFlushed ∧ r ∈ filed
    ∧ r.module = flushedModule ⟨0⟩ readyRequested := by
  have hopened : Chronicle readySession [] readyPipeline :=
    Chronicle.start.step (.opened ⟨0⟩ {} ["recurring"] (by decide))
  obtain ⟨earlier, hrequested⟩ :=
    hopened.performWithin recurringCast nestingLimit (.assembled ⟨0⟩ firstTypeId)
  have hrequested : Chronicle readySession ([] ++ earlier) readyRequested := hrequested
  obtain ⟨one, hflushed, hone⟩ := hrequested.flushed flush_readyRequested
  obtain ⟨r, rfl, hr⟩ := List.map_eq_singleton_iff.mp hone
  exact ⟨_, r, hflushed, List.mem_append_right _ (List.mem_singleton_self r), hr⟩

set_option maxRecDepth 10000 in
/-- The only pipeline has written a module, and the file has its text. -/
theorem first_module_stays : ∃ r : Filing, r.module = flushedModule ⟨0⟩ readyRequested
    ∧ readyFlushed.Holds r := by
  obtain ⟨filed, r, hflushed, hr, hmodule⟩ := chronicle_readyFlushed
  have hsize : readyFlushed.namings.size = 1 := by decide +kernel
  have hapart : readyFlushed.NamesApart := fun n n' hn hn' hne => by
    rw [hsize] at hn hn'
    obtain ⟨n⟩ := n
    obtain ⟨n'⟩ := n'
    exact absurd (congrArg NamingId.mk ((Nat.lt_one_iff.mp hn).trans (Nat.lt_one_iff.mp hn').symm))
      hne
  obtain ⟨-, -, hfiles⟩ := flushed_files_stay (show readySession.namings = #[] from rfl) rfl rfl
  exact ⟨r, hmodule, ((hfiles filed readyFlushed hflushed).2.2 hapart).2 r hr⟩

/-- Whatever pipelines there are, no file is written to twice. -/
def FilesStayApart : Prop :=
  ∀ (first s : Session) filed, first.namings = #[] → first.pools = #[] → first.generators = #[] →
    Chronicle first filed s →
    (filed.map s.place).Nodup

/-- Another pipeline with the same settings is set up, and a proxy is requested of it. -/
def secondRequested : Session :=
  ((perform recurringCast (.assembled ⟨1⟩ firstTypeId)).start
    ((addPipeline ⟨0⟩ {} ⟨0⟩ ["recurring"]).start readyFlushed).2).2

def secondFlushed : Session := ((flush ⟨1⟩).start secondRequested).2

set_option maxRecDepth 10000 in
theorem flush_secondRequested :
    (flush ⟨1⟩).start secondRequested = (.ok [flushedModule ⟨1⟩ secondRequested], secondFlushed) :=
  flush_of_length (by decide +kernel)

theorem chronicle_secondFlushed {filed : List Filing}
    (h : Chronicle readySession filed readyFlushed) :
    ∃ more r, Chronicle readySession (filed ++ more ++ [r]) secondFlushed
    ∧ r.module = flushedModule ⟨1⟩ secondRequested := by
  have hroom : DirectoryId.index ⟨0⟩ < readyFlushed.directories.size := by decide +kernel
  have hopened := h.step (.opened ⟨0⟩ {} ["recurring"] hroom)
  rw [List.append_nil] at hopened
  obtain ⟨more, hrequested⟩ :=
    hopened.performWithin recurringCast nestingLimit (.assembled ⟨1⟩ firstTypeId)
  have hrequested : Chronicle readySession (filed ++ more) secondRequested := hrequested
  obtain ⟨one, hflushed, hone⟩ := hrequested.flushed flush_secondRequested
  obtain ⟨r, rfl, hr⟩ := List.map_eq_singleton_iff.mp hone
  exact ⟨more, r, hflushed, hr⟩

theorem directory_secondFlushed (n : NamingId) : (secondFlushed.naming n).directory = ⟨0⟩ := by
  have hsize : secondFlushed.namings.size = 2 := by decide +kernel
  rcases n with ⟨_ | _ | n⟩
  · decide +kernel
  · decide +kernel
  · have hout : secondFlushed.namings.size ≤ n + 1 + 1 := by omega
    rw [Session.naming, Array.getD_eq_getD_getElem?, Array.getElem?_eq_none hout]
    rfl

set_option maxRecDepth 10000 in
/-- The second pipeline writes to the file of the first one. -/
theorem not_filesStayApart : ¬ FilesStayApart := by
  intro hapart
  obtain ⟨filed, r, hflushed, hr, hmodule⟩ := chronicle_readyFlushed
  obtain ⟨more, r', hlast, hmodule'⟩ := chronicle_secondFlushed hflushed
  have hnodup := hapart readySession secondFlushed _ rfl rfl rfl hlast
  have hfile : (flushedModule ⟨0⟩ readyRequested).file = (flushedModule ⟨1⟩ secondRequested).file :=
    by decide +kernel
  have hplace : secondFlushed.place r = secondFlushed.place r' := by
    rw [place, place, directory_secondFlushed, directory_secondFlushed, hmodule, hmodule', hfile]
  rw [List.map_append] at hnodup
  have hrow : secondFlushed.place r ∈ (filed ++ more).map secondFlushed.place :=
    List.mem_map.mpr ⟨r, List.mem_append_left _ hr, rfl⟩
  exact (List.nodup_append.mp hnodup).2.2 _ hrow _ (List.mem_singleton_self _) hplace

end Session

end TypeLoom
