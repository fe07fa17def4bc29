import Mathlib.Data.List.Nodup
import Mathlib.Data.List.Perm.Subperm
import TypeLoom.Proofs.Commands
import TypeLoom.Proofs.Numerals

/-!
# Names of proxies

A pipeline counts the names that it tries for proxies, and the number stands at the end of the name.
So it never gives the same name twice, and a name that it gives is not listed in its registry at
that time: among one number more than there are listed types, one is free.
-/

namespace TypeLoom

open Attempt

/-! ### Numbers at the end -/

theorem takeWhile_isDigit_proxyName (start : String) (n : Nat) :
    (start ++ "_Proxy_" ++ toString n).toList.reverse.takeWhile Char.isDigit
    = (Nat.toDigits 10 n).reverse := by
  have hdigits : ∀ c ∈ (Nat.toDigits 10 n).reverse, c.isDigit = true := fun c hc =>
    Decimal.isDigit_of_mem_toDigits (List.mem_reverse.mp hc)
  have htext : (toString n).toList = Nat.toDigits 10 n := Nat.toList_repr
  rw [String.toList_append, String.toList_append, htext, List.reverse_append, List.reverse_append,
    List.takeWhile_append_of_pos hdigits]
  exact List.append_nil _

theorem number_of_proxyName {start start' : String} {n n' : Nat}
    (h : start ++ "_Proxy_" ++ toString n = start' ++ "_Proxy_" ++ toString n') : n = n' := by
  have hends := congrArg (fun text : String => text.toList.reverse.takeWhile Char.isDigit) h
  simp only [takeWhile_isDigit_proxyName, List.reverse_inj] at hends
  exact Decimal.toDigits_injective hends

namespace Session

variable {s mid s' : Session} {p q : PipelineId} {requested : TypeId}

def proxyFullName (s : Session) (requested : TypeId) (number : Nat) : String :=
  if (s.program.record requested).space.isEmpty then s.numberedProxyName requested number
  else (s.program.record requested).space ++ "." ++ s.numberedProxyName requested number

theorem proxyFullName_injective {n n' : Nat}
    (h : s.proxyFullName requested n = s.proxyFullName requested n') : n = n' := by
  unfold proxyFullName at h
  split at h
  · exact number_of_proxyName h
  · exact number_of_proxyName (String.append_right_inj _ |>.mp h)

/-- The name with this number is listed in the registry of the pipeline. -/
def Takes (s : Session) (p : PipelineId) (requested : TypeId) (number : Nat) : Prop :=
  (s.registry (s.pipeline p).registry).hasName (s.proxyFullName requested number) = true

/-- There are at least as many listed types as names that are taken. -/
theorem length_le_of_takes {numbers : List Nat} (hnodup : numbers.Nodup)
    (h : ∀ n ∈ numbers, s.Takes p requested n) :
    numbers.length ≤ (s.registry (s.pipeline p).registry).size := by
  have hnames : (numbers.map (s.proxyFullName requested)).Nodup :=
    List.Nodup.map (fun _ _ => proxyFullName_injective) hnodup
  have hlisted : numbers.map (s.proxyFullName requested)
      ⊆ (s.registry (s.pipeline p).registry).listings.toList.map (·.name) := by
    intro name hname
    obtain ⟨n, hn, rfl⟩ := List.mem_map.mp hname
    obtain ⟨l, hl, heq⟩ := Array.any_eq_true'.mp (h n hn)
    exact List.mem_map.mpr ⟨l, Array.mem_toList_iff.mpr hl, eq_of_beq heq⟩
  have hle := (hnames.subperm hlisted).length_le
  rwa [List.length_map, List.length_map, Array.length_toList] at hle

/-! ### Counting on -/

structure Counted (p : PipelineId) (s s' : Session) : Prop where
  program : s'.program = s.program
  registries : s'.registries = s.registries
  size : s'.pipelines.size = s.pipelines.size
  registry : (s'.pipeline p).registry = (s.pipeline p).registry
  others : ∀ q, q ≠ p → s'.pipeline q = s.pipeline q
  count : (s.pipeline p).proxyNames ≤ (s'.pipeline p).proxyNames

theorem Counted.refl (p : PipelineId) (s : Session) : Counted p s s :=
  ⟨rfl, rfl, rfl, rfl, fun _ _ => rfl, Nat.le_refl _⟩

theorem Counted.trans (h : Counted p s mid) (h' : Counted p mid s') : Counted p s s' where
  program := h'.program.trans h.program
  registries := h'.registries.trans h.registries
  size := h'.size.trans h.size
  registry := h'.registry.trans h.registry
  others := fun q hq => (h'.others q hq).trans (h.others q hq)
  count := Nat.le_trans h.count h'.count

theorem Counted.countsOn (h : Counted p s s') : s.CountsOn s' := fun q => by
  by_cases hq : q = p
  · subst hq
    exact h.count
  · exact Nat.le_of_eq (by rw [h.others q hq])

theorem Counted.numberedProxyName (h : Counted p s s') (n : Nat) :
    s'.numberedProxyName requested n = s.numberedProxyName requested n := by
  rw [Session.numberedProxyName, h.program, Session.numberedProxyName]

theorem Counted.takes (h : Counted p s s') (n : Nat) :
    s'.Takes p requested n ↔ s.Takes p requested n := by
  rw [Takes, Takes, proxyFullName, proxyFullName, h.numberedProxyName, Session.registry,
    Session.registry, h.registries, h.registry,
    h.program]

theorem Counted.eq_zero (h : Counted p s s') (hp : s.pipelines.size ≤ p.index) :
    (s'.pipeline p).proxyNames = 0 := by
  rw [pipeline_of_le (h.size ▸ hp)]
  rfl

theorem wp_count {post : PUnit → Session → Prop} {fail : Session → Prop}
    (h : ∀ s', Counted p s s' →
      (p.index < s.pipelines.size → (s'.pipeline p).proxyNames = (s.pipeline p).proxyNames + 1) →
      post ⟨⟩ s') :
    (editPipeline p fun line => { line with proxyNames := line.proxyNames + 1 }).wp
        post fail s := by
  rw [editPipeline, wp_modify]
  refine h _ ⟨rfl, rfl, Array.size_modify, ?_, fun q hq => ?_, ?_⟩ fun hp => ?_
  · rw [pipeline_modify]
    split <;> rfl
  · rw [pipeline_modify, if_neg fun hboth => hq hboth.1.symm]
  · rw [pipeline_modify]
    split
    · exact Nat.le_succ _
    · exact Nat.le_refl _
  · rw [pipeline_modify, if_pos ⟨rfl, hp⟩]

/-- A name has the number that was reached. It is free, or there were as many taken names as
tries. -/
theorem wp_proxyNameWithin (tries : Nat) :
    (proxyNameWithin p requested tries).wp
      (fun name s' => Counted p s s'
        ∧ name = s.numberedProxyName requested (s'.pipeline p).proxyNames
        ∧ (p.index < s.pipelines.size →
          (0 < tries → (s.pipeline p).proxyNames < (s'.pipeline p).proxyNames)
          ∧ (¬ s.Takes p requested (s'.pipeline p).proxyNames
            ∨ ∀ n ∈ List.range' ((s.pipeline p).proxyNames + 1) tries, s.Takes p requested n)))
      (fun _ => False) s := by
  induction tries generalizing s with
  | zero =>
    exact ⟨.refl p s, rfl, fun _ => ⟨fun h => absurd h (Nat.lt_irrefl 0), .inr fun n hn =>
      absurd hn List.not_mem_nil⟩⟩
  | succ tries ih =>
    rw [proxyNameWithin, wp_bind]
    refine wp_count fun mid hmid hcount => ?_
    rw [wp_bind, wp_get, wp_ite]
    refine ⟨fun htaken => ?_, fun hfree => ⟨hmid, hmid.numberedProxyName _, fun hp =>
      ⟨fun _ => ?_, .inl fun htakes => hfree ?_⟩⟩⟩
    · have htakes : s.Takes p requested (mid.pipeline p).proxyNames := (hmid.takes _).mp htaken
      refine wp_mono ih (fun name s' h => ?_) fun _ h => h
      obtain ⟨hafter, hname, hrest⟩ := h
      refine ⟨hmid.trans hafter, hname.trans (hmid.numberedProxyName _), fun hp => ?_⟩
      obtain ⟨-, hall⟩ := hrest (hmid.size ▸ hp)
      have hone := hcount hp
      have hle := hafter.count
      refine ⟨fun _ => by
        omega, hall.imp (fun hnot htaken => hnot ((hmid.takes _).mpr htaken)) fun hall n hn => ?_⟩
      rw [List.range'_succ, List.mem_cons] at hn
      rcases hn with rfl | hn
      · rwa [hone] at htakes
      · exact (hmid.takes n).mp (hall n (by rwa [hone]))
    · have hone := hcount hp
      omega
    · exact (hmid.takes _).mpr htakes

/-- A pipeline that is there gives a name with a new number that nothing is listed under. -/
theorem wp_proxyName :
    (proxyName p requested).wp
      (fun name s' => Counted p s s'
        ∧ name = s.numberedProxyName requested (s'.pipeline p).proxyNames
        ∧ (p.index < s.pipelines.size → (s.pipeline p).proxyNames < (s'.pipeline p).proxyNames
          ∧ ¬ s.Takes p requested (s'.pipeline p).proxyNames))
      (fun _ => False) s := by
  rw [proxyName, wp_bind, wp_get]
  refine wp_mono (wp_proxyNameWithin _) (fun name s' h => ?_) fun _ h => h
  obtain ⟨hcounted, hname, hrest⟩ := h
  refine ⟨hcounted, hname, fun hp => ?_⟩
  obtain ⟨hcount, hfree | hall⟩ := hrest hp
  · exact ⟨hcount (Nat.succ_pos _), hfree⟩
  · have hle := length_le_of_takes List.nodup_range' hall
    rw [List.length_range'] at hle
    exact absurd hle (Nat.not_succ_le_self _)

end Session

end TypeLoom
