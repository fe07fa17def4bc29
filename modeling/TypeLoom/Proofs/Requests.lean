import TypeLoom.Proofs.Commands

/-!
# Answers to requests

What a request was answered stays in the cache and is answered from then on, whatever commands
follow, at whatever depth, until a request for the same identifier ends that was under way before.
-/

namespace TypeLoom

open Attempt

namespace Session

variable {cast : Cast} {p q : PipelineId} {id key : Identifier} {t : TypeId} {s s' : Session}

/-! ### Cached types -/

theorem find?_addRows {κ : Type} [DecidableEq κ] {key : κ} {t : TypeId} (more : List (κ × TypeId))
    {rows : Keyed κ TypeId} (h : rows.find? key = some t) :
    (Session.addRows rows more).find? key = some t := by
  induction more generalizing rows with
  | nil => exact h
  | cons row more ih =>
    unfold Session.addRows
    refine ih ?_
    split
    · exact h
    · rename_i hnew
      have hne : row.1 ≠ key := by
        intro heq
        rw [heq, Keyed.hasKey, h] at hnew
        exact hnew rfl
      rw [Keyed.find?_put_of_ne _ _ _ _ hne]
      exact h

theorem cached_cache (hp : p.index < s.pipelines.size) :
    (s.cache p id t).cached? p id = some t := by
  rw [cached?, cache, pipeline_modify, if_pos ⟨rfl, hp⟩]
  exact Keyed.find?_put_self _ _ _

theorem cached_cache_of_ne (hother : (q, key) ≠ (p, id)) (made : TypeId)
    (h : s.cached? p id = some t) :
    (s.cache q key made).cached? p id = some t := by
  rw [cached?, cache, pipeline_modify]
  split
  · rename_i hsame
    obtain ⟨rfl, -⟩ := hsame
    have hne : key ≠ id := fun heq => hother (by rw [heq])
    rw [Keyed.find?_put_of_ne _ _ _ _ hne]
    exact h
  · exact h

theorem blind_exists : Blind fun s => p.index < s.pipelines.size :=
  fun _ _ hkept h => Nat.lt_of_lt_of_le h hkept.size

theorem lasting_exists : Lasting fun _ s => p.index < s.pipelines.size where
  toSteady := blind_exists.steady
  cache := fun _ _ s made h => by simpa [cache] using h
  addRows := fun s q rows h => by simpa using h

/-- A request that begins while the row is there either finds it or is a request for another
identifier. -/
theorem lasting_cached : Lasting fun _ s => s.cached? p id = some t where
  toSteady := blind_cached.steady
  cache := by
    intro _ s₀ q key hrow hmiss s made h
    have hother : (q, key) ≠ (p, id) := by
      rintro ⟨⟩
      rw [hmiss] at hrow
      cases hrow
    exact cached_cache_of_ne hother made h
  addRows := by
    intro _ s q rows h
    rw [cached?, pipeline_modify]
    split
    · rename_i hsame
      obtain ⟨rfl, -⟩ := hsame
      exact find?_addRows rows h
    · exact h

/-! ### Answers -/

/-- What may happen after some moment of a run, inside other requests or outside of them:
commands, anything that leaves the caches alone, and the end of a request for another identifier
that was under way. -/
inductive Onward (cast : Cast) (p : PipelineId) (id : Identifier) (s : Session) : Session → Prop
  | refl : Onward cast p id s s
  | command {m : Session} (h : Onward cast p id s m) (depth : Nat) (c : Command) :
      Onward cast p id s ((performWithin cast depth c).start m).2
  | aside {m after : Session} (h : Onward cast p id s m) (hkept : CachesKept m after) :
    Onward cast p id s after
  | ended {m : Session} (h : Onward cast p id s m) (q : PipelineId)
    (key : Identifier) (made : TypeId)
      (hother : (q, key) ≠ (p, id)) : Onward cast p id s (m.cache q key made)

theorem Onward.cached (h : Onward cast p id s s') (hs : s.cached? p id = some t) :
    s'.cached? p id = some t := by
  induction h with
  | refl => exact hs
  | command h depth c ih =>
    exact wp_const.mp (maintains_performWithin lasting_cached [] depth c _ ih)
  | aside h hkept ih => exact hkept.cached ih
  | ended h q key made hother ih => exact cached_cache_of_ne hother made ih

/-- All that a request does between two commands of its participants is such a course of events. -/
theorem onward_assemble {a : Assembler} {depth : Nat} (ha : a.requests = performWithin cast depth)
    (key : Identifier) :
    Maintains (Scene.About (Onward cast p id s)) (a.assemble key) :=
  have hblind : Blind (Onward cast p id s) := fun _ _ hkept h => h.aside hkept
  Assembler.maintains_assemble [] (fun _ c _ h => wp_const.mpr (h.command depth c)) a ha
    hblind.steady key

theorem performWithin_hit (depth : Nat) (h : s.cached? p id = some t) :
    (performWithin cast (depth + 1) (.assembled p id)).start s = (.ok (.type t), s) := by
  rw [cached?] at h
  simp only [performWithin, performOver, getType, start_bind, start_get, h, start_pure]

theorem cached_of_answer {depth : Nat} (hp : p.index < s.pipelines.size)
    (h : (performWithin cast depth (.assembled p id)).start s = (.ok (.type t), s')) :
    s'.cached? p id = some t := by
  cases depth with
  | zero => cases h
  | succ depth =>
    simp only [performWithin, performOver, getType] at h
    obtain ⟨made, mid, h, hend⟩ := start_bind_ok.mp h
    cases hend
    obtain ⟨s₀, _, hget, h⟩ := start_bind_ok.mp h
    cases hget
    split at h
    · rename_i hhit
      cases h
      exact hhit
    · obtain ⟨made, mid, hmade, h⟩ := start_bind_ok.mp h
      cases h
      have hassemble : ∀ a : Assembler, a.requests = performWithin cast depth →
          Maintains (Scene.About fun s => p.index < s.pipelines.size) (a.assemble id) := fun a ha =>
        Assembler.maintains_assemble [] (fun gs => maintains_performWithin lasting_exists gs depth)
          a ha blind_exists.steady id
      have hmid := wp_ok (maintains_withAssembler [] cast blind_exists.steady.toCalm p
        (fun a ha => Scene.preserves_of_maintains (hassemble a ha)) _ hp) hmade
      exact cached_cache hmid

/-- A request was answered, at whatever depth. Then every later request for the identifier is
answered the same and finds it in the cache, until a request for the same identifier ends that
was under way. -/
theorem answer_stays {depth : Nat} {later : Session} (hp : p.index < s.pipelines.size)
    (h : (performWithin cast depth (.assembled p id)).start s = (.ok (.type t), s'))
    (hlater : Onward cast p id s' later) :
    later.cached? p id = some t
      ∧ ∀ depth, (performWithin cast (depth + 1) (.assembled p id)).start later
      = (.ok (.type t), later) := by
  have hcached := hlater.cached (cached_of_answer hp h)
  exact ⟨hcached, fun depth => performWithin_hit depth hcached⟩

/-! ### Requests for what is being assembled -/

def answered : Except Fault Reply → Datum
  | .ok (.type t) => .ofNat t.index
  | _ => .nothing

theorem eq_type_of_answered {reply : Except Fault Reply} {n : Nat}
    (h : (answered reply).nat? = some n) :
    reply = .ok (.type ⟨n⟩) := by
  unfold answered at h
  split at h
  · cases h
    rfl
  · cases h

/-- When it contributes for the first time, it requests the very type that is being assembled and
notes the answer. It leaves a mark on each proxy. -/
def recurring (p : PipelineId) : Participant where
  name := "recurring"
  participate := fun turn => do
    let s ← Contribution.take (.general .look)
    if s.notes.isEmpty then
      Contribution.take (.general (.note .nothing))
      let answer ← Contribution.take (.general (.send (.assembled p turn.id)))
      Contribution.take (.general (.note (answered answer)))
    let _ ← Contribution.take (.edit (.addField turn.proxy "mark" .object 0))
    return ()

def recurringCast : Cast := fun p => [recurring p]

/-- A pipeline on a fresh registry. -/
def onePipeline : Session :=
  let opened : Attempt Session PipelineId := do
    let r ← addRegistry
    let d ← addDirectory {}
    openPipeline r "default" 1 ⟨d, "Module", 1⟩ ["recurring"]
  (opened.start {}).2

/-- Of the first type, with the share of one participant. -/
def firstTypeId : Identifier := { requested := ⟨0⟩, parts := [none] }

/-- The request for it. -/
def recurringRun (s : Session) : Except Fault Reply × Session :=
  (perform recurringCast (.assembled ⟨0⟩ firstTypeId)).start s

set_option maxRecDepth 10000 in
/-- After the request, further requests are answered the same. -/
theorem recurring_answer_stays :
    (recurringRun onePipeline).2.cached? ⟨0⟩ firstTypeId = some ⟨4⟩
      ∧ recurringRun (recurringRun onePipeline).2
      = (.ok (.type ⟨4⟩), (recurringRun onePipeline).2) := by
  have hsize : onePipeline.pipelines.size = 1 := by decide +kernel
  have hanswer : (answered (recurringRun onePipeline).1).nat? = some 4 := by decide +kernel
  have hrun : recurringRun onePipeline = (.ok (.type ⟨4⟩), (recurringRun onePipeline).2) := by
    rw [← eq_type_of_answered hanswer]
  have hstays := answer_stays (by rw [hsize]; exact Nat.zero_lt_one) hrun .refl
  exact ⟨hstays.1, hstays.2 999⟩

/-- What the participant was answered while it contributed is what is cached when the whole
request has ended. -/
def NestedAnswersStay : Prop :=
  ∀ s : Session, s.notes.size = 0 → ∀ n, some n ∈ (recurringRun s).2.notes.toList.map Datum.nat? →
    (recurringRun s).2.cached? ⟨0⟩ firstTypeId = some ⟨n⟩

set_option maxRecDepth 10000 in
/-- The participant was answered with one type, and the outer request put another one in its
place. -/
theorem not_nestedAnswersStay : ¬ NestedAnswersStay := by
  intro hstay
  have hnone : onePipeline.notes.size = 0 := by decide +kernel
  have hnoted : some 3 ∈ (recurringRun onePipeline).2.notes.toList.map Datum.nat? := by
    decide +kernel
  have hcached : (recurringRun onePipeline).2.cached? ⟨0⟩ firstTypeId = some ⟨4⟩ := by
    decide +kernel
  have hnested := hstay onePipeline hnone 3 hnoted
  rw [hcached] at hnested
  exact absurd hnested (by decide)

end Session

end TypeLoom
