import TypeLoom.Proofs.Contexts
import TypeLoom.Proofs.Replacing
import TypeLoom.Proofs.Runs

/-!
# What requests lease

Each request gives back what it has leased, however it ends and however deep the requests of
participants go. So a supervisor who compares the leases before and after each request never has a
reason to step in, and between the requests of a pipeline its pool has no lease out and no more than
one context.
-/

namespace TypeLoom

open Attempt

theorem Pool.Solo.depth_eq {p : Pool} {n : Nat} (h : p.Solo n) : p.depth Thread.main = n := by
  cases h <;> rfl

theorem Pool.Solo.leases_eq {p : Pool} (h : p.Solo 0) : p.leases = [] := by
  cases h <;> rfl

namespace Session

variable {P : PoolId} {n : Nat} {gs : List GeneratorId} {s s' first : Session} {cast : Cast}
  {alarm requests : Requests}

/-! ### Commands -/

def Lent (P : PoolId) (gs : List GeneratorId) (s : Session) : Prop := Manned P gs.length s

theorem Lent.aside (h : Lent P gs s) (hkept : s.ModulesKept s') : Lent P gs s' :=
  h.of_same hkept.pools fun q => (hkept.lines q).2.2

theorem lent_lease {α : Type} (q : PipelineId) {act : GeneratorId → Attempt Session α}
    (hact : ∀ g, Maintains (Lent P (g :: gs)) (act g)) :
    Maintains (Lent P gs) (do withLease ((← get).pipeline q).pool Thread.main act) := by
  intro s h
  rw [wp_bind, wp_get, h.lines q, withLease]
  refine wp_step (wp_iff.mpr ⟨(wp_iff.mp h.wp_lease).1, fun fault mid hrun => ?_⟩)
    (fun lease mid hmid => ?_) fun _ h => h
  · rwa [(wp_iff.mp h.wp_lease).2 fault mid hrun]
  · obtain ⟨rfl, hmanned, -⟩ := hmid
    have hafter := wp_const.mp (hact (mid.contextGenerator (Pool.soloLease P).context) mid hmanned)
    rw [wp_bind, wp_get, wp_bind, wp_outcome]
    obtain ⟨pool, hend, m, hreturned, hlast⟩ := hafter.enqueue (Pool.soloLease P)
    obtain rfl := hlast rfl
    rw [← hend] at hreturned
    exact wp_step (wp_const.mpr hreturned) (fun _ after hafter => maintains_lift _ after hafter)
      fun _ hafter => hafter

/-- No command ends this: what was leased is given back. -/
theorem lasting_lent : Lasting (Lent P) where
  aside := fun hkept _ _ h => h.aside hkept
  read := fun _ _ => maintains_within (Q := fun _ => True) (fun _ _ => wp_const.mpr trivial)
    (fun _ _ => trivial)
    fun _ _ h _ => h.of_same rfl fun _ => rfl
  generate := fun _ _ _ _ h => wp_const.mpr (h.of_same rfl fun _ => rfl)
  lease := fun q _ hact => lent_lease q hact
  flush := by
    intro gs q s h
    obtain ⟨hflushed, hrefused⟩ := wp_iff.mp (h.wp_flush q)
    refine wp_iff.mpr ⟨fun written after hrun => ?_, fun fault after hrun =>
      hrefused fault after hrun ▸ h⟩
    obtain ⟨-, ⟨-, rfl⟩ | ⟨g, v, -, -, hwrote⟩⟩ := hflushed written after hrun
    · exact h
    · exact h.of_same hwrote.pools fun p => by
        rw [Session.pipeline, hwrote.pipelines, Session.pipeline]
  cache := fun _ _ s _ h => h.aside (modulesKept_modify s _ fun _ => ⟨rfl, rfl, rfl⟩)
  addRows := fun s q _ h => h.aside (modulesKept_modify s q fun _ => ⟨rfl, rfl, rfl⟩)

theorem entering_lent : Entering (Lent P) := by
  intro gs α q act act' _ h s hs
  rw [start_bind, start_bind, start_get]
  simp only [hs.lines q, withLease, start_bind]
  rcases hrun : (dequeue P Thread.main).start s with ⟨fault | lease, mid⟩
  · rfl
  · obtain ⟨-, hmanned, -⟩ := (wp_iff.mp hs.wp_lease).1 lease mid hrun
    simp only [start_get, start_outcome, h _ mid hmanned]

/-! ### Supervision -/

/-- Compares how many leases the thread holds before and after each request. When the numbers
differ, the alarm decides how to go on. -/
def supervise (P : PoolId) (alarm requests : Requests) : Requests := fun c => do
  let before := ((← get).pool P).pool.depth Thread.main
  let outcome ← (requests c).outcome
  if ((← get).pool P).pool.depth Thread.main = before then Attempt.lift outcome else alarm c

/-- Carries out a command where each request is supervised, at whatever depth. -/
def supervisedWithin (P : PoolId) (alarm : Requests) (cast : Cast) : Nat → Requests
  | 0 => supervise P alarm (performWithin cast 0)
  | depth + 1 => supervise P alarm (performOver cast (supervisedWithin P alarm cast depth))

/-- Nobody notices the supervision of a request that keeps the leases as they are. -/
theorem sameOn_supervise {c : Command} (hkept : Maintains (Manned P n) (requests c)) :
    SameOn (Manned P n) (supervise P alarm requests c) (requests c) := by
  intro s hs
  have hafter := wp_const.mp (hkept s hs)
  simp only [supervise, start_bind, start_get, start_outcome, hs.solo.depth_eq,
    hafter.solo.depth_eq, if_true, start_lift]

/-- The supervision of requests never comes to an alarm, whatever leases are held when they are
made. -/
theorem sameOn_supervisedWithin (depth : Nat) :
    (supervisedWithin P alarm cast depth).SameOn (Lent P) (performWithin cast depth) := by
  have hkept : ∀ depth gs c, Maintains (Lent P gs) (performWithin cast depth c) := fun depth gs c =>
    maintains_performWithin lasting_lent gs depth c
  refine ⟨?_, hkept depth⟩
  induction depth with
  | zero => exact fun gs c => sameOn_supervise (hkept 0 gs c)
  | succ depth ih =>
    intro gs c
    have hover : SameOn (Lent P gs) (performOver cast (supervisedWithin P alarm cast depth) c)
      (performWithin cast (depth + 1) c) :=
      sameOn_performOver lasting_lent entering_lent ⟨ih, hkept depth⟩ c
    exact (sameOn_supervise (hover.maintains (hkept (depth + 1) gs c))).trans hover

/-! ### The service of a pipeline -/

/-- What may become of a session from a moment on at which no request is under way: requests are
made one after the other, and between them anything happens that leaves the pools of the
pipelines alone. -/
inductive Service (first : Session) : Session → Prop
  | start : Service first first
  | request {s : Session} (h : Service first s) (cast : Cast) (depth : Nat) (c : Command) :
      Service first ((performWithin cast depth c).start s).2
  | beside {s s' : Session} (h : Service first s) (hpools : s'.pools = s.pools)
      (hlines : ∀ q, (s'.pipeline q).pool = (s.pipeline q).pool) : Service first s'

theorem Service.manned (h : Service first s) (hfirst : Manned P 0 first) : Manned P 0 s := by
  induction h with
  | start => exact hfirst
  | request h cast depth c ih =>
    have hkept : Maintains (Lent P []) (performWithin cast depth c) :=
      maintains_performWithin lasting_lent [] depth c
    exact wp_const.mp (hkept _ ih)
  | beside h hpools hlines ih => exact ih.of_same hpools hlines

/-- When no lease is out, a flush comes to the modules, and only writing them can fail. -/
theorem Manned.flush_eq (h : Manned P 0 s) (q : PipelineId) :
    ∃ contexts taken, (dequeueAll (s.pipeline q).pool Thread.main).start s = (.ok contexts, taken)
      ∧ ((flush q).start s).1 = ((flushContexts q contexts).start taken).1 := by
  obtain ⟨hall, -⟩ := h.solo.dequeueAll_free
  have htaken : (dequeueAll (s.pipeline q).pool Thread.main).start s
    = (.ok (s.pool P).pool.free, s.setPool P
      { s.pool P with pool := { (s.pool P).pool with free := [] } }) := by
    simp only [dequeueAll, ask, start_bind, start_get, start_lift, h.lines q, hall,
      start_modify, start_pure]
  refine ⟨_, _, htaken, ?_⟩
  simp only [flush, start_bind, start_get, htaken, start_outcome, enqueueAll,
    start_modify, start_lift]

/-- Each request of a pipeline, those of participants included, ends with the leases that were
out when it began. So between requests none is out, a flush is not refused for one, and the pool
makes one context at most, whatever its capacity is. -/
theorem requests_return_leases {s₀ : Session} {registry : RegistryId} {settings : Settings}
    {directory : DirectoryId} {names : List String} {p : PipelineId} (hpools : s₀.pools = #[])
    (hpipelines : s₀.pipelines = #[]) (hopen : (addPipeline registry settings directory names).start
      s₀ = (.ok p, first)) (hservice : Service first s) :
    (∀ alarm cast depth c, (supervisedWithin (first.pipeline p).pool alarm cast depth c).start s
      = (performWithin cast depth c).start s)
    ∧ (s.pool (first.pipeline p).pool).pool.leases = []
    ∧ (∀ q, ∃ contexts taken, (dequeueAll (s.pipeline q).pool Thread.main).start s
      = (.ok contexts, taken)
      ∧ ((flush q).start s).1 = ((flushContexts q contexts).start taken).1)
    ∧ (s.pool (first.pipeline p).pool).pool.created ≤ 1 := by
  obtain ⟨-, rfl⟩ := eq_withPipeline hpools hpipelines hopen
  have hfirst := manned_withPipeline s₀ registry settings directory
  have hmanned := hservice.manned hfirst
  rw [hfirst.lines p]
  refine ⟨fun alarm cast depth c => ?_, hmanned.solo.leases_eq, hmanned.flush_eq,
    hmanned.solo.created_le⟩
  exact (sameOn_supervisedWithin depth).same [] c s hmanned

/-- A request with a nested one, which begins while a lease is out. -/
theorem nested_request_returns_lease :
    (supervisedWithin ⟨0⟩ (fun _ => throw noFreeContext) recurringCast nestingLimit
      (.assembled ⟨0⟩ firstTypeId)).start readyPipeline
        = (perform recurringCast (.assembled ⟨0⟩ firstTypeId)).start readyPipeline
      ∧ (readyRequested.pool ⟨0⟩).pool.leases = []
          ∧ (readyRequested.pool ⟨0⟩).pool.created ≤ 1 := by
  have hopened : ((addPipeline ⟨0⟩ {} ⟨0⟩ ["recurring"]).start readySession).1 = .ok ⟨0⟩ := by rfl
  have hopen : (addPipeline ⟨0⟩ {} ⟨0⟩ ["recurring"]).start readySession
    = (.ok ⟨0⟩, readyPipeline) := by rw [← hopened]; rfl
  have hline : (readyPipeline.pipeline ⟨0⟩).pool = ⟨0⟩ := by rfl
  have hrequested : Service readyPipeline readyRequested :=
    .request .start recurringCast nestingLimit (.assembled ⟨0⟩ firstTypeId)
  obtain ⟨hsupervised, -⟩ := requests_return_leases rfl rfl hopen .start
  obtain ⟨-, hleases, -, hcreated⟩ := requests_return_leases rfl rfl hopen hrequested
  rw [hline] at hsupervised hleases hcreated
  exact ⟨hsupervised (fun _ => throw noFreeContext) recurringCast nestingLimit
    (.assembled ⟨0⟩ firstTypeId), hleases, hcreated⟩

end Session

end TypeLoom
