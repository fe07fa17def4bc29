import TypeLoom.Assembly.Request
import TypeLoom.Proofs.Listing

/-!
# Pools on one thread

All requests are carried out on one thread. A pool that this thread alone has used makes one context
at most, whatever its capacity is: the context is free, or it is leased as often as requests are
nested. A flush writes the module of this context, if that has finished types, and lets the context
begin a module with the next name; a flush that fails leaves everything as it was.
-/

namespace TypeLoom

open Attempt

/-! ### Pools -/

namespace Pool

variable {p after : Pool} {n : Nat} {lease : Lease}

/-- Only the main thread has used the pool, and it holds so many leases. -/
inductive Solo : Nat → Pool → Prop
  | unused (id : PoolId) (capacity : Nat) : Solo 0 { id, capacity }
  | free (id : PoolId) (capacity : Nat) : Solo 0 { id, capacity, created := 1, free := [⟨id, 0⟩] }
  | leased (id : PoolId) (capacity depth : Nat) :
      Solo (depth + 1) { id, capacity, created := 1, leases := [(Thread.main, ⟨id, 0⟩, depth + 1)] }

def soloLease (id : PoolId) : Lease := ⟨⟨id, 0⟩, Thread.main⟩

theorem Solo.created_of_pos (h : p.Solo (n + 1)) : p.created = 1 := by
  cases h
  rfl

theorem Solo.created_le (h : p.Solo n) : p.created ≤ 1 := by
  cases h <;> simp

theorem Solo.dequeue (h : p.Solo n) (hd : p.dequeue Thread.main = some (lease, after)) :
    lease = soloLease p.id ∧ after.Solo (n + 1) ∧ after.id = p.id := by
  cases h with
  | unused id capacity =>
    simp only [Pool.dequeue, Keyed.find?, List.find?_nil, Option.map_none] at hd
    split at hd
    · cases hd
      exact ⟨rfl, .leased id capacity 0, rfl⟩
    · cases hd
  | free id capacity =>
    cases hd
    exact ⟨rfl, .leased id capacity 0, rfl⟩
  | leased id capacity depth =>
    cases hd
    exact ⟨rfl, .leased id capacity (depth + 1), rfl⟩

theorem Solo.release (h : p.Solo n) (hr : p.release lease = .ok after) :
    after.Solo (n - 1) ∧ after.id = p.id ∧ after.created = p.created := by
  cases h with
  | unused id capacity => cases hr
  | free id capacity => cases hr
  | leased id capacity depth =>
    unfold Pool.release at hr
    by_cases howner : lease.owner = Thread.main
    · simp only [Keyed.find?, howner, List.find?_cons, beq_self_eq_true, Option.map_some] at hr
      split at hr
      · cases hr
      · split at hr
        · rename_i hlast
          obtain rfl : depth = 0 := by omega
          cases hr
          exact ⟨.free id capacity, rfl, rfl⟩
        · rename_i hmore
          obtain ⟨depth, rfl⟩ : ∃ m, depth = m + 1 := ⟨depth - 1, by omega⟩
          cases hr
          exact ⟨.leased id capacity depth, rfl, rfl⟩
    · have hnone : Keyed.find? [(Thread.main, (⟨id, 0⟩ : ContextId), depth + 1)] lease.owner
          = none := by
        simp [Keyed.find?, Ne.symm howner]
      rw [hnone] at hr
      cases hr

theorem Solo.release_own (h : p.Solo (n + 1)) :
    ∃ after, p.release (soloLease p.id) = .ok after := by
  cases h with
  | leased id capacity depth =>
    simp only [Pool.release, Keyed.find?, soloLease, List.find?_cons, beq_self_eq_true,
      Option.map_some, ne_eq, not_true_eq_false,
      if_false]
    split
    · exact ⟨_, rfl⟩
    · exact ⟨_, rfl⟩

/-- Whatever is given back, the pool is in such a state again. -/
theorem Solo.enqueue (h : p.Solo n) (lease : Lease) :
    ∃ m, ((Pool.enqueue Thread.main lease).start p).2.Solo m
    ∧ ((Pool.enqueue Thread.main lease).start p).2.id = p.id
      ∧ ((Pool.enqueue Thread.main lease).start p).2.created = p.created
      ∧ (lease = soloLease p.id → m = n - 1) := by
  cases hr : p.release lease with
  | error f =>
    have hrefused : (Pool.enqueue Thread.main lease).start p = (.error f, p) := by
      simp only [Pool.enqueue, start_bind, start_get, start_lift, hr]
    rw [hrefused]
    refine ⟨n, h, rfl, rfl, fun hown => ?_⟩
    cases n with
    | zero => rfl
    | succ n =>
      obtain ⟨after, hafter⟩ := h.release_own
      rw [hown, hafter] at hr
      cases hr
  | ok after =>
    have htaken : ((Pool.enqueue Thread.main lease).start p).2 = after := by
      simp only [Pool.enqueue, start_bind, start_get, start_lift, hr, start_set]
      split <;> rfl
    obtain ⟨hsolo, hid, hcreated⟩ := h.release hr
    rw [htaken]
    exact ⟨n - 1, hsolo, hid, hcreated, fun _ => rfl⟩

theorem Solo.free_eq (h : p.Solo 0) : p.free = [] ∨ p.free = [⟨p.id, 0⟩] ∧ p.created = 1 := by
  cases h with
  | unused id capacity => exact .inl rfl
  | free id capacity => exact .inr ⟨rfl, rfl⟩

theorem Solo.dequeueAll_free (h : p.Solo 0) :
    p.dequeueAll Thread.main = .ok (some (p.free, { p with free := [] }))
    ∧ p.free.reverse = p.free := by
  cases h with
  | unused id capacity => exact ⟨by simp [Pool.dequeueAll, Keyed.hasKey, Keyed.find?], rfl⟩
  | free id capacity => exact ⟨by simp [Pool.dequeueAll, Keyed.hasKey, Keyed.find?], rfl⟩

theorem Solo.dequeueAll_leased (h : p.Solo (n + 1)) : ∃ f, p.dequeueAll Thread.main = .error f := by
  cases h with
  | leased id capacity depth => exact ⟨_, rfl⟩

end Pool

/-! ### Sessions -/

namespace Session

variable {P : PoolId} {n : Nat} {s s' : Session}

theorem pool_setPool (h : P.index < s.pools.size) (pool : GeneratorPool) :
    (s.setPool P pool).pool P = pool := by
  simp [setPool, Session.pool, Array.getD_eq_getD_getElem?, h]

/-- Every pipeline works with this one pool, of which the main thread holds so many leases. -/
structure Manned (P : PoolId) (n : Nat) (s : Session) : Prop where
  lines : ∀ q, (s.pipeline q).pool = P
  bound : P.index < s.pools.size
  id : (s.pool P).pool.id = P
  solo : (s.pool P).pool.Solo n
  contexts : (s.pool P).generators.size = (s.pool P).pool.created

theorem Manned.of_same (h : Manned P n s) (hpools : s'.pools = s.pools)
    (hlines : ∀ q, (s'.pipeline q).pool = (s.pipeline q).pool) : Manned P n s' := by
  have hpool : s'.pool P = s.pool P := by rw [Session.pool, hpools, Session.pool]
  refine ⟨fun q => (hlines q).trans (h.lines q), ?_, ?_, ?_, ?_⟩
  · rw [hpools]
    exact h.bound
  · rw [hpool]
    exact h.id
  · rw [hpool]
    exact h.solo
  · rw [hpool]
    exact h.contexts

theorem Manned.setPool {m : Nat} (h : Manned P n s) {pool : GeneratorPool} (hid : pool.pool.id = P)
    (hsolo : pool.pool.Solo m) (hcontexts : pool.generators.size = pool.pool.created) :
    Manned P m (s.setPool P pool) := by
  have hpool := pool_setPool h.bound pool
  refine ⟨h.lines, ?_, ?_, ?_, ?_⟩
  · rw [Session.setPool, Array.size_setIfInBounds]
    exact h.bound
  · rw [hpool]
    exact hid
  · rw [hpool]
    exact hsolo
  · rw [hpool]
    exact hcontexts

/-- The session after the pool has made a context, which was leased at once. -/
def withContext (s : Session) (P : PoolId) (pool : Pool) : Session :=
  let before := s.pool P
  let naming := s.naming before.naming
  let made : Generator :=
    { registry := before.registry, naming := before.naming, moduleName := naming.name }
  { s with
    namings := s.namings.setIfInBounds before.naming.index
      { naming with counter := naming.counter + 1 }
    generators := s.generators.push made
    pools := s.pools.setIfInBounds P.index
      { before with pool, generators := before.generators.push ⟨s.generators.size⟩ } }

theorem Manned.wp_dequeue (h : Manned P n s) {post : Lease → Session → Prop} {fail : Session → Prop}
    (hfail : fail s) (hagain : ∀ pool : Pool, pool.Solo (n + 1) → pool.id = P →
      (s.pool P).generators.size = 1 →
      post (Pool.soloLease P) (s.setPool P { s.pool P with pool }))
    (hnew : ∀ pool : Pool, pool.Solo (n + 1) → pool.id = P → (s.pool P).generators.size = 0 →
      post (Pool.soloLease P) (s.withContext P pool)) :
    (dequeue P Thread.main).wp post fail s := by
  unfold dequeue
  rw [wp_bind, wp_get]
  split
  · exact hfail
  · rename_i lease pool hpool
    obtain ⟨rfl, hsolo, hid⟩ := h.solo.dequeue hpool
    rw [h.id] at hid ⊢
    have hcreated := hsolo.created_of_pos
    rw [wp_bind, wp_get, wp_bind, wp_modify, hcreated]
    by_cases hzero : (s.pool P).generators.size < 1
    · rw [if_pos hzero]
      simp only [addGenerator, nextModuleName, wp_bind, wp_get, wp_modify, wp_pure]
      have hstate := hnew pool hsolo hid (by omega)
      have hpool := pool_setPool h.bound { s.pool P with pool }
      simp only [Session.pool] at hpool
      simp only [withContext, Session.setPool, Session.pool, Session.naming,
        Array.setIfInBounds_setIfInBounds] at hstate hpool ⊢
      rw [hpool]
      exact hstate
    · rw [if_neg hzero]
      have hone : (s.pool P).generators.size = 1 := by
        have hcontexts := h.contexts
        have hsmall := h.solo.created_le
        omega
      exact hagain pool hsolo hid hone

/-- Whatever is given back; what was leased last ends the last lease. -/
theorem Manned.enqueue (h : Manned P n s) (lease : Lease) :
    ∃ pool, ((enqueue P Thread.main lease).start s).2 = s.setPool P { s.pool P with pool }
      ∧ ∃ m, Manned P m (s.setPool P { s.pool P with pool })
      ∧ (lease = Pool.soloLease P → m = n - 1) := by
  obtain ⟨m, hsolo, hid, hcreated, hown⟩ := h.solo.enqueue lease
  rw [h.id] at hid hown
  exact ⟨_, rfl, m, h.setPool hid hsolo (h.contexts.trans hcreated.symm), hown⟩

/-! ### Modules that are written -/

variable {mid : Session} {g : GeneratorId}

/-- The module of a generator was written, and the next one has begun. -/
structure Wrote (g : GeneratorId) (s : Session) (v : WrittenModule) (s' : Session) : Prop where
  text : ∃ header, Artifact.encode s.program header (s.generatedTypes g) = .ok v.text
  file : v.file = (s.generator g).moduleName ++ ".xml"
  program : s.program.Prepares s'.program
  registries : s'.registries = s.registries
  directories : s'.directories
      = s.directories.modify (s.naming (s.generator g).naming).directory.index fun dir =>
    { dir with files := dir.files.put v.file v.text }
  namings : let naming := s.naming (s.generator g).naming
    s'.namings = s.namings.setIfInBounds (s.generator g).naming.index
    { naming with counter := naming.counter + 1 }
  generators : s'.generators = s.generators.setIfInBounds g.index
    { s.generator g with moduleName := (s.naming (s.generator g).naming).name, types := #[] }
  pools : s'.pools = s.pools
  pipelines : s'.pipelines = s.pipelines

theorem wp_flushGenerator (g : GeneratorId) (configuration : String) (s : Session) :
    (flushGenerator g configuration).wp
      (fun written s' => (written = none ∧ s' = s) ∨ ∃ v, written = some v ∧ s.Wrote g v s')
      (fun s' => s' = s) s := by
  unfold flushGenerator
  rw [wp_bind, wp_get, wp_ite]
  refine ⟨fun _ => .inl ⟨rfl, rfl⟩, fun _ => ?_⟩
  have hrest : (do
      let text ← Attempt.lift (Artifact.encode s.program ⟨moduleId, (s.generator g).moduleName,
        configuration⟩ (s.generatedTypes g))
      writeFile (s.naming (s.generator g).naming).directory ((s.generator g).moduleName ++ ".xml")
        text
      startModule g
      return some (⟨(s.generator g).moduleName ++ ".xml", text⟩ : WrittenModule) :
        Attempt Session _).wp
      (fun written s' => (written = none ∧ s' = s) ∨ ∃ v, written = some v
          ∧ s.Wrote g v s') (fun s' => s' = s) s := by
    rw [wp_bind, wp_lift]
    refine ⟨fun text htext => ?_, fun _ _ => rfl⟩
    simp only [writeFile, startModule, nextModuleName, wp_bind, wp_ite, wp_throw, wp_pure,
      wp_get, wp_modify]
    refine ⟨fun _ => trivial, fun _ => .inr ⟨_, rfl, ⟨_, htext⟩, rfl, ?_, rfl, rfl,
      rfl, rfl, rfl, rfl⟩⟩
    exact Universe.prepares_drop _ _
  rw [wp_ite]
  refine ⟨fun _ => ?_, fun _ => hrest⟩
  rw [wp_bind, wp_throw]

/-! ### Flushes -/

theorem setPool_pool (s : Session) (P : PoolId) : s.setPool P (s.pool P) = s := by
  have hsame : s.pools.setIfInBounds P.index (s.pools.getD P.index default) = s.pools := by
    apply Array.ext_getElem?
    intro i
    rw [Array.getElem?_setIfInBounds, Array.getD_eq_getD_getElem?]
    split
    · rename_i hi
      subst hi
      split
      · rename_i hlt
        rw [Array.getElem?_eq_getElem hlt, Option.getD_some]
      · rename_i hge
        rw [Array.getElem?_eq_none (Nat.le_of_not_lt hge)]
    · rfl
  rw [setPool, Session.pool, hsame]

theorem setPool_setPool (s : Session) (P : PoolId) (pool pool' : GeneratorPool) :
    (s.setPool P pool).setPool P pool' = s.setPool P pool' := by
  simp only [setPool, Array.setIfInBounds_setIfInBounds]

theorem Wrote.restore {v : WrittenModule} {pool : GeneratorPool}
    (h : (s.setPool P pool).Wrote g v mid) :
    s.Wrote g v (mid.setPool P (s.pool P)) where
  text := h.text
  file := h.file
  program := h.program
  registries := h.registries
  directories := h.directories
  namings := h.namings
  generators := h.generators
  pools := by
    have hback := congrArg Session.pools (setPool_setPool s P pool (s.pool P))
    rw [setPool_pool] at hback
    rw [← hback, Session.setPool, h.pools]
    rfl
  pipelines := h.pipelines

/-- The contexts of the pool are taken and given back, and then the pool is as it was. -/
theorem Manned.wp_flush (h : Manned P n s) (q : PipelineId) :
    (flush q).wp
      (fun written s' => n = 0 ∧ (written = [] ∧ s' = s
        ∨ ∃ g v, (s.pool P).generators = #[g] ∧ written = [v] ∧ s.Wrote g v s'))
      (fun s' => s' = s) s := by
  unfold flush
  rw [wp_bind, wp_get, wp_bind, h.lines, dequeueAll, wp_bind, ask, wp_bind, wp_get, wp_lift]
  cases n with
  | succ n =>
    obtain ⟨f, hf⟩ := h.solo.dequeueAll_leased
    rw [hf]
    exact ⟨fun _ hv => (nomatch hv), fun _ _ => rfl⟩
  | zero =>
    obtain ⟨hall, hreverse⟩ := h.solo.dequeueAll_free
    rw [hall]
    refine ⟨fun found hfound => ?_, fun f hf => nomatch hf⟩
    obtain rfl := (Except.ok.inj hfound).symm
    let before := s.pool P
    let taken := s.setPool P { before with pool := { before.pool with free := [] } }
    have hgiven : ∀ mid : Session, mid.pools = taken.pools →
        mid.setPool P { mid.pool P with pool := (mid.pool P).pool.enqueueAll before.pool.free }
        = mid.setPool P before := by
      intro mid hmid
      have hpool : mid.pool P = taken.pool P := by rw [Session.pool, hmid, Session.pool]
      have hfree : before.pool.free.reverse ++ [] = before.pool.free := by
        rw [List.append_nil, hreverse]
      rw [hpool, pool_setPool h.bound]
      simp only [Pool.enqueueAll, hfree]
    have hback : taken.setPool P before = s := by rw [setPool_setPool, setPool_pool]
    simp only [wp_bind, wp_modify, wp_pure, wp_outcome, enqueueAll]
    show (Attempt.lift ((flushContexts q before.pool.free).start taken).1).wp _ _ _
    rcases h.solo.free_eq with hnone | ⟨hone, hcreated⟩
    · have hstart : (flushContexts q before.pool.free).start taken = (.ok [], taken) := by
        rw [show before.pool.free = [] from hnone]
        rfl
      rw [hstart, hgiven taken rfl, hback]
      exact ⟨trivial, .inl ⟨rfl, rfl⟩⟩
    · obtain ⟨g, hg⟩ : ∃ g, before.generators = #[g] :=
        Array.size_eq_one_iff.mp (h.contexts.trans hcreated)
      have hgenerator : taken.contextGenerator ⟨P, 0⟩ = g := by
        rw [contextGenerator, pool_setPool h.bound]
        show before.generators.getD 0 default = g
        rw [hg]
        rfl
      have hcontexts : (flushContexts q before.pool.free).wp
          (fun written mid => written = [] ∧ mid = taken ∨ ∃ v, written = [v] ∧ taken.Wrote g v mid)
          (fun mid => mid = taken) taken := by
        rw [hone, h.id, flushContexts, wp_bind, wp_get, hgenerator]
        refine wp_step (wp_flushGenerator g _ taken) (fun written mid hmid => ?_) fun _ hmid => hmid
        rw [flushContexts, wp_bind, wp_pure, wp_pure]
        rcases hmid with ⟨rfl, rfl⟩ | ⟨v, rfl, hwrote⟩
        · exact .inl ⟨rfl, rfl⟩
        · exact .inr ⟨v, rfl, hwrote⟩
      obtain ⟨hwritten, hfailed⟩ := wp_iff.mp hcontexts
      rcases hrun : (flushContexts q before.pool.free).start taken with ⟨f | written, mid⟩
      · obtain rfl := hfailed f mid hrun
        rw [hgiven taken rfl, hback]
        exact rfl
      · rcases hwritten written mid hrun with ⟨rfl, rfl⟩ | ⟨v, rfl, hwrote⟩
        · rw [hgiven taken rfl, hback]
          exact ⟨trivial, .inl ⟨rfl, rfl⟩⟩
        · rw [hgiven mid hwrote.pools]
          exact ⟨trivial, .inr ⟨g, v, hg, rfl, hwrote.restore⟩⟩

end Session

end TypeLoom
