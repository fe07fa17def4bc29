import TypeLoom.Assembly.Assemble
import TypeLoom.Proofs.Chains
import TypeLoom.Proofs.TypedHeaps

/-!
# Stamped static fields

A type initializer gives a static field of its own type a constant. If no other expression of the
program stores anything else into that field, the field holds the constant from the moment at which
the initializer has finished, in every run and however the program grows in between. Nothing but the
expressions of the program sees to that: a store looks at the signature of a field and never at its
flags.
-/

namespace TypeLoom

open Attempt Watching Evaluation

/-! ### Programs -/

namespace Universe

/-- What the static value of a field is filed under. -/
def cell (u : Universe) (f : FieldId) : TypeId × Token := (f.owner, (u.field f).token)

/-- Wherever an expression of the program stores into the cell, it stores this constant. -/
def StoresOnly (u : Universe) (cell : TypeId × Token) (v : Value) : Prop :=
  ∀ m body, (u.method m).body = some body → ∀ receiver g value,
    .store receiver (.member g) value ∈ body.nodes →
    u.cell g = cell → value = .constant v

/-- The expression itself stores nothing else than the constant into the cell. -/
def respects (u : Universe) (cell : TypeId × Token) (v : Value) : Expr → Bool
  | .store _ (.member g) (.constant w) => u.cell g != cell || w == v
  | .store _ (.member g) _ => u.cell g != cell
  | _ => true

theorem respects_store {u : Universe} {cell : TypeId × Token} {v : Value} {receiver : Option Expr}
    {g : FieldId} {value : Expr} :
    u.respects cell v (.store receiver (.member g) value) = true ↔
    (u.cell g = cell → value = .constant v) := by
  cases value <;> simp [respects, imp_iff_not_or]

instance (u : Universe) (cell : TypeId × Token) (v : Value) : Decidable (u.StoresOnly cell v) :=
  decidable_of_iff (∀ m ∈ u.methodIds, ∀ body ∈ (u.method m).body, ∀ e ∈ body.nodes,
      u.respects cell v e = true) <| by
    constructor
    · intro h m body hbody receiver g value hin
      have hm : (u.method? m).isSome := by
        rw [method] at hbody
        cases hfound : u.method? m with
        | some r => rfl
        | none => rw [hfound] at hbody; cases hbody
      exact respects_store.mp (h m (u.mem_methodIds hm) body hbody _ hin)
    · intro h m _ body hbody e hin
      cases e with
      | store receiver target value =>
        cases target with
        | member g => exact respects_store.mpr (h m body hbody receiver g value hin)
        | draft _ => rfl
      | _ => rfl

/-- The type initializer stores the constant into a static field of its type, and no expression
stores anything else there. -/
structure Stamps (u : Universe) (f : FieldId) (v : Value) : Prop where
  only : u.StoresOnly (u.cell f) v
  initializer : ∃ m items, (u.record f.owner).initializer = some m
    ∧ (u.method m).body = some (.block items)
    ∧ Expr.storeStatic (.member f) (.constant v) ∈ items

end Universe

/-! ### Heaps -/

namespace Heap

/-- The cell holds no other value than this one, and it holds this one if that is settled or the
type is initialized. -/
structure Stamped (h : Heap) (cell : TypeId × Token) (v : Value) (settled : Prop) : Prop where
  only : ∀ w, h.statics.find? cell = some w → w = v
  ready : settled ∨ h.isInitialized cell.1 = true → h.statics.find? cell = some v

variable {h : Heap} {cell : TypeId × Token} {v : Value} {settled : Prop}

theorem Stamped.of_value (hvalue : h.statics.find? cell = some v) : h.Stamped cell v settled :=
  ⟨fun _ hw => Option.some.inj (hw.symm.trans hvalue), fun _ => hvalue⟩

theorem Stamped.value (hs : h.Stamped cell v True) : h.statics.find? cell = some v :=
  hs.ready (.inl trivial)

theorem Stamped.settle (hs : h.Stamped cell v True) : h.Stamped cell v settled := .of_value hs.value

theorem Stamped.of_eq (hs : h.Stamped cell v settled) {after : Heap}
    (hstatics : after.statics = h.statics) (hinitialized : after.initialized = h.initialized) :
    after.Stamped cell v settled where
  only := hstatics ▸ hs.only
  ready := by
    rw [hstatics, isInitialized, hinitialized]
    exact hs.ready

theorem Stamped.markInitialized {t : TypeId} (hs : h.Stamped cell v (settled ∨ t = cell.1)) :
    (h.markInitialized t).Stamped cell v settled where
  only := hs.only
  ready := fun hready => by
    refine hs.ready ?_
    rcases hready with hsettled | hinitialized
    · exact .inl (.inl hsettled)
    · rcases List.mem_cons.mp (List.contains_iff_mem.mp hinitialized) with heq | hold
      · exact .inl (.inr heq.symm)
      · exact .inr (List.contains_iff_mem.mpr hold)

theorem find?_setStatic (u : Universe) (h : Heap) (f : FieldId) (v : Value) :
    (h.setStatic u f.owner f v).statics.find? (u.cell f) = some v := Keyed.find?_put_self _ _ _

/-- Another cell may get any value, this one only its own. -/
theorem Stamped.setStatic {u : Universe} {g : FieldId} {w : Value} (hs : h.Stamped cell v settled)
    (hw : u.cell g = cell → w = v) :
    (h.setStatic u g.owner g w).Stamped cell v settled := by
  by_cases hcell : u.cell g = cell
  · rw [hw hcell, ← hcell]
    exact .of_value (find?_setStatic u h g v)
  · have hkept : (h.setStatic u g.owner g w).statics.find? cell = h.statics.find? cell :=
      Keyed.find?_put_of_ne _ _ _ _ hcell
    exact ⟨hkept ▸ hs.only, fun hready => hkept.trans (hs.ready hready)⟩

theorem storeSlot_aside {u : Universe} {o : ObjectRef} {f : FieldId} {value : Value} {after : Heap}
    (hstore : h.storeSlot u o f value = .ok after) :
    after.statics = h.statics ∧ after.initialized = h.initialized := by
  unfold storeSlot at hstore
  split at hstore
  · cases hstore
  split at hstore
  · cases hstore
  cases hstore
  exact ⟨rfl, rfl⟩

end Heap

/-! ### Evaluations -/

section Evaluations

variable {ω α : Type} {u : Universe} {watch : Occurrence → ω → ω} {f : FieldId} {v : Value}
  {settled : Prop}
  {calls below : Calls ω} {frame : Frame} {s : Watched ω}

/-- However the evaluation ends, a stamped field stays stamped. -/
def KeepsStamp (u : Universe) (f : FieldId) (v : Value) (settled : Prop) (act : Watching ω α) :
    Prop :=
  Maintains (fun s => s.heap.Stamped (u.cell f) v settled) act

def Stamping (u : Universe) (f : FieldId) (v : Value) (settled : Prop) (act : Watching ω α) :
    Prop :=
  ∀ s, s.heap.Stamped (u.cell f) v settled → act.wp (fun _ s => s.heap.Stamped (u.cell f) v True)
    (fun s => s.heap.Stamped (u.cell f) v settled) s

theorem congruent_keepsStamp (ω : Type) (u : Universe) (f : FieldId) (v : Value) (settled : Prop) :
    @Congruent ω ω fun act _ => KeepsStamp u f v settled act where
  lift := fun result => maintains_lift result
  bind := fun hact hnext => maintains_bind hact hnext

theorem keepsStamp_heap : KeepsStamp u f v settled (heap : Watching ω Heap) := fun _ h => h

theorem keepsStamp_note (o : Occurrence) : KeepsStamp u f v settled (note watch o) := fun _ h => h

structure Calls.KeepStamp (u : Universe) (f : FieldId) (v : Value) (calls : Calls ω) : Prop where
  invoke : ∀ settled m this arguments, KeepsStamp u f v settled (calls.invoke m this arguments)
  initialized : ∀ settled t, KeepsStamp u f v settled (calls.initialized t)

theorem relatedButStatics_keepsStamp (hcalls : calls.KeepStamp u f v) (settled : Prop) :
    RelatedButStatics u watch watch (fun act _ => KeepsStamp u f v settled act) calls calls where
  invoke := hcalls.invoke settled
  make := fun c arguments => by
    have hnew : ∀ t, KeepsStamp u f v settled (newObject u t : Watching ω _) :=
      fun t _ hs => hs.of_eq rfl rfl
    refine maintains_bind (maintains_lift _) fun t =>
      maintains_bind (hcalls.initialized settled t) fun _ => ?_
    refine maintains_bind (keepsStamp_note _) fun _ => maintains_bind (hnew t) fun o => ?_
    exact maintains_bind (hcalls.invoke settled c (some o) arguments) fun _ => maintains_pure _
  readSlot := fun _ _ => maintains_bind keepsStamp_heap fun _ => maintains_lift _
  writeSlot := fun o g value _ s hs => by
    rw [writeSlot, wp_bind, wp_heap, wp_bind, wp_lift]
    refine ⟨fun after hstore => ?_, fun _ _ => hs⟩
    obtain ⟨hstatics, hinitialized⟩ := Heap.storeSlot_aside hstore
    exact hs.of_eq hstatics hinitialized
  readStatic := fun g => by
    refine maintains_bind (maintains_lift _) fun owner =>
      maintains_bind (hcalls.initialized settled owner) fun _ => ?_
    exact maintains_bind (keepsStamp_note _) fun _ => maintains_bind keepsStamp_heap fun _ =>
      maintains_pure _

theorem keepsStamp_writeStatic (hcalls : calls.KeepStamp u f v) {g : FieldId} {w : Value}
    (hw : u.cell g = u.cell f → w = v) :
    KeepsStamp u f v settled (writeStatic u watch calls g w) := by
  refine maintains_lift_bind _ fun owner howner => ?_
  obtain ⟨-, -, rfl⟩ := staticOwnerFor_ok howner
  refine maintains_bind (hcalls.initialized settled g.owner) fun _ =>
    maintains_bind (keepsStamp_note _) fun _ => ?_
  exact fun s hs => hs.setStatic hw

/-- An expression whose stores into the field are of the constant keeps it stamped. -/
theorem keepsStamp_evaluate (hcalls : calls.KeepStamp u f v) {e : Expr}
    (honly : ∀ receiver g value, .store receiver (.member g) value ∈ e.nodes → u.cell g = u.cell f →
      value = .constant v) :
    KeepsStamp u f v settled (evaluate u watch calls frame e) := by
  have hrelated : RelatedButStatics u watch watch (fun act _ => KeepsStamp u f v settled act) calls
    calls :=
    relatedButStatics_keepsStamp hcalls settled
  refine related_evaluate_of_stores (congruent_keepsStamp ω u f v settled) hrelated e fun receiver
    target value hin g htarget hvalue => ?_
  obtain rfl : target = .member g := by
    cases target with
    | member g' =>
      rw [requireField] at htarget
      split at htarget <;> cases htarget
      rfl
    | draft h => cases htarget
  by_cases hcell : u.cell g = u.cell f
  · obtain rfl := honly receiver g value hin hcell
    rw [evaluate, pure_bind]
    exact maintains_bind (keepsStamp_writeStatic hcalls fun _ => rfl) fun _ => maintains_pure _
  · exact maintains_bind hvalue fun w => maintains_bind (keepsStamp_writeStatic hcalls fun h =>
      absurd h hcell) fun _ => maintains_pure _

theorem keepsStamp_block {items : List Expr}
    (hitems : ∀ e ∈ items, KeepsStamp u f v settled (evaluate u watch calls frame e))
    (last : Value) : KeepsStamp u f v settled (evaluateBlock u watch calls frame last items) := by
  induction items generalizing last with
  | nil =>
    rw [evaluateBlock]
    exact maintains_pure last
  | cons item items ih =>
    obtain ⟨hitem, hrest⟩ := List.forall_mem_cons.mp hitems
    rw [evaluateBlock]
    exact maintains_bind hitem fun w => ih hrest w

/-- A list of expressions that has the store of the constant among them stamps the field. -/
theorem stamping_block (hcalls : calls.KeepStamp u f v) {items : List Expr}
    (honly : ∀ receiver g value, .store receiver (.member g) value ∈ Expr.nodesAll items →
      u.cell g = u.cell f →
      value = .constant v)
    (hstamp : Expr.storeStatic (.member f) (.constant v) ∈ items) (last : Value) :
    Stamping u f v settled (evaluateBlock u watch calls frame last items) := by
  have hkeeps : ∀ settled, ∀ e ∈ items, KeepsStamp u f v settled (evaluate u watch calls frame e) :=
      fun settled e he =>
        keepsStamp_evaluate hcalls fun receiver g value hin =>
          honly receiver g value (Expr.mem_nodesAll he hin)
  clear honly
  induction items generalizing last with
  | nil => exact absurd hstamp List.not_mem_nil
  | cons item items ih =>
    intro s hs
    rw [evaluateBlock]
    rcases List.mem_cons.mp hstamp with rfl | hrest
    · have hstore : (evaluate u watch calls frame (.storeStatic (.member f) (.constant v))).wp
          (fun _ s => s.heap.Stamped (u.cell f) v True) (fun s =>
            s.heap.Stamped (u.cell f) v settled) s := by
        rw [Expr.storeStatic, evaluate, wp_bind, wp_lift]
        refine ⟨fun g hg => ?_, fun _ _ => hs⟩
        obtain rfl : f = g := by
          rw [requireField] at hg
          split at hg <;> cases hg
          rfl
        rw [evaluateReceiver, pure_bind, evaluate, pure_bind, wp_bind, writeStatic,
          wp_bind, wp_lift]
        refine ⟨fun owner howner => ?_, fun _ _ => hs⟩
        obtain ⟨-, -, rfl⟩ := staticOwnerFor_ok howner
        refine wp_step (hcalls.initialized settled f.owner s hs) (fun _ mid _ => ?_) fun _ h => h
        rw [wp_bind, wp_note, wp_change]
        exact .of_value (Heap.find?_setStatic u mid.heap f v)
      refine wp_step hstore (fun w mid hmid => ?_) fun _ h => h
      have hrest :=
        keepsStamp_block (fun e he => hkeeps True e (List.mem_cons_of_mem _ he)) w mid hmid
      exact wp_mono hrest (fun _ _ h => h) fun _ h => h.settle
    · refine wp_step (hkeeps settled item List.mem_cons_self s hs) (fun w mid hmid => ?_) fun _ h =>
        h
      exact ih hrest w (fun settled e he => hkeeps settled e (List.mem_cons_of_mem _ he)) mid hmid

/-! ### One level of the call stack -/

theorem keepsStamp_runBody (hstamps : u.Stamps f v) (hbelow : below.KeepStamp u f v) (m : MethodId)
    (frame : Frame) :
    KeepsStamp u f v settled (runBody u watch below m frame) := by
  refine maintains_lift_bind _ fun e he => maintains_bind ?_ fun _ => maintains_pure _
  have hbody : (u.method m).body = some e := by
    unfold requireBody at he
    split at he
    · rename_i body heq
      cases he
      exact heq
    · cases he
  have hkeeps : KeepsStamp u f v settled (evaluate u watch below frame e) :=
    keepsStamp_evaluate hbelow (hstamps.only m e hbody)
  refine maintains_bind (keepsStamp_note _) fun _ =>
    maintains_bind (maintains_outcome hkeeps) fun result => ?_
  exact maintains_bind (keepsStamp_note _) fun _ => maintains_lift _

theorem stamping_runBody (hstamps : u.Stamps f v) (hbelow : below.KeepStamp u f v) {m : MethodId}
    (hm : (u.record f.owner).initializer = some m) (frame : Frame) :
    Stamping u f v settled (runBody u watch below m frame) := by
  obtain ⟨m', items, hm', hbody, hstamp⟩ := hstamps.initializer
  obtain rfl : m' = m := Option.some.inj (hm'.symm.trans hm)
  intro s hs
  have hrequire : requireBody u m' = .ok (.block items) := by rw [requireBody, hbody]
  refine wp_lift_bind hrequire ?_
  have hblock : Stamping u f v settled (evaluate u watch below frame (.block items)) := by
    rw [evaluate]
    refine stamping_block hbelow (fun receiver g value hin =>
      hstamps.only m' _ hbody receiver g value ?_) hstamp .void
    rw [Expr.nodes]
    exact List.mem_cons_of_mem _ hin
  have hnoted :
      Stamping u f v settled (body watch m' (evaluate u watch below frame (.block items))) := by
    intro s hs
    rw [body, wp_bind, wp_note, wp_bind, wp_outcome]
    have hend := wp_iff.mp (hblock { s with notes := watch (.enters m') s.notes } hs)
    rcases hrun : (evaluate u watch below frame (.block items)).start
      { s with notes := watch (.enters m') s.notes } with ⟨r | w, after⟩
    · exact hend.2 r after hrun
    · exact hend.1 w after hrun
  exact wp_step (hnoted s hs) (fun _ mid hmid => hmid) fun _ h => h

section Level

variable {initialized : TypeId → Watching ω Unit} {remaining : Nat} {this : Option ObjectRef}
  {arguments : List Value} {m : MethodId}

theorem keepsStamp_prepared (hinitialized : ∀ settled t, KeepsStamp u f v settled (initialized t))
    {act : Watching ω α} {P : Watched ω → Prop}
    (hact : ∀ s, s.heap.Stamped (u.cell f) v settled →
      act.wp (fun _ => P) (fun s => s.heap.Stamped (u.cell f) v settled) s)
    (hs : s.heap.Stamped (u.cell f) v settled) (m : MethodId) :
    (do
      if (u.method m).isStatic then
        if let some owner := u.methodOwner? m then initialized owner
      act).wp (fun _ => P) (fun s => s.heap.Stamped (u.cell f) v settled) s := by
  cases (u.method m).isStatic with
  | false => exact hact s hs
  | true =>
    cases u.methodOwner? m with
    | none => exact hact s hs
    | some owner =>
      exact wp_step (hinitialized settled owner s hs) (fun _ mid hmid => hact mid hmid) fun _ h => h

theorem keepsStamp_invokeOver (hstamps : u.Stamps f v) (hbelow : below.KeepStamp u f v)
    (hinitialized : ∀ settled t, KeepsStamp u f v settled (initialized t)) :
    KeepsStamp u f v settled (invokeOver u watch below initialized remaining m this arguments) := by
  refine maintains_bind (maintains_lift _) fun _ s hs => ?_
  exact keepsStamp_prepared hinitialized (keepsStamp_runBody hstamps hbelow m _) hs m

theorem stamping_invokeOver (hstamps : u.Stamps f v) (hbelow : below.KeepStamp u f v)
    (hinitialized : ∀ settled t, KeepsStamp u f v settled (initialized t))
    (hm : (u.record f.owner).initializer = some m) :
    Stamping u f v settled (invokeOver u watch below initialized remaining m this arguments) := by
  intro s hs
  rw [invokeOver, wp_bind, wp_lift]
  refine ⟨fun _ _ => ?_, fun _ _ => hs⟩
  exact keepsStamp_prepared hinitialized (stamping_runBody hstamps hbelow hm _) hs m

variable {invoke : MethodId → Watching ω Value} {t : TypeId}

theorem keepsStamp_startInitializer (hstamps : u.Stamps f v)
    (hinvoke : ∀ settled m, KeepsStamp u f v settled (invoke m))
    (hstamp : ∀ settled m, (u.record f.owner).initializer = some m →
      Stamping u f v settled (invoke m)) :
    KeepsStamp u f v settled (startInitializer u watch invoke t) := by
  have hrun : ∀ s : Watched ω, s.heap.Stamped (u.cell f) v settled → (runInitializer u invoke t).wp
      (fun _ s => s.heap.Stamped (u.cell f) v (settled ∨ t = f.owner)) (fun s =>
        s.heap.Stamped (u.cell f) v settled) s := by
    intro s hs
    by_cases ht : t = f.owner
    · subst ht
      obtain ⟨m, -, hm, -⟩ := hstamps.initializer
      rw [runInitializer, hm]
      refine wp_step (hstamp settled m hm s hs) (fun _ _ h => ?_) fun _ h => h
      exact h.settle
    · have hsame : (settled ∨ t = f.owner) = settled := propext (or_iff_left ht)
      rw [hsame]
      exact maintains_runInitializer (hinvoke settled) s hs
  intro s hs
  rw [startInitializer, wp_bind, wp_heap, wp_ite]
  refine ⟨fun _ => hs, fun _ => ?_⟩
  rw [wp_bind, wp_change, wp_bind, wp_note, wp_bind, wp_outcome]
  have hend :=
    wp_iff.mp (hrun ⟨s.heap.startRunning t, watch (.starts t) s.notes⟩ (hs.of_eq rfl rfl))
  rcases hran : (runInitializer u invoke t).start ⟨s.heap.startRunning t,
    watch (.starts t) s.notes⟩ with ⟨fault | done, after⟩
  · exact (hend.2 fault after hran).of_eq rfl rfl
  · have hafter := hend.1 done after hran
    exact Heap.Stamped.markInitialized (hafter.of_eq rfl rfl)

theorem keepsStamp_initializeOver (hstamps : u.Stamps f v) (hbelow : below.KeepStamp u f v)
    (starts : Nat) (settled : Prop) (t : TypeId) :
    KeepsStamp u f v settled (initializeOver u watch below remaining starts t) := by
  induction starts generalizing settled t with
  | zero => exact maintains_throw _
  | succ starts ih =>
    have hchain : ∀ bases t, KeepsStamp u f v settled (initializeChain u watch
        (fun m => invokeOver u watch below (initializeOver u watch below remaining starts) remaining
          m none []) bases t) := by
      intro bases
      induction bases with
      | zero => exact fun t => maintains_throw _
      | succ bases ihbases =>
        refine fun t => maintains_initializeAfter (fun b _ => ihbases b)
          (keepsStamp_startInitializer hstamps ?_ ?_)
        · exact fun settled m => keepsStamp_invokeOver hstamps hbelow ih
        · exact fun settled m hm => stamping_invokeOver hstamps hbelow ih hm
    exact hchain _ t

theorem keepStamp_levelOver (hstamps : u.Stamps f v) (hbelow : below.KeepStamp u f v)
    (remaining : Nat) :
    (levelOver u watch below remaining).KeepStamp u f v where
  invoke := fun _ _ _ _ => keepsStamp_invokeOver hstamps hbelow
    (keepsStamp_initializeOver hstamps hbelow _)
  initialized := fun settled t => keepsStamp_initializeOver hstamps hbelow _ settled t

end Level

theorem keepStamp_callsWithin (hstamps : u.Stamps f v) (watch : Occurrence → ω → ω)
    (remaining : Nat) :
    (callsWithin u watch remaining).KeepStamp u f v := by
  induction remaining with
  | zero =>
    have hnone : (noCalls : Calls ω).KeepStamp u f v :=
      ⟨fun _ _ _ _ => maintains_throw _, fun _ _ => maintains_throw _⟩
    exact keepStamp_levelOver hstamps hnone 0
  | succ remaining ih => exact keepStamp_levelOver hstamps ih (remaining + 1)

end Evaluations

/-! ### Runs -/

namespace Entry

variable {u : Universe} {f : FieldId} {v : Value} {settled : Prop}

/-- The heap after a run in which each entry comes with the program as it is by then. A run goes
on after failures. -/
def runAcross (h : Heap) (steps : List (Universe × Entry)) : Heap :=
  steps.foldl (fun h step => ((step.2.perform step.1).start h).2) h

theorem stamped_perform (hstamps : u.Stamps f v) (e : Entry) :
    Maintains (fun h => h.Stamped (u.cell f) v settled) (e.perform u) := by
  have hcalls := keepStamp_callsWithin hstamps (fun _ (_ : Unit) => ()) callDepthLimit
  have hunwatched : ∀ {α : Type} {act : Watching Unit α}, KeepsStamp u f v settled act →
      Maintains (fun h => h.Stamped (u.cell f) v settled) (unwatched act) :=
    fun hact => maintains_within hact (fun _ hs => hs) fun _ _ _ hs => hs
  cases e with
  | invoke m this arguments =>
    exact maintains_map (hunwatched (hcalls.invoke settled m this arguments))
  | instantiate c arguments =>
    exact maintains_map (hunwatched
      ((relatedButStatics_keepsStamp hcalls settled).make c arguments))
  | prepare t => exact hunwatched (hcalls.initialized settled t)
  | setField o name value =>
    refine maintains_get_bind fun h hh => ?_
    rw [wp_bind, wp_lift]
    refine ⟨fun after hset => ?_, fun _ _ => hh⟩
    obtain ⟨g, -, hstore⟩ := bind_eq_ok.mp hset
    obtain ⟨hstatics, hinitialized⟩ := Heap.storeSlot_aside hstore
    exact hh.of_eq hstatics hinitialized

theorem stamped_runAcross {cell : TypeId × Token} {steps : List (Universe × Entry)}
    (hsteps : ∀ step ∈ steps, step.1.Stamps f v ∧ step.1.cell f = cell) {h : Heap}
    (hh : h.Stamped cell v settled) :
    (runAcross h steps).Stamped cell v settled := by
  induction steps generalizing h with
  | nil => exact hh
  | cons step steps ih =>
    obtain ⟨⟨hstamps, rfl⟩, hrest⟩ := List.forall_mem_cons.mp hsteps
    exact ih hrest (wp_const.mp (stamped_perform hstamps step.2 h hh))

end Entry

theorem Signature.defaultValue_ne_identifier (signature : Signature) (id : Identifier) :
    signature.defaultValue ≠ .identifier id := by
  cases signature <;> exact Value.noConfusion

namespace Session

theorem extractId_of_stamped {s : Session} {p : PipelineId} {f : FieldId} {id id' : Identifier}
    (hstamps : s.program.Stamps f (.identifier id))
    (hheap : s.heap.Stamped (s.program.cell f) (.identifier id) False)
    (hfield : s.identifierField p f.owner = .ok f) (hextract : ((extractId p f.owner).start s).1
      = .ok id') : id' = id := by
  have hprepared := Entry.stamped_perform hstamps (.prepare f.owner) s.heap hheap
  have hspec : (extractId p f.owner).wp (fun id' _ => id' = id) (fun _ => True) s := by
    rw [extractId, wp_bind, ask, wp_bind, wp_get, wp_lift]
    refine ⟨fun g hg => ?_, fun _ _ => trivial⟩
    obtain rfl : f = g := Except.ok.inj (hfield.symm.trans hg)
    rw [wp_bind, evaluate, wp_bind, wp_get, wp_within]
    refine wp_mono hprepared (fun _ heap hafter => ?_) fun _ _ => trivial
    rw [wp_bind, wp_get]
    dsimp only [Heap.staticValue]
    split
    · rename_i found hfound
      rw [wp_pure]
      cases hcell : heap.statics.find? (f.owner, (s.program.field f).token) with
      | none =>
        rw [hcell] at hfound
        exact absurd hfound (Signature.defaultValue_ne_identifier _ _)
      | some w =>
        rw [hcell] at hfound
        obtain rfl := hafter.only w hcell
        exact (Value.identifier.inj hfound).symm
    · trivial
  rcases hrun : (extractId p f.owner).start s with ⟨r, last⟩
  rw [hrun] at hextract
  exact (wp_iff.mp hspec).1 id' last (hrun.trans (by rw [← hextract]))

/-- A type that is not initialized yet is stamped with an identifier. Whatever is run from then
on, by programs that store nothing else into the field, the field holds the identifier as soon as
the initializer has finished, and every answer that is ever given for the type is this
identifier. -/
theorem stamped_identity_stays {f : FieldId} {id : Identifier} {cell : TypeId × Token} {h : Heap}
    {steps : List (Universe × Entry)} (hfresh : h.isInitialized cell.1 = false)
    (hunset : h.statics.find? cell = none) (hsteps : ∀ step ∈ steps,
      step.1.Stamps f (.identifier id) ∧ step.1.cell f = cell) :
    let after := Entry.runAcross h steps
    (∀ u : Universe, u.cell f = cell → after.isInitialized f.owner = true →
      after.staticValue u f.owner f = .identifier id)
      ∧ ∀ (s : Session) (p : PipelineId) (id' : Identifier), s.heap = after →
      s.program.Stamps f (.identifier id) →
        s.program.cell f = cell → s.identifierField p f.owner = .ok f →
        ((extractId p f.owner).start s).1 = .ok id' → id' = id := by
  have hstart : h.Stamped cell (.identifier id) False := by
    refine ⟨fun w hw => ?_, fun hready => ?_⟩
    · rw [hunset] at hw
      cases hw
    · rw [hfresh] at hready
      exact hready.elim False.elim Bool.noConfusion
  have hafter := Entry.stamped_runAcross hsteps hstart
  refine ⟨fun u hcell hinitialized => ?_, fun s p id' hheap hstamps hcell hfield hextract => ?_⟩
  · subst hcell
    have hvalue := hafter.ready (.inr hinitialized)
    rw [Heap.staticValue]
    exact congrArg (Option.getD · _) hvalue
  · subst hcell
    exact extractId_of_stamped hstamps (hheap ▸ hafter) hfield hextract

/-! ### A program with a stamped type -/

/-- The proxy of `App.A` with its identifier, and the class `App.Clerk` with a static method that
has this body. -/
def proxied (clerk : Expr) : Universe :=
  let make (row : UInt32) : MethodRecord :=
    { token := .ofParts .method row, name := ".ctor", kind := .constructor, flags := 6,
      signature := {}, body := some .empty }
  let static (row : UInt32) (name : String) (kind : MethodKind) (body : Expr) : MethodRecord :=
    { token := .ofParts .method row, name, kind, flags := 6 ||| MethodFlags.static, signature := {},
      body := some body }
  let type (row : UInt32) (name : String) (origin : Origin) : TypeRecord :=
    { token := .ofParts .type row, space := "App", name, flags := 1, origin, complete := true,
      constructors := #[make row] }
  let field : FieldRecord :=
    { token := .ofParts .field 1, name := identifierFieldName, signature := .object,
      flags := identifierFieldFlags }
  let stamp : Expr := .storeStatic (.member ⟨⟨2⟩, 0⟩) (.constant (.identifier ⟨⟨1⟩, []⟩))
  ⟨#[type 1 "AssembledTypeAttribute" .native,
    type 2 "A" .native,
    { type 3 "A_Proxy_1" .generated with
      base := some ⟨1⟩
      fields := #[field]
      ownInitializer := some (static 5 ".cctor" .typeInitializer (.block [stamp]))
      initializer := some ⟨⟨2⟩, .typeInitializer⟩
      attributes := #[⟨⟨⟨0⟩, .constructor 0⟩, [], []⟩] },
    { type 4 "Clerk" .native with methods := #[static 6 "Work" .method clerk] }]⟩

def withClerk (clerk : Expr) : Session where
  program := proxied clerk
  registries :=
    #[{ core := { object := ⟨1⟩, attributeType := ⟨0⟩, assembledTypeAttribute := ⟨0⟩ } }]
  pipelines := #[{ configuration := "default", registry := ⟨0⟩, pool := ⟨0⟩ }]

/-- The clerk works, and then the proxy is asked for its identifier. -/
def identityAfterWork (clerk : Expr) : Except Fault Identifier :=
  ((extractId ⟨0⟩ ⟨2⟩).start
    { withClerk clerk with
      heap := Entry.runAcross {} [(proxied clerk, .invoke ⟨⟨3⟩, .method 0⟩ none [])] }).1

/-- A clerk who reads the identifier leaves it as it is. -/
theorem identity_stays_with_reader :
    identityAfterWork (.load none (.member ⟨⟨2⟩, 0⟩)) = .ok ⟨⟨1⟩, []⟩
      ∧ ∀ id', identityAfterWork (.load none (.member ⟨⟨2⟩, 0⟩)) = .ok id' → id' = ⟨⟨1⟩, []⟩ := by
  let clerk : Expr := .load none (.member ⟨⟨2⟩, 0⟩)
  have hstamps : (proxied clerk).Stamps ⟨⟨2⟩, 0⟩ (.identifier ⟨⟨1⟩, []⟩) :=
    ⟨by decide +kernel, ⟨⟨2⟩, .typeInitializer⟩, _, rfl, rfl, List.mem_singleton.mpr rfl⟩
  have hfield : (withClerk clerk).identifierField ⟨0⟩ ⟨2⟩ = .ok ⟨⟨2⟩, 0⟩ := by decide +kernel
  have hsteps : ∀ step ∈ [(proxied clerk, Entry.invoke ⟨⟨3⟩, .method 0⟩ none [])],
      step.1.Stamps ⟨⟨2⟩, 0⟩ (.identifier ⟨⟨1⟩, []⟩)
      ∧ step.1.cell ⟨⟨2⟩, 0⟩ = (proxied clerk).cell ⟨⟨2⟩, 0⟩ := by
    intro step hstep
    rw [List.mem_singleton.mp hstep]
    exact ⟨hstamps, rfl⟩
  refine ⟨by decide +kernel, fun id' hid' => ?_⟩
  exact (stamped_identity_stays (h := {}) rfl rfl hsteps).2 { withClerk clerk with heap := _ } ⟨0⟩
    id' rfl hstamps rfl hfield hid'

/-- Once a generated or loaded type was initialized, whatever is run leaves the identifier in its
static field. -/
def IdentitiesStay : Prop :=
  ∀ (s : Session) (p : PipelineId) (t : TypeId) (f : FieldId) (id id' : Identifier)
    (entries : List Entry),
    (s.program.record t).origin ≠ .native → s.identifierField p t = .ok f → f.owner = t →
    (s.program.field f).flags = identifierFieldFlags → ((extractId p t).start s).1 = .ok id →
    let first := ((extractId p t).start s).2
    ((extractId p t).start { first with heap := Entry.run first.program first.heap entries }).1
      = .ok id' → id' = id

/-- A clerk who stores another identifier is not kept from it. -/
theorem not_identitiesStay : ¬ IdentitiesStay := by
  intro hstay
  let s := withClerk (.storeStatic (.member ⟨⟨2⟩, 0⟩) (.constant (.identifier ⟨⟨3⟩, []⟩)))
  have hfirst : ((extractId ⟨0⟩ ⟨2⟩).start s).1 = .ok ⟨⟨1⟩, []⟩ := by decide +kernel
  have hfield : s.identifierField ⟨0⟩ ⟨2⟩ = .ok ⟨⟨2⟩, 0⟩ := by decide +kernel
  have hlast : ((extractId ⟨0⟩ ⟨2⟩).start { ((extractId ⟨0⟩ ⟨2⟩).start s).2 with
      heap := Entry.run ((extractId ⟨0⟩ ⟨2⟩).start s).2.program ((extractId ⟨0⟩ ⟨2⟩).start s).2.heap
        [.invoke ⟨⟨3⟩, .method 0⟩ none []] }).1 = .ok ⟨⟨3⟩, []⟩ := by decide +kernel
  have hsame := hstay s ⟨0⟩ ⟨2⟩ ⟨⟨2⟩, 0⟩ ⟨⟨1⟩, []⟩ ⟨⟨3⟩, []⟩ _ (by decide) hfield rfl
    rfl hfirst hlast
  exact absurd hsame (by decide)

end Session
end TypeLoom
