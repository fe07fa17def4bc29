import TypeLoom.Proofs.Carrying
import TypeLoom.Proofs.Forwarding
import TypeLoom.Proofs.SlotDispatch

/-!
# Overrides that forward

An override that is created calls the implementation that the base has, with its own receiver and
arguments. If nobody replaces this body, it comes out of the generation as it is, and nothing takes
it from the finished type. Where the implementation has the signature of the method that is
overridden, a call of the emitted override cannot be told from a call of the implementation.
-/

namespace TypeLoom

open Attempt

/-! ### Bodies that lowering leaves as they are -/

namespace Lower

variable {e : Emitted}

theorem exprAll_eq_self {items : List Expr} (h : ∀ item ∈ items, expr e item = .ok item) :
    exprAll e items = .ok items := by
  induction items with
  | nil => rfl
  | cons item items ih =>
    obtain ⟨hitem, hitems⟩ := List.forall_mem_cons.mp h
    rw [exprAll, hitem, ih hitems]
    rfl

/-- A body that forwards to a method of the program names nothing of the batch. -/
theorem expr_forwarding (target : MethodId) (arity : Nat) :
    expr e (.callBase .this (.member target) (Expr.forwardArguments arity))
      = .ok (.callBase .this (.member target) (Expr.forwardArguments arity)) := by
  have harguments : exprAll e (Expr.forwardArguments arity)
      = .ok (Expr.forwardArguments arity) := by
    refine exprAll_eq_self fun item hitem => ?_
    obtain ⟨index, -, rfl⟩ := List.mem_map.mp hitem
    rfl
  rw [Expr.callBase, expr, harguments]
  rfl

end Lower

/-! ### Methods that come out of a batch -/

/-- A finished type has the method that came out of a method with a body. -/
structure Emitted.Embodies (e : Emitted) (u : Universe) (own : DraftMethod) (body : Expr)
    (k : MethodId) : Prop where
  row : e.methods.find? own.handle = some k
  complete : (u.record k.owner).complete = true
  flags : (u.method k).flags = own.flags
  arity : (u.method k).signature.arity = own.signature.arity
  returns : (u.method k).signature.returns.isVoid = own.signature.returns.isVoid
  body : ∃ lowered, (u.method k).body = some lowered ∧ Lower.expr e body = .ok lowered

theorem Emitted.Embodies.keep {e : Emitted} {u u' : Universe} {own : DraftMethod}
    {body : Expr} {k : MethodId} (h : e.Embodies u own body k) (hkeeps : u.KeepsFinished u') :
    e.Embodies u' own body k := by
  obtain ⟨nested, hrecord⟩ := hkeeps k.owner h.complete
  have hmethod : u'.method k = u.method k := by
    rw [Universe.method, Universe.method, Universe.method?, Universe.method?, hrecord]
    cases k.slot <;> rfl
  refine ⟨h.row, ?_, ?_, ?_, ?_, ?_⟩
  · rw [hrecord]
    exact h.complete
  all_goals rw [hmethod]
  · exact h.flags
  · exact h.arity
  · exact h.returns
  · exact h.body

namespace Production

variable {b : Batch} {t : TypeHandle} {d : Descriptor} {own : DraftMethod} {i : Nat} {body : Expr}

theorem wp_generate_embodies (objectType : TypeId) (w : Workshop) (hwf : b.WellFormed)
    (hwhole : b.Whole) (hd : b.find? t = some d) (hown : d.methods[i]? = some own)
    (hbody : own.body = some body) :
    (generate objectType).wp (fun g after => ∃ k, g.emitted.Embodies after.program own body k)
      (fun _ => True)
      { batch := b, workshop := w } := by
  refine wp_mono (wp_generate_finished (G := False) objectType hwf hwhole w False.elim) ?_
    fun _ _ => trivial
  rintro g p ⟨P, hfor, hfinished⟩
  have hhandle : own.handle = ⟨t, .method i⟩ := ((hwf t d hd).methods i own hown).1
  have hportrait : (d.portrait P.layout objectType (P.flags t)).method? (.method i)
      = some (own.portrait P.layout .method) := by
    show (d.methods.map _)[i]? = _
    rw [Array.getElem?_map, hown, Option.map_some]
  obtain ⟨hrow, r, hr, hsame⟩ := hfinished.method_row hwf hfor hd hportrait
  have hqueued : .body (P.layout.place t) ⟨P.layout.place t, .method i⟩ body ∈
      d.queued P.layout := by
    refine Descriptor.mem_queued.mpr
      (.inr (.inr (.inl ⟨own, Array.mem_of_getElem? hown, body, hbody, ?_⟩)))
    rw [DraftMethod.queuedBody, Layout.placeMethod, hhandle]
  obtain ⟨made, lowered, hmade, hlowered, hlower⟩ := hfinished.queued_body hwf hfor hd hqueued
  obtain rfl : r = made := Option.some.inj (hr.symm.trans hmade)
  have hmethod : p.program.method ⟨P.layout.place t, .method i⟩ = r := by
    rw [Universe.method, hr, Option.getD_some]
  have hsignature : r.signature = own.signature.placed P.layout :=
    congrArg MethodRecord.signature hsame
  refine ⟨⟨P.layout.place t, .method i⟩, ?_,
    congrArg TypeRecord.complete (hfinished.shows hwf hfor hd), ?_, ?_, ?_, ?_⟩
  · rw [hhandle]
    exact hrow
  all_goals rw [hmethod]
  · exact congrArg MethodRecord.flags hsame
  · rw [hsignature, MethodSignature.arity_eq_length_types, MethodSignature.arity_eq_length_types,
      MethodSignature.types_placed,
      List.length_map]
  · rw [hsignature]
    show (own.signature.returns.placed P.layout).isVoid = _
    cases own.signature.returns <;> rfl
  · exact ⟨lowered, hlowered, hlower⟩

end Production

/-! ### Overrides that were created -/

namespace Descriptor

variable {u : Universe} {d : Descriptor} {m : MethodId} {handle : MethodHandle}

theorem withOverride_of_created (h : ((getOrAddOverride u m).start d).1 = .ok (handle, true)) :
    ∃ base access, d.Overridable u m base ∧ handle = d.nextMethod
      ∧ ((getOrAddOverride u m).start d).2 = d.withOverride u m base access := by
  have hends : (getOrAddOverride u m).wp (fun answer after => answer.2 = true → ∃ base access,
    d.Overridable u m base
      ∧ answer.1 = d.nextMethod ∧ after = d.withOverride u m base access) (fun _ => True) d :=
    wp_getOrAddOverride (fun _ _ _ _ => nofun) (fun _ _ _ _ _ => nofun)
      (fun base access check _ _ _ _ => ⟨base, access, checkOverride_ok check, rfl, rfl⟩) trivial
  exact wp_ok hends (Prod.ext h rfl) rfl

end Descriptor

namespace World

variable {w : World} {place : Nat} {t : TypeHandle} {m : MethodId} {handle : MethodHandle}

theorem withOverride_of_answer (hanswer : w.answer place (.overrideMethod t m)
      = .ok (.registered handle true)) :
    ∃ d base access, w.descriptor? place t = some d ∧ d.Overridable w.program m base
    ∧ handle = d.nextMethod
      ∧ (w.after (.edit place (.overrideMethod t m))).descriptor? place t
      = some (d.withOverride w.program m base access) := by
  obtain ⟨d, hd⟩ : ∃ d, w.descriptor? place t = some d := by
    cases hb : w.batches[place]? with
    | none => rw [answer, hb] at hanswer; cases hanswer
    | some b =>
      simp only [answer, hb] at hanswer
      let run := ((Edit.overrideMethod t m).perform w.program).start b
      obtain ⟨-, -, -, d, -, -, -, hd, -⟩ :=
        wp_ok (Batch.wp_overrideMethod (u := w.program) t m)
          (Prod.ext hanswer rfl : run = (_, run.2))
      exact ⟨d, by rw [descriptor?, hb, Option.bind_some, hd]⟩
  rw [answer_overrideMethod hd] at hanswer
  have hcreated : ((Descriptor.getOrAddOverride w.program m).start d).1 = .ok (handle, true) := by
    cases hend : ((Descriptor.getOrAddOverride w.program m).start d).1 with
    | error f => rw [hend] at hanswer; cases hanswer
    | ok answer =>
      obtain ⟨made, created⟩ := answer
      rw [hend] at hanswer
      cases hanswer
      rfl
  obtain ⟨base, access, hover, hhandle, hmade⟩ := Descriptor.withOverride_of_created hcreated
  exact ⟨d, base, access, hd, hover, hhandle, by rw [descriptor?_overrideMethod hd, hmade]⟩

end World

/-! ### Implementations -/

namespace Universe.Built

variable {u : Universe} {base : TypeId} {m : MethodId}

theorem exists_resolveVirtual (h : u.Built base) (hclass : (u.record m.owner).isInterface = false)
    (hvirtual : (u.method m).isVirtual = true) (hpresent : u.isPresent m.owner = true) :
    (u.method? (u.resolveVirtual base m)).isSome
        ∧ u.isPresent (u.resolveVirtual base m).owner = true := by
  rw [resolveVirtual_of_class hclass hvirtual, resolveSlot_eq]
  cases hfound : (u.hierarchy base).findSome? fun level => u.slotBody? level (u.slotToken m) with
  | none => exact ⟨Descriptor.isSome_of_isVirtual hvirtual, hpresent⟩
  | some k =>
    obtain ⟨level, hlevel, hbody⟩ := List.exists_of_findSome?_eq_some hfound
    have hmem := (h.slotBody?_mem hlevel hbody).1
    rw [Option.getD_some, u.owner_of_mem_methodsOf hmem]
    exact ⟨u.isSome_of_mem_methodsOf hmem, (h.standing level hlevel).2⟩

/-- What runs on a built class has the signature of the method that is called, where methods have
tokens of their own. -/
theorem agrees_resolveVirtual (h : u.Built base) (htokens : u.OwnTokens (u.involved base))
    (hlocal : u.LocalTokens) (hm : u.OnChain base m) :
    (u.method (u.resolveVirtual base m)).signature.agrees (u.method m).signature :=
  (h.wellFormed.matches_of_slotRoot_eq hlocal
    (u.isSome_of_mem_methodsOf (h.resolveVirtual_onChain hm).declared)
    (u.isSome_of_mem_methodsOf hm.declared) (h.slotRoot_resolveVirtual htokens hm)).2

end Universe.Built

/-! ### Overrides that are as they were created -/

/-- A method for the base method, with its signature and with a body that forwards to what the
base runs. -/
structure DraftMethod.Delegates (u : Universe) (base : TypeId) (m : MethodId) (own : DraftMethod) :
    Prop where
  baseMethod : own.baseMethod = some m
  signature : own.signature = (u.method m).signature
  body : own.body = some (.callBase .this (.member (u.resolveVirtual base m))
    (Expr.forwardArguments (u.method (u.resolveVirtual base m)).signature.arity))

/-- What comes out of such a method forwards to what the base ran, also when there are more
types, if that is there and has the signature of the base method. -/
theorem DraftMethod.Delegates.forwards {u after : Universe} {base : TypeId} {m k : MethodId}
    {own : DraftMethod} {e : Emitted} {ofInterface : Bool} {body : Expr}
    (h : own.Delegates u base m) (hwf : own.WellFormed ofInterface)
    (hvirtual : own.isVirtual = true) (hbody : own.body = some body)
    (hk : e.Embodies after own body k) (ha : Universe.Agree u.types.size u after)
    (hexists : (u.method? (u.resolveVirtual base m)).isSome)
    (hpresent : u.isPresent (u.resolveVirtual base m).owner = true)
    (hfits : (u.method m).signature.arity ≤ 65536)
    (hagrees : (u.method (u.resolveVirtual base m)).signature.agrees (u.method m).signature) :
    after.Forwards k (u.resolveVirtual base m) := by
  have hlt := u.lt_of_isSome_method? _ hexists
  have hsignature := ha.signature hlt
  obtain ⟨hreturns, htypes⟩ := (MethodSignature.agrees_iff _ _).mp hagrees
  have harity : (u.method (u.resolveVirtual base m)).signature.arity
      = (u.method m).signature.arity := by
    rw [MethodSignature.arity_eq_length_types, MethodSignature.arity_eq_length_types, htypes]
  obtain rfl := Option.some.inj (hbody.symm.trans h.body)
  refine ⟨?_, ?_, ?_, ?_, ?_, fun hvoid => ?_, ?_, ?_⟩
  · obtain ⟨lowered, hlowered, hlower⟩ := hk.body
    rw [Lower.expr_forwarding] at hlower
    rw [hlowered, ← Except.ok.inj hlower, hsignature]
  · have hbodiless := hwf.bodiless
    rw [hbody] at hbodiless
    rw [MethodRecord.isAbstract, hk.flags]
    exact hbodiless
  · rw [MethodRecord.isStatic, hk.flags, Bool.eq_false_iff]
    intro hstatic
    have hnot := hwf.static hstatic
    rw [hvirtual] at hnot
    cases hnot
  · rw [hk.arity, h.signature, hsignature, harity]
  · rw [hsignature, harity]
    exact hfits
  · rw [hk.returns, h.signature] at hvoid
    rw [hsignature, hreturns]
    exact hvoid
  · rw [ha.isPresent hlt]
    exact hpresent
  · rw [ha.isSome_method? hlt]
    exact hexists

/-! ### Overrides in realms -/

namespace Realm

open Universe World

def draftMethod? (r : Realm) (place : Nat) (handle : MethodHandle) : Option DraftMethod :=
  (r.batches[place]?.bind (·.find? handle.owner)).bind (·.method? handle)

def outcome? (r : Realm) (through place : Nat) (output : Array TypeId) :
    Option (Except Fault Generated) :=
  r.registries[through]?.map fun g => (r.view g).outcome place output

/-- An override was created, and when its batch was generated it had the body with which it was
created. Before and after the generation anything else may have happened. -/
structure ForwardingRun (r later last : Realm) (through into place : Nat) (t : TypeHandle)
    (m : MethodId) (handle : MethodHandle) (output : Array TypeId) (g : Generated) : Prop where
  reachable : Reachable r
  created : r.answer? through place (.overrideMethod t m) = some (.ok (.registered handle true))
  moves : Later (r.after (.move through (.edit place (.overrideMethod t m)))) later
  untouched : (later.draftMethod? place handle).bind (·.body)
    = ((r.after (.move through (.edit place (.overrideMethod t m)))).draftMethod? place handle).bind
    (·.body)
  generated : later.outcome? into place output = some (.ok g)
  rest : Later (later.after (.move into (.generate place output))) last

variable {r later last : Realm} {through into place : Nat} {t : TypeHandle} {m : MethodId}
  {handle : MethodHandle}
  {output : Array TypeId} {g : Generated} {base : TypeId}

theorem draftMethod?_of_find {b : Batch} {d : Descriptor} {own : DraftMethod} {i : Nat}
    (hb : r.batches[place]? = some b) (hd : b.find? t = some d) (hhandle : d.handle = t)
    (hown : d.methods[i]? = some own) :
    r.draftMethod? place ⟨t, .method i⟩ = some own := by
  rw [draftMethod?, hb, Option.bind_some, hd, Option.bind_some, Descriptor.method?,
    if_pos hhandle.symm]
  exact hown

/-- Right after an override was created it is the last method of its descriptor. -/
theorem exists_withOverride (hreachable : Reachable r)
    (hcreated : r.answer? through place (.overrideMethod t m)
      = some (.ok (.registered handle true)))
    (hbase : (r.batches[place]?.bind (·.find? t)).bind (·.base) = some (.ofClass base)) :
    ∃ (d : Descriptor) (access : Access) (b : Batch), d.Overridable r.program m base ∧ d.handle = t
      ∧ handle = d.nextMethod
      ∧ (r.after (.move through (.edit place (.overrideMethod t m)))).batches[place]? = some b
      ∧ b.find? t = some (d.withOverride r.program m base access) := by
  obtain ⟨registry, hregistry, hanswer⟩ := Option.map_eq_some_iff.mp hcreated
  obtain ⟨d, base', access, hd, hover, hhandle, hd'⟩ := withOverride_of_answer hanswer
  obtain ⟨before, hbefore, hfind⟩ := Option.bind_eq_some_iff.mp hd
  have howner : d.handle = t :=
    ((hreachable.upright.view hregistry).sound.batches place before hbefore).handles t.index d hfind
  have hdrafted : r.batches[place]?.bind (·.find? t) = some d := hd
  rw [hdrafted, Option.bind_some] at hbase
  obtain rfl : base' = base := by
    have hsame := (Descriptor.baseType?_eq_some hover.isBase).1.symm.trans hbase
    cases hsame
    rfl
  obtain ⟨b, hb, hedited⟩ := Option.bind_eq_some_iff.mp hd'
  refine ⟨d, access, b, hover, howner, hhandle, ?_, hedited⟩
  rw [after_move hregistry]
  exact hb

theorem ForwardingRun.delegates (hrun : ForwardingRun r later last through into place t m
      handle output g)
    (hbase : (r.batches[place]?.bind (·.find? t)).bind (·.base) = some (.ofClass base))
    (hconcrete : (r.program.method (r.program.resolveVirtual base m)).isAbstract = false) :
    (∃ d : Descriptor, d.Overridable r.program m base)
      ∧ ∃ (b : Batch) (d : Descriptor) (own : DraftMethod) (i : Nat), later.batches[place]? = some b
      ∧ b.find? t = some d
        ∧ d.methods[i]? = some own ∧ own.handle = handle ∧ own.Delegates r.program base m := by
  obtain ⟨d, access, b, hover, rfl, rfl, hb, hd⟩ :=
    exists_withOverride hrun.reachable hrun.created hbase
  let new := Descriptor.newOverride r.program d.nextMethod m (r.program.resolveVirtual base m)
    access
  have hnew : (d.withOverride r.program m base access).methods[d.methods.size]? = some new :=
    Array.getElem?_push_size
  have hcreated : (r.after (.move through (.edit place (.overrideMethod d.handle m)))).draftMethod?
    place d.nextMethod = some new :=
    draftMethod?_of_find hb hd rfl hnew
  -- It is still at its place when the batch is generated.
  obtain ⟨hupright, -⟩ := step_upright hrun.reachable.upright
    ⟨.move through (.edit place (.overrideMethod d.handle m)), trivial, rfl⟩
  obtain ⟨-, hkept⟩ := hrun.moves.upright hupright
  obtain ⟨b', hb', hdescriptors⟩ := (hkept.seen default default).batches place b hb
  obtain ⟨d', hd', hkeeps⟩ := hdescriptors d.handle _ hd
  obtain ⟨own, hown, hrevised⟩ := hkeeps.methods d.methods.size new hnew
  have hlater : later.draftMethod? place d.nextMethod = some own :=
    draftMethod?_of_find hb' hd' hkeeps.handle hown
  have hbody := hrun.untouched
  rw [hlater, hcreated, Option.bind_some, Option.bind_some] at hbody
  refine ⟨⟨d, hover⟩, b', d', own, d.methods.size, hb', hd', hown, hrevised.handle,
    hrevised.baseMethod, hrevised.signature, ?_⟩
  rw [hbody]
  exact if_neg (by rw [hconcrete]; exact Bool.false_ne_true)

theorem exists_generation {b : Batch} (hb : r.batches[place]? = some b)
    (hout : r.outcome? into place output = some (.ok g)) :
    ∃ (objectType : TypeId) (w : Workshop)
    (p : Production), (Production.generate objectType).start { batch := b, workshop := w }
    = (.ok g, p)
      ∧ (r.after (.move into (.generate place output))).program = p.program := by
  obtain ⟨registry, hregistry, hgenerated⟩ := Option.map_eq_some_iff.mp hout
  have hview : (r.view registry).batches[place]? = some b := hb
  simp only [World.outcome, hview] at hgenerated
  refine ⟨registry.core.object, { space := (r.view registry).space, output },
    ((r.view registry).generation b output).2,
    Prod.ext hgenerated rfl, ?_⟩
  rw [after_move hregistry]
  simp only [putWorld, World.after, hview]
  rfl

theorem Upright.exists_embodies (h : r.Upright) {b : Batch} {d : Descriptor} {own : DraftMethod}
    {i : Nat} {body : Expr} (hb : r.batches[place]? = some b) (hd : b.find? t = some d)
    (hown : d.methods[i]? = some own) (hbody : own.body = some body)
    (hout : r.outcome? into place output = some (.ok g)) :
    ∃ k, g.emitted.Embodies (r.after (.move into (.generate place output))).program own body k := by
  obtain ⟨-, -, hdrafted⟩ := h.batches place b hb
  obtain ⟨objectType, w, p, hrun, hprogram⟩ := exists_generation hb hout
  rw [hprogram]
  exact wp_ok (Production.wp_generate_embodies objectType w hdrafted.wellFormed hdrafted.whole hd
    hown hbody) hrun

/-- The emitted override forwards to what the base ran when it was created. -/
theorem ForwardingRun.forwards (hrun : ForwardingRun r later last through into place t m
      handle output g)
    (hbase : (r.batches[place]?.bind (·.find? t)).bind (·.base) = some (.ofClass base))
    (hstanding : r.program.Standing base)
    (hconcrete : (r.program.method (r.program.resolveVirtual base m)).isAbstract = false)
    (hfits : (r.program.method m).signature.arity ≤ 65536)
    (hagrees : (r.program.method (r.program.resolveVirtual base m)).signature.agrees
      (r.program.method m).signature) :
    ∃ k, g.emitted.methods.find? handle = some k ∧ (last.program.method k).signature.arity
      = (r.program.method m).signature.arity
      ∧ last.program.Forwards k (r.program.resolveVirtual base m) := by
  obtain ⟨⟨_, hover⟩, b, d, own, i, hb, hd, hown, rfl, hmade⟩ := hrun.delegates hbase hconcrete
  have hr := hrun.reachable.upright
  obtain ⟨hedited, hsince₁⟩ :=
    step_upright hr ⟨.move through (.edit place (.overrideMethod t m)), trivial, rfl⟩
  obtain ⟨hlater, hsince₂⟩ := hrun.moves.upright hedited
  obtain ⟨hafter, hsince₃⟩ :=
    step_upright hlater ⟨.move into (.generate place output), trivial, rfl⟩
  obtain ⟨-, hsince₄⟩ := hrun.rest.upright hafter
  obtain ⟨hsound, -, hdrafted⟩ := hlater.batches place b hb
  obtain ⟨k, hk⟩ := hlater.exists_embodies hb hd hown hmade.body hrun.generated
  have hkLast := hk.keep hsince₄.finished
  have hall := hsince₁.trans (hsince₂.trans (hsince₃.trans hsince₄))
  obtain ⟨hexists, hpresent⟩ :=
    (hr.built hstanding).exists_resolveVirtual hover.isClass hover.virtual hover.present
  have hvirtual :=
    ((hsound.sound t.index d hd).standsIn own (Array.mem_of_getElem? hown) m
    hmade.baseMethod).replaces.1
  refine ⟨k, hk.row, by rw [hkLast.arity, hmade.signature], ?_⟩
  exact hmade.forwards ((hdrafted.wellFormed t d hd).methods i own hown).2 hvirtual hmade.body
    hkLast hall.agree hexists hpresent hfits
    hagrees

/-- A call of an override that nobody has touched ends like a call of what the base ran when it
was created, one level deeper: with the same value or the same fault, and with the same heap.
This is so for all objects, arguments and heaps if the implementation has the signature of the
method that was overridden. -/
theorem untouched_override_transparent (hrun : ForwardingRun r later last through into place t m
      handle output g)
    (hbase : (r.batches[place]?.bind (·.find? t)).bind (·.base) = some (.ofClass base))
    (hstanding : r.program.Standing base)
    (hconcrete : (r.program.method (r.program.resolveVirtual base m)).isAbstract = false)
    (hfits : (r.program.method m).signature.arity ≤ 65536)
    (hagrees : (r.program.method (r.program.resolveVirtual base m)).signature.agrees
      (r.program.method m).signature) :
    ∃ k, g.emitted.methods.find? handle = some k
      ∧ ∀ (depth : Nat) (o : ObjectRef) (arguments : List Value)
      (heap : Heap), depth < callDepthLimit →
        arguments.length = (r.program.method m).signature.arity →
          (last.program.invokeAt depth k (some o) arguments).start heap
            = (last.program.invokeAt (depth + 1) (r.program.resolveVirtual base m) (some o)
              arguments).start heap := by
  obtain ⟨k, hk, hcount, hforwards⟩ := hrun.forwards hbase hstanding hconcrete hfits hagrees
  exact ⟨k, hk, fun depth o arguments heap hdepth hlength =>
    hforwards.start_invokeAt hdepth (hlength.trans hcount.symm) heap⟩

/-- In a realm of one registry that is not out of rows, what runs on a class has the signature of
the method that is called. -/
theorem Reachable.agrees_resolveVirtual (h : Reachable r) (hone : r.registries.size ≤ 1)
    (hfew : r.program.rows ≤ 2 ^ 24) (hstanding : r.program.Standing base)
    (hm : r.program.OnChain base m) :
    (r.program.method (r.program.resolveVirtual base m)).signature.agrees
      (r.program.method m).signature :=
  (h.upright.built hstanding).agrees_resolveVirtual (h.ownTokens hone hfew base)
    (h.distinctTokens hone hfew).localTokens hm

/-- A class `App.A` whose method `M` gives back its argument. -/
def echoClass : ClassSpec :=
  ({ space := "App", name := "A" } : ClassSpec).isPublic.method "M"
    (((({ body := .fixed (.argument 0) } : MethodSpec).virtual).returning .i4).parameter "x" .i4)

def echoTurns : List Turn := throughOne [.build echoClass, .openBatch, .propose 0 ⟨3⟩ "A_Proxy_1"]

/-- The override of the first method in the only batch, right after some turns. -/
def overridden (turns : List Turn) (through : Nat) : Realm :=
  (run {} turns).after (.move through (.edit 0 (.overrideMethod ⟨0⟩ methodOfFirst)))

theorem forwardingRun (turns : List Turn) (through : Nat) (hfits : FitsAll {} turns)
    (hcreated : (run {} turns).answer? through 0 (.overrideMethod ⟨0⟩ methodOfFirst)
      = some (.ok (.registered ⟨⟨0⟩, .method 0⟩ true)))
    (hout : (overridden turns through).outcome? through 0 #[] = some (.ok g)) :
    ForwardingRun (run {} turns) (overridden turns through)
      ((overridden turns through).after (.move through (.generate 0 #[])))
      through through 0 ⟨0⟩ methodOfFirst ⟨⟨0⟩, .method 0⟩ #[] g :=
  ⟨later_run turns hfits, hcreated, .refl, rfl, hout, .refl⟩

set_option maxRecDepth 10000 in
/-- The override of the proxy gives back its argument like the method of the class. -/
theorem untouched_override_transparent_echo :
    ∃ g k, (overridden echoTurns 0).outcome? 0 0 #[] = some (.ok g)
    ∧ g.emitted.methods.find? ⟨⟨0⟩, .method 0⟩ = some k
      ∧ ∀ (depth : Nat) (o : ObjectRef) (value : Value) (heap : Heap), depth < callDepthLimit →
        (((overridden echoTurns 0).after (.move 0 (.generate 0 #[]))).program.invokeAt depth k
          (some o) [value]).start heap
          = (((overridden echoTurns 0).after (.move 0 (.generate 0 #[]))).program.invokeAt
            (depth + 1) methodOfFirst (some o)
              [value]).start heap := by
  have hok : ((overridden echoTurns 0).outcome? 0 0 #[]).map (·.isOk) = some true := by
    decide +kernel
  obtain ⟨g, hout⟩ : ∃ g, (overridden echoTurns 0).outcome? 0 0 #[] = some (.ok g) := by
    obtain ⟨result, hout, hisOk⟩ := Option.map_eq_some_iff.mp hok
    cases result with
    | ok g => exact ⟨g, hout⟩
    | error f => cases hisOk
  have hlength : ((run {} echoTurns).program.method methodOfFirst).signature.arity = 1 := by
    decide +kernel
  have himplementation : (run {} echoTurns).program.resolveVirtual ⟨3⟩ methodOfFirst
    = methodOfFirst := by decide +kernel
  have hbase : ((run {} echoTurns).batches[0]?.bind (·.find? ⟨0⟩)).bind (·.base)
    = some (.ofClass ⟨3⟩) := by decide +kernel
  obtain ⟨k, hk, hsame⟩ :=
    untouched_override_transparent (forwardingRun echoTurns 0 (by decide +kernel)
    (by decide +kernel) hout)
    hbase (by decide +kernel) (by decide +kernel) (by decide +kernel) (by decide +kernel)
  rw [himplementation] at hsame
  exact ⟨g, k, hout, hk, fun depth o value heap hdepth =>
    hsame depth o [value] heap hdepth hlength.symm⟩

/-- A call of an override that nobody has touched ends like a call of what the base ran, whatever
signature that has. -/
def OverridesAreTransparent : Prop :=
  ∀ (r later last : Realm) (through into place : Nat) (t : TypeHandle) (m : MethodId)
    (handle : MethodHandle)
    (output : Array TypeId) (g : Generated) (base : TypeId),
    ForwardingRun r later last through into place t m handle output g →
    (r.batches[place]?.bind (·.find? t)).bind (·.base) = some (.ofClass base) →
      r.program.Standing base →
    (r.program.method (r.program.resolveVirtual base m)).isAbstract = false →
      (r.program.method m).signature.arity ≤ 65536 →
      ∃ k, g.emitted.methods.find? handle = some k
        ∧ ∀ (depth : Nat) (o : ObjectRef) (arguments : List Value) (heap : Heap),
        depth < callDepthLimit →
          arguments.length = (r.program.method m).signature.arity →
            (last.program.invokeAt depth k (some o) arguments).start heap
              = (last.program.invokeAt (depth + 1) (r.program.resolveVirtual base m) (some o)
                arguments).start heap

/-- The classes of two registries whose methods share a token, and a batch with a proxy of the
second one. -/
def strayTurns : List Turn :=
  twoRegistries ++ [.move 1 .openBatch, .move 1 (.propose 0 ⟨7⟩ "B_Proxy_1")]

set_option maxRecDepth 10000 in
/-- The override of the method without a result calls the method of the other class, and drops
its result. -/
theorem not_overridesAreTransparent : ¬ OverridesAreTransparent := by
  intro htransparent
  have hok : ((overridden strayTurns 1).outcome? 1 0 #[]).map (fun result => result.toOption.map
      fun g => g.emitted.methods.find? ⟨⟨0⟩, .method 0⟩) = some (some (some ⟨⟨8⟩, .method 0⟩)) := by
        decide +kernel
  obtain ⟨result, hout, hemitted⟩ := Option.map_eq_some_iff.mp hok
  cases result with
  | error f => cases hemitted
  | ok g =>
    simp only [Except.toOption, Option.map_some, Option.some.injEq] at hemitted
    obtain ⟨k, hk, hsame⟩ := htransparent _ _ _ 1 1 0 ⟨0⟩ methodOfFirst _ _ g ⟨7⟩
      (forwardingRun strayTurns 1 (by decide +kernel) (by decide +kernel) hout) (by decide +kernel)
      (by decide +kernel)
      (by decide +kernel) (by decide +kernel)
    rw [hemitted] at hk
    cases hk
    have hends := congrArg (·.1.toOption) (hsame 0 ⟨0, ⟨8⟩⟩ [] {} (by decide) (by decide +kernel))
    have hdrops :
      ((((overridden strayTurns 1).after (.move 1 (.generate 0 #[]))).program.invokeAt 0
      ⟨⟨8⟩, .method 0⟩
        (some ⟨0, ⟨8⟩⟩) []).start {}).1.toOption = some .void := by decide +kernel
    have hgives : ((((overridden strayTurns 1).after (.move 1 (.generate 0 #[]))).program.invokeAt 1
        ((run {} strayTurns).program.resolveVirtual ⟨7⟩ methodOfFirst) (some ⟨0, ⟨8⟩⟩)
        []).start {}).1.toOption
          = some (.i4 1) := by decide +kernel
    simp only [hdrops, hgives] at hends
    cases hends

end Realm

end TypeLoom
