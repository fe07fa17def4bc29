import TypeLoom.Proofs.Listing
import TypeLoom.Proofs.Requests

/-!
# Loads that fail

Modules are loaded one after the other. A fault that is found in a header leaves everything as it
was. After a later fault the modules that were read before it stay listed, and the caches are as
they were unless it was a participant that failed.
-/

namespace TypeLoom.Session

open Attempt

variable {cast : Cast} {requests : Requests} {p : PipelineId} {r : RegistryId}
  {s mid after : Session}

/-! ### Reading documents -/

def spaceOf (s : Session) (r : RegistryId) : TypeSpace :=
  { program := s.program, registry := s.registry r }

def readOne (document : Option String) : Attempt TypeSpace Unit := do
  let text ← Attempt.lift (requireDocument document)
  let _ ← Artifact.decode text

def readAll (documents : List (Option String)) : Attempt TypeSpace Unit := documents.forM readOne

theorem readAll_append {documents : List (Option String)} {document : Option String}
    {space space' space'' : TypeSpace} (h : (readAll documents).start space = (.ok (), space'))
    (hone : (readOne document).start space' = (.ok (), space'')) :
    (readAll (documents ++ [document])).start space = (.ok (), space'') := by
  induction documents generalizing space with
  | nil =>
    cases h
    exact start_bind_ok.mpr ⟨(), space'', hone, rfl⟩
  | cons first documents ih =>
    obtain ⟨_, next, hfirst, hrest⟩ := start_bind_ok.mp h
    exact start_bind_ok.mpr ⟨(), next, hfirst, ih hrest⟩

structure OnlyHeap (s s' : Session) : Prop where
  program : s'.program = s.program
  registries : s'.registries = s.registries
  pipelines : s'.pipelines = s.pipelines

theorem onlyHeap_classify (p : PipelineId) (loaded : Loaded) (t : TypeId) : Maintains (OnlyHeap s)
    (classify p loaded t) := by
  have hevaluate : Maintains (OnlyHeap s) (evaluate fun u => u.ensureInitialized t) := by
    refine maintains_bind maintains_get fun now => ?_
    intro s' h
    exact wp_const.mpr ⟨h.program, h.registries, h.pipelines⟩
  have hextract : Maintains (OnlyHeap s) (extractId p t) := by
    refine maintains_bind (maintains_ask _) fun f => maintains_bind hevaluate fun _ =>
      maintains_bind maintains_get fun now => ?_
    split
    · exact maintains_pure _
    · exact maintains_throw _
  refine maintains_bind maintains_get fun now => maintains_ite ?_ (maintains_pure _)
  exact maintains_bind (maintains_ask _) fun _ => maintains_bind hextract fun _ => maintains_pure _

/-- How far reading has come: the caches are as they were, and the registry is as reading left
it. -/
structure Reading (p : PipelineId) (s : Session) (done : List (Option String)) (mid : Session) :
    Prop where
  pipelines : mid.pipelines = s.pipelines
  size : mid.registries.size = s.registries.size
  read : (readAll done).start (s.spaceOf (s.pipeline p).registry)
    = (.ok (), mid.spaceOf (s.pipeline p).registry)

/-- Reading has stopped: the caches are as they were, and the documents that were read are
listed, one after the other. -/
structure Stopped (p : PipelineId) (s : Session) (documents : List (Option String))
    (after : Session) : Prop where
  pipelines : after.pipelines = s.pipelines
  listed : ∃ done rest space, documents = done ++ rest
    ∧ (readAll done).start (s.spaceOf (s.pipeline p).registry) = (.ok (), space)
    ∧ (after.registry (s.pipeline p).registry).listings = space.registry.listings

theorem Reading.onlyHeap {done : List (Option String)} (h : Reading p s done mid)
    (ho : OnlyHeap mid after) :
    Reading p s done after where
  pipelines := ho.pipelines.trans h.pipelines
  size := by rw [ho.registries, h.size]
  read := by
    rw [h.read, spaceOf, spaceOf, registry, registry, ho.program, ho.registries]

theorem Reading.stopped {done rest documents : List (Option String)} (h : Reading p s done mid)
    (hsplit : documents = done ++ rest) : Stopped p s documents mid :=
  ⟨h.pipelines, done, rest, _, hsplit, h.read, rfl⟩

theorem registry_setRegistry (hr : r.index < s.registries.size) (registry : Registry) :
    (s.setRegistry r registry).registry r = registry := by
  simp [setRegistry, Session.registry, Array.getD_eq_getD_getElem?, hr]

theorem wp_readDocument {done rest documents : List (Option String)} {document : Option String}
    (loaded : Loaded) (hr : (s.pipeline p).registry.index < s.registries.size)
    (hsplit : documents = done ++ document :: rest) (h : Reading p s done mid) :
    (readDocument p loaded document).wp (fun _ => Reading p s (done ++ [document]))
        (Stopped p s documents) mid := by
  have hpipeline : mid.pipeline p = s.pipeline p := by rw [pipeline, h.pipelines, pipeline]
  unfold readDocument
  rw [wp_bind, wp_lift]
  refine ⟨fun text htext => ?_, fun _ _ => h.stopped hsplit⟩
  rw [wp_bind, wp_get, wp_bind, hpipeline, inRegistry, wp_within]
  have hr' : (s.pipeline p).registry.index < mid.registries.size := by
    rw [h.size]
    exact hr
  have hdecode := wp_iff.mp (Artifact.wp_decode text (mid.spaceOf (s.pipeline p).registry))
  refine wp_iff.mpr ⟨fun read space hread => ?_, fun fault space hread => ?_⟩
  · have hone : (readOne document).start (mid.spaceOf (s.pipeline p).registry) = (.ok (), space) :=
      start_bind_ok.mpr ⟨text, mid.spaceOf (s.pipeline p).registry, by
        rw [htext, start_lift], start_bind_ok.mpr ⟨read, space, hread, rfl⟩⟩
    let now : Session :=
      { mid.setRegistry (s.pipeline p).registry space.registry with program := space.program }
    have hnext : Reading p s (done ++ [document]) now := by
      refine ⟨h.pipelines, ?_, ?_⟩
      · rw [← h.size]
        exact Array.size_setIfInBounds
      · refine readAll_append h.read (hone.trans ?_)
        rw [spaceOf]
        congr 1
        show space =
          { program := space.program, registry := (mid.setRegistry _ space.registry).registry _ }
        rw [registry_setRegistry hr']
    have hheap : (read.2.foldlM (classify p) loaded).wp (fun _ => OnlyHeap now)
      (OnlyHeap now) now :=
      maintains_foldlM read.2 (fun loaded t => onlyHeap_classify p loaded t) loaded
        now ⟨rfl, rfl, rfl⟩
    refine wp_mono hheap (fun _ after ho => hnext.onlyHeap ho) fun after ho => ?_
    exact (hnext.onlyHeap ho).stopped (by rw [hsplit, List.append_assoc, List.singleton_append])
  · refine ⟨h.pipelines, done, document :: rest, _, hsplit, h.read, ?_⟩
    show ((mid.setRegistry _ space.registry).registry _).listings = _
    rw [registry_setRegistry hr']
    exact (hdecode.2 fault space hread).listings

theorem wp_readDocuments (documents : List (Option String))
    (hr : (s.pipeline p).registry.index < s.registries.size) :
    (documents.foldlM (readDocument p) {}).wp (fun _ => Reading p s documents)
    (Stopped p s documents) s := by
  suffices hgo : ∀ rest done mid loaded, documents = done ++ rest → Reading p s done mid →
      (rest.foldlM (readDocument p) loaded).wp (fun _ => Reading p s documents)
      (Stopped p s documents) mid from
    hgo documents [] s {} rfl ⟨rfl, rfl, rfl⟩
  intro rest
  induction rest with
  | nil =>
    intro done mid loaded hsplit h
    rw [List.append_nil] at hsplit
    subst hsplit
    exact h
  | cons document rest ih =>
    intro done mid loaded hsplit h
    rw [List.foldlM_cons]
    refine wp_step (wp_readDocument loaded hr hsplit h) (fun loaded next hnext => ?_) fun _
      hafter => hafter
    exact ih (done ++ [document]) next loaded
      (by rw [hsplit, List.append_assoc, List.singleton_append]) hnext

/-! ### Loads -/

theorem start_checkDocuments {configuration : String} (documents : List (Option String))
    {result : Except Fault PUnit} (h : (documents.forM fun document =>
      (Attempt.lift (checkDocument configuration document) : Attempt Session Unit)).start s
        = (result, after)) :
    after = s ∧ ∀ f, result = .error f → ∃ document ∈ documents,
        checkDocument configuration document = .error f := by
  induction documents with
  | nil =>
    cases h
    exact ⟨rfl, fun f hf => by cases hf⟩
  | cons document documents ih =>
    rw [forM_cons, start_bind, start_lift] at h
    cases hcheck : checkDocument configuration document with
    | error f =>
      rw [hcheck] at h
      cases h
      refine ⟨rfl, fun f hf => ⟨document, List.mem_cons_self, ?_⟩⟩
      rw [hcheck, hf]
    | ok v =>
      rw [hcheck] at h
      obtain ⟨hsame, hfound⟩ := ih h
      refine ⟨hsame, fun f hf => ?_⟩
      obtain ⟨found, hmem, hfail⟩ := hfound f hf
      exact ⟨found, List.mem_cons_of_mem _ hmem, hfail⟩

end TypeLoom.Session
