import TypeLoom.Proofs.FlushedFiles
import TypeLoom.Proofs.Reloading

/-!
# Pages

What a flush writes, with the session in which each module was written. The document of a page is
read as the tree that was written, so what reading it does can be said without its text.
-/

namespace TypeLoom.Session

open Attempt

variable {p q : PipelineId} {start s s' mid : Session}

/-! ### Modules that are written -/

/-- A module as it is written: who declared its types, and the text. -/
structure Page where
  session : Session
  generator : GeneratorId
  configuration : String
  text : String
  deriving Inhabited

namespace Page

def types (page : Page) : List TypeId := page.session.generatedTypes page.generator

def header (page : Page) : Artifact.Header :=
  ⟨moduleId, (page.session.generator page.generator).moduleName, page.configuration⟩

def Printed (page : Page) : Prop :=
  Artifact.encode page.session.program page.header page.types = .ok page.text

end Page

theorem wp_flushGenerator_page (g : GeneratorId) (configuration : String) (s : Session) :
    (flushGenerator g configuration).wp (fun written _ => ∀ v, written = some v →
      Page.Printed ⟨s, g, configuration, v.text⟩)
      (fun _ => True) s := by
  unfold flushGenerator
  rw [wp_bind, wp_get, wp_ite]
  refine ⟨fun _ => nofun, fun _ => ?_⟩
  have hrest : (do
      let text ← Attempt.lift (Artifact.encode s.program ⟨moduleId, (s.generator g).moduleName,
        configuration⟩ (s.generatedTypes g))
      writeFile (s.naming (s.generator g).naming).directory ((s.generator g).moduleName ++ ".xml")
        text
      startModule g
      return some (⟨(s.generator g).moduleName ++ ".xml", text⟩ : WrittenModule) :
        Attempt Session _).wp
      (fun written _ => ∀ v, written = some v → Page.Printed ⟨s, g, configuration, v.text⟩)
          (fun _ => True) s := by
    rw [wp_bind, wp_lift]
    refine ⟨fun text htext => ?_, fun _ _ => trivial⟩
    have hprinted : Page.Printed ⟨s, g, configuration, text⟩ := htext
    refine wp_step (wp_const.mpr trivial) (fun _ _ _ => ?_) fun _ h => h
    refine wp_step (wp_const.mpr trivial) (fun _ _ _ => ?_) fun _ h => h
    rintro v ⟨⟩
    exact hprinted
  rw [wp_ite]
  exact ⟨fun _ => trivial, fun _ => hrest⟩

def pagesFrom (p : PipelineId) : List ContextId → Session → List Page
  | [], _ => []
  | c :: rest, s =>
    let configuration := (s.pipeline p).configuration
    match (flushGenerator (s.contextGenerator c) configuration).start s with
    | (.ok (some written), after) =>
      ⟨s, s.contextGenerator c, configuration, written.text⟩ :: pagesFrom p rest after
    | (.ok none, after) => pagesFrom p rest after
    | (.error _, _) => []

def flushedPages (p : PipelineId) (s : Session) : List Page :=
  match (dequeueAll (s.pipeline p).pool Thread.main).start s with
  | (.ok contexts, taken) => pagesFrom p contexts taken
  | (.error _, _) => []

theorem pagesFrom_of_flushContexts {contexts : List ContextId} {modules : List WrittenModule}
    (h : start.Remains s) (hflush : (flushContexts p contexts).start s = (.ok modules, s')) :
    (pagesFrom p contexts s).map (·.text) = modules.map (·.text)
      ∧ ∀ page ∈ pagesFrom p contexts s, start.Remains page.session ∧ page.Printed := by
  induction contexts generalizing s modules with
  | nil =>
    cases hflush
    exact ⟨rfl, nofun⟩
  | cons c rest ih =>
    obtain ⟨_, _, hget, hflush⟩ := start_bind_ok.mp hflush
    cases hget
    obtain ⟨written, mid, hwritten, hflush⟩ := start_bind_ok.mp hflush
    obtain ⟨others, last, hothers, hend⟩ := start_bind_ok.mp hflush
    cases hend
    have hkeeps := maintains_flushGenerator (aloof_remains start) (fun s g =>
      remains_giveUpUnfinished s g) (s.contextGenerator c)
      (s.pipeline p).configuration
    have hmid := wp_ok (hkeeps s h) hwritten
    obtain ⟨htexts, hpages⟩ := ih hmid hothers
    cases written with
    | none =>
      have hsame : pagesFrom p (c :: rest) s = pagesFrom p rest mid := by
        rw [pagesFrom, hwritten]
      rw [hsame]
      exact ⟨htexts, hpages⟩
    | some v =>
      have hsame : pagesFrom p (c :: rest) s
          = ⟨s, s.contextGenerator c, (s.pipeline p).configuration, v.text⟩
          :: pagesFrom p rest mid := by
        rw [pagesFrom, hwritten]
      have hprinted :=
        wp_ok (wp_flushGenerator_page (s.contextGenerator c) (s.pipeline p).configuration s)
        hwritten v rfl
      rw [hsame]
      refine ⟨?_, List.forall_mem_cons.mpr ⟨⟨h, hprinted⟩, hpages⟩⟩
      rw [List.map_cons, htexts]
      rfl

/-- A flush writes its pages, and each says what the finished types of a generator were then. -/
theorem pages_of_flush {modules : List WrittenModule} (h : (flush p).start s = (.ok modules, s')) :
    (flushedPages p s).map (·.text) = modules.map (·.text) ∧ ∀ page ∈ flushedPages p s,
    s.Remains page.session ∧ page.Printed := by
  obtain ⟨_, _, hget, h⟩ := start_bind_ok.mp h
  cases hget
  obtain ⟨contexts, taken, htaken, h⟩ := start_bind_ok.mp h
  obtain ⟨outcome, mid, houtcome, h⟩ := start_bind_ok.mp h
  obtain ⟨_, last, -, hend⟩ := start_bind_ok.mp h
  have hremains : s.Remains taken := by
    have hkeeps : Maintains s.Remains (dequeueAll (s.pipeline p).pool Thread.main) := by
      refine maintains_bind (maintains_ask _) fun found => ?_
      split
      · exact maintains_throw _
      · exact maintains_bind (maintains_aside (aloof_remains s) fun _ => ⟨rfl, rfl, rfl⟩) fun _ =>
          maintains_pure _
    have hkept := wp_ok (hkeeps s (.refl s)) htaken
    exact hkept
  have hpages : flushedPages p s = pagesFrom p contexts taken := by rw [flushedPages, htaken]
  rw [hpages]
  rcases hrun : (flushContexts p contexts).start taken with ⟨found, done⟩
  rw [start_outcome, hrun] at houtcome
  cases houtcome
  rw [start_lift] at hend
  cases hend
  exact pagesFrom_of_flushContexts hremains hrun

variable {page : Page}

/-! ### Pages as trees -/

open Markup in
/-- What reading a document does once the document is a tree. -/
def decodeRoot (root : Node) : Attempt TypeSpace (Artifact.Header × List TypeId) := do
  let header ← Attempt.lift (Artifact.Header.ofNode root)
  let (outcome, after) := (Artifact.Loading.load (root.childrenNamed "type")).start
    { space := ← get }
  set after.space
  match outcome with
  | .ok types => return (header, types)
  | .error fault => throw fault

open Markup in
def readRoot (q : PipelineId) (loaded : Loaded) (root : Node) : Attempt Session Loaded := do
  let (_, types) ← inRegistry ((← get).pipeline q).registry (decodeRoot root)
  types.foldlM (classify q) loaded

def Page.root (page : Page) : Markup.Node :=
  page.header.node.append
    ((page.types.mapM (Artifact.encodeType page.session.program)).toOption.getD [])

theorem Page.Printed.parse (h : page.Printed) : Markup.Node.parse page.text = .ok page.root := by
  rw [Page.Printed, Artifact.encode] at h
  cases hnodes : page.types.mapM (Artifact.encodeType page.session.program) with
  | error fault =>
    rw [hnodes] at h
    cases h
  | ok nodes =>
    rw [hnodes] at h
    rw [← Except.ok.inj h, Page.root, hnodes]
    exact Artifact.parse_render_module hnodes

theorem Page.Printed.decode (h : page.Printed) :
    Artifact.decode page.text = decodeRoot page.root := by
  rw [Artifact.decode, h.parse]
  rfl

theorem Page.Printed.readDocument (h : page.Printed) (loaded : Loaded) :
    readDocument q loaded (some page.text) = readRoot q loaded page.root := by
  rw [Session.readDocument, requireDocument, readRoot, ← h.decode]
  rfl

theorem Page.Printed.checkDocument (h : page.Printed) {configuration : String}
    (hheader : (Artifact.Header.ofNode page.root).toOption.map (·.configuration)
      = some configuration) :
    checkDocument configuration (some page.text) = .ok () := by
  have hread : Artifact.Header.read page.text = Artifact.Header.ofNode page.root := by
    rw [Artifact.Header.read, h.parse]
    rfl
  rw [Session.checkDocument, requireDocument]
  cases hof : Artifact.Header.ofNode page.root with
  | error fault =>
    rw [hof] at hheader
    cases hheader
  | ok header =>
    rw [hof] at hheader
    have hsame : header.configuration = configuration := Option.some.inj hheader
    rw [hof] at hread
    show (Artifact.Header.read page.text >>= _) = _
    rw [hread]
    exact if_neg (not_not_intro hsame)

theorem foldlM_page (hprinted : page.Printed) : [some page.text].foldlM (readDocument q)
    {} = readRoot q {} page.root := by
  rw [List.foldlM_cons, hprinted.readDocument]
  exact bind_pure _

/-- A page is loaded by a pipeline whose participants have nothing to rebuild when its document
can be read. -/
theorem load_page {cast : Cast} {requests : Command → Attempt Session Reply} {loaded : Loaded}
    (hprinted : page.Printed)
    (hquiet : ∀ participant ∈ cast q, participant.rebuild = fun _ _ => return ())
    (hheader : (Artifact.Header.ofNode page.root).toOption.map (·.configuration)
      = some (start.pipeline q).configuration)
    (hread : (readRoot q {} page.root).start start = (.ok loaded, mid)) :
    ∃ after, (load cast requests q [some page.text]).start start
        = (.ok (loaded.proxies.length + loaded.additional.length), after) := by
  have hdocuments : ([some page.text].foldlM (readDocument q) {}).start start
      = (.ok loaded, mid) := by
    rw [foldlM_page hprinted]
    exact hread
  have hchecks : ([some page.text].forM fun document =>
      (Attempt.lift (Session.checkDocument (start.pipeline q).configuration document) : Attempt
          Session Unit)).start start = (.ok (), start) := by
    rw [forM_cons, hprinted.checkDocument hheader]
    rfl
  have hrebuilds : ∀ (participants : List Participant) (s : Session),
    (∀ participant ∈ participants, participant.rebuild = fun _ _ => return ()) →
      (participants.forM fun participant =>
        (participant.rebuild loaded.proxies loaded.additional).run (Action.perform requests)).start
            s = (.ok (), s) := by
    intro participants
    induction participants with
    | nil => exact fun _ _ => rfl
    | cons participant participants ih =>
      intro s hquiet
      obtain ⟨hfirst, hquiet⟩ := List.forall_mem_cons.mp hquiet
      rw [forM_cons, hfirst]
      exact ih s hquiet
  exact ⟨_, start_bind_ok.mpr ⟨start, start, rfl,
    start_bind_ok.mpr ⟨⟨⟩, start, hchecks, start_bind_ok.mpr ⟨loaded, mid, hdocuments,
    start_bind_ok.mpr ⟨_, _, rfl, start_bind_ok.mpr ⟨⟨⟩, _, hrebuilds (cast q) _ hquiet, rfl⟩⟩⟩⟩⟩⟩

/-! ### What can be seen of a page -/

/-- What can be seen of a type without enclosing type: the names of its constructors and of its
initializer. -/
def looksProper (u : Universe) (t : TypeId) : Bool :=
  u.isPresent t && (u.record t).constructors.toList.all (·.name == ".ctor") &&
      (u.record t).initializer.all fun m =>
    m.owner == t && ((u.record t).method? m.slot).any fun c =>
      c.name == ".cctor" && c.signature.parameters.isEmpty

theorem proper_of_looksProper {u : Universe} (h : looksProper u t = true) :
    u.isPresent t = true ∧ (u.record t).Proper t := by
  rw [looksProper, Bool.and_eq_true, Bool.and_eq_true, List.all_eq_true] at h
  obtain ⟨⟨hpresent, hconstructors⟩, hinitializer⟩ := h
  refine ⟨hpresent, fun index c hc => ?_, fun m hm => ?_⟩
  · exact beq_iff_eq.mp (hconstructors c (Array.mem_toList_iff.mpr (Array.mem_of_getElem? hc)))
  · rw [hm, Option.all_some, Bool.and_eq_true, Option.any_eq_true] at hinitializer
    obtain ⟨howner, c, hc, hlooks⟩ := hinitializer
    rw [Bool.and_eq_true, List.isEmpty_iff] at hlooks
    exact ⟨beq_iff_eq.mp howner, c, hc, beq_iff_eq.mp hlooks.1, hlooks.2⟩

section Flat

variable {u : Universe} (hflat : ∀ r ∈ u.types.toList, r.declaring = none)
include hflat

theorem declaring_of_flat (t : TypeId) : (u.record t).declaring = none := by
  rw [Universe.record, Array.getD_eq_getD_getElem?]
  cases hrow : u.types[t.index]? with
  | none => rfl
  | some r => exact hflat r (Array.mem_toList_iff.mpr (Array.mem_of_getElem? hrow))

theorem named_of_flat (ht : u.isPresent t = true) : u.Named t (u.fullName t) := by
  refine Universe.named_fullName ht fun outer houter => ?_
  rw [Universe.declaring?, declaring_of_flat hflat] at houter
  cases houter

theorem moduleTypes_of_flat {types : List TypeId} (hproper : ∀ t ∈ types, looksProper u t = true)
    (hown : ∀ t ∈ types, (u.record t).initializer = (u.record t).ownInitializer.map fun _ =>
      ⟨t, .typeInitializer⟩)
    (hdistinct : (types.map u.fullName).Nodup) : Artifact.ModuleTypes u types where
  named := fun t ht => named_of_flat hflat (proper_of_looksProper (hproper t ht)).1
  proper := fun t ht => (proper_of_looksProper (hproper t ht)).2
  own := hown
  distinct := hdistinct

end Flat

theorem tidy_of_flat {space : TypeSpace}
    (hflat : ∀ r ∈ space.program.types.toList, r.declaring = none)
    (hlisted : ∀ l ∈ space.registry.listings, looksProper space.program l.type = true
      ∧ space.program.fullName l.type = l.name) :
    Artifact.Tidy space := by
  refine ⟨fun t outer houter => ?_, fun l hl => ?_, fun l hl =>
    (proper_of_looksProper (hlisted l hl).1).2⟩
  · rw [declaring_of_flat hflat] at houter
    cases houter
  · rw [← (hlisted l hl).2]
    exact named_of_flat hflat (proper_of_looksProper (hlisted l hl).1).1

/-- What can be seen of a page: its types can be written and read back. -/
def looksReadable (page : Page) : Bool :=
  page.session.program.types.toList.all (·.declaring.isNone) && page.types.all (fun t =>
    looksProper page.session.program t
    && (page.session.program.record t).initializer
      == (page.session.program.record t).ownInitializer.map fun _ => ⟨t, .typeInitializer⟩)
    && decide (page.types.map page.session.program.fullName).Nodup
    && (page.types.mapM (Artifact.encodeType page.session.program)).toOption.any Artifact.exactTrees

theorem readable_of_looksReadable (h : looksReadable page = true) :
    Artifact.Readable page.session.program page.types := by
  simp only [looksReadable, Bool.and_eq_true, List.all_eq_true, Option.isNone_iff_eq_none,
    beq_iff_eq, decide_eq_true_eq] at h
  obtain ⟨⟨⟨hflat, hproper⟩, hdistinct⟩, hexact⟩ := h
  refine ⟨moduleTypes_of_flat hflat (fun t ht => (hproper t ht).1) (fun t ht => (hproper t ht).2)
    hdistinct, fun nodes hnodes => ?_⟩
  rw [hnodes] at hexact
  exact Artifact.exactTrees_iff.mp hexact

theorem pages_of_length (h : (flushedPages p s).length = 1) :
    flushedPages p s = [(flushedPages p s).headD default] := by
  obtain ⟨page, hpage⟩ := List.length_eq_one_iff.mp h
  rw [hpage]
  rfl

end TypeLoom.Session
