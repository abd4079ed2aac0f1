import Inlay.Proofs.Workspace.Memo

/-!
# Incremental analysis

A session keeps documents while their source is the same, types of bindings while the
knowledge base is the same, and views of the knowledge base while no plan names them.
`analyze_eq_scratch` says that none of this can be seen: an analysis finds what
`scratch` finds, which reads and checks all documents of the file anew, with an empty
memo for each and a knowledge base without its memo.

It is proved for any parsers, and for hosts that are `Faithful`: their types do not change, and
another text has another identity.  What a session keeps is `Settled` in all runs with such
hosts.
-/

namespace Inlay

open Markup

/-- The types of a host are given, and so is the text of each source by its
identity. -/
structure Host.Faithful (types : TypeProvider) (text : String → Nat → String) (host : Host) :
    Prop where
  types : host.types = types
  text : ∀ {file source}, host.source? file = some source → source.text = text file source.id

namespace Session

/-! ## Analysis from scratch -/

section Scratch

variable (parsers : Parsers)

/-- Check a document, and the bodies of its style elements, without any memo. -/
def scratchDocument (host : Host) (visible : List String) (s : Session) (d : Document) :
    List Diagnostic :=
  match d.dialect with
  | .stylesheet => InvalidCss.checkWith parsers.stylesheet s.config.settings d
  | .markup =>
    let tree := Tree.ofDocument d
    let scene : Scene :=
      { document := d, tree := tree, settings := s.config.settings, visibleFiles := some visible }
    ((Engine.checkMarkup scene host.types []).value s.knowledge.fresh).diagnostics ++
      tree.styleContents.flatMap fun r =>
        InvalidCss.checkWith parsers.stylesheet s.config.settings (d.slice r .stylesheet)

/-- Analyze a file as if nothing about it had been kept.  What discovery reported is part
of the session and not computed here. -/
def scratch (host : Host) (s : Session) (file : String) : List Diagnostic :=
  (match host.source? file with
    | none => []
    | some source =>
      ((documents? parsers.host file source.text s.config.tags).getD []).flatMap
        (s.scratchDocument parsers host (file :: host.imports file))) ++
    s.discoveryDiagnostics file

end Scratch

/-! ## Checking documents -/

variable {parsers : Parsers} {types : TypeProvider} {text : String → Nat → String} {host : Host}
  {s : Session}

theorem checkDocuments_spec (parsers : Parsers) (host : Host) (visible : List String)
    {es : List DocumentEntry} (hkb : Informed s.knowledge)
    (hes : ∀ e ∈ es, e.Current host.types s.generation s.knowledge.fresh) :
    (checkDocuments parsers host visible s es).2.1 =
        (es.map DocumentEntry.parsed).flatMap
          (diagnose parsers host visible s.config.settings s.knowledge.fresh) ∧
      (checkDocuments parsers host visible s es).2.2.map DocumentEntry.parsed =
        es.map DocumentEntry.parsed ∧
      ∀ e ∈ (checkDocuments parsers host visible s es).2.2,
        e.Current host.types s.generation s.knowledge.fresh := by
  induction es generalizing s with
  | nil => exact ⟨rfl, rfl, List.forall_mem_nil _⟩
  | cons e rest ih =>
    rw [List.forall_mem_cons] at hes
    obtain ⟨hfound, hparsed, hcurrent⟩ := value_checkDocument visible hkb hes.1
    have hfresh : (s.consult (checkDocument parsers host visible s e)).1.knowledge.fresh =
        s.knowledge.fresh := Consult.fresh_recorded _ _
    have hrest := @ih (s.consult (checkDocument parsers host visible s e)).1 (hkb.record _) (by
      rw [hfresh]
      exact hes.2)
    rw [hfresh] at hrest
    obtain ⟨hmore, hentries, hall⟩ := hrest
    refine ⟨?_, ?_, ?_⟩
    · rw [List.map_cons, List.flatMap_cons, ← hfound]
      exact congrArg _ hmore
    · exact congrArg₂ List.cons hparsed hentries
    · exact List.forall_mem_cons.mpr ⟨hcurrent, hall⟩

/-- The documents that a document is read into, with their trees. -/
def parsedOf (d : Document) : List (Document × Option Tree) :=
  match d.dialect with
  | .stylesheet => [(d, none)]
  | .markup =>
    (d, some (Tree.ofDocument d)) ::
      (Tree.ofDocument d).styleContents.map fun r => (d.slice r .stylesheet, none)

theorem map_parsed_entriesOf (generation : Nat) (d : Document) :
    (entriesOf generation d).map DocumentEntry.parsed = parsedOf d := by
  rw [entriesOf, parsedOf]
  cases d.dialect with
  | stylesheet => rfl
  | markup =>
    rw [List.map_cons, List.map_map]
    rfl

theorem map_parsed_documentsOf (parsers : Parsers) (s : Session) (file : String) (source : Source) :
    (s.documentsOf parsers file source).map DocumentEntry.parsed =
      ((documents? parsers.host file source.text s.config.tags).getD []).flatMap parsedOf := by
  rw [documentsOf, List.map_flatMap]
  exact List.flatMap_congr fun d _ => map_parsed_entriesOf s.generation d

theorem current_entriesOf {generation : Nat} {kb : Knowledge} {d : Document} {e : DocumentEntry}
    (he : e ∈ entriesOf generation d) : e.Current types generation kb := by
  have hmemo : ∀ {tree : Tree}, ∀ n ∈ tree.nodes,
      Engine.MemoHolds (types e.document.fileName) kb [] n :=
    fun _ _ _ _ _ _ _ ht => absurd ht.symm (Option.some_ne_none _)
  rw [entriesOf] at he
  split at he
  · obtain rfl := List.mem_singleton.mp he
    exact ⟨Nat.le_refl _, fun ht => absurd ht.symm (Option.some_ne_none _), fun _ _ _ => hmemo⟩
  · rcases List.mem_cons.mp he with rfl | he
    · exact ⟨Nat.le_refl _, fun ht => (Option.some.inj ht).symm, fun _ _ _ => hmemo⟩
    · obtain ⟨r, _, rfl⟩ := List.mem_map.mp he
      exact ⟨Nat.le_refl _, fun ht => absurd ht.symm (Option.some_ne_none _), fun _ _ _ => hmemo⟩

/-- Checking what a document is read into is checking the document from scratch. -/
theorem flatMap_diagnose_parsedOf (visible : List String) (d : Document) :
    (parsedOf d).flatMap (diagnose parsers host visible s.config.settings s.knowledge.fresh) =
      s.scratchDocument parsers host visible d := by
  rw [parsedOf, scratchDocument]
  cases hdialect : d.dialect with
  | stylesheet =>
    rw [List.flatMap_singleton]
    simp only [diagnose, hdialect]
  | markup =>
    rw [List.flatMap_cons, List.flatMap_map]
    simp only [diagnose, hdialect]
    rfl

/-! ## What a session keeps -/

/-- The documents that are kept for a file are those of its source. -/
structure FileCurrent (parsers : Parsers) (types : TypeProvider) (text : String → Nat → String)
    (s : Session) (file : String) (f : FileEntry) : Prop where
  text : f.source.text = text file f.source.id
  parsed : f.documents.map DocumentEntry.parsed =
    ((documents? parsers.host file f.source.text s.config.tags).getD []).flatMap parsedOf
  current : ∀ e ∈ f.documents, e.Current types s.generation s.knowledge.fresh

/-- What is kept for a file stays current if the generation tells that the knowledge base
has changed. -/
theorem FileCurrent.advance {file : String} {f : FileEntry}
    (h : s.FileCurrent parsers types text file f) {s' : Session} (hconfig : s'.config = s.config)
    (hgeneration : s.generation < s'.generation ∨
      (s'.generation = s.generation ∧ s'.knowledge.fresh = s.knowledge.fresh)) :
    s'.FileCurrent parsers types text file f := by
  refine ⟨h.text, ?_, fun e he => ?_⟩
  · rw [hconfig]
    exact h.parsed
  · rcases hgeneration with hlt | ⟨hsame, hfresh⟩
    · exact (h.current e he).later hlt
    · rw [hsame, hfresh]
      exact h.current e he

/-- All that a session keeps is what it would compute now. -/
structure Settled (parsers : Parsers) (types : TypeProvider) (text : String → Nat → String)
    (s : Session) : Prop where
  informed : Informed s.knowledge
  files : ∀ {file f}, s.files.lookup file = some f → s.FileCurrent parsers types text file f

namespace Settled

theorem advance (h : s.Settled parsers types text) {s' : Session} (hkb : Informed s'.knowledge)
    (hconfig : s'.config = s.config) (hfiles : s'.files = s.files)
    (hgeneration : s.generation < s'.generation ∨
      (s'.generation = s.generation ∧ s'.knowledge.fresh = s.knowledge.fresh)) :
    s'.Settled parsers types text := by
  refine ⟨hkb, fun {file f} hf => ?_⟩
  rw [hfiles] at hf
  exact (h.files hf).advance hconfig hgeneration

/-- A session stays settled when it replaces what it keeps for one file by something
current. -/
theorem setEntry (h : s.Settled parsers types text) {s' : Session} {file : String}
    {entry : FileEntry} (hkb : Informed s'.knowledge) (hconfig : s'.config = s.config)
    (hfiles : s'.files = Entries.set file entry s.files)
    (hsame : s'.generation = s.generation ∧ s'.knowledge.fresh = s.knowledge.fresh)
    (hentry : s'.FileCurrent parsers types text file entry) : s'.Settled parsers types text := by
  refine ⟨hkb, fun {file' f} hf => ?_⟩
  rw [hfiles] at hf
  by_cases hfile : file' = file
  · rw [hfile] at hf ⊢
    obtain rfl := Option.some.inj ((Entries.lookup_set_self file entry s.files).symm.trans hf)
    exact hentry
  · have hother := h.files ((Entries.lookup_set_ne hfile entry s.files).symm.trans hf)
    exact hother.advance hconfig (.inr hsame)

theorem forgetDefinitions (h : s.Settled parsers types text) (ds : List Definition) :
    (s.forgetDefinitions ds).Settled parsers types text := by
  rw [Session.forgetDefinitions]
  split
  · exact h
  · exact h.advance ((h.informed.forget _).absorb _) rfl rfl (.inl (Nat.lt_succ_self _))

theorem drop (h : s.Settled parsers types text) (file : String) :
    (s.dropDiscovered file).Settled parsers types text := by
  rw [dropDiscovered]
  split
  · exact h
  · have hdiscovered :
      { s with discovered := Entries.erase file s.discovered }.Settled parsers types text :=
      h.advance h.informed rfl rfl (.inr ⟨rfl, rfl⟩)
    exact hdiscovered.forgetDefinitions _

theorem learn (h : s.Settled parsers types text) (file : String) (d : DiscoveredFile) :
    (s.learn file d).Settled parsers types text := by
  have hadded : (s.addDefinitions d.result.definitions).Settled parsers types text := by
    rw [addDefinitions]
    split
    · exact h
    · exact h.advance (h.informed.absorb _) rfl rfl (.inl (Nat.lt_succ_self _))
  exact hadded.advance hadded.informed rfl rfl (.inr ⟨rfl, rfl⟩)

theorem load (h : s.Settled parsers types text) (hhost : host.Faithful types text) {file : String}
    {source : Source} (hsource : host.source? file = some source) :
    (s.load parsers file source).Settled parsers types text := by
  refine h.setEntry h.informed rfl rfl ⟨rfl, rfl⟩
    ⟨hhost.text hsource, map_parsed_documentsOf parsers s file source, fun e he => ?_⟩
  obtain ⟨d, _, he⟩ := List.mem_flatMap.mp he
  exact current_entriesOf he

theorem check (h : s.Settled parsers types text) (hhost : host.Faithful types text) {file : String}
    {entry : FileEntry} (hentry : s.files.lookup file = some entry) :
    (s.checkFile parsers host file entry).1.Settled parsers types text := by
  obtain ⟨qs, hqs⟩ := checkFile_fst parsers host s file entry
  have hcurrent := h.files hentry
  obtain ⟨_, hparsed, hall⟩ := checkDocuments_spec parsers host (file :: host.imports file)
    h.informed (by rw [hhost.types]; exact hcurrent.current)
  rw [hhost.types] at hall
  have hfresh := Knowledge.fresh_foldl_record qs s.knowledge
  rw [hqs]
  refine h.setEntry (h.informed.record qs) rfl rfl ⟨rfl, hfresh⟩
    ⟨hcurrent.text, hparsed.trans hcurrent.parsed, fun e he => ?_⟩
  show e.Current types s.generation (qs.foldl Knowledge.record s.knowledge).fresh
  rw [hfresh]
  exact hall e he

theorem stable : Stable parsers (Host.Faithful types text) (Settled parsers types text) where
  configure h c files :=
    ⟨h.informed.reconfigure _, fun hf => absurd hf.symm (Option.some_ne_none _)⟩
  eraseEntry h file := by
    refine ⟨h.informed, fun hf => ?_⟩
    exact (h.files (Entries.lookup_of_lookup_erase hf)).advance rfl (.inr ⟨rfl, rfl⟩)
  count h n := h.advance h.informed rfl rfl (.inr ⟨rfl, rfl⟩)
  drop h := h.drop
  learn _ h _ _ := h.learn _ _
  load hhost h hsource := h.load hhost hsource
  consult h _ c :=
    h.advance (h.informed.record _) rfl rfl (.inr ⟨rfl, Consult.fresh_recorded c _⟩)
  check hhost h hentry := h.check hhost hentry

theorem new : Session.new.Settled parsers types text := by
  have hknowledge : Session.new.knowledge = Knowledge.standard := by rw [Session.new]
  have hfiles : Session.new.files = [] := rfl
  refine ⟨?_, fun {file f} hf => ?_⟩
  · rw [hknowledge]
    exact Informed.standard
  · rw [hfiles] at hf
    exact absurd hf.symm (Option.some_ne_none f)

end Settled

/-! ## The two analyses -/

theorem lookup_ensureDocuments {file : String} {source : Source}
    (hsource : host.source? file = some source) :
    ∃ f, (s.ensureDocuments parsers host file).files.lookup file = some f ∧
      f.source.id = source.id := by
  rw [ensureDocuments, hsource]
  dsimp only
  split
  · next hkeep =>
    cases hf : s.files.lookup file with
    | none =>
      rw [hf] at hkeep
      exact absurd hkeep Bool.false_ne_true
    | some f =>
      rw [hf, Option.any_some] at hkeep
      exact ⟨f, rfl, of_decide_eq_true hkeep⟩
  · exact ⟨_, Entries.lookup_set_self file _ s.files, rfl⟩

/-- Making the documents of a file current changes nothing else. -/
theorem ensureDocuments_eq (parsers : Parsers) (host : Host) (s : Session) (file : String) :
    ∃ files, s.ensureDocuments parsers host file = { s with files := files } := by
  rw [ensureDocuments]
  split
  · exact ⟨_, rfl⟩
  · dsimp only
    split
    · exact ⟨s.files, rfl⟩
    · exact ⟨_, rfl⟩

theorem discoveryDiagnostics_checkFile (parsers : Parsers) (host : Host) (s : Session)
    (file : String) (entry : FileEntry) :
    (s.checkFile parsers host file entry).1.discoveryDiagnostics file =
      s.discoveryDiagnostics file := by
  obtain ⟨qs, hqs⟩ := checkFile_fst parsers host s file entry
  rw [hqs]
  rfl

/-- After any run, an analysis finds what an analysis from scratch finds. -/
theorem analyze_eq_scratch (parsers : Parsers) (types : TypeProvider)
    (text : String → Nat → String) (rs : List Request)
    (hrs : ∀ r ∈ rs, ∀ host, r.host? = some host → host.Faithful types text)
    (host : Host) (hhost : host.Faithful types text) (file : String) :
    ((new.after parsers rs).analyze parsers host file).2 =
      ((new.after parsers rs).sync host).scratch parsers host file := by
  have hsettled : (new.after parsers rs).Settled parsers types text :=
    Settled.stable.after Settled.new hrs
  have hprepared := Settled.stable.prepare hhost hsettled file
  rw [analyze_eq, scratch]
  rw [prepare] at hprepared ⊢
  generalize (new.after parsers rs).sync host = s at hprepared ⊢
  obtain ⟨files, heq⟩ := ensureDocuments_eq parsers host s file
  cases hsource : host.source? file with
  | none =>
    have hnone : (s.ensureDocuments parsers host file).files.lookup file = none := by
      rw [ensureDocuments, hsource]
      exact Entries.lookup_erase_self file s.files
    rw [hnone, heq]
    rfl
  | some source =>
    obtain ⟨f, hf, hid⟩ := lookup_ensureDocuments (s := s) hsource
    have hcurrent := hprepared.files hf
    -- The kept documents may be older than the source, but then it has the same text.
    have htext : f.source.text = source.text := by
      rw [hcurrent.text, hid, hhost.text hsource]
    obtain ⟨hfound, -, -⟩ := checkDocuments_spec parsers host (file :: host.imports file)
      hprepared.informed (by rw [hhost.types]; exact hcurrent.current)
    rw [hf]
    dsimp only
    rw [discoveryDiagnostics_checkFile]
    show (checkDocuments parsers host (file :: host.imports file) _ f.documents).2.1 ++ _ = _
    rw [hfound, hcurrent.parsed, htext, List.flatMap_assoc, heq]
    simp only [flatMap_diagnose_parsedOf]
    rfl

/-- A host with one file, which declares a component and uses it. -/
def hostWithFile (id : Nat) (text : String) : Host :=
  { files := ["a.ts"]
    source? := fun file => if file = "a.ts" then some { id := id, text := text } else none
    imports := fun _ => []
    discover := fun file _ =>
      { definitions := [{ tag := "x-a", declaration := { fileName := file, span := Span.of 0 1 } }] }
    types := fun _ _ => .number }

/-- The two texts that the file has. -/
def textOfFile (_ : String) (id : Nat) : String :=
  if id = 0 then "html`<x-a .b=$\x7b1\x7d></x-a>`" else "html`<x-a @c=$\x7b1\x7d><p></x-a>`"

theorem faithful_hostWithFile (id : Nat) :
    (hostWithFile id (textOfFile "a.ts" id)).Faithful (fun _ _ => .number) textOfFile := by
  refine ⟨rfl, fun {file source} h => ?_⟩
  by_cases hfile : file = "a.ts"
  · have hsource := (if_pos hfile).symm.trans h
    rw [← Option.some.inj hsource, hfile]
  · have hsource := (if_neg hfile).symm.trans h
    exact absurd hsource.symm (Option.some_ne_none source)

/-- Parsers that know the two texts. -/
def parsersOfFile : Parsers :=
  { host := fun _ source =>
      if source = textOfFile "a.ts" 0 then
        some [{ tag := .identifier ⟨0, 4⟩ "html", span := ⟨4, 25⟩, texts := [⟨5, 13⟩, ⟨17, 24⟩]
                expressions := [.other ⟨15, 16⟩] }]
      else if source = textOfFile "a.ts" 1 then
        some [{ tag := .identifier ⟨0, 4⟩ "html", span := ⟨4, 28⟩, texts := [⟨5, 13⟩, ⟨17, 27⟩]
                expressions := [.other ⟨15, 16⟩] }]
      else none
    stylesheet := fun _ => none
    json := fun _ => none }

/-- The file is analyzed, edited and looked at, the configuration is replaced, and then it
is analyzed again. -/
def editedFile : List Request :=
  [.analyze (hostWithFile 0 (textOfFile "a.ts" 0)) "a.ts",
    .hover (hostWithFile 1 (textOfFile "a.ts" 1)) "a.ts" 7,
    .configure {} { read? := fun _ => none }]

theorem analyze_eq_scratch_of_edited_file :
    (∀ r ∈ editedFile, ∀ host, r.host? = some host →
        host.Faithful (fun _ _ => .number) textOfFile) ∧
      (hostWithFile 1 (textOfFile "a.ts" 1)).Faithful (fun _ _ => .number) textOfFile ∧
      ((new.after parsersOfFile editedFile).analyze parsersOfFile
          (hostWithFile 1 (textOfFile "a.ts" 1)) "a.ts").2 =
        ((new.after parsersOfFile editedFile).sync (hostWithFile 1 (textOfFile "a.ts" 1))).scratch
          parsersOfFile (hostWithFile 1 (textOfFile "a.ts" 1)) "a.ts" := by
  have hrs : ∀ r ∈ editedFile, ∀ host, r.host? = some host →
      host.Faithful (fun _ _ => .number) textOfFile := by
    intro r hr host hhost
    simp only [editedFile, List.mem_cons, List.not_mem_nil, or_false] at hr
    rcases hr with rfl | rfl | rfl
    · rw [← Option.some.inj hhost]
      exact faithful_hostWithFile 0
    · rw [← Option.some.inj hhost]
      exact faithful_hostWithFile 1
    · exact absurd hhost.symm (Option.some_ne_none host)
  exact ⟨hrs, faithful_hostWithFile 1, analyze_eq_scratch _ _ _ editedFile hrs _
    (faithful_hostWithFile 1) "a.ts"⟩

end Session
end Inlay
