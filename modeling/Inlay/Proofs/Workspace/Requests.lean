import Inlay.Workspace.Lookup
import Inlay.Proofs.Catalog.Coherence
import Inlay.Proofs.Host.Extraction

/-!
# Runs of a session

A run is a list of requests, each with the host as it is when the request comes.
All of them are made of a few moves: a configuration is replaced, documents are
thrown away or read anew, the definitions of a file go or come, views are read, and the
documents of a file are checked.  `Stable` collects what a property of sessions has to
do with these moves, and `Stable.after` says that then all runs keep it.
-/

namespace Inlay

/-- What a session is asked to do. -/
inductive Request where
  | configure (c : Config) (files : Files)
  | removeFile (file : String)
  | sync (host : Host)
  | analyze (host : Host) (file : String)
  | completions (host : Host) (file : String) (offset : Nat)
  | hover (host : Host) (file : String) (offset : Nat)
  | definition (host : Host) (file : String) (offset : Nat)
  | closingTag (host : Host) (file : String) (offset : Nat)

/-- The host of a request. -/
def Request.host? : Request → Option Host
  | .configure _ _ | .removeFile _ => none
  | .sync host | .analyze host _ | .completions host _ _ | .hover host _ _ | .definition host _ _
  | .closingTag host _ _ => some host

/-- Parsers that know one host file, and no other text. -/
def Parsers.ofSource (known : String) (templates : List TaggedTemplate) : Parsers :=
  { host := .ofSource known templates, stylesheet := fun _ => none, json := fun _ => none }

namespace Knowledge

theorem absorb_eq_mutate (kb : Knowledge) (layer : Layer) (c : Collection) :
    kb.absorb layer c = kb.mutate (.absorb layer c) := rfl

/-- What a new session knows, as mutations. -/
theorem standard_eq : standard =
    (({} : Knowledge).mutate (.absorb .builtIn Standard.collection)).mutate
      (.absorb .extension Standard.baseCollection) := by
  rw [standard, absorb_eq_mutate, absorb_eq_mutate]

/-- The collections are variables here, since the standard ones are too large to be
looked into. -/
theorem layers_absorb_absorb (a b : Collection) :
    ((({} : Knowledge).mutate (.absorb .builtIn a)).mutate (.absorb .extension b)).layers =
      { builtIn := (Store.absorb {} .builtIn a).2
        extension := (Store.absorb {} .extension b).2 } := by
  rw [layers_mutate, layers_mutate]
  rfl

theorem layers_standard : standard.layers =
    { builtIn := (Store.absorb {} .builtIn Standard.collection).2
      extension := (Store.absorb {} .extension Standard.baseCollection).2 } := by
  rw [standard_eq, layers_absorb_absorb]

end Knowledge

namespace Session

section Moves

variable (parsers : Parsers)

/-- The session behind a request. -/
def handle (s : Session) : Request → Session
  | .configure c files => s.configure parsers c files
  | .removeFile file => s.removeFile file
  | .sync host => s.sync host
  | .analyze host file => (s.analyze parsers host file).1
  | .completions host file offset => (s.completionsAt parsers host file offset).1
  | .hover host file offset => (s.hoverAt parsers host file offset).1
  | .definition host file offset => (s.definitionAt parsers host file offset).1
  | .closingTag host file offset => (s.closingTagAt parsers host file offset).1

/-- The session at the end of a run. -/
def after (s : Session) (rs : List Request) : Session := rs.foldl (handle parsers) s

/-! ## Moves -/

/-- Note what a file declares that is not among the discovered ones. -/
def learn (s : Session) (file : String) (d : DiscoveredFile) : Session :=
  { s.addDefinitions d.result.definitions with discovered := s.discovered ++ [(file, d)] }

/-- Read the documents of a source. -/
def load (s : Session) (file : String) (source : Source) : Session :=
  let entry : FileEntry := { source := source, documents := s.documentsOf parsers file source }
  { s with files := Entries.set file entry s.files }

/-- Check the documents that are kept for a file. -/
def checkFile (host : Host) (s : Session) (file : String) (entry : FileEntry) :
    Session × List Diagnostic :=
  let checked := checkDocuments parsers host (file :: host.imports file) s entry.documents
  ({ checked.1 with
      files := Entries.set file { entry with documents := checked.2.2 } checked.1.files },
    checked.2.1)

end Moves

theorem discovered_addDefinitions (s : Session) (ds : List Definition) :
    (s.addDefinitions ds).discovered = s.discovered := by
  rw [addDefinitions]
  split <;> rfl

theorem discovered_forgetDefinitions (s : Session) (ds : List Definition) :
    (s.forgetDefinitions ds).discovered = s.discovered := by
  rw [forgetDefinitions]
  split <;> rfl

theorem rediscover_eq (host : Host) (s : Session) (file : String) (source : Source) :
    s.rediscover host file source =
      ({ s with discoveries := s.discoveries + 1 }.dropDiscovered file).learn file
        { source := source, result := host.discover file source.text } := by
  rw [rediscover, learn]
  simp only [discovered_addDefinitions]

theorem analyze_eq (parsers : Parsers) (host : Host) (s : Session) (file : String) :
    s.analyze parsers host file =
      match (s.prepare parsers host file).files.lookup file with
      | none =>
        (s.prepare parsers host file, (s.prepare parsers host file).discoveryDiagnostics file)
      | some entry =>
        let checked := (s.prepare parsers host file).checkFile parsers host file entry
        (checked.1, checked.2 ++ checked.1.discoveryDiagnostics file) := by
  rw [analyze]
  cases (s.prepare parsers host file).files.lookup file with
  | none => rfl
  | some entry => rfl

theorem lookup_dropDiscovered (s : Session) (file : String) :
    (s.dropDiscovered file).discovered.lookup file = none := by
  rw [dropDiscovered]
  split
  · next h => exact h
  · rw [discovered_forgetDefinitions]
    exact Entries.lookup_erase_self file s.discovered

/-- Checking documents does nothing to a session but record what was read. -/
theorem checkDocuments_fst (parsers : Parsers) (host : Host) (visible : List String) (s : Session)
    (es : List DocumentEntry) :
    ∃ qs : List Question, (checkDocuments parsers host visible s es).1 =
      { s with knowledge := qs.foldl Knowledge.record s.knowledge } := by
  induction es generalizing s with
  | nil => exact ⟨[], rfl⟩
  | cons e rest ih =>
    obtain ⟨qs, hqs⟩ := ih (s.consult (checkDocument parsers host visible s e)).1
    refine ⟨((checkDocument parsers host visible s e).run s.knowledge).2 ++ qs, ?_⟩
    rw [List.foldl_append]
    exact hqs

/-- A check asks questions and replaces what is kept for the file. -/
theorem checkFile_fst (parsers : Parsers) (host : Host) (s : Session) (file : String)
    (entry : FileEntry) :
    ∃ qs : List Question, (s.checkFile parsers host file entry).1 =
      { s with
        knowledge := qs.foldl Knowledge.record s.knowledge
        files := Entries.set file { entry with
          documents := (checkDocuments parsers host (file :: host.imports file) s
            entry.documents).2.2 } s.files } := by
  obtain ⟨qs, hqs⟩ := checkDocuments_fst parsers host (file :: host.imports file) s entry.documents
  exact ⟨qs, by rw [checkFile, hqs]⟩

/-- A property of sessions that discovery keeps.  Hosts may be restricted. -/
structure Discovering (Allowed : Host → Prop) (P : Session → Prop) : Prop where
  eraseEntry : ∀ {s}, P s → ∀ file, P { s with files := Entries.erase file s.files }
  count : ∀ {s}, P s → ∀ n, P { s with discoveries := n }
  drop : ∀ {s}, P s → ∀ file, P (s.dropDiscovered file)
  learn : ∀ {s host file source}, Allowed host → P s → host.source? file = some source →
    s.discovered.lookup file = none →
    P (s.learn file { source := source, result := host.discover file source.text })

namespace Discovering

variable {Allowed : Host → Prop} {P : Session → Prop} {host : Host} {s : Session}

theorem removeFile (h : Discovering Allowed P) (hs : P s) (file : String) : P (s.removeFile file) :=
  h.drop (h.eraseEntry hs file) file

theorem foldl_removeFile (h : Discovering Allowed P) (hs : P s) (files : List String) :
    P (files.foldl Session.removeFile s) := by
  induction files generalizing s with
  | nil => exact hs
  | cons file rest ih => exact ih (h.removeFile hs file)

theorem rediscover (h : Discovering Allowed P) (hhost : Allowed host) (hs : P s) {file : String}
    {source : Source} (hsource : host.source? file = some source) :
    P (s.rediscover host file source) := by
  rw [rediscover_eq]
  exact h.learn hhost (h.drop (h.count hs _) file) hsource (lookup_dropDiscovered _ file)

theorem syncFile (h : Discovering Allowed P) (hhost : Allowed host) (hs : P s) (file : String) :
    P (s.syncFile host file) := by
  rw [Session.syncFile]
  split
  · exact hs
  · next source hsource =>
    split
    · split
      · exact hs
      · exact h.rediscover hhost hs hsource
    · exact h.rediscover hhost hs hsource

theorem foldl_syncFile (h : Discovering Allowed P) (hhost : Allowed host) (hs : P s)
    (files : List String) : P (files.foldl (Session.syncFile host) s) := by
  induction files generalizing s with
  | nil => exact hs
  | cons file rest ih => exact ih (h.syncFile hhost hs file)

theorem sync (h : Discovering Allowed P) (hhost : Allowed host) (hs : P s) : P (s.sync host) :=
  h.foldl_syncFile hhost (h.foldl_removeFile hs _) host.files

end Discovering

/-- A property of sessions that every move keeps. -/
structure Stable (parsers : Parsers) (Allowed : Host → Prop) (P : Session → Prop) : Prop
    extends Discovering Allowed P where
  configure : ∀ {s}, P s → ∀ c files, P (s.configure parsers c files)
  load : ∀ {s host file source}, Allowed host → P s → host.source? file = some source →
    P (s.load parsers file source)
  consult : ∀ {s}, P s → ∀ {α : Type} (c : Consult α), P (s.consult c).1
  check : ∀ {s host file entry}, Allowed host → P s → s.files.lookup file = some entry →
    P (s.checkFile parsers host file entry).1

namespace Stable

variable {parsers : Parsers} {Allowed : Host → Prop} {P : Session → Prop} {host : Host}
  {s : Session}

theorem ensureDocuments (h : Stable parsers Allowed P) (hhost : Allowed host) (hs : P s)
    (file : String) : P (s.ensureDocuments parsers host file) := by
  rw [Session.ensureDocuments]
  split
  · exact h.eraseEntry hs file
  · next source hsource =>
    by_cases hkeep : ((s.files.lookup file).any fun f => f.source.id = source.id) = true
    · simp only [hkeep, if_true]
      exact hs
    · simp only [hkeep]
      exact h.load hhost hs hsource

theorem prepare (h : Stable parsers Allowed P) (hhost : Allowed host) (hs : P s) (file : String) :
    P (s.prepare parsers host file) :=
  h.ensureDocuments hhost (h.sync hhost hs) file

theorem analyze (h : Stable parsers Allowed P) (hhost : Allowed host) (hs : P s) (file : String) :
    P (s.analyze parsers host file).1 := by
  have hprepared := h.prepare hhost hs file
  rw [analyze_eq]
  split
  · exact hprepared
  · next entry hentry => exact h.check hhost hprepared hentry

theorem lookUp (h : Stable parsers Allowed P) (hhost : Allowed host) (hs : P s) {α : Type}
    (file : String) (offset : Nat) (nothing : α) (read : Located → Consult α) :
    P (s.lookUp parsers host file offset nothing read).1 := by
  have hprepared := h.prepare hhost hs file
  rw [Session.lookUp]
  split
  · exact h.consult hprepared _
  · exact hprepared

/-- One request keeps the property. -/
theorem handle (h : Stable parsers Allowed P) (hs : P s) {r : Request}
    (hr : ∀ host, r.host? = some host → Allowed host) : P (s.handle parsers r) := by
  cases r with
  | configure c files => exact h.configure hs c files
  | removeFile file => exact h.removeFile hs file
  | sync host => exact h.sync (hr host rfl) hs
  | analyze host file => exact h.analyze (hr host rfl) hs file
  | completions host file offset => exact h.lookUp (hr host rfl) hs file offset _ _
  | hover host file offset => exact h.lookUp (hr host rfl) hs file offset _ _
  | definition host file offset => exact h.lookUp (hr host rfl) hs file offset _ _
  | closingTag host file offset => exact h.lookUp (hr host rfl) hs file offset _ _

/-- So does a run. -/
theorem after (h : Stable parsers Allowed P) (hs : P s) {rs : List Request}
    (hrs : ∀ r ∈ rs, ∀ host, r.host? = some host → Allowed host) : P (s.after parsers rs) := by
  induction rs generalizing s with
  | nil => exact hs
  | cons r rest ih =>
    rw [List.forall_mem_cons] at hrs
    exact ih (h.handle hs hrs.1) hrs.2

end Stable

end Session
end Inlay
