import Inlay.Catalog.Component
import Inlay.Catalog.Standard.Elements
import Inlay.Document.Slice
import Inlay.Lint.Engine
import Inlay.Workspace.Config

/-!
# Sessions

A session analyzes the files of a host program.  It keeps three kinds of results
for as long as they hold: what discovery reported for a file, and the documents
of a file, until the host hands out a different source; and the types of the
bindings of a document, until the knowledge base changes, which `generation`
counts.

The host is not part of the session.  It is handed in with every request, and may
have changed since the last one.  Nor are the parsers of the texts that a session reads;
they stay the same.
-/

namespace Inlay

/-- A text that the host has handed out.  Two texts are the same source only if
they have the same identity. -/
structure Source where
  id : Nat
  text : String
  deriving DecidableEq, Inhabited

/-- The parsers of host files, of stylesheets and of JSON. -/
structure Parsers where
  host : HostParser
  stylesheet : Stylesheet.Parser
  json : JsonReader

/-- An order in which a hash map lists names.  Nothing is known of it but that it has each
of them once. -/
structure KeyOrder where
  list : List String → List String
  perm : ∀ names, (list names).Perm names

namespace KeyOrder

/-- The order in which the names have come in. -/
def asKept : KeyOrder := ⟨id, fun _ => .refl _⟩

instance : Inhabited KeyOrder := ⟨asKept⟩

@[simp] theorem mem_list {o : KeyOrder} {names : List String} {name : String} :
    name ∈ o.list names ↔ name ∈ names :=
  (o.perm names).mem_iff

@[simp] theorem list_nil (o : KeyOrder) : o.list [] = [] := (o.perm []).eq_nil

end KeyOrder

/-- A host program: its files, their sources, the files that a file imports, what
discovery reports for a file, and the types of expressions; and the order in which files
that are gone are come across. -/
structure Host where
  files : List String
  source? : String → Option Source
  imports : String → List String
  discover : String → String → Discovery
  types : TypeProvider
  keyOrder : KeyOrder := .asKept

/-- A document with its tree, if it is markup, and the types of its bindings as
they were in some generation of the knowledge base. -/
structure DocumentEntry where
  document : Document
  tree : Option Markup.Tree := none
  memo : BindingMemo := []
  generation : Nat
  deriving Inhabited

structure FileEntry where
  source : Source
  documents : List DocumentEntry
  deriving Inhabited

structure DiscoveredFile where
  source : Source
  result : Discovery
  deriving Inhabited

/-- All that is kept between requests.  `discoveries` counts how often the host
has been asked what a file declares. -/
structure Session where
  config : Config := {}
  knowledge : Knowledge := {}
  files : List (String × FileEntry) := []
  discovered : List (String × DiscoveredFile) := []
  generation : Nat := 0
  discoveries : Nat := 0
  deriving Inhabited

/-- The knowledge base that holds the standard elements and their base. -/
def Knowledge.standard : Knowledge :=
  (({} : Knowledge).absorb .builtIn Standard.collection).absorb .extension Standard.baseCollection

namespace Session

variable (parsers : Parsers)

def new : Session := { knowledge := Knowledge.standard }

/-- Keep the views that have been read. -/
def consult {α : Type} (s : Session) (c : Consult α) : Session × α :=
  let (a, knowledge) := c.recorded s.knowledge
  ({ s with knowledge := knowledge }, a)

/-- Replace the configuration.  No document outlives it, since it decides which
literals are documents. -/
def configure (s : Session) (c : Config) (files : Files) : Session :=
  { s with
    config := c
    knowledge := (s.knowledge.clearLayer .userConfig).absorb .userConfig
      (c.userCollection parsers.json files)
    files := []
    generation := s.generation + 1 }

/-- A session with the configuration of a directory. -/
def ofDirectory (read? : String → Option String) (directory : String) : Session :=
  new.configure parsers (Config.ofDirectory parsers.json read? directory)
    { read? := read?, base := some directory }

/-! ## Discovery -/

/-- The definitions of all discovered files whose tags are among some names, the
files in the order of their names. -/
def survivors (discovered : List (String × DiscoveredFile)) (names : Names) : List Definition :=
  let files := discovered.mergeSort fun a b => a.1 ≤ b.1
  (files.flatMap fun f => f.2.result.definitions).filter fun d =>
    names.tags.contains (lowerName d.tag)

/-- Take the definitions of a file out of the knowledge base.  The file is no
longer among the discovered ones; tags that another file defines stay known. -/
def forgetDefinitions (s : Session) (definitions : List Definition) : Session :=
  if definitions.isEmpty then s
  else
    let names := Definition.names definitions
    { s with
      knowledge := (s.knowledge.forget .discovered names).absorb .discovered
        (Definition.collection (survivors s.discovered names))
      generation := s.generation + 1 }

def dropDiscovered (s : Session) (file : String) : Session :=
  match s.discovered.lookup file with
  | none => s
  | some old =>
    { s with discovered := Entries.erase file s.discovered }.forgetDefinitions
      old.result.definitions

def removeFile (s : Session) (file : String) : Session :=
  { s with files := Entries.erase file s.files }.dropDiscovered file

def addDefinitions (s : Session) (definitions : List Definition) : Session :=
  if definitions.isEmpty then s
  else
    { s with
      knowledge := s.knowledge.absorb .discovered (Definition.collection definitions)
      generation := s.generation + 1 }

/-- Ask the host what a file declares, and let that replace what it declared
before. -/
def rediscover (host : Host) (s : Session) (file : String) (source : Source) : Session :=
  let result := host.discover file source.text
  let s := { s with discoveries := s.discoveries + 1 }.dropDiscovered file
  let s := s.addDefinitions result.definitions
  { s with discovered := s.discovered ++ [(file, { source := source, result := result })] }

/-- Bring the discovery of one file up to date. -/
def syncFile (host : Host) (s : Session) (file : String) : Session :=
  match host.source? file with
  | none => s
  | some source =>
    match s.discovered.lookup file with
    | some old => if old.source.id = source.id then s else s.rediscover host file source
    | none => s.rediscover host file source

/-- Bring discovery up to date: files that are gone are dropped, in any order, and files
with another source are discovered anew. -/
def sync (host : Host) (s : Session) : Session :=
  let gone := (s.discovered.map (·.1)).filter fun file => !host.files.contains file
  host.files.foldl (syncFile host) ((host.keyOrder.list gone).foldl removeFile s)

/-! ## Documents -/

/-- A document, and behind a markup document the bodies of its style elements. -/
def entriesOf (generation : Nat) (d : Document) : List DocumentEntry :=
  match d.dialect with
  | .stylesheet => [{ document := d, generation := generation }]
  | .markup =>
    let tree := Markup.Tree.ofDocument d
    { document := d, tree := some tree, generation := generation } ::
      tree.styleContents.map fun r =>
        { document := d.slice r .stylesheet, generation := generation }

/-- The documents of a source.  A source that cannot be parsed has none. -/
def documentsOf (s : Session) (file : String) (source : Source) : List DocumentEntry :=
  ((documents? parsers.host file source.text s.config.tags).getD []).flatMap
    (entriesOf s.generation)

/-- Make the documents of a file those of its current source. -/
def ensureDocuments (host : Host) (s : Session) (file : String) : Session :=
  match host.source? file with
  | none => { s with files := Entries.erase file s.files }
  | some source =>
    let keep := (s.files.lookup file).any fun f => f.source.id = source.id
    if keep then s
    else
      let entry : FileEntry := { source := source, documents := s.documentsOf parsers file source }
      { s with files := Entries.set file entry s.files }

/-- Bring everything that a request about a file reads up to date. -/
def prepare (host : Host) (s : Session) (file : String) : Session :=
  (s.sync host).ensureDocuments parsers host file

/-! ## Analysis -/

/-- Check a document.  The memo of an older generation is not used. -/
def checkDocument (host : Host) (visible : List String) (s : Session) (e : DocumentEntry) :
    Consult (List Diagnostic × DocumentEntry) :=
  match e.document.dialect, e.tree with
  | .stylesheet, _ => pure (InvalidCss.checkWith parsers.stylesheet s.config.settings e.document, e)
  | .markup, none => pure ([], e)
  | .markup, some tree => do
    let memo := if e.generation = s.generation then e.memo else []
    let scene : Scene :=
      { document := e.document, tree := tree, settings := s.config.settings
        visibleFiles := some visible }
    let report ← Engine.checkMarkup scene host.types memo
    let memo := report.bindings.foldl (fun m b => m.record b.1 b.2) memo
    return (report.diagnostics, { e with memo := memo, generation := s.generation })

def checkDocuments (host : Host) (visible : List String) (s : Session) :
    List DocumentEntry → Session × List Diagnostic × List DocumentEntry
  | [] => (s, [], [])
  | e :: rest =>
    let (s, found, e) := s.consult (checkDocument parsers host visible s e)
    let (s, more, entries) := checkDocuments host visible s rest
    (s, found ++ more, e :: entries)

/-- The rule that carries what discovery reports. -/
def discoveryRule : String := "component-discovery"

def discoveryDiagnostic (source : Source) (p : DiscoveryProblem) : Diagnostic :=
  { rule := discoveryRule, kind := .discovery, severity := .warning, fileName := p.fileName
    location := Span.of 0 source.text.utf8ByteSize
    finding := { span := p.span, message := p.message } }

def discoveryDiagnostics (s : Session) (file : String) : List Diagnostic :=
  match s.discovered.lookup file with
  | some d => d.result.problems.map (discoveryDiagnostic d.source)
  | none => []

/-- Analyze the documents of a file.  Diagnostics come in the order of the
documents, and those of discovery behind them. -/
def analyze (host : Host) (s : Session) (file : String) : Session × List Diagnostic :=
  let s := s.prepare parsers host file
  let visible := file :: host.imports file
  match s.files.lookup file with
  | none => (s, s.discoveryDiagnostics file)
  | some entry =>
    let (s, found, documents) := checkDocuments parsers host visible s entry.documents
    let s := { s with files := Entries.set file { entry with documents := documents } s.files }
    (s, found ++ s.discoveryDiagnostics file)

end Session
end Inlay
