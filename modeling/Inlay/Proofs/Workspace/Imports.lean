import Inlay.Proofs.Lint.Imports
import Inlay.Proofs.Workspace.Cursor

/-!
# Imports in a session

Several files may define the same tag, but the discovered layer holds one definition of it.  The
rule about imports goes by that one alone: `missingImports_analyze`.  So an element whose
tag is defined where it is used can be reported, if a file that is not visible defines the
tag as well and has been discovered later: `missingImports_two_definers`.
-/

namespace Inlay

open Markup

/-! ## Configured tags -/

namespace HtmlData

theorem undeclared_ofJson {j : Json} {c : Collection} (h : ofJson j = .ok c) :
    ∀ t ∈ c.tags, t.declaration = none := by
  rw [ofJson] at h
  split at h
  · next f _ =>
    rw [collection] at h
    split at h
    · cases h
    · obtain rfl := Except.ok.inj h
      intro t ht
      obtain ⟨data, -, rfl⟩ := List.mem_map.mp ht
      rfl
  · cases h

theorem undeclared_ofText {json? : JsonReader} {text : String} {c : Collection}
    (h : ofText json? text = .ok c) :
    ∀ t ∈ c.tags, t.declaration = none := by
  rw [ofText] at h
  split at h
  · exact undeclared_ofJson h
  · cases h

end HtmlData

namespace Config

theorem undeclared_load {json? : JsonReader} {files : Files} {source : DataSource}
    {c : Collection} (h : load json? files source = .ok c) :
    ∀ t ∈ c.tags, t.declaration = none := by
  rw [load.eq_def] at h
  split at h
  · exact HtmlData.undeclared_ofJson h
  · split at h
    · exact HtmlData.undeclared_ofText h
    · cases h

/-- A configuration does not say where tags are declared. -/
theorem undeclared_userCollection (c : Config) (json? : JsonReader) (files : Files) :
    ∀ t ∈ (c.userCollection json? files).tags, t.declaration = none := by
  have hnamed : ∀ t ∈ c.namedCollection.tags, t.declaration = none := by
    intro t ht
    obtain ⟨name, -, rfl⟩ := List.mem_map.mp ht
    rfl
  rw [userCollection]
  generalize c.namedCollection = known at hnamed ⊢
  induction c.htmlData generalizing known with
  | nil => exact hnamed
  | cons source rest ih =>
    refine ih _ ?_
    dsimp only
    split
    · next data hdata => exact List.forall_mem_append.mpr ⟨hnamed, undeclared_load hdata⟩
    · exact hnamed

end Config

namespace Session

/-! ## What the layers of a session declare -/

/-- Only discovery says where tags are declared. -/
def OnlyDiscovered (s : Session) : Prop := s.knowledge.layers.OnlyDiscovered

namespace OnlyDiscovered

variable {parsers : Parsers} {s : Session}

/-- The discovered layer does not matter. -/
theorem congr (h : s.OnlyDiscovered) {s' : Session}
    (hlayers : ∀ layer, layer ≠ .discovered →
      s'.knowledge.layers.get layer = s.knowledge.layers.get layer) : s'.OnlyDiscovered := by
  intro layer hlayer
  rw [hlayers layer hlayer]
  exact h layer hlayer

theorem configure (h : s.OnlyDiscovered) (c : Config) (files : Files) :
    (s.configure parsers c files).OnlyDiscovered := by
  intro layer hlayer
  show (((((s.knowledge.mutate (.clearLayer .userConfig)).mutate
    (.absorb .userConfig (c.userCollection parsers.json files))).layers).get layer)).Undeclared
  rw [Knowledge.layers_mutate, Knowledge.layers_mutate, Mutation.layers, Mutation.layers]
  by_cases huser : layer = .userConfig
  · rw [huser, Layers.get_set_self, Layers.get_set_self]
    exact Store.undeclared_empty.absorb _ (c.undeclared_userCollection parsers.json files)
  · rw [Layers.get_set_ne _ huser, Layers.get_set_ne _ huser]
    exact h layer hlayer

theorem forgetDefinitions (h : s.OnlyDiscovered) (ds : List Definition) :
    (s.forgetDefinitions ds).OnlyDiscovered := by
  rw [Session.forgetDefinitions]
  split
  · exact h
  · refine h.congr fun layer hlayer => ?_
    show ((((s.knowledge.mutate (.forget .discovered _)).mutate
      (.absorb .discovered _)).layers).get layer) = _
    rw [Knowledge.layers_mutate, Knowledge.layers_mutate, Mutation.layers, Mutation.layers,
      Layers.get_set_ne _ hlayer, Layers.get_set_ne _ hlayer]

theorem drop (h : s.OnlyDiscovered) (file : String) : (s.dropDiscovered file).OnlyDiscovered := by
  rw [dropDiscovered]
  split
  · exact h
  · exact forgetDefinitions (s := { s with discovered := Entries.erase file s.discovered }) h _

theorem learn (h : s.OnlyDiscovered) (file : String) (d : DiscoveredFile) :
    (s.learn file d).OnlyDiscovered := by
  have hadded : (s.addDefinitions d.result.definitions).OnlyDiscovered := by
    rw [addDefinitions]
    split
    · exact h
    · refine h.congr fun layer hlayer => ?_
      show (((s.knowledge.mutate (.absorb .discovered _)).layers).get layer) = _
      rw [Knowledge.layers_mutate, Mutation.layers, Layers.get_set_ne _ hlayer]
  exact hadded

theorem record (h : s.OnlyDiscovered) (qs : List Question) :
    { s with knowledge := qs.foldl Knowledge.record s.knowledge }.OnlyDiscovered := by
  refine h.congr fun layer _ => ?_
  show (qs.foldl Knowledge.record s.knowledge).layers.get layer = _
  rw [Knowledge.layers_of_fresh_eq (Knowledge.fresh_foldl_record qs s.knowledge)]

theorem stable : Stable parsers (fun _ => True) OnlyDiscovered where
  configure h := h.configure
  eraseEntry h _ := h
  count h _ := h
  drop h := h.drop
  learn _ h _ _ := h.learn _ _
  load _ h _ := h
  consult h _ c := h.record (c.run _).2
  check {s host file entry} _ h _ := by
    obtain ⟨qs, hqs⟩ := checkFile_fst parsers host s file entry
    have hchecked := h.record qs
    rw [hqs]
    exact hchecked

theorem standard : Knowledge.standard.layers.OnlyDiscovered := by
  have hcollection : ∀ t ∈ Standard.collection.tags, t.declaration = none := by
    intro t ht
    rcases List.mem_append.mp ht with ht | ht
    · obtain ⟨e, -, rfl⟩ := List.mem_map.mp ht
      rfl
    · obtain ⟨name, -, rfl⟩ := List.mem_map.mp ht
      rfl
  have hbase : ∀ t ∈ Standard.baseCollection.tags, t.declaration = none := by
    intro t ht
    rw [List.mem_singleton.mp ht]
  rw [Knowledge.layers_standard]
  exact Layers.onlyDiscovered_absorb hcollection hbase

theorem new : Session.new.OnlyDiscovered := by
  have hknowledge : Session.new.knowledge = Knowledge.standard := by rw [Session.new]
  rw [OnlyDiscovered, hknowledge]
  exact standard

end OnlyDiscovered

/-! ## What the rule reports of a file -/

/-- The markup documents of the source that is kept for a file. -/
def markupDocuments (parsers : Parsers) (s : Session) (file : String) : List Document :=
  (s.sourceDocuments parsers file).filter (·.dialect = .markup)

variable {parsers : Parsers}

theorem fileName_of_mem_sourceDocuments {s : Session} {file : String} {d : Document}
    (hd : d ∈ s.sourceDocuments parsers file) : d.fileName = file := by
  rw [sourceDocuments] at hd
  split at hd
  · exact absurd hd List.not_mem_nil
  · cases hdocs : documents? parsers.host file _ s.config.tags with
    | none =>
      rw [hdocs] at hd
      exact absurd hd List.not_mem_nil
    | some docs =>
      rw [hdocs] at hd
      obtain ⟨templates, -, rfl⟩ := Option.map_eq_some_iff.mp hdocs
      exact Literal.fileName_documents _ _ _ d hd

/-- What the rule reports of a document, with its tree if it has one. -/
def missingIn (ls : Layers) (visible : List String) (severity : Severity) :
    Document × Option Tree → List Diagnostic
  | (d, tree) =>
    match d.dialect, tree with
    | .markup, some tree => tree.nodes.filterMap fun n =>
        (ls.missingImport? visible n).map (MissingImport.diagnostic severity d)
    | _, _ => []

theorem missingIn_stylesheet (ls : Layers) (visible : List String) (severity : Severity)
    {d : Document} (hdialect : d.dialect = .stylesheet) (tree : Option Tree) :
    missingIn ls visible severity (d, tree) = [] := by
  simp only [missingIn, hdialect]

theorem missingIn_markup (ls : Layers) (visible : List String) (severity : Severity)
    {d : Document} (hdialect : d.dialect = .markup) (tree : Tree) :
    missingIn ls visible severity (d, some tree) = tree.nodes.filterMap fun n =>
      (ls.missingImport? visible n).map (MissingImport.diagnostic severity d) := by
  simp only [missingIn, hdialect]

theorem filter_invalidCss (settings : Settings) (d : Document) :
    (InvalidCss.checkWith parsers.stylesheet settings d).filter MissingImport.reports = [] := by
  rw [InvalidCss.checkWith]
  split
  · rfl
  · cases parsers.stylesheet d.text <;> rfl

theorem filter_discoveryDiagnostics (s : Session) (file : String) :
    (s.discoveryDiagnostics file).filter MissingImport.reports = [] := by
  rw [discoveryDiagnostics]
  split
  · refine List.filter_eq_nil_iff.mpr fun d hd => ?_
    obtain ⟨p, -, rfl⟩ := List.mem_map.mp hd
    simp [MissingImport.reports, discoveryDiagnostic, discoveryRule, MissingImport.info]
  · rfl

/-- A session that is to report missing imports. -/
structure ReportsImports (s : Session) (severity : Severity) : Prop where
  on : s.config.settings.severity? MissingImport.info = some severity
  known : s.Known
  only : s.OnlyDiscovered

theorem Known.declares {s : Session} (h : s.Known) : s.knowledge.layers.Declares := by
  intro key t ht
  obtain ⟨d, -, -, rfl⟩ := h.mirrored.mirrors.entry ht
  rfl

namespace ReportsImports

variable {s : Session} {severity : Severity} {visible : List String}

theorem consult (h : s.ReportsImports severity) {α : Type} (c : Consult α) :
    (s.consult c).1.ReportsImports severity :=
  ⟨h.on, h.known.record (c.run _).2, h.only.record (c.run _).2⟩

theorem filter_checkDocument (h : s.ReportsImports severity) (parsers : Parsers) (host : Host)
    {e : DocumentEntry} (hfile : e.document.fileName ∈ visible) :
    ((checkDocument parsers host visible s e).value s.knowledge).1.filter MissingImport.reports =
      missingIn s.knowledge.layers visible severity e.parsed := by
  cases hdialect : e.document.dialect with
  | stylesheet =>
    simp only [checkDocument, missingIn, DocumentEntry.parsed, hdialect]
    exact filter_invalidCss _ _
  | markup =>
    cases htree : e.tree with
    | none =>
      simp only [checkDocument, missingIn, DocumentEntry.parsed, hdialect, htree]
      rfl
    | some tree =>
      simp only [checkDocument, missingIn, DocumentEntry.parsed, hdialect, htree,
        Consult.value_bind, Consult.value_pure]
      refine (MissingImport.filter_diagnosticsOf _ host.types _ s.knowledge h.on).trans ?_
      refine List.filterMap_congr fun n _ => ?_
      rw [h.known.informed.coherent.tag?_eq]
      exact congrArg _ (Layers.found?_eq h.only h.known.declares rfl hfile n)

theorem filter_checkDocuments (h : s.ReportsImports severity) (parsers : Parsers) (host : Host)
    {es : List DocumentEntry} (hfile : ∀ e ∈ es, e.document.fileName ∈ visible) :
    (checkDocuments parsers host visible s es).2.1.filter MissingImport.reports =
      (es.map DocumentEntry.parsed).flatMap
        (missingIn s.knowledge.layers visible severity) := by
  induction es generalizing s with
  | nil => rfl
  | cons e rest ih =>
    obtain ⟨he, hrest⟩ := List.forall_mem_cons.mp hfile
    -- What has been read of the first document is kept in the memo, beside the layers.
    have hlayers : (s.consult (checkDocument parsers host visible s e)).1.knowledge.layers =
        s.knowledge.layers := Knowledge.layers_of_fresh_eq (Consult.fresh_recorded _ _)
    have hmore := ih (h.consult (checkDocument parsers host visible s e)) hrest
    rw [hlayers] at hmore
    rw [List.map_cons, List.flatMap_cons, ← h.filter_checkDocument parsers host he, ← hmore]
    exact List.filter_append _ _

end ReportsImports

theorem fileName_of_mem_parsedOf {d : Document} {p : Document × Option Tree}
    (hp : p ∈ parsedOf d) : p.1.fileName = d.fileName := by
  rw [parsedOf] at hp
  split at hp
  · rw [List.mem_singleton.mp hp]
  · rcases List.mem_cons.mp hp with rfl | hp
    · rfl
    · obtain ⟨r, -, rfl⟩ := List.mem_map.mp hp
      rfl

/-- Of what a document is read into, the rule looks at the document itself. -/
theorem flatMap_missingIn_parsedOf (ls : Layers) (visible : List String) (severity : Severity)
    (d : Document) :
    (parsedOf d).flatMap (missingIn ls visible severity) =
      missingIn ls visible severity (d, some (Tree.ofDocument d)) := by
  cases hdialect : d.dialect with
  | stylesheet =>
    rw [parsedOf, hdialect, List.flatMap_singleton, missingIn_stylesheet _ _ _ hdialect,
      missingIn_stylesheet _ _ _ hdialect]
  | markup =>
    -- The bodies of style elements are stylesheets.
    have hbodies : ((Tree.ofDocument d).styleContents.map fun r =>
        (d.slice r .stylesheet, (none : Option Tree))).flatMap
          (missingIn ls visible severity) = [] := by
      rw [List.flatMap_map, List.flatMap_eq_nil_iff]
      exact fun r _ => missingIn_stylesheet _ _ _ rfl none
    rw [parsedOf, hdialect, List.flatMap_cons, hbodies, List.append_nil]

theorem flatMap_filter_markup (ls : Layers) (visible : List String) (severity : Severity)
    (docs : List Document) :
    docs.flatMap (fun d => missingIn ls visible severity (d, some (Tree.ofDocument d))) =
      (docs.filter (·.dialect = .markup)).flatMap fun d =>
        (Tree.ofDocument d).nodes.filterMap fun n =>
          (ls.missingImport? visible n).map (MissingImport.diagnostic severity d) := by
  induction docs with
  | nil => rfl
  | cons d rest ih =>
    rw [List.flatMap_cons, ih]
    cases hdialect : d.dialect with
    | stylesheet =>
      rw [missingIn_stylesheet _ _ _ hdialect, List.filter_cons_of_neg (by simp [hdialect])]
      rfl
    | markup =>
      rw [missingIn_markup _ _ _ hdialect, List.filter_cons_of_pos (by simp [hdialect]),
        List.flatMap_cons]

/-- In an analysis, the rule reports what it finds in the markup documents of the file. -/
theorem filter_analyze {host : Host} {s : Session} {file : String} {severity : Severity}
    (h : (s.prepare parsers host file).ReportsImports severity)
    (hparsed : (s.prepare parsers host file).Parsed parsers) :
    let p := s.prepare parsers host file
    (s.analyze parsers host file).2.filter MissingImport.reports =
      (p.markupDocuments parsers file).flatMap fun d =>
        (Tree.ofDocument d).nodes.filterMap fun n =>
          (p.knowledge.layers.missingImport? (file :: host.imports file) n).map
            (MissingImport.diagnostic severity d) := by
  dsimp only
  rw [analyze_eq, markupDocuments, ← flatMap_filter_markup]
  generalize s.prepare parsers host file = p at h hparsed
  cases hentry : p.files.lookup file with
  | none =>
    rw [sourceDocuments, hentry]
    exact filter_discoveryDiagnostics p file
  | some entry =>
    have hread := hparsed file entry hentry
    have hdocuments : p.sourceDocuments parsers file =
        (documents? parsers.host file entry.source.text p.config.tags).getD [] := by
      rw [sourceDocuments, hentry]
    rw [← hdocuments] at hread
    -- The rule excepts the file of the document, which is this one and visible anyway.
    have hfile : ∀ e ∈ entry.documents, e.document.fileName ∈ file :: host.imports file := by
      intro e he
      have hmem := List.mem_map_of_mem (f := DocumentEntry.parsed) he
      rw [hread] at hmem
      obtain ⟨d, hd, he⟩ := List.mem_flatMap.mp hmem
      rw [show e.document.fileName = d.fileName from fileName_of_mem_parsedOf he,
        fileName_of_mem_sourceDocuments hd]
      exact List.mem_cons_self
    have hchecked := h.filter_checkDocuments parsers host hfile
    rw [hread, List.flatMap_assoc] at hchecked
    simp only [flatMap_missingIn_parsedOf] at hchecked
    rw [← hchecked]
    dsimp only
    rw [List.filter_append, discoveryDiagnostics_checkFile, filter_discoveryDiagnostics,
      List.append_nil]
    rfl

/-- After any run, a session knows what the rule goes by. -/
theorem reportsImports_prepare (parsers : Parsers) (rs : List Request) (host : Host)
    (file : String) {severity : Severity}
    (hon : ((new.after parsers rs).prepare parsers host file).config.settings.severity?
      MissingImport.info = some severity) :
    ((new.after parsers rs).prepare parsers host file).ReportsImports severity :=
  ⟨hon, Known.stable.prepare trivial (Known.after parsers rs) file,
    OnlyDiscovered.stable.prepare trivial
      (OnlyDiscovered.stable.after OnlyDiscovered.new fun _ _ _ _ => trivial) file⟩

theorem filter_analyze_after (parsers : Parsers) (rs : List Request) (host : Host)
    (file : String) {severity : Severity}
    (hon : ((new.after parsers rs).prepare parsers host file).config.settings.severity?
      MissingImport.info = some severity) :
    let s := (new.after parsers rs).prepare parsers host file
    ((new.after parsers rs).analyze parsers host file).2.filter MissingImport.reports =
      (s.markupDocuments parsers file).flatMap fun d =>
        (Tree.ofDocument d).nodes.filterMap fun n =>
          (s.knowledge.layers.missingImport? (file :: host.imports file) n).map
            (MissingImport.diagnostic severity d) :=
  filter_analyze (reportsImports_prepare parsers rs host file hon)
    (Parsed.prepare_after parsers rs host file)

/-! ## Tags that several files define -/

/-- A file has been discovered to define a tag. -/
def Defines (s : Session) (file tag : String) : Prop :=
  ∃ f ∈ s.discovered, f.1 = file ∧
    ∃ d ∈ f.2.result.definitions, lowerName d.tag = lowerName tag

/-- Every definition says that it is declared in the file that it was discovered in. -/
def DeclaresOwn (s : Session) : Prop :=
  ∀ f ∈ s.discovered, ∀ d ∈ f.2.result.definitions, d.declaration.fileName = f.1

/-- The file whose definition the layer holds is one of those that define the tag. -/
theorem Known.defines_of_definer? {s : Session} (h : s.Known) (hown : s.DeclaresOwn)
    {tag file : String} (hdefiner : s.knowledge.layers.definer? tag = some file) :
    s.Defines file tag := by
  obtain ⟨declaration, hdeclaration, rfl⟩ := Option.map_eq_some_iff.mp hdefiner
  obtain ⟨t, ht, hdeclared⟩ := Option.bind_eq_some_iff.mp hdeclaration
  obtain ⟨f, hf, d, hlast, rfl⟩ := h.dated _ t ht
  obtain ⟨hd, hkey⟩ := Definition.mem_of_last? hlast
  obtain rfl : d.declaration = declaration := Option.some.inj hdeclared
  exact ⟨f, hf, (hown f hf d hd).symm, d, hd, hkey⟩

theorem Known.definer?_isSome {s : Session} (h : s.Known) {file tag : String}
    (hdefines : s.Defines file tag) : (s.knowledge.layers.definer? tag).isSome := by
  obtain ⟨f, hf, -, d, hd, hkey⟩ := hdefines
  obtain ⟨t, ht⟩ := Option.isSome_iff_exists.mp
    (h.mirrored.mirrors.known d (List.mem_flatMap.mpr ⟨f, hf, hd⟩))
  obtain ⟨e, -, -, rfl⟩ := h.mirrored.mirrors.entry ht
  rw [Layers.definer?, ← hkey, ht]
  rfl

end Session

namespace Layers

variable {ls : Layers} {visible : List String} {n : Node}

theorem missingImport?_of_no_definer (h : ls.definer? n.tag = none) :
    ls.missingImport? visible n = none := by
  rw [missingImport?, hiddenDefiner?, h]
  simp

theorem missingImport?_of_hidden (hkind : n.kind = .element) {file : String}
    (hdefiner : ls.definer? n.tag = some file) (hstandard : ls.isStandard n.tag = false)
    (hhidden : file ∉ visible) {t : Tag} (ht : ls.tag? (lowerName n.tag) = some t) :
    ls.missingImport? visible n = some (MissingImport.finding n t file) := by
  rw [missingImport?, hiddenDefiner?, if_pos ⟨hkind, hstandard⟩, hdefiner, ht]
  simp [Option.filter, hhidden]

/-- An element is reported unless its tag is a standard one or the file whose definition the
discovered layer holds is visible. -/
theorem missingImport?_eq_none_iff (honly : ls.OnlyDiscovered) (hkind : n.kind = .element)
    {file : String} (hdefiner : ls.definer? n.tag = some file) :
    ls.missingImport? visible n = none ↔ ls.isStandard n.tag = true ∨ file ∈ visible := by
  constructor
  · intro hnone
    by_contra hnot
    rw [not_or, Bool.not_eq_true] at hnot
    -- A tag with a declaration is known.
    have hdeclaration := hdefiner
    rw [definer?, ← honly.declaration_tag?] at hdeclaration
    obtain ⟨declaration, hdeclared, -⟩ := Option.map_eq_some_iff.mp hdeclaration
    obtain ⟨t, ht, -⟩ := Option.bind_eq_some_iff.mp hdeclared
    rw [missingImport?_of_hidden hkind hdefiner hnot.1 hnot.2 ht] at hnone
    exact absurd hnone (Option.some_ne_none _)
  · rintro (hstandard | hvisible)
    · rw [missingImport?, hiddenDefiner?, hstandard]
      simp
    · rw [missingImport?, hiddenDefiner?, hdefiner]
      simp [hvisible]

end Layers

namespace Session

/-- The discovered layer holds one of the definitions of a tag.  The rule reports an element if
and only if its tag is not a standard one and the file of that definition is not visible, whatever
other files define the tag.  So it reports no element whose tag is defined in visible files only. -/
theorem missingImports_analyze (parsers : Parsers) (rs : List Request) (host : Host)
    (file : String) {severity : Severity}
    (hon : ((new.after parsers rs).prepare parsers host file).config.settings.severity?
      MissingImport.info = some severity)
    (hown : ((new.after parsers rs).prepare parsers host file).DeclaresOwn) :
    let s := (new.after parsers rs).prepare parsers host file
    let ls := s.knowledge.layers
    let visible := file :: host.imports file
    ((new.after parsers rs).analyze parsers host file).2.filter MissingImport.reports =
        ((s.markupDocuments parsers file).flatMap fun d =>
          (Tree.ofDocument d).nodes.filterMap fun n =>
            (ls.missingImport? visible n).map (MissingImport.diagnostic severity d)) ∧
      ∀ n : Node, n.kind = .element →
        (∀ g, s.Defines g n.tag → ∃ kept, ls.definer? n.tag = some kept ∧
          s.Defines kept n.tag ∧
          (ls.missingImport? visible n = none ↔
            ls.isStandard n.tag = true ∨ kept ∈ visible)) ∧
        ((∀ g, s.Defines g n.tag → g ∈ visible) → ls.missingImport? visible n = none) := by
  intro s ls visible
  obtain ⟨-, hknown, honly⟩ := reportsImports_prepare parsers rs host file hon
  refine ⟨filter_analyze_after parsers rs host file hon, fun n hkind => ⟨?_, ?_⟩⟩
  · intro g hdefines
    obtain ⟨kept, hkept⟩ := Option.isSome_iff_exists.mp (hknown.definer?_isSome hdefines)
    exact ⟨kept, hkept, hknown.defines_of_definer? hown hkept,
      Layers.missingImport?_eq_none_iff honly hkind hkept⟩
  · intro hall
    cases hdefiner : ls.definer? n.tag with
    | none => exact Layers.missingImport?_of_no_definer hdefiner
    | some kept =>
      refine (Layers.missingImport?_eq_none_iff honly hkind hdefiner).mpr (.inr ?_)
      exact hall kept (hknown.defines_of_definer? hown hdefiner)

/-- A use of an element. -/
def useText : String := "html\x60<x-el></x-el>\x60"

/-- A host with two files that declare one component each.  The first file uses an element and
imports nothing. -/
def hostWithUse (tagOf : String → String) : Host :=
  { hostOfTwo tagOf 0 with
    source? := fun file =>
      if file = "a.ts" then some { id := 0, text := useText }
      else if file = "b.ts" then some { id := 0, text := "" } else none }

/-- Its template. -/
def useTemplate : TaggedTemplate :=
  { tag := .identifier ⟨0, 4⟩ "html", span := ⟨4, 19⟩, texts := [⟨5, 18⟩], expressions := [] }

def useParsers : Parsers := .ofSource useText [useTemplate]

/-- The rule is switched on. -/
def warnImports : List Request :=
  [.configure { levels := [("no-missing-import", .warn)] } { read? := fun _ => none }]

section Use

variable (tagOf : String → String)

/-- The session in which the first file is analyzed. -/
def preparedUse : Session :=
  (new.after useParsers warnImports).prepare useParsers (hostWithUse tagOf) "a.ts"

/-- Both files are discovered, and then the first one is read. -/
theorem preparedUse_eq :
    preparedUse tagOf =
      (((new.after useParsers warnImports).rediscover (hostWithUse tagOf) "a.ts"
        { id := 0, text := useText }).rediscover (hostWithUse tagOf) "b.ts"
          { id := 0, text := "" }).ensureDocuments useParsers (hostWithUse tagOf) "a.ts" := by
  have hsync : (new.after useParsers warnImports).sync (hostWithUse tagOf) =
      ((new.after useParsers warnImports).rediscover (hostWithUse tagOf) "a.ts"
        { id := 0, text := useText }).rediscover (hostWithUse tagOf) "b.ts"
          { id := 0, text := "" } :=
    sync_two rfl (by decide) (by simp [hostWithUse]) (by simp [hostWithUse]) rfl
  rw [preparedUse, prepare, hsync]

theorem discovered_preparedUse :
    (preparedUse tagOf).discovered =
      [("a.ts", { source := { id := 0, text := useText },
                  result := { definitions := [component (tagOf "a.ts") "a.ts"] } }),
        ("b.ts", { source := { id := 0, text := "" },
                   result := { definitions := [component (tagOf "b.ts") "b.ts"] } })] := by
  have hnone : (new.after useParsers warnImports).discovered = [] := rfl
  rw [preparedUse_eq]
  generalize new.after useParsers warnImports = s at hnone ⊢
  obtain ⟨files, hfiles⟩ := ensureDocuments_eq useParsers (hostWithUse tagOf)
    ((s.rediscover (hostWithUse tagOf) "a.ts" { id := 0, text := useText }).rediscover
      (hostWithUse tagOf) "b.ts" { id := 0, text := "" }) "a.ts"
  rw [hfiles]
  dsimp only
  rw [discovered_rediscover, discovered_rediscover, hnone]
  simp [Entries.erase, hostWithUse, hostOfTwo]

/-- The document of the use. -/
def useDocument : Document := Literal.toDocument "a.ts" useText 0 ⟨⟨4, 19⟩, .markup, []⟩

theorem documents?_useText :
    documents? useParsers.host "a.ts" useText {} = some [useDocument] :=
  documents?_of_sorted (HostParser.ofSource_known useText [useTemplate] "a.ts") rfl
    (List.pairwise_singleton _ _)

/-- The use is one element. -/
theorem nodes_useDocument : ∃ n : Node, (Tree.ofDocument useDocument).nodes = [n] ∧
    n.kind = .element ∧ n.tag = "x-el" ∧ n.nameSpan = ⟨1, 5⟩ := by
  have hnodes : (Tree.ofDocument useDocument).nodes.map (fun n => (n.kind, n.tag, n.nameSpan)) =
      [(.element, "x-el", ⟨1, 5⟩)] := by decide +kernel
  obtain ⟨n, hn, heq⟩ := List.map_eq_singleton_iff.mp hnodes
  obtain ⟨hkind, hrest⟩ := Prod.mk.inj heq
  exact ⟨n, hn, hkind, Prod.mk.inj hrest⟩

/-- Discovery and reading leave the configuration, and the first file has the one document. -/
theorem read_preparedUse :
    (preparedUse tagOf).config = { levels := [("no-missing-import", .warn)] } ∧
      (preparedUse tagOf).markupDocuments useParsers "a.ts" = [useDocument] := by
  have hconfig : (new.after useParsers warnImports).config =
      { levels := [("no-missing-import", .warn)] } :=
    rfl
  have hfiles : (new.after useParsers warnImports).files = [] := rfl
  have hsource : (hostWithUse tagOf).source? "a.ts" = some { id := 0, text := useText } := by
    simp [hostWithUse]
  rw [preparedUse_eq]
  generalize new.after useParsers warnImports = s at hconfig hfiles ⊢
  obtain ⟨hconfig', hfiles'⟩ := rediscover_frame (hostWithUse tagOf) s "a.ts"
    { id := 0, text := useText }
  rw [hconfig] at hconfig'
  rw [hfiles] at hfiles'
  generalize s.rediscover _ _ _ = t at hconfig' hfiles' ⊢
  obtain ⟨hconfig'', hfiles''⟩ := rediscover_frame (hostWithUse tagOf) t "b.ts"
    { id := 0, text := "" }
  rw [hconfig'] at hconfig''
  rw [hfiles'] at hfiles''
  generalize t.rediscover _ _ _ = u at hconfig'' hfiles'' ⊢
  obtain ⟨files, heq⟩ := ensureDocuments_eq useParsers (hostWithUse tagOf) u "a.ts"
  constructor
  · rw [heq]
    exact hconfig''
  · rw [markupDocuments, sourceDocuments_ensureDocuments hsource (by rw [hfiles'']; rfl),
      hconfig'']
    show ((documents? useParsers.host "a.ts" useText {}).getD []).filter _ = _
    rw [documents?_useText]
    rfl

theorem on_preparedUse :
    (preparedUse tagOf).config.settings.severity? MissingImport.info = some .warning := by
  rw [(read_preparedUse tagOf).1]
  rfl

theorem declaresOwn_preparedUse : (preparedUse tagOf).DeclaresOwn := by
  intro f hf d hd
  rw [discovered_preparedUse, List.mem_cons, List.mem_singleton] at hf
  rcases hf with rfl | rfl <;> rw [List.mem_singleton.mp hd] <;> rfl

end Use

/-- Two files define different tags, and the first one uses its own. -/
theorem missingImports_analyze_of_two_tags :
    let host := hostWithUse fun file => if file = "a.ts" then "x-el" else "x-b"
    let s := (new.after useParsers warnImports).prepare useParsers host "a.ts"
    (s.config.settings.severity? MissingImport.info = some .warning ∧ s.DeclaresOwn) ∧
      ((new.after useParsers warnImports).analyze useParsers host "a.ts").2.filter
        MissingImport.reports = [] := by
  intro host s
  have hs : s = preparedUse fun file => if file = "a.ts" then "x-el" else "x-b" := rfl
  have hon : s.config.settings.severity? MissingImport.info = some .warning := on_preparedUse _
  have hown : s.DeclaresOwn := declaresOwn_preparedUse _
  refine ⟨⟨hon, hown⟩, ?_⟩
  obtain ⟨hreported, hnodes⟩ := missingImports_analyze useParsers warnImports host "a.ts" hon hown
  have hdocuments : s.markupDocuments useParsers "a.ts" = [useDocument] := (read_preparedUse _).2
  obtain ⟨n, hn, hkind, htag, -⟩ := nodes_useDocument
  rw [hreported, hdocuments, List.flatMap_singleton, hn]
  refine List.filterMap_eq_nil_iff.mpr fun m hm => Option.map_eq_none_iff.mpr ?_
  rw [List.mem_singleton.mp hm]
  refine (hnodes n hkind).2 fun g hdefines => ?_
  obtain ⟨f, hf, rfl, d, hd, hkey⟩ := hdefines
  have hf' : f ∈ s.discovered := hf
  rw [hs, discovered_preparedUse, List.mem_cons, List.mem_singleton] at hf'
  rcases hf' with rfl | rfl
  · exact List.mem_cons_self
  · rw [List.mem_singleton.mp hd, htag] at hkey
    exact absurd hkey (by decide)

/-- A configuration without tags leaves the layers. -/
theorem layers_warnImports :
    (new.after useParsers warnImports).knowledge.layers = Knowledge.standard.layers := by
  have hknowledge : new.knowledge = Knowledge.standard := by rw [new]
  have huser : Knowledge.standard.layers.userConfig = {} := by rw [Knowledge.layers_standard]
  show ((new.knowledge.mutate (.clearLayer .userConfig)).mutate
    (.absorb .userConfig
      (Config.userCollection { levels := [("no-missing-import", .warn)] } useParsers.json
        { read? := fun _ => none }))).layers = _
  rw [Knowledge.layers_mutate, Knowledge.layers_mutate, hknowledge]
  generalize Knowledge.standard.layers = ls at huser ⊢
  cases ls
  subst huser
  rfl

section Definers

variable (tagOf : String → String)

/-- Of the two files, the second one is discovered last. -/
theorem knowledge_preparedUse :
    (preparedUse tagOf).knowledge =
      (((new.after useParsers warnImports).rediscover (hostWithUse tagOf) "a.ts"
        { id := 0, text := useText }).rediscover (hostWithUse tagOf) "b.ts"
          { id := 0, text := "" }).knowledge := by
  rw [preparedUse_eq]
  generalize (new.after useParsers warnImports).rediscover _ _ _ = s
  obtain ⟨files, heq⟩ := ensureDocuments_eq useParsers (hostWithUse tagOf)
    (s.rediscover (hostWithUse tagOf) "b.ts" { id := 0, text := "" }) "a.ts"
  rw [heq]

/-- The discovered layer holds the definition of the second file. -/
theorem find?_preparedUse {key : String} (hkey : lowerName (tagOf "b.ts") = key) :
    (preparedUse tagOf).knowledge.layers.discovered.tags.find? key =
      some ((component (tagOf "b.ts") "b.ts").toTag.stamp .discovered) := by
  have hlast : Definition.last? [component (tagOf "b.ts") "b.ts"] key =
      some (component (tagOf "b.ts") "b.ts") := by
    rw [Definition.last?_cons]
    exact if_pos hkey
  rw [knowledge_preparedUse]
  generalize (new.after useParsers warnImports).rediscover _ _ _ = s
  rw [← discoveredTag?, discoveredTag?_rediscover_eq]
  show ((Definition.last? [component (tagOf "b.ts") "b.ts"] key).map _).or _ = _
  rw [hlast]
  rfl

/-- It alone describes the element. -/
theorem tagWith_preparedUse (entry : Option Tag) :
    (preparedUse tagOf).knowledge.layers.tagWith entry "x-el" = entry := by
  have hlower : lowerName "x-el" = "x-el" := by decide
  have hnew : new.tagWith entry "x-el" = entry :=
    tagWith_new entry (by decide +kernel) (by decide +kernel)
  have hknowledge : new.knowledge = Knowledge.standard := by rw [new]
  have hlayers := layers_warnImports
  rw [tagWith, hknowledge, ← hlayers] at hnew
  rw [knowledge_preparedUse, ← hlower]
  generalize new.after useParsers warnImports = s at hnew ⊢
  rw [← tagWith, tagWith_rediscover, tagWith_rediscover]
  exact hnew

end Definers

/-- Two files define the same tag, and the first one uses it.  The layer holds the definition of
the second one, which has been discovered later, and so the use is reported. -/
theorem missingImports_two_definers :
    let host := hostWithUse fun _ => "x-el"
    let s := (new.after useParsers warnImports).prepare useParsers host "a.ts"
    (s.config.settings.severity? MissingImport.info = some .warning ∧ s.DeclaresOwn ∧
        s.Defines "a.ts" "x-el") ∧
      (((new.after useParsers warnImports).analyze useParsers host "a.ts").2.filter
        MissingImport.reports).map
          (fun d => (d.fileName, d.finding.span, d.finding.payload)) =
        [("a.ts", ⟨1, 5⟩, .missingImport "x-el" "b.ts")] := by
  intro host s
  have hs : s = preparedUse fun _ => "x-el" := rfl
  have hon : s.config.settings.severity? MissingImport.info = some .warning := on_preparedUse _
  have hdefines : s.Defines "a.ts" "x-el" := by
    refine ⟨("a.ts", { source := { id := 0, text := useText }, result :=
      { definitions := [component "x-el" "a.ts"] } }), ?_, rfl, component "x-el" "a.ts",
      List.mem_singleton_self _, rfl⟩
    show _ ∈ (preparedUse fun _ => "x-el").discovered
    rw [discovered_preparedUse]
    exact List.mem_cons_self
  refine ⟨⟨hon, declaresOwn_preparedUse _, hdefines⟩, ?_⟩
  have hlower : lowerName "x-el" = "x-el" := by decide
  have hdocuments : s.markupDocuments useParsers "a.ts" = [useDocument] := (read_preparedUse _).2
  have hentry : s.knowledge.layers.discovered.tags.find? "x-el" =
      some ((component "x-el" "b.ts").toTag.stamp .discovered) := by
    rw [hs]
    exact find?_preparedUse (fun _ => "x-el") hlower
  obtain ⟨n, hn, hkind, htag, hspan⟩ := nodes_useDocument
  have htag? : s.knowledge.layers.tag? (lowerName n.tag) =
      some ((component "x-el" "b.ts").toTag.stamp .discovered) := by
    rw [htag, hlower, Layers.tag?_eq_tagWith, hentry, hs]
    exact tagWith_preparedUse (fun _ => "x-el") _
  have hdefiner : s.knowledge.layers.definer? n.tag = some "b.ts" := by
    rw [Layers.definer?, htag, hlower, hentry]
    rfl
  have hstandard : s.knowledge.layers.isStandard n.tag = false := by
    rw [Layers.isStandard, htag?]
    rfl
  have hfound : s.knowledge.layers.missingImport? ["a.ts"] n = some (MissingImport.finding n _ _) :=
    Layers.missingImport?_of_hidden hkind hdefiner hstandard (by decide) htag?
  rw [filter_analyze_after useParsers warnImports host "a.ts" hon]
  show ((s.markupDocuments useParsers "a.ts").flatMap fun d =>
    (Tree.ofDocument d).nodes.filterMap fun n =>
    (s.knowledge.layers.missingImport? ["a.ts"] n).map _).map _ = _
  rw [hdocuments, List.flatMap_singleton, hn, List.filterMap_cons, hfound]
  show [("a.ts", n.nameSpan, Payload.missingImport "x-el" "b.ts")] = _
  rw [hspan]

end Session
end Inlay
