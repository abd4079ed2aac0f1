import Inlay.Proofs.Host.Nesting
import Inlay.Proofs.Workspace.Incremental
import Inlay.Proofs.Workspace.Rediscovery

/-!
# Lookups in nested documents

The markup documents of a file that an offset touches lie one inside the other:
`around_nested`.  A lookup works in the first of them by its place, which is the outermost one.
So it gives what it gives in the innermost document as long as there is no other one around
the offset: `lookups_around`.  Inside a nested literal it reads the placeholder that the
document around shows for the hole: `closingTagAt_nested`.
-/

namespace Inlay

open Markup

/-- A place in a markup document that an offset of the host file touches. -/
def Document.located? (offset : Nat) (d : Document) : Option Located :=
  if d.dialect = .markup ∧ d.touchesHost offset = true then
    some { document := d, tree := Tree.ofDocument d, offset := d.ofHost offset }
  else none

theorem Document.located?_eq_some_iff {offset : Nat} {d : Document} {l : Located} :
    d.located? offset = some l ↔ (d.dialect = .markup ∧ d.touchesHost offset = true) ∧
      l = { document := d, tree := Tree.ofDocument d, offset := d.ofHost offset } := by
  rw [located?]
  split
  · next h => exact ⟨fun hl => ⟨h, (Option.some.inj hl).symm⟩, fun hl => congrArg some hl.2.symm⟩
  · next h => exact ⟨fun hl => absurd hl.symm (Option.some_ne_none l), fun hl => absurd hl.1 h⟩

/-- A document lies inside all the others. -/
def Innermost (ls : List Located) (l : Located) : Prop :=
  l ∈ ls ∧ ∀ other ∈ ls, other.document.location.covers l.document.location = true

namespace Session

section Documents

variable (parsers : Parsers)

/-- The documents of the source that is kept for a file. -/
def sourceDocuments (s : Session) (file : String) : List Document :=
  match s.files.lookup file with
  | none => []
  | some f => (documents? parsers.host file f.source.text s.config.tags).getD []

/-- The markup documents of a file that an offset touches, by their place, with their trees. -/
def around (s : Session) (file : String) (offset : Nat) : List Located :=
  (s.sourceDocuments parsers file).filterMap (Document.located? offset)

end Documents

variable {parsers : Parsers}

theorem sourceDocuments_nested (h : parsers.host.Regular) (s : Session) (file : String) :
    (s.sourceDocuments parsers file).Pairwise fun a b => b.location.Follows a.location := by
  rw [sourceDocuments]
  split
  · exact .nil
  · next f _ =>
    cases hdocs : documents? parsers.host file f.source.text s.config.tags with
    | none => exact .nil
    | some docs => exact documents_nested h hdocs

/-- Of the documents around an offset, each lies inside the one before it. -/
theorem around_nested (h : parsers.host.Regular) (s : Session) (file : String) (offset : Nat) :
    (s.around parsers file offset).Pairwise fun outer inner =>
      outer.document.location.start < inner.document.location.start ∧
        inner.document.location.stop < outer.document.location.stop := by
  refine List.pairwise_filterMap.mpr ?_
  refine (s.sourceDocuments_nested h file).imp fun {a b} hfollows l hl l' hl' => ?_
  obtain ⟨⟨-, htouches⟩, rfl⟩ := Document.located?_eq_some_iff.mp hl
  obtain ⟨⟨-, htouches'⟩, rfl⟩ := Document.located?_eq_some_iff.mp hl'
  -- Documents that lie apart do not touch the same offset.
  refine hfollows.resolve_left fun hlt => ?_
  have hstop := (Span.touches_iff.mp htouches).2
  have hstart := (Span.touches_iff.mp htouches').1
  omega

/-! ## Documents that are kept -/

/-- The documents that are kept for a file are those of the source that is kept. -/
def Parsed (parsers : Parsers) (s : Session) : Prop :=
  ∀ file f, s.files.lookup file = some f → f.documents.map DocumentEntry.parsed =
    ((documents? parsers.host file f.source.text s.config.tags).getD []).flatMap parsedOf

theorem parsed_checkDocument (parsers : Parsers) (host : Host) (visible : List String) (s : Session)
    (e : DocumentEntry) (kb : Knowledge) :
    ((checkDocument parsers host visible s e).value kb).2.parsed = e.parsed := by
  rw [checkDocument.eq_def]
  split <;> rfl

/-- Checking documents keeps them and their trees. -/
theorem parsed_checkDocuments (parsers : Parsers) (host : Host) (visible : List String)
    (s : Session) (es : List DocumentEntry) :
    (checkDocuments parsers host visible s es).2.2.map DocumentEntry.parsed =
      es.map DocumentEntry.parsed := by
  induction es generalizing s with
  | nil => rfl
  | cons e rest ih =>
    exact congrArg₂ List.cons (parsed_checkDocument parsers host visible s e s.knowledge)
      (ih (s.consult (checkDocument parsers host visible s e)).1)

namespace Parsed

variable {s : Session}

theorem congr (h : s.Parsed parsers) {s' : Session} (hconfig : s'.config = s.config)
    (hfiles : s'.files = s.files) : s'.Parsed parsers := by
  intro file f hf
  rw [hfiles] at hf
  rw [hconfig]
  exact h file f hf

theorem setEntry (h : s.Parsed parsers) {s' : Session} {file : String} {entry : FileEntry}
    (hconfig : s'.config = s.config) (hfiles : s'.files = Entries.set file entry s.files)
    (hentry : entry.documents.map DocumentEntry.parsed =
      ((documents? parsers.host file entry.source.text s.config.tags).getD []).flatMap parsedOf) :
    s'.Parsed parsers := by
  intro file' f hf
  rw [hfiles] at hf
  rw [hconfig]
  by_cases hfile : file' = file
  · rw [hfile] at hf ⊢
    obtain rfl := Option.some.inj ((Entries.lookup_set_self file entry s.files).symm.trans hf)
    exact hentry
  · exact h file' f ((Entries.lookup_set_ne hfile entry s.files).symm.trans hf)

theorem forgetDefinitions (h : s.Parsed parsers) (ds : List Definition) :
    (s.forgetDefinitions ds).Parsed parsers := by
  rw [Session.forgetDefinitions]
  split
  · exact h
  · exact h.congr rfl rfl

theorem drop (h : s.Parsed parsers) (file : String) : (s.dropDiscovered file).Parsed parsers := by
  rw [dropDiscovered]
  split
  · exact h
  · exact forgetDefinitions (s := { s with discovered := Entries.erase file s.discovered })
      (h.congr rfl rfl) _

theorem learn (h : s.Parsed parsers) (file : String) (d : DiscoveredFile) :
    (s.learn file d).Parsed parsers := by
  have hadded : (s.addDefinitions d.result.definitions).Parsed parsers := by
    rw [addDefinitions]
    split
    · exact h
    · exact h.congr rfl rfl
  exact hadded.congr rfl rfl

theorem check (h : s.Parsed parsers) (host : Host) {file : String} {entry : FileEntry}
    (hentry : s.files.lookup file = some entry) :
    (s.checkFile parsers host file entry).1.Parsed parsers := by
  obtain ⟨qs, hqs⟩ := checkFile_fst parsers host s file entry
  rw [hqs]
  refine h.setEntry rfl rfl ?_
  rw [parsed_checkDocuments]
  exact h file entry hentry

theorem stable : Stable parsers (fun _ => True) (Parsed parsers) where
  configure _ _ _ := fun _ f hf => absurd hf.symm (Option.some_ne_none f)
  eraseEntry h _ := fun file f hf => h file f (Entries.lookup_of_lookup_erase hf)
  count h _ := h.congr rfl rfl
  drop h := h.drop
  learn _ h _ _ := h.learn _ _
  load _ h _ := h.setEntry rfl rfl (map_parsed_documentsOf _ _ _ _)
  consult h _ _ := h.congr rfl rfl
  check {_ host _ _} _ h hentry := h.check host hentry

theorem new (parsers : Parsers) : Session.new.Parsed parsers :=
  fun _ f hf => absurd hf.symm (Option.some_ne_none f)

theorem prepare_after (parsers : Parsers) (rs : List Request) (host : Host) (file : String) :
    ((Session.new.after parsers rs).prepare parsers host file).Parsed parsers :=
  stable.prepare trivial (stable.after (new parsers) fun _ _ _ _ => trivial) file

end Parsed

/-! ## The document of a lookup -/

variable {host : Host} {s : Session}

/-- A place in what is kept of a document, if it has a tree. -/
def placeIn? (offset : Nat) (p : Document × Option Tree) : Option Located :=
  p.2.bind fun tree =>
    if p.1.touchesHost offset then
      some { document := p.1, tree := tree, offset := p.1.ofHost offset }
    else none

/-- Of what a document is read into, only a markup document itself has a tree. -/
theorem filterMap_parsedOf (offset : Nat) (d : Document) :
    (parsedOf d).filterMap (placeIn? offset) = (d.located? offset).toList := by
  rw [parsedOf, Document.located?]
  cases hdialect : d.dialect with
  | stylesheet => rfl
  | markup =>
    cases htouches : d.touchesHost offset with
    | false => simp [placeIn?, htouches]
    | true => simp [placeIn?, htouches]

/-- A lookup works in the outermost document around the offset. -/
theorem Parsed.locate?_eq (h : s.Parsed parsers) (file : String) (offset : Nat) :
    s.locate? file offset = (s.around parsers file offset).head? := by
  rw [locate?, around, sourceDocuments]
  cases hf : s.files.lookup file with
  | none => rfl
  | some f =>
    show f.documents.findSome? (placeIn? offset ∘ DocumentEntry.parsed) = _
    rw [← List.findSome?_map, h file f hf, ← List.head?_filterMap, List.filterMap_flatMap]
    simp only [filterMap_parsedOf]
    rw [← List.filterMap_eq_flatMap_toList]

/-- What is found in a document that has been located. -/
def answer {α : Type} (s : Session) (nothing : α) (read : Located → Consult α) :
    Option Located → α
  | some l => (s.consult (read l)).2
  | none => nothing

theorem lookUp_snd {α : Type} (parsers : Parsers) (host : Host) (s : Session) (file : String)
    (offset : Nat) (nothing : α) (read : Located → Consult α) :
    (s.lookUp parsers host file offset nothing read).2 =
      (s.prepare parsers host file).answer nothing read
        ((s.prepare parsers host file).locate? file offset) := by
  rw [lookUp]
  cases (s.prepare parsers host file).locate? file offset with
  | none => rfl
  | some l => rfl

/-- All lookups at an offset give what they give in a document. -/
structure AnsweredIn (parsers : Parsers) (host : Host) (s : Session) (file : String) (offset : Nat)
    (l : Option Located) : Prop where
  hover : (s.hoverAt parsers host file offset).2 =
    (s.prepare parsers host file).answer none Located.hover l
  definition : (s.definitionAt parsers host file offset).2 =
    (s.prepare parsers host file).answer none Located.definition l
  completions : (s.completionsAt parsers host file offset).2 =
    (s.prepare parsers host file).answer [] Located.completions l
  closingTag : (s.closingTagAt parsers host file offset).2 =
    (s.prepare parsers host file).answer none (fun l => pure l.closingTag) l

theorem answeredIn_locate? (parsers : Parsers) (host : Host) (s : Session) (file : String)
    (offset : Nat) :
    s.AnsweredIn parsers host file offset ((s.prepare parsers host file).locate? file offset) :=
  ⟨lookUp_snd parsers host s file offset none _, lookUp_snd parsers host s file offset none _,
    lookUp_snd parsers host s file offset [] _, lookUp_snd parsers host s file offset none _⟩

/-- The last of the documents around an offset lies inside all the others. -/
theorem innermost_of_getLast? (h : parsers.host.Regular) {file : String} {offset : Nat}
    {l : Located} (hl : (s.around parsers file offset).getLast? = some l) :
    Innermost (s.around parsers file offset) l := by
  have hnested := s.around_nested h file offset
  obtain ⟨outer, heq⟩ := List.getLast?_eq_some_iff.mp hl
  rw [heq] at hnested ⊢
  refine ⟨List.mem_append_right _ List.mem_cons_self, fun other hother => ?_⟩
  rw [Span.covers, Bool.and_eq_true, decide_eq_true_eq, decide_eq_true_eq]
  rcases List.mem_append.mp hother with hother | hother
  · have hinside := (List.pairwise_append.mp hnested).2.2 other hother l List.mem_cons_self
    omega
  · rw [List.mem_singleton.mp hother]
    omega

/-- The outermost document is the innermost one if and only if there is no other. -/
theorem head?_around_eq_iff (h : parsers.host.Regular) {file : String} {offset : Nat}
    {l : Located} (hl : Innermost (s.around parsers file offset) l) :
    (s.around parsers file offset).head? = some l ↔ (s.around parsers file offset).length = 1 := by
  have hnested := s.around_nested h file offset
  obtain ⟨hmem, hcovers⟩ := hl
  generalize s.around parsers file offset = ls at hnested hmem hcovers ⊢
  cases ls with
  | nil => exact absurd hmem List.not_mem_nil
  | cons outer rest =>
    cases rest with
    | nil =>
      obtain rfl := List.mem_singleton.mp hmem
      exact ⟨fun _ => rfl, fun _ => rfl⟩
    | cons inner more =>
      refine ⟨fun hhead => ?_, fun hlength => absurd hlength (by simp)⟩
      obtain rfl : outer = l := Option.some.inj hhead
      have hinside := List.rel_of_pairwise_cons hnested List.mem_cons_self
      have hstart := hcovers inner (List.mem_cons_of_mem _ List.mem_cons_self)
      rw [Span.covers, Bool.and_eq_true, decide_eq_true_eq] at hstart
      omega

/-- After any run, the documents that are looked into are those of the source that the host hands
out. -/
theorem id_source_prepare (parsers : Parsers) (host : Host) (s : Session) (file : String) :
    ((s.prepare parsers host file).files.lookup file).map (·.source.id) =
      (host.source? file).map (·.id) := by
  rw [prepare]
  cases hsource : host.source? file with
  | none =>
    rw [ensureDocuments, hsource]
    exact congrArg _ (Entries.lookup_erase_self file _)
  | some source =>
    obtain ⟨f, hf, hid⟩ := lookup_ensureDocuments (s := s.sync host) hsource
    rw [hf]
    exact congrArg some hid

/-- The markup documents around an offset lie one inside the other, and all lookups work in the
outermost one.  It is the innermost one, as it should be, if and only if there is no other
around the offset.  Of the parser of host files only its regularity is used. -/
theorem lookups_around {parsers : Parsers} (h : parsers.host.Regular) (rs : List Request)
    (host : Host) (file : String) (offset : Nat) :
    let s := (new.after parsers rs).prepare parsers host file
    (s.files.lookup file).map (·.source.id) = (host.source? file).map (·.id) ∧
      ((s.around parsers file offset).Pairwise fun outer inner =>
        outer.document.location.start < inner.document.location.start ∧
          inner.document.location.stop < outer.document.location.stop) ∧
      (new.after parsers rs).AnsweredIn parsers host file offset
        (s.around parsers file offset).head? ∧
      ∀ l, (s.around parsers file offset).getLast? = some l →
        Innermost (s.around parsers file offset) l ∧
          ((s.around parsers file offset).head? = some l ↔
            (s.around parsers file offset).length = 1) ∧
          ((s.around parsers file offset).length = 1 →
            (new.after parsers rs).AnsweredIn parsers host file offset (some l)) := by
  intro s
  have hparsed : s.Parsed parsers := Parsed.prepare_after parsers rs host file
  have hanswered := answeredIn_locate? parsers host (new.after parsers rs) file offset
  rw [hparsed.locate?_eq] at hanswered
  refine ⟨id_source_prepare parsers host _ file, s.around_nested h file offset, hanswered,
    fun l hl => ?_⟩
  have hinnermost := innermost_of_getLast? h hl
  have hiff := head?_around_eq_iff h hinnermost
  refine ⟨hinnermost, hiff, fun hlength => ?_⟩
  rw [hiff.mpr hlength] at hanswered
  exact hanswered

/-- A host with one file. -/
def hostWithText (text : String) : Host :=
  { files := ["a.ts"]
    source? := fun file => if file = "a.ts" then some { id := 0, text := text } else none
    imports := fun _ => []
    discover := fun _ _ => {}
    types := fun _ _ => .any }

/-- A session that has nothing of a file reads its documents. -/
theorem sourceDocuments_ensureDocuments {host : Host} {s : Session} {file : String}
    {source : Source} (hsource : host.source? file = some source)
    (hnone : s.files.lookup file = none) :
    (s.ensureDocuments parsers host file).sourceDocuments parsers file =
      (documents? parsers.host file source.text s.config.tags).getD [] := by
  have hload : s.ensureDocuments parsers host file = s.load parsers file source := by
    rw [ensureDocuments, hsource]
    dsimp only
    rw [hnone]
    rfl
  rw [hload, load, sourceDocuments, Entries.lookup_set_self]

/-- A new session reads the documents of the file. -/
theorem around_hostWithText (parsers : Parsers) (text : String) (offset : Nat) :
    (new.prepare parsers (hostWithText text) "a.ts").around parsers "a.ts" offset =
      ((documents? parsers.host "a.ts" text {}).getD []).filterMap (Document.located? offset) := by
  have hdiscovered : new.discovered = [] := by rw [new]
  have hfiles : new.files = [] := by rw [new]
  have hconfig : new.config.tags = {} := by rw [new]
  generalize new = s at hdiscovered hfiles hconfig ⊢
  have hsource : (hostWithText text).source? "a.ts" = some { id := 0, text := text } := by
    simp [hostWithText]
  have hsync : s.sync (hostWithText text) =
      s.rediscover (hostWithText text) "a.ts" { id := 0, text := text } := by
    rw [sync, hdiscovered]
    show s.syncFile (hostWithText text) "a.ts" = _
    rw [syncFile_of_unknown hsource (by rw [hdiscovered]; rfl)]
  have hrediscover : s.rediscover (hostWithText text) "a.ts" { id := 0, text := text } =
      { s with
        discoveries := s.discoveries + 1
        discovered := [("a.ts", { source := { id := 0, text := text }, result := {} })] } := by
    rw [rediscover, dropDiscovered, hdiscovered]
    rfl
  rw [prepare, hsync, hrediscover, around,
    sourceDocuments_ensureDocuments hsource (by rw [hfiles]; rfl), hconfig]

/-- A literal inside another one, with an element that is not closed. -/
def nestedText : String := "html\x60<p>$\x7bhtml\x60<x-el>\x60\x7d</p>\x60"

/-- The templates in it, the outer one first. -/
def nestedTemplates : List TaggedTemplate :=
  [{ tag := .identifier ⟨0, 4⟩ "html", span := ⟨4, 28⟩, texts := [⟨5, 8⟩, ⟨23, 27⟩]
     expressions := [.other ⟨10, 22⟩] },
   { tag := .identifier ⟨10, 14⟩ "html", span := ⟨14, 22⟩, texts := [⟨15, 21⟩]
     expressions := [] }]

/-- Their literals. -/
def nestedLiterals : List Literal :=
  [⟨⟨4, 28⟩, .markup, [(⟨8, 23⟩, .other ⟨10, 22⟩)]⟩, ⟨⟨14, 22⟩, .markup, []⟩]

def nestedParsers : Parsers := .ofSource nestedText nestedTemplates

theorem regular_nestedParsers : nestedParsers.host.Regular := by
  refine HostParser.regular_ofSource (by decide +kernel) ?_
  refine List.pairwise_pair.mpr (.inl (.inr ⟨(⟨8, 23⟩, .other ⟨10, 22⟩), ?_, ?_, ?_⟩)) <;> decide

/-- Documents that are in order need not be sorted. -/
theorem documents?_of_sorted {parse : HostParser} {fileName source : String} {tags : LiteralTags}
    {templates : List TaggedTemplate} {literals : List Literal}
    (htemplates : parse fileName source = some templates)
    (hliterals : templates.filterMap (Literal.ofTemplate? tags) = literals)
    (hsorted : (Literal.documentsFrom fileName source 0 literals).Pairwise
      fun a b => decide (a.location.start ≤ b.location.start) = true) :
    documents? parse fileName source tags =
      some (Literal.documentsFrom fileName source 0 literals) := by
  rw [documents?, htemplates, Option.map_some, hliterals, Literal.documents,
    List.mergeSort_of_pairwise hsorted]

theorem documents?_nestedText :
    documents? nestedParsers.host "a.ts" nestedText {} =
      some (Literal.documentsFrom "a.ts" nestedText 0 nestedLiterals) :=
  documents?_of_sorted (HostParser.ofSource_known nestedText nestedTemplates "a.ts") rfl
    (by decide +kernel)

theorem around_nestedText :
    ((new.prepare nestedParsers (hostWithText nestedText) "a.ts").around
      nestedParsers "a.ts" 21).map
        (fun l => (l.document.location, l.closingTag)) =
      [(⟨5, 27⟩, none), (⟨15, 21⟩, some "</x-el>")] := by
  rw [around_hostWithText, documents?_nestedText]
  decide +kernel

/-- At the end of the element two documents are around the offset, and the lookups work in the
outer one. -/
theorem lookups_around_of_nested :
    let s := new.prepare nestedParsers (hostWithText nestedText) "a.ts"
    nestedParsers.host.Regular ∧ (s.around nestedParsers "a.ts" 21).length = 2 ∧
      new.AnsweredIn nestedParsers (hostWithText nestedText) "a.ts" 21
        (s.around nestedParsers "a.ts" 21).head? ∧
      ∃ l, (s.around nestedParsers "a.ts" 21).getLast? = some l ∧
        l.document.location = ⟨15, 21⟩ ∧ Innermost (s.around nestedParsers "a.ts" 21) l := by
  intro s
  have haround : (s.around nestedParsers "a.ts" 21).map
      (fun l => (l.document.location, l.closingTag)) =
        [(⟨5, 27⟩, none), (⟨15, 21⟩, some "</x-el>")] := around_nestedText
  obtain ⟨-, -, hanswered, hinnermost⟩ :=
    lookups_around regular_nestedParsers [] (hostWithText nestedText) "a.ts" 21
  obtain ⟨outer, rest, hls, -, hrest⟩ := List.map_eq_cons_iff.mp haround
  obtain ⟨inner, hrest, hinner⟩ := List.map_eq_singleton_iff.mp hrest
  have hlast : (s.around nestedParsers "a.ts" 21).getLast? = some inner := by
    rw [hls, hrest]
    rfl
  refine ⟨regular_nestedParsers, ?_, hanswered, inner, hlast, (Prod.mk.inj hinner).1,
    (hinnermost inner hlast).1⟩
  rw [hls, hrest]
  rfl

/-- Behind an open element of a nested literal, the document around has nothing to close. -/
theorem closingTagAt_nested :
    let s := new.prepare nestedParsers (hostWithText nestedText) "a.ts"
    ((s.around nestedParsers "a.ts" 21).map fun l => (l.document.location, l.closingTag)) =
        [(⟨5, 27⟩, none), (⟨15, 21⟩, some "</x-el>")] ∧
      (new.closingTagAt nestedParsers (hostWithText nestedText) "a.ts" 21).2 = none := by
  intro s
  have haround : ((s.around nestedParsers "a.ts" 21).map
      fun l => (l.document.location, l.closingTag)) =
        [(⟨5, 27⟩, none), (⟨15, 21⟩, some "</x-el>")] := around_nestedText
  refine ⟨haround, ?_⟩
  have hparsed : s.Parsed nestedParsers :=
    Parsed.stable.prepare trivial (Parsed.new nestedParsers) "a.ts"
  rw [closingTagAt, lookUp_snd, hparsed.locate?_eq]
  obtain ⟨l, rest, hls, hl, -⟩ := List.map_eq_cons_iff.mp haround
  rw [hls]
  exact (Prod.mk.inj hl).2

end Session
end Inlay
