import Inlay.Workspace.Session

/-!
# Lookups for editors

Every lookup is about an offset in a host file.  It brings the file up to date,
finds the first markup document that the offset touches, and works there.
-/

namespace Inlay

open Markup

inductive CompletionKind where
  | tag
  | plainAttribute
  | booleanAttribute
  | property
  | event
  deriving DecidableEq, Inhabited

def CompletionKind.word : CompletionKind → String
  | .tag => "tag"
  | .plainAttribute => "attribute"
  | .booleanAttribute => "booleanAttribute"
  | .property => "property"
  | .event => "event"

/-- A word that can be typed, with its modifier; the detail is a type or a
description. -/
structure Completion where
  label : String
  kind : CompletionKind
  detail : Option String := none
  deriving DecidableEq, Inhabited

/-- A text about a range of the host file. -/
structure Hover where
  span : Span
  contents : String
  deriving DecidableEq, Inhabited

/-- A markup document at an offset of it. -/
structure Located where
  document : Document
  tree : Tree
  offset : Nat
  deriving Inhabited

namespace Located

/-- The node whose name the offset touches. -/
def tagNameAt? (l : Located) : Option Node :=
  (l.tree.nodeAt? l.offset).filter fun n => n.nameSpan.touches l.offset

def tagOf (l : Located) (a : Attribute) : String :=
  ((l.tree.node? a.node).map (·.tag)).getD ""

/-! ## Completions -/

/-- A character that ends the word before it. -/
def endsWord (c : Char) : Bool :=
  isBlank c || c == '<' || c == '>' || c == '"' || c == '\x27' || c == '='

/-- The word behind which a text ends, and the character before it. -/
def wordBefore (text : List Char) : List Char × Option Char :=
  let reversed := text.reverse
  ((reversed.takeWhile fun c => !endsWord c).reverse,
    (reversed.dropWhile fun c => !endsWord c).head?)

def completeTag (t : Tag) : Completion :=
  { label := t.name, kind := .tag, detail := t.description }

/-- The members that a word asks for, by its modifier: their category and how
they complete it. -/
def completionsFor (word : List Char) : Category × (Descriptor → Completion) :=
  match word.head? with
  | some '@' =>
    (.events, fun d => { label := "@" ++ d.name, kind := .event, detail := d.description })
  | some '.' =>
    (.properties, fun d =>
      { label := "." ++ d.name, kind := .property, detail := some d.type.render })
  | some '?' =>
    (.attributes, fun d =>
      { label := "?" ++ d.name, kind := .booleanAttribute, detail := some d.type.render })
  | _ =>
    (.attributes, fun d =>
      { label := d.name, kind := .plainAttribute, detail := some d.type.render })

/-- What can be typed at a place: tags behind an opening bracket, and members
inside a start tag behind its name. -/
def completions (l : Located) : Consult (List Completion) :=
  let text := l.document.text
  match takeBytes? text.toList (min l.offset text.utf8ByteSize) with
  | none => pure []
  | some before => do
    let (word, opener) := wordBefore before
    if opener = some '<' then return (← Consult.tags).map completeTag
    match (l.tree.startTagAt? l.offset).filter fun n => n.nameSpan.stop < l.offset with
    | none => return []
    | some n =>
      let (category, complete) := completionsFor word
      return (← Consult.members category n.tag).values.map complete

/-! ## Hovers and definitions -/

def categoryLabel : Category → String
  | .attributes => "attribute"
  | .properties => "property"
  | .events => "event"
  | .slots => "slot"
  | .cssParts => "css part"
  | .cssProperties => "css property"

/-- A text with a description in a paragraph of its own. -/
def described (text : String) : Option String → String
  | some description => text ++ "\n\n" ++ description
  | none => text

/-- What is known about the attribute or tag name at a place. -/
def hover (l : Located) : Consult (Option Hover) := do
  match l.tree.attributeAt? l.offset with
  | some a =>
    let found ← BindingTypes.member? (l.tagOf a) a
    return found.map fun (category, d) =>
      let text := "(" ++ categoryLabel category ++ ") " ++ a.name ++ ": " ++ d.type.render
      { span := l.document.spanToHost a.whole, contents := described text d.description }
  | none =>
    match l.tagNameAt? with
    | none => return none
    | some n =>
      return (← Consult.tag? n.tag).map fun t =>
        { span := l.document.spanToHost n.nameSpan
          contents := described (bracketed n.tag) t.description }

/-- Where the target of the attribute, or the tag, at a place is declared. -/
def definition (l : Located) : Consult (Option Declaration) := do
  match l.tree.attributeAt? l.offset with
  | some a => return (← BindingTypes.member? (l.tagOf a) a).bind fun found => found.2.declaration
  | none =>
    match l.tagNameAt? with
    | none => return none
    | some n => return (← Consult.tag? n.tag).bind (·.declaration)

/-- The end tag that the element around a place lacks. -/
def closingTag (l : Located) : Option String :=
  (l.tree.unclosedAt? l.offset).map fun n => "</" ++ n.tag ++ ">"

end Located

namespace Session

variable (parsers : Parsers)

/-- The first markup document of a file that an offset touches. -/
def locate? (s : Session) (file : String) (offset : Nat) : Option Located :=
  (s.files.lookup file).bind fun f =>
    f.documents.findSome? fun e =>
      e.tree.bind fun tree =>
        if e.document.touchesHost offset then
          some { document := e.document, tree := tree, offset := e.document.ofHost offset }
        else none

/-- Bring a file up to date and look something up in the document at an
offset. -/
def lookUp {α : Type} (host : Host) (s : Session) (file : String) (offset : Nat) (nothing : α)
    (read : Located → Consult α) : Session × α :=
  let s := s.prepare parsers host file
  match s.locate? file offset with
  | some l => s.consult (read l)
  | none => (s, nothing)

def completionsAt (host : Host) (s : Session) (file : String) (offset : Nat) :
    Session × List Completion :=
  s.lookUp parsers host file offset [] Located.completions

def hoverAt (host : Host) (s : Session) (file : String) (offset : Nat) :
    Session × Option Hover :=
  s.lookUp parsers host file offset none Located.hover

def definitionAt (host : Host) (s : Session) (file : String) (offset : Nat) :
    Session × Option Declaration :=
  s.lookUp parsers host file offset none Located.definition

def closingTagAt (host : Host) (s : Session) (file : String) (offset : Nat) :
    Session × Option String :=
  s.lookUp parsers host file offset none fun l => pure l.closingTag

end Session
end Inlay
