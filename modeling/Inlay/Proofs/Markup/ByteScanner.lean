import Inlay.Markup.Token
import Inlay.Proofs.Text.AsciiBytes

/-!
# Scanning bytes

Markup can be scanned byte by byte, in one pass and without decoding.  The scanner of this module has
twenty modes and one set of registers that they share.  What a register holds depends on the mode:
`sectionStart` is where the text, name, value or comment begins that is being read, and in
other modes it is left over.  Names are not copied but looked up in the text by their places.

A scanner of bytes can fail where a scanner of characters cannot: it may read behind the
end of its text, or cut a name out of it that is not there.  Every such access is an `Option` here.
-/

namespace Inlay
namespace Markup

inductive Mode where
  | text
  | beforeTagName
  | tagName
  | selfClosingTag
  | beforeEndTagName
  | endTagName
  | afterEndTagName
  | beforeAttribute
  | attributeName
  | afterAttribute
  | beforeValue
  | doubleQuoted
  | singleQuoted
  | unquoted
  | beforeDeclaration
  | declaration
  | instruction
  | beforeComment
  | comment
  | rawText
  deriving DecidableEq

/-- What the scanner keeps from byte to byte.  `tagStart` is where the bracket of the last tag
stands, and `rawName` the name whose end tag ends the raw text. -/
structure Registers where
  mode : Mode := .text
  sectionStart : Nat := 0
  tagStart : Nat := 0
  endTagName : Span := Span.empty 0
  openName : Span := Span.empty 0
  rawName : Option Span := none
  deriving DecidableEq

/-- What becomes of a byte: the registers behind it, the tokens that are complete, and how many of
the next bytes have been read with it. -/
structure Handled where
  registers : Registers
  tokens : List Token := []
  skipped : Nat := 0

/-- The tokens come behind others of the same byte. -/
def Handled.behind (ts : List Token) (h : Handled) : Handled := { h with tokens := ts ++ h.tokens }

theorem Handled.behind_silent (ts : List Token) (r : Registers) :
    behind ts { registers := r } = { registers := r, tokens := ts } := by
  rw [behind, List.append_nil]

theorem Handled.behind_comp_behind (ts us : List Token) :
    behind ts ∘ behind us = behind (ts ++ us) := by
  funext h
  simp only [Function.comp_apply, behind, List.append_assoc]

/-- The bytes of a range that lies in the input. -/
def bytesIn? (input : List UInt8) (r : Span) : Option (List UInt8) :=
  if r.start ≤ r.stop ∧ r.stop ≤ input.length then some ((input.drop r.start).take r.length)
  else none

def isTagStartByte (b : UInt8) : Bool :=
  ('a'.toUInt8 ≤ b && b ≤ 'z'.toUInt8) || ('A'.toUInt8 ≤ b && b ≤ 'Z'.toUInt8)

def endsNameByte (b : UInt8) : Bool := b == '/'.toUInt8 || b == '>'.toUInt8 || isBlankByte b

/-- The two bytes behind `index` end a comment. -/
def endsComment? (input : List UInt8) (index : Nat) : Option Bool :=
  if index + 2 < input.length then do
    let second ← input[index + 1]?
    if second == '-'.toUInt8 then do
      let third ← input[index + 2]?
      pure (third == '>'.toUInt8)
    else pure false
  else pure false

namespace Registers

variable (r : Registers) (input : List UInt8) (index : Nat) (b : UInt8)

/-- The end tag of the raw text stands behind the bracket at `index`. -/
def endsRawText? : Option Bool :=
  match r.rawName with
  | none => some false
  | some place =>
    (bytesIn? input place).map fun name =>
      let behind := index + 2 + name.length
      input[index + 1]? == some '/'.toUInt8 &&
        (bytesIn? input { start := index + 2, stop := behind }).any (fun candidate =>
          candidate.map lowerByte == name.map lowerByte) &&
        input[behind]?.all endsNameByte

def inText : Handled :=
  if b == '<'.toUInt8 then
    { registers := { r with mode := .beforeTagName, sectionStart := index, tagStart := index }
      tokens := textSince r.sectionStart index }
  else { registers := r }

def beforeTagName : Handled :=
  if b == '!'.toUInt8 then
    { registers := { r with mode := .beforeDeclaration, sectionStart := index + 1 } }
  else if b == '?'.toUInt8 then
    { registers := { r with mode := .instruction, sectionStart := index + 1 } }
  else if isTagStartByte b then
    { registers := { r with mode := .tagName, sectionStart := index } }
  else if b == '/'.toUInt8 then { registers := { r with mode := .beforeEndTagName } }
  else inText { r with mode := .text } index b

/-- Go on behind a start tag. -/
def enterContent? : Option Registers :=
  (bytesIn? input r.openName).map fun name =>
    if isRawTextTag ((String.fromUTF8? name.toByteArray).getD "") then
      { r with mode := .rawText, rawName := some r.openName }
    else { r with mode := .text }

def beforeAttribute? : Option Handled :=
  if b == '>'.toUInt8 then
    (enterContent? { r with sectionStart := index + 1 } input).map fun r =>
      { registers := r, tokens := [.openEnd index] }
  else if b == '/'.toUInt8 then some { registers := { r with mode := .selfClosingTag } }
  else if isBlankByte b then some { registers := r }
  else some { registers := { r with mode := .attributeName, sectionStart := index } }

def inTagName? : Option Handled :=
  if endsNameByte b then
    let named : Registers :=
      { r with
        mode := .beforeAttribute
        openName := { start := r.sectionStart, stop := index }
        sectionStart := index }
    (named.beforeAttribute? input index b).map (.behind [.openName r.sectionStart index])
  else some { registers := r }

def inSelfClosingTag? : Option Handled :=
  if b == '>'.toUInt8 then
    some { registers := { r with mode := .text, sectionStart := index + 1 }
           tokens := [.selfClose index] }
  else if isBlankByte b then some { registers := r }
  else beforeAttribute? { r with mode := .beforeAttribute } input index b

def beforeEndTagName : Handled :=
  if isBlankByte b then { registers := r }
  else if b == '>'.toUInt8 then
    { registers := { r with mode := .text, sectionStart := index + 1 }
      tokens := [.mistake .endTagWithoutName index] }
  else { registers := { r with mode := .endTagName, sectionStart := index } }

def closeTag : Handled :=
  { registers := { r with mode := .text, sectionStart := index + 1 }
    tokens := [.close r.tagStart r.endTagName.start r.endTagName.stop (index + 1)] }

def inEndTagName : Handled :=
  if b == '>'.toUInt8 || isBlankByte b then
    let named : Registers := { r with endTagName := { start := r.sectionStart, stop := index } }
    if b == '>'.toUInt8 then named.closeTag index
    else { registers := { named with mode := .afterEndTagName } }
  else { registers := r }

def inAfterEndTagName : Handled :=
  if b == '>'.toUInt8 then r.closeTag index else { registers := r }

def inAfterAttribute? : Option Handled :=
  if b == '='.toUInt8 then some { registers := { r with mode := .beforeValue } }
  else if b == '/'.toUInt8 || b == '>'.toUInt8 then
    (beforeAttribute? { r with mode := .beforeAttribute } input index b).map
      (.behind [.attributeEnd .absent index])
  else if isBlankByte b then some { registers := r }
  else some { registers := { r with mode := .attributeName, sectionStart := index }
              tokens := [.attributeEnd .absent index] }

def inAttributeName? : Option Handled :=
  if b == '='.toUInt8 || endsNameByte b then
    (inAfterAttribute? { r with mode := .afterAttribute, sectionStart := index } input index b).map
      (.behind [.attributeName r.sectionStart index])
  else some { registers := r }

def endValue (quote : Quote) : Handled :=
  { registers := { r with mode := .beforeAttribute, sectionStart := index + 1 }
    tokens := valueSince r.sectionStart quote index }

def inUnquoted? : Option Handled :=
  if isBlankByte b || b == '>'.toUInt8 then
    let ended := r.endValue index .unquoted
    (ended.registers.beforeAttribute? input index b).map (.behind ended.tokens)
  else some { registers := r }

def inBeforeValue? : Option Handled :=
  if b == '"'.toUInt8 then
    some { registers := { r with mode := .doubleQuoted, sectionStart := index + 1 } }
  else if b == '\x27'.toUInt8 then
    some { registers := { r with mode := .singleQuoted, sectionStart := index + 1 } }
  else if isBlankByte b then some { registers := r }
  else inUnquoted? { r with mode := .unquoted, sectionStart := index } input index b

/-- In quotes, whose closing one is the byte `mark`. -/
def inQuotes (mark : UInt8) (quote : Quote) : Handled :=
  if b == mark then r.endValue index quote else { registers := r }

def inDeclaration : Handled :=
  if b == '>'.toUInt8 then { registers := { r with mode := .text, sectionStart := index + 1 } }
  else { registers := r }

/-- Behind the mark of a declaration, or behind the first dash of a comment. -/
def beforeDeclaration (dashed : Mode) : Handled :=
  if b == '-'.toUInt8 then { registers := { r with mode := dashed, sectionStart := index + 1 } }
  else inDeclaration { r with mode := .declaration } index b

def inComment? : Option Handled :=
  if b == '-'.toUInt8 then
    (endsComment? input index).map fun ends =>
      if ends then
        { registers := { r with mode := .text, sectionStart := index + 3 }
          tokens := [.comment r.sectionStart index]
          skipped := 2 }
      else { registers := r }
  else some { registers := r }

def inRawText? : Option Handled :=
  if b == '<'.toUInt8 then
    (r.endsRawText? input index).map fun ends =>
      if ends then
        { registers :=
            { r with
              mode := .beforeTagName, rawName := none, tagStart := index, sectionStart := index }
          tokens := textSince r.sectionStart index }
      else { registers := r }
  else some { registers := r }

/-- Read the byte at `index`. -/
def handle? : Option Handled :=
  match r.mode with
  | .text => some (r.inText index b)
  | .beforeTagName => some (r.beforeTagName index b)
  | .tagName => r.inTagName? input index b
  | .selfClosingTag => r.inSelfClosingTag? input index b
  | .beforeEndTagName => some (r.beforeEndTagName index b)
  | .endTagName => some (r.inEndTagName index b)
  | .afterEndTagName => some (r.inAfterEndTagName index b)
  | .beforeAttribute => r.beforeAttribute? input index b
  | .attributeName => r.inAttributeName? input index b
  | .afterAttribute => r.inAfterAttribute? input index b
  | .beforeValue => r.inBeforeValue? input index b
  | .doubleQuoted => some (r.inQuotes index b '"'.toUInt8 .double)
  | .singleQuoted => some (r.inQuotes index b '\x27'.toUInt8 .single)
  | .unquoted => r.inUnquoted? input index b
  | .beforeDeclaration => some (r.beforeDeclaration index b .beforeComment)
  | .declaration | .instruction => some (r.inDeclaration index b)
  | .beforeComment => some (r.beforeDeclaration index b .comment)
  | .comment => r.inComment? input index b
  | .rawText => r.inRawText? input index b

/-- The tokens that the end of the input completes. -/
def atEnd : List Token :=
  match r.mode with
  | .text | .rawText => textSince r.sectionStart index
  | .tagName => [.openName r.sectionStart index, .mistake .endInTag index]
  | .attributeName =>
    [.attributeName r.sectionStart index, .attributeEnd .absent index, .mistake .endInTag index]
  | .afterAttribute => [.attributeEnd .absent index, .mistake .endInTag index]
  | .doubleQuoted | .singleQuoted | .unquoted =>
    valueSince r.sectionStart .unquoted index ++ [.mistake .endInTag index]
  | .beforeAttribute | .beforeValue | .selfClosingTag | .beforeEndTagName | .endTagName
  | .afterEndTagName => [.mistake .endInTag index]
  | .comment => [.mistake .endInComment index, .comment r.sectionStart index]
  | .beforeTagName | .beforeDeclaration | .declaration | .instruction | .beforeComment => []

end Registers

/-- The tokens of the bytes from `index` on. -/
def scanBytes (input : List UInt8) (r : Registers) (index : Nat) : Option (List Token) :=
  if h : index < input.length then do
    let handled ← r.handle? input index input[index]
    let rest ← scanBytes input handled.registers (index + handled.skipped + 1)
    pure (handled.tokens ++ rest)
  else some (r.atEnd index ++ [.finish])
termination_by input.length - index

end Markup
end Inlay
