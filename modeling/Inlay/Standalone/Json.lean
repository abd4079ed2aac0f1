import Inlay.Json.Basic
import Inlay.Number.Decimal

/-!
# Reading JSON

Text becomes lexemes by an automaton that reads one character at a time, and
lexemes become a value by a second automaton with a stack of open containers.
Both are folds, so reading ends on every input and nests as deep as the text
does.  Nothing but blanks may stand around the value.
-/

namespace Inlay
namespace Standalone
namespace Json

/-- A piece of a string: a character, or one unit of UTF-16 that an escape
names. -/
inductive Piece where
  | char (c : Char)
  | unit (n : Nat)

def isHighSurrogate (n : Nat) : Bool := 0xD800 ≤ n && n ≤ 0xDBFF

def isLowSurrogate (n : Nat) : Bool := 0xDC00 ≤ n && n ≤ 0xDFFF

/-- The text of the pieces.  Two escapes may form one character; half of such a
pair is no text. -/
def joinPieces : List Piece → Option (List Char)
  | [] => some []
  | .char c :: rest => (joinPieces rest).map (c :: ·)
  | .unit high :: .unit low :: rest =>
    if isHighSurrogate high then
      if isLowSurrogate low then
        (joinPieces rest).map
          (Char.ofNat (0x10000 + (high - 0xD800) * 0x400 + (low - 0xDC00)) :: ·)
      else none
    else if isLowSurrogate high then none
    else (joinPieces (.unit low :: rest)).map (Char.ofNat high :: ·)
  | .unit n :: rest =>
    if isHighSurrogate n || isLowSurrogate n then none
    else (joinPieces rest).map (Char.ofNat n :: ·)

/-- The marks, strings, numbers and words of JSON text. -/
inductive Lexeme where
  | mark (c : Char)
  | string (text : Option String)
  | number (value : Option JsonNumber)
  | word (text : String)

/-- Where the lexer stands.  What has been read of the current lexeme is held
in reverse. -/
inductive LexState where
  | between
  | inString (pieces : List Piece)
  | inEscape (pieces : List Piece)
  | inUnit (pieces : List Piece) (value digits : Nat)
  | inNumber (chars : List Char)
  | inWord (chars : List Char)

def isMark (c : Char) : Bool :=
  c == '[' || c == ']' || c == '\x7b' || c == '\x7d' || c == ',' || c == ':'

def isJsonBlank (c : Char) : Bool := c == ' ' || c == '\n' || c == '\t' || c == '\r'

def isNumberChar (c : Char) : Bool :=
  c.isDigit || c == '+' || c == '-' || c == '.' || c == 'e' || c == 'E'

def hexValue? (c : Char) : Option Nat :=
  if c.isDigit then some (c.toNat - '0'.toNat)
  else if 'a' ≤ c && c ≤ 'f' then some (c.toNat - 'a'.toNat + 10)
  else if 'A' ≤ c && c ≤ 'F' then some (c.toNat - 'A'.toNat + 10)
  else none

/-- The character that a one-letter escape names. -/
def escapedChar? (c : Char) : Option Char :=
  match c with
  | '"' => some '"'
  | '\\' => some '\\'
  | '/' => some '/'
  | 'b' => some '\x08'
  | 'f' => some '\x0c'
  | 'n' => some '\n'
  | 'r' => some '\r'
  | 't' => some '\t'
  | _ => none

/-- Digits of a whole number: no zero stands in front of another digit. -/
def isWholePart (cs : List Char) : Bool :=
  match cs with
  | [] => false
  | '0' :: rest => rest.isEmpty
  | _ => true

/-- An integer beyond 64 bits is a double. -/
def integerNumber (negative : Bool) (n : Nat) : JsonNumber :=
  if negative then
    if n = 0 ∨ Nat.pow 2 63 < n then .real (Decimal.toNumber true { digits := n, exponent := 0 })
    else .integer (-(n : Int))
  else if n < Nat.pow 2 64 then .integer n
  else .real (Decimal.toNumber false { digits := n, exponent := 0 })

/-- The value of a double, unless it is past the greatest one. -/
def finite? : JsonNumber → Option JsonNumber
  | .real (.finite n s e) => some (.real (.finite n s e))
  | .real _ => none
  | n => some n

/-- The number that the characters write; the outer `none` means that they
write none, the inner one that it is out of range. -/
def readNumber? (cs : List Char) : Option (Option JsonNumber) :=
  let (negative, body) :=
    match cs with
    | '-' :: r => (true, r)
    | r => (false, r)
  let whole := body.takeWhile Char.isDigit
  let rest := body.dropWhile Char.isDigit
  if !isWholePart whole then none
  else if rest.isEmpty then some (finite? (integerNumber negative (Decimal.ofDigits whole)))
  else
    let pointed :=
      match rest with
      | '.' :: r => !(r.takeWhile Char.isDigit).isEmpty
      | _ => true
    if !pointed then none
    else (Decimal.read? body).map fun d => finite? (.real (d.toNumber negative))

def lexBetween (c : Char) : Option (LexState × List Lexeme) :=
  if isJsonBlank c then some (.between, [])
  else if isMark c then some (.between, [.mark c])
  else if c == '"' then some (.inString [], [])
  else if c == '-' || c.isDigit then some (.inNumber [c], [])
  else if 'a' ≤ c && c ≤ 'z' then some (.inWord [c], [])
  else none

/-- The lexeme that ends where the state stands, if one can end there. -/
def LexState.flush : LexState → Option (List Lexeme)
  | .between => some []
  | .inNumber cs => (readNumber? cs.reverse).map fun n => [.number n]
  | .inWord cs => some [.word (String.ofList cs.reverse)]
  | _ => none

/-- One character of the text: the next state, and the lexemes that it ends. -/
def LexState.step (s : LexState) (c : Char) : Option (LexState × List Lexeme) :=
  match s with
  | .between => lexBetween c
  | .inString ps =>
    if c == '"' then
      some (.between, [.string ((joinPieces ps.reverse).map String.ofList)])
    else if c == '\\' then some (.inEscape ps, [])
    else if c.toNat < 0x20 then none
    else some (.inString (.char c :: ps), [])
  | .inEscape ps =>
    if c == 'u' then some (.inUnit ps 0 0, [])
    else (escapedChar? c).map fun e => (.inString (.char e :: ps), [])
  | .inUnit ps value digits =>
    (hexValue? c).map fun h =>
      let value := value * 16 + h
      if digits = 3 then (.inString (.unit value :: ps), [])
      else (.inUnit ps value (digits + 1), [])
  | .inNumber cs =>
    if isNumberChar c then some (.inNumber (c :: cs), [])
    else do
      let ended ← (LexState.inNumber cs).flush
      let (next, more) ← lexBetween c
      some (next, ended ++ more)
  | .inWord cs =>
    if 'a' ≤ c && c ≤ 'z' then some (.inWord (c :: cs), [])
    else do
      let ended ← (LexState.inWord cs).flush
      let (next, more) ← lexBetween c
      some (next, ended ++ more)

/-- What the value automaton accepts next. -/
inductive Expected where
  | value
  | valueOrEnd
  | key
  | keyOrEnd
  | colon
  | commaOrEnd
  | nothing

/-- A container whose end has not been read; its contents are held in reverse.
A field whose name cannot be read spoils its object. -/
inductive Frame where
  | items (read : List Json)
  | fields (read : List (String × Json)) (key : Option String) (spoiled : Bool)

/-- The state of the value automaton: the open containers, innermost first, what
may come next, and the value once it is complete. -/
structure Builder where
  frames : List Frame := []
  expected : Expected := .value
  result : Option Json := none

namespace Builder

/-- Put a complete value where it belongs. -/
def put (b : Builder) (j : Json) : Option Builder :=
  match b.frames with
  | [] => some { b with expected := .nothing, result := some j }
  | .items read :: outer =>
    some { b with frames := .items (j :: read) :: outer, expected := .commaOrEnd }
  | .fields read (some key) spoiled :: outer =>
    some { b with
      frames := .fields ((key, j) :: read) none spoiled :: outer, expected := .commaOrEnd }
  | .fields read none spoiled :: outer =>
    some { b with frames := .fields read none spoiled :: outer, expected := .commaOrEnd }

def close (b : Builder) : Option Builder :=
  match b.frames with
  | .items read :: outer => put { b with frames := outer } (.array read.reverse)
  | .fields read _ spoiled :: outer =>
    put { b with frames := outer } (if spoiled then .unreadable else .object read.reverse)
  | [] => none

def value (b : Builder) : Lexeme → Option Builder
  | .mark '[' => some { b with frames := .items [] :: b.frames, expected := .valueOrEnd }
  | .mark '\x7b' =>
    some { b with frames := .fields [] none false :: b.frames, expected := .keyOrEnd }
  | .string (some s) => b.put (.string s)
  | .string none => b.put .unreadable
  | .number (some n) => b.put (.number n)
  | .number none => b.put .unreadable
  | .word "null" => b.put .null
  | .word "true" => b.put (.bool true)
  | .word "false" => b.put (.bool false)
  | _ => none

def key (b : Builder) : Lexeme → Option Builder
  | .string name =>
    match b.frames with
    | .fields read _ spoiled :: outer =>
      some { b with
        frames := .fields read name (spoiled || name.isNone) :: outer, expected := .colon }
    | _ => none
  | _ => none

/-- Behind a value: a comma, or the end of the container. -/
def afterValue (b : Builder) : Lexeme → Option Builder
  | .mark ',' =>
    match b.frames with
    | .items _ :: _ => some { b with expected := .value }
    | .fields _ _ _ :: _ => some { b with expected := .key }
    | [] => none
  | .mark ']' =>
    match b.frames with
    | .items _ :: _ => b.close
    | _ => none
  | .mark '\x7d' =>
    match b.frames with
    | .fields _ _ _ :: _ => b.close
    | _ => none
  | _ => none

def step (b : Builder) (l : Lexeme) : Option Builder :=
  match b.expected with
  | .value => b.value l
  | .valueOrEnd =>
    match l with
    | .mark ']' => b.close
    | l => b.value l
  | .key => b.key l
  | .keyOrEnd =>
    match l with
    | .mark '\x7d' => b.close
    | l => b.key l
  | .colon =>
    match l with
    | .mark ':' => some { b with expected := .value }
    | _ => none
  | .commaOrEnd => b.afterValue l
  | .nothing => none

end Builder

/-- Read characters and build the value as they complete lexemes. -/
def readFrom : LexState → Builder → List Char → Option Json
  | s, b, [] => do
    let b ← (← s.flush).foldlM Builder.step b
    b.result
  | s, b, c :: cs => do
    let (s, lexemes) ← s.step c
    let b ← lexemes.foldlM Builder.step b
    readFrom s b cs

/-- The value that a text writes, if it is JSON. -/
def read? (text : String) : Option Json := readFrom .between {} text.toList

end Json
end Standalone
end Inlay
