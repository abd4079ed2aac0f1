import Inlay.Standalone.StylesheetToken

/-!
# Checking stylesheets

A stylesheet is a list of rules: selectors, and a body between braces.  Checking
stops at the first error.  Selectors are looked at only when a body follows them,
because without one the whole rule is unfinished, which is the error then.

In a body, declarations stand between semicolons.  A piece of a body that is no
declaration has to be a rule, so it lacks its body where it ends.
-/

namespace Inlay
namespace Standalone
namespace Stylesheet

open Inlay.Stylesheet (Error Mark)

/-- What is wrong with a stylesheet, and where. -/
inductive Fault where
  | endOfInput
  | emptySelector
  | danglingCombinator
  | classWithoutName (found : Kind)
  | unexpected (found : Kind)
  deriving DecidableEq, Inhabited

def Fault.message : Fault → String
  | .endOfInput => "Unexpected end of input"
  | .emptySelector => "Invalid empty selector"
  | .danglingCombinator => "Invalid dangling combinator in selector"
  | .classWithoutName found =>
    "Expected identifier in class selector, got " ++ found.describe
  | .unexpected found => "Unexpected token " ++ found.describe

/-- Columns are told counting from one. -/
def fault (f : Fault) (m : Mark) : Error :=
  { message := f.message, location := some { line := m.line, column := m.column + 1 } }

/-! ## Selectors -/

/-- Where a selector stands: before a compound, inside one, behind one and a
blank, or behind the mark of a class or of a pseudo-class. -/
inductive Place where
  | before (afterCombinator : Bool)
  | inside
  | behind
  | afterPoint
  | afterColon
  deriving DecidableEq, Inhabited

/-- The kind under which a piece is known in a selector. -/
def Piece.kind : Piece → Kind
  | .token t => t.kind
  | .block _ bracket _ _ => .opening bracket

/-- The fault of a selector that lacks a compound. -/
def missingCompound (afterCombinator : Bool) : Fault :=
  if afterCombinator then .danglingCombinator else .emptySelector

def isCombinator : Kind → Bool
  | .sign c => c == '>' || c == '+' || c == '~'
  | _ => false

/-- Begin a compound with a piece. -/
def beginCompound (afterCombinator : Bool) (k : Kind) : Except Fault Place :=
  match k with
  | .blank => .ok (.before afterCombinator)
  | .word _ | .sign '*' | .sign '&' | .hash | .opening .square => .ok .inside
  | .sign '.' => .ok .afterPoint
  | .colon => .ok .afterColon
  | _ => .error (missingCompound afterCombinator)

/-- Read a piece of a selector. -/
def readSelector (p : Place) (k : Kind) : Except Fault Place :=
  match p with
  | .before afterCombinator => beginCompound afterCombinator k
  | .behind =>
    if k = .blank then .ok .behind
    else if isCombinator k then .ok (.before true)
    else beginCompound true k
  | .inside =>
    match k with
    | .blank => .ok .behind
    | .hash | .opening .square | .opening .paren => .ok .inside
    | .sign '.' => .ok .afterPoint
    | .colon => .ok .afterColon
    | k => if isCombinator k then .ok (.before true) else .error (.unexpected k)
  | .afterPoint =>
    match k with
    | .word _ => .ok .inside
    | k => .error (.classWithoutName k)
  | .afterColon =>
    match k with
    | .word _ => .ok .inside
    | .colon => .ok .afterColon
    | k => .error (.unexpected k)

def endSelector : Place → Option Fault
  | .before afterCombinator => some (missingCompound afterCombinator)
  | .inside | .behind => none
  | .afterPoint | .afterColon => some .endOfInput

/-- The first error of selectors between commas, up to the body at `stop`. -/
def selectorError? (stop : Mark) (p : Place) : List Piece → Option Error
  | [] => (endSelector p).map fun f => fault f stop
  | piece :: rest =>
    if piece.kind = .comma then
      match endSelector p with
      | some f => some (fault f piece.mark)
      | none => selectorError? stop (.before false) rest
    else
      match readSelector p piece.kind with
      | .ok p => selectorError? stop p rest
      | .error f => some (fault f piece.mark)

/-! ## Rules -/

def isBlankPiece (p : Piece) : Bool := p.kind = .blank

/-- The pieces begin a declaration: a name and a colon. -/
def isDeclaration (item : List Piece) : Bool :=
  match item.dropWhile isBlankPiece with
  | .token { kind := .word _, .. } :: rest =>
    ((rest.dropWhile isBlankPiece).head?.map Piece.kind) == some .colon
  | _ => false

/-- The error of the last piece of a body or of a stylesheet, which is no rule and
ends at `stop`. -/
def unfinished? (item : List Piece) (isBody : Bool) (stop : Mark) : Option Error :=
  if item.all isBlankPiece || (isBody && isDeclaration item) then none
  else some (fault .endOfInput stop)

mutual
/-- The first error of a piece that is a block of rules and declarations. -/
def blockError? : Piece → Option Error
  | .block _ _ pieces stop => rulesError? true stop [] pieces
  | .token _ => none

/-- The first error of pieces.  `item` holds what has been read since the last
rule or declaration, in reverse; the pieces end at `stop`. -/
def rulesError? (isBody : Bool) (stop : Mark) (item : List Piece) : List Piece → Option Error
  | [] => unfinished? item.reverse isBody stop
  | p :: rest =>
    if isBody && p.kind = .semicolon then
      match unfinished? item.reverse isBody p.mark with
      | some e => some e
      | none => rulesError? isBody stop [] rest
    else if p.kind = .opening .curly && !(isBody && isDeclaration item.reverse) then
      match selectorError? p.mark (.before false) item.reverse with
      | some e => some e
      | none =>
        match blockError? p with
        | some e => some e
        | none => rulesError? isBody stop [] rest
    else rulesError? isBody stop (p :: item) rest
end

def error? (text : String) : Option Error :=
  let (ps, stop) := pieces text
  rulesError? false stop [] ps

end Stylesheet
end Standalone
end Inlay
