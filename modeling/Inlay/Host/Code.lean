import Inlay.Host.Expression

/-!
# Host code

What extraction tells apart in an expression of the host language.  The name of an
expression is its identifier or the last member of its chain, and parentheses around it
do not matter; that is the name by which a literal is tagged and a function is called.
An index, an optional chain, an operator and all the rest have no name.
-/

namespace Inlay

/-- An argument of a call. -/
structure Argument where
  span : Span
  isSpread : Bool := false
  deriving DecidableEq, Inhabited

/-- An expression as a parser of the host language reads it. -/
inductive Code where
  | identifier (span : Span) (name : String)
  | member (span : Span) (name : String)
  | parens (span : Span) (inner : Code)
  | call (span : Span) (callee : Code) (arguments : List Argument)
  | other (span : Span)
  deriving DecidableEq, Inhabited

/-- The expression that the source writes at a place. -/
def HostExpression.read (source : String) (place : Span) : HostExpression :=
  let span := Span.of place.start place.stop
  { span := span, text := span.sliceD source }

namespace Code

def span : Code → Span
  | .identifier s _ | .member s _ | .parens s _ | .call s _ _ | .other s => s

/-- The expression without the parentheses around all of it. -/
def unwrapped : Code → Code
  | .parens _ inner => inner.unwrapped
  | code => code

def name? (code : Code) : Option String :=
  match code.unwrapped with
  | .identifier _ name | .member _ name => some name
  | _ => none

/-- The call that the expression is, if what it calls has a name.  Arguments that are
spread are left out. -/
def callShape? (source : String) (code : Code) : Option CallShape :=
  match code.unwrapped with
  | .call _ callee arguments =>
    callee.name?.map fun name =>
      { callee := name
        arguments := (arguments.filter fun a => !a.isSpread).map fun a =>
          HostExpression.read source a.span }
  | _ => none

end Code
end Inlay
