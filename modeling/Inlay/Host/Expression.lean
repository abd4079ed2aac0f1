import Inlay.Text.Span

/-!
# Host expressions

What the library keeps of the host code inside a template literal: the text and
place of an expression, and, when the expression calls a named function, the
name and the arguments.
-/

namespace Inlay

/-- An expression of the host language that a type provider can be asked
about. -/
structure HostExpression where
  span : Span
  text : String
  deriving DecidableEq, Inhabited

/-- A call of a named function: the name is the identifier, or the last member
of a chain. -/
structure CallShape where
  callee : String
  arguments : List HostExpression
  deriving DecidableEq, Inhabited

/-- An interpolation hole of a template literal.  Its number is unique in the
host file; its span reaches from the dollar sign to the closing brace. -/
structure Hole where
  id : Nat
  expression : HostExpression
  span : Span
  call : Option CallShape := none
  deriving DecidableEq, Inhabited

end Inlay
