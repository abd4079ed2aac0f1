import Inlay.Host.Code
import Inlay.Standalone.HostToken

/-!
# Chains of tokens

A chain is an operand with members, calls, indices and template literals behind
it.  Its name is its only identifier or its last member.  An optional chain has no name,
and neither has anything that an operator or a comma is part of.
-/

namespace Inlay
namespace Standalone
namespace Chain

/-- Words that stand before an expression and belong to no chain. -/
def operatorWords : List String :=
  ["await", "case", "const", "default", "delete", "do", "else", "export", "extends", "in",
   "instanceof", "new", "return", "throw", "typeof", "var", "void", "yield"]

/-- Words that are values, or part of one, and not identifiers. -/
def reservedWords : List String :=
  operatorWords ++
    ["break", "catch", "class", "continue", "debugger", "enum", "false", "finally", "for",
     "function", "if", "import", "null", "super", "switch", "this", "true", "try", "while", "with"]

/-- Tokens without the parentheses around all of them. -/
def unwrapped : List Token → List Token
  | [.group _ .paren tokens] => unwrapped tokens
  | tokens => tokens

/-- The tokens behind the operand of `new`, whose members are passed over up to
its arguments. -/
def afterArguments : List Token → List Token
  | .leaf _ .dot :: .leaf _ (.word _) :: rest => afterArguments rest
  | .group _ .square _ :: rest => afterArguments rest
  | .template _ _ :: rest => afterArguments rest
  | .group _ .paren _ :: rest => rest
  | rest => rest

/-- The tokens behind the operand at the front. -/
def afterOperand? : List Token → Option (List Token)
  | .leaf _ (.word "new") :: .leaf _ .dot :: .leaf _ (.word _) :: rest => some rest
  | .leaf _ (.word "new") :: rest => (afterOperand? rest).map afterArguments
  | .leaf _ (.word w) :: rest =>
    if operatorWords.contains w || w == "function" || w == "class" then none else some rest
  | .leaf _ .string :: rest => some rest
  | .leaf _ .number :: rest => some rest
  | .group _ _ _ :: rest => some rest
  | .template _ _ :: rest => some rest
  | _ => none

/-- What may follow an operand, as far as names go. -/
inductive Link where
  | member (name : String)
  | call
  | other
  deriving DecidableEq, Inhabited

/-- The links that the tokens are, if they are nothing else. -/
def links? : List Token → Option (List Link)
  | [] => some []
  | .leaf _ .dot :: .leaf _ (.word name) :: rest => (links? rest).map (.member name :: ·)
  | .leaf _ .dot :: .leaf _ .hiddenName :: rest => (links? rest).map (.other :: ·)
  | .group _ .paren _ :: rest => (links? rest).map (.call :: ·)
  | .group _ .square _ :: rest => (links? rest).map (.other :: ·)
  | .template _ _ :: rest => (links? rest).map (.other :: ·)
  | .leaf _ (.sign '!') :: rest => (links? rest).map (.other :: ·)
  | _ => none

def chainLinks? (tokens : List Token) : Option (List Link) := (afterOperand? tokens).bind links?

/-- The identifier that is all of the tokens. -/
def identifier? : List Token → Option String
  | [.leaf _ (.word w)] => if reservedWords.contains w then none else some w
  | _ => none

/-- The name of the chain that the tokens are. -/
def name? (tokens : List Token) : Option String :=
  let tokens := unwrapped tokens
  match (chainLinks? tokens).bind List.getLast? with
  | some (.member name) => some name
  | some _ => none
  | none => identifier? tokens

/-- The tokens between commas; nothing between two commas is no item. -/
def items : List Token → List (List Token)
  | [] => []
  | .leaf _ .comma :: rest => [] :: items rest
  | t :: rest =>
    match items rest with
    | [] => [[t]]
    | item :: more => (t :: item) :: more

/-- An item is an argument unless nothing is there; three points spread it. -/
def argument? : List Token → Option Argument
  | [] => none
  | .leaf span .spread :: rest =>
    some { span := spanOfTokens (.leaf span .spread :: rest), isSpread := true }
  | item => some { span := spanOfTokens item }

/-- Tokens with their name, if they have one. -/
def named (tokens : List Token) : Code :=
  match name? tokens with
  | some name => .identifier (spanOfTokens tokens) name
  | none => .other (spanOfTokens tokens)

/-- The expression that the tokens are.  A call is a chain that ends with arguments. -/
def code (tokens : List Token) : Code :=
  let inner := unwrapped tokens
  match (chainLinks? inner).bind List.getLast?, inner.getLast? with
  | some .call, some (.group _ .paren arguments) =>
    .call (spanOfTokens tokens) (named inner.dropLast) ((items arguments).filterMap argument?)
  | _, _ => named tokens

end Chain
end Standalone
end Inlay
