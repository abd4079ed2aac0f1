import Inlay.Host.Literal
import Inlay.Standalone.HostChain

/-!
# Tagged templates among tokens

A template literal is tagged if it goes on with a chain.  Tokens are visited in the order
of a walk over the expressions that they form: a tagged template comes before what stands
in its tag, and that before what stands in its holes.
-/

namespace Inlay
namespace Standalone

/-- The template at a place behind the tokens of its tag. -/
def tagged (tag : List Token) (span : Span) (holes : List (Span × List Token)) :
    TaggedTemplate :=
  { tag := Chain.code tag
    span := span
    texts := Literal.textsFrom (span.stop - 1) (span.start + 1) (holes.map (·.1))
    expressions := holes.map fun hole => Chain.code hole.2 }

/-- Words that are followed by a head in parentheses. -/
def headWords : List String := ["catch", "for", "if", "switch", "while", "with"]

/-- What a visit has found.

`run` holds the templates in the chain that is being read, `chain` the tokens of
that chain, the last one first, and `done` everything before it.  A group in
parentheses that is the head of a statement ends its chain, so that a literal
behind it has no tag. -/
structure Visit where
  done : List TaggedTemplate := []
  run : List TaggedTemplate := []
  chain : List Token := []
  inHead : Bool := false
  deriving Inhabited

namespace Visit

def templates (v : Visit) : List TaggedTemplate := v.done ++ v.run

/-- End the chain, and begin another with the tokens and templates given. -/
def restart (v : Visit) (chain : List Token) (found : List TaggedTemplate) : Visit :=
  { done := v.templates, run := found, chain := chain }

def goOn (v : Visit) (t : Token) (found : List TaggedTemplate) : Visit :=
  { v with run := v.run ++ found, chain := t :: v.chain, inHead := false }

/-- A bracket or a literal would belong to the chain. -/
def isOpen (v : Visit) : Bool :=
  match v.chain with
  | [] | .group _ .curly _ :: _ => false
  | _ => true

/-- The last token is a point, so that a word is the name of a member. -/
def atMember (v : Visit) : Bool :=
  match v.chain with
  | .leaf _ .dot :: _ | .leaf _ .optionalDot :: _ => true
  | _ => false

def leaf (v : Visit) (t : Token) : Leaf → Visit
  | .word w =>
    if v.atMember then v.goOn t []
    else if Chain.operatorWords.contains w then
      { v.restart [] [] with inHead := v.inHead && w == "await" }
    else { v.restart [t] [] with inHead := headWords.contains w }
  | .hiddenName => if v.atMember then v.goOn t [] else v.restart [t] []
  | .dot | .optionalDot => v.goOn t []
  | .number | .string => v.restart [t] []
  | .sign '!' => if v.isOpen then v.goOn t [] else v.restart [] []
  | .sign _ | .comma | .spread => v.restart [] []

/-- Visit a group in which templates have been found. -/
def group (v : Visit) (t : Token) (bracket : Bracket) (found : List TaggedTemplate) : Visit :=
  if v.inHead && bracket = .paren then { v with run := v.run ++ found }.restart [] []
  else if v.isOpen && bracket ≠ .curly then v.goOn t found
  else v.restart [t] found

/-- Visit a template literal in whose holes templates have been found. -/
def template (v : Visit) (t : Token) (holes : List (Span × List Token))
    (found : List TaggedTemplate) : Visit :=
  if v.isOpen then
    let self := tagged v.chain.reverse t.span holes
    { v with run := [self] ++ v.run ++ found, chain := t :: v.chain, inHead := false }
  else v.restart [t] found

end Visit

mutual
def visit (v : Visit) : Token → Visit
  | .leaf span kind => v.leaf (.leaf span kind) kind
  | .group span bracket tokens =>
    v.group (.group span bracket tokens) bracket (visitAll {} tokens).templates
  | .template span holes =>
    v.template (.template span holes) holes (visitHoles holes)

def visitAll (v : Visit) : List Token → Visit
  | [] => v
  | t :: ts => visitAll (visit v t) ts

def visitHoles : List (Span × List Token) → List TaggedTemplate
  | [] => []
  | (_, tokens) :: rest => (visitAll {} tokens).templates ++ visitHoles rest
end

/-- The tagged templates of host source whose brackets, strings and literals are
complete.  The name of the file does not matter. -/
def templates? : HostParser := fun _ source =>
  (readTokens? source).map fun tokens => (visitAll {} tokens).templates

end Standalone
end Inlay
