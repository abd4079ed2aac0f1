/-!
# Brackets

The three kinds of brackets that host source and stylesheets share.
-/

namespace Inlay

inductive Bracket where
  | paren
  | square
  | curly
  deriving DecidableEq, Inhabited

end Inlay
