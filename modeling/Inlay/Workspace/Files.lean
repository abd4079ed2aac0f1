import Inlay.Text.Name

/-!
# Files

Text files are read outside of this library.  All that is known of them is the text that
stands under a path, if there is one that can be read.  Paths are those of Unix: one that
begins with a slash starts at the root.
-/

namespace Inlay

/-- What is read from the file at a path, and the directory that relative paths are taken
from.  Without such a directory they are opened as they are. -/
structure Files where
  read? : String → Option String
  base : Option String := none

namespace Files

def isAbsolute (path : String) : Bool := isStartOf "/" path

/-- A path seen from a directory.  An absolute one leaves the directory. -/
def join (directory path : String) : String :=
  if isAbsolute path then path
  else if directory.isEmpty || directory.toList.getLast? = some '/' then directory ++ path
  else directory ++ "/" ++ path

/-- The path that is opened for one that may be relative. -/
def resolve (files : Files) (path : String) : String :=
  match files.base with
  | some directory => if isAbsolute path then path else join directory path
  | none => path

/-- The text of the file that a path names. -/
def open? (files : Files) (path : String) : Option String := files.read? (files.resolve path)

end Files
end Inlay
