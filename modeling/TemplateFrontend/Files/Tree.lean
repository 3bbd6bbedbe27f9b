import TemplateFrontend.Text.Pieces
/-!
# Trees of files

A `FileTree` is a file system as seen from one of its directories: texts under the names that lead
to them from the root. A directory is there because a file is in it, or by itself if it is empty. A
path starts from the working directory, an absolute one from the root, which is its own parent.
-/

namespace TemplateFrontend

open Text

/-- The names that lead from the root of a tree to a file or a directory. -/
abbrev Place := List String

/-- Texts with the places where they are, and the working directory. No place is listed twice, and
none lies below another. -/
structure FileTree where
  files : List (Place × String)
  /-- Directories that are there whether files are in them or not. -/
  directories : List Place
  here : Place
  deriving DecidableEq, Repr, Inhabited

namespace FileTree

/-- The tree without files. -/
def empty (here : Place) : FileTree := ⟨[], [], here⟩

/-- The text of the file at a place. -/
def read? (t : FileTree) (p : Place) : Option String := t.files.lookup p

/-- Whether a file is at a place. -/
def isFile (t : FileTree) (p : Place) : Bool := (t.read? p).isSome

/-- Whether a directory is at a place. -/
def isDirectory (t : FileTree) (p : Place) : Bool :=
  (t.here :: t.directories).any p.isPrefixOf ||
    t.files.any fun (q, _) => p.isPrefixOf q && p.length < q.length

/-- The tree with a text at a place, in place of the text that is there. -/
def write (t : FileTree) (p : Place) (text : String) : FileTree :=
  { t with files := (p, text) :: t.files.filter (·.1 != p) }

/-- The tree with a directory at a place. -/
def addDirectory (t : FileTree) (p : Place) : FileTree :=
  { t with directories := p :: t.directories }

/-! ### Paths -/

/-- The names of a path. -/
def namesOf (path : String) : List String := (pieces '/' path.toList).map String.ofList

/-- Whether a path starts from the root. -/
def isAbsolute (path : String) : Bool := path.toList.head? == some '/'

/-- The place that a path starts from. -/
def start (t : FileTree) (path : String) : Place := if isAbsolute path then [] else t.here

/-- The place that a list of names leads to from `place`: a blank name and a point stay, two points
go to the parent, any other name has to be there. -/
def resolve (t : FileTree) (place : Place) : List String → Option Place
  | [] => some place
  | name :: rest =>
    if !t.isDirectory place then none
    else if name = "" ∨ name = "." then t.resolve place rest
    else if name = ".." then t.resolve place.dropLast rest
    else
      let next := place ++ [name]
      if t.isFile next || t.isDirectory next then t.resolve next rest else none

/-- The place of a path, if something is there. The empty path leads nowhere. -/
def find? (t : FileTree) (path : String) : Option Place :=
  if path = "" then none else t.resolve (t.start path) (namesOf path)

/-- Whether something is at a path. -/
def contains (t : FileTree) (path : String) : Bool := (t.find? path).isSome

/-- The text of the file that a path leads to. -/
def readPath? (t : FileTree) (path : String) : Option String := t.find? path >>= t.read?

/-- The place for a file under a path. The directory has to be there, and what is there already
under the name has to be a file. -/
def placeFor? (t : FileTree) (path : String) : Option Place := do
  let names := namesOf path
  let name ← names.getLast?
  let directory ← t.resolve (t.start path) names.dropLast
  let place := directory ++ [name]
  if name = "" ∨ name = "." ∨ name = ".." then none
  else if !t.isDirectory directory || t.isDirectory place then none
  else some place

/-- The tree with a text under a path, if it can be written there. -/
def writePath? (t : FileTree) (path text : String) : Option FileTree :=
  (t.placeFor? path).map (t.write · text)

/-- The place that a path names, whatever is there. -/
def placeOf (t : FileTree) (path : String) : Place :=
  (namesOf path).foldl (fun place name =>
    if name = "" ∨ name = "." then place
    else if name = ".." then place.dropLast
    else place ++ [name]) (t.start path)

/-- The tree of texts under paths, seen from a directory. -/
def ofList (here : Place) (files : List (String × String)) : FileTree :=
  files.foldl (fun t (path, text) => t.write (t.placeOf path) text) (empty here)

end FileTree

/-- A path as seen from a directory: an absolute one is itself. -/
def joinPath (directory path : String) : String :=
  if directory = "" || FileTree.isAbsolute path then path
  else if directory.toList.getLast? == some '/' then directory ++ path
  else directory ++ "/" ++ path

end TemplateFrontend
