/-!
# Places in a text

A `Span` is a range of byte offsets, a `Point` a line and a column, a `Location` a range of points
in a named file. `LineTable` turns offsets into points by a search among the offsets at which lines
start: lines and columns count from one, a column counts bytes, and only `'\n'` ends a line.
-/

namespace TemplateFrontend

/-- The bytes from offset `start` up to, and without, offset `stop`. -/
structure Span where
  start : Nat
  stop : Nat
  deriving DecidableEq, Repr, Inhabited

namespace Span

/-- The number of bytes in the range. -/
def length (s : Span) : Nat := s.stop - s.start

/-- The smallest range that covers both. -/
def union (a b : Span) : Span := ⟨min a.start b.start, max a.stop b.stop⟩

end Span

/-- A line and a column. Line zero stands for a place that is not known. -/
structure Point where
  line : Nat
  column : Nat
  deriving DecidableEq, Repr, Inhabited

namespace Point

/-- The point of a location that names its file only. -/
def unknown : Point := ⟨0, 0⟩

/-- Whether the point says where in its file it is. -/
def isKnown (p : Point) : Bool := 0 < p.line

end Point

/-- A range in a named file, with its offsets when it was found by reading that file. -/
structure Location where
  path : String
  start : Point
  stop : Point
  span : Option Span
  deriving DecidableEq, Repr, Inhabited

namespace Location

/-- The location that only names a file. -/
def ofPath (path : String) : Location := ⟨path, .unknown, .unknown, none⟩

/-- The text `path:line:column`, or the path alone if the line is not known. -/
def text (l : Location) : String :=
  if l.start.isKnown then
    l.path ++ ":" ++ toString l.start.line ++ ":" ++ toString l.start.column
  else l.path

end Location

/-- What a search for a number among ascending ones gives: the index at which it stands, or else the
index at which it could be put in. -/
inductive SearchResult where
  | found (i : Nat)
  | missing (i : Nat)
  deriving DecidableEq, Repr

/-- The offsets at which the lines of a text start, in ascending order. -/
structure LineTable where
  starts : List Nat
  deriving DecidableEq, Repr, Inhabited

namespace LineTable

/-- The offsets just after the line ends of a text that itself starts at `offset`. -/
def startsFrom (offset : Nat) : List Char → List Nat
  | [] => []
  | c :: cs =>
    let next := offset + c.utf8Size
    if c = '\n' then next :: startsFrom next cs else startsFrom next cs

/-- The table of a text. Its first line starts at zero. -/
def ofText (cs : List Char) : LineTable := ⟨0 :: startsFrom 0 cs⟩

/-- Looks a number up among ascending ones. -/
def search (ns : List Nat) (n : Nat) : SearchResult :=
  let i := (ns.takeWhile (· < n)).length
  if ns[i]? = some n then .found i else .missing i

/-- The index of the line that an offset lies in: the one that starts there, or else the one before
the place at which such a line could be put in. -/
def line (t : LineTable) (offset : Nat) : Nat :=
  match search t.starts offset with
  | .found i => i
  | .missing i => i - 1

/-- Where the line with an index starts. -/
def lineStart (t : LineTable) (i : Nat) : Nat := t.starts.getD i 0

/-- The point of an offset. -/
def point (t : LineTable) (offset : Nat) : Point :=
  let line := t.line offset
  ⟨line + 1, offset - t.lineStart line + 1⟩

/-- The location of a range in the file `path` of this table. -/
def location (t : LineTable) (path : String) (s : Span) : Location :=
  ⟨path, t.point s.start, t.point s.stop, some s⟩

end LineTable

end TemplateFrontend
