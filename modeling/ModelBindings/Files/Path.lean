/-!
Paths as text: the directory that a path stands in and the name it ends in. Repeated slashes and the
name `.` count for nothing, except for a `.` at the start.
-/

namespace ModelBindings.Files

/-- The slash of an absolute path, or the leading `.` of a relative one, and what follows it. -/
def splitAnchor : List Char → List Char × List Char
  | '/' :: cs => (['/'], cs)
  | ['.'] => (['.'], [])
  | '.' :: '/' :: cs => (['.'], '/' :: cs)
  | cs => ([], cs)

/-- Drops slashes and names `.` from the end. The text is given from its end on. -/
def dropIdle : List Char → List Char
  | '/' :: cs => dropIdle cs
  | ['.'] => []
  | '.' :: '/' :: cs => dropIdle cs
  | cs => cs

structure Split where
  directory : String
  name : String
  deriving DecidableEq, Repr

def split? (path : String) : Option Split :=
  let (anchor, body) := splitAnchor path.toList
  match dropIdle body.reverse with
  | [] => none
  | cs =>
      let name := (cs.takeWhile (· ≠ '/')).reverse
      let rest := (dropIdle (cs.dropWhile (· ≠ '/'))).reverse
      some ⟨String.ofList (anchor ++ rest), String.ofList name⟩

/-- The directory that a path stands in. The root and the empty path stand in none. -/
def parent? (path : String) : Option String :=
  match split? path, path.toList with
  | some s, _ => some s.directory
  | none, '.' :: _ => some ""
  | none, _ => none

def fileName? (path : String) : Option String :=
  match split? path with
  | some s => if s.name = ".." then none else some s.name
  | none => none

def join (directory name : String) : String :=
  if directory = "" then name
  else if directory.toList.getLast? = some '/' then directory ++ name
  else directory ++ "/" ++ name

end ModelBindings.Files
