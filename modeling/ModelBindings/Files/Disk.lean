import ModelBindings.Text.Utf8

/-!
A tree of files and directories, and the operations on it by path. A path is followed name by name;
every name but the last must be a directory's.
-/

namespace ModelBindings.Files

open Text.Utf8 (Bytes byteSize)

inductive Failure where
  | missing
  | denied
  | busy
  | exists
  | notDirectory
  | isDirectory
  | nameTooLong
  | nulInPath
  | nulInCommand
  | argumentTooLong
  | notText
  deriving DecidableEq, Repr

def Failure.message : Failure → String
  | .missing => "No such file or directory (os error 2)"
  | .denied => "Permission denied (os error 13)"
  | .busy => "Device or resource busy (os error 16)"
  | .exists => "File exists (os error 17)"
  | .notDirectory => "Not a directory (os error 20)"
  | .isDirectory => "Is a directory (os error 21)"
  | .nameTooLong => "File name too long (os error 36)"
  | .nulInPath => "file name contained an unexpected NUL byte"
  | .nulInCommand => "nul byte found in provided data"
  | .argumentTooLong => "Argument list too long (os error 7)"
  | .notText => "stream did not contain valid UTF-8"

abbrev Location := List String

inductive Item where
  | directory
  | file (contents : Bytes)
  deriving DecidableEq, Repr

/-- Relative paths start from `home`. -/
structure Disk where
  items : List (Location × Item)
  home : Location
  deriving Repr, Inhabited

def maxName : Nat := 255

def maxPath : Nat := 4095

/-- The names in a path. `trailing` tells that a slash ends it. -/
structure Route where
  absolute : Bool
  names : List String
  trailing : Bool
  deriving DecidableEq, Repr

def namesFrom (name : List Char) : List Char → List String
  | [] => if name.isEmpty then [] else [String.ofList name.reverse]
  | c :: cs =>
      if c = '/' then
        if name.isEmpty then namesFrom [] cs else String.ofList name.reverse :: namesFrom [] cs
      else namesFrom (c :: name) cs

def Route.ofPath (path : String) : Except Failure Route :=
  let cs := path.toList
  if cs.contains '\x00' then .error .nulInPath
  else if cs.isEmpty then .error .missing
  else if maxPath < byteSize cs then .error .nameTooLong
  else .ok ⟨cs.head? = some '/', namesFrom [] cs, cs.getLast? = some '/'⟩

namespace Disk

def get? (d : Disk) (l : Location) : Option Item :=
  if l.isEmpty then some .directory else d.items.lookup l

def put (d : Disk) (l : Location) (i : Item) : Disk :=
  { d with items := (l, i) :: d.items.filter fun e => e.1 != l }

def remove (d : Disk) (l : Location) : Disk :=
  { d with items := d.items.filter fun e => e.1 != l }

theorem lookup_filter_of_ne {l m : Location} (h : m ≠ l) (es : List (Location × Item)) :
    (es.filter fun e => e.1 != l).lookup m = es.lookup m := by
  induction es with
  | nil => rfl
  | cons e es ih =>
    obtain ⟨k, i⟩ := e
    by_cases hk : k = l
    · subst hk
      simpa [List.lookup_cons, beq_false_of_ne h] using ih
    · simp [hk, List.lookup_cons, ih]

theorem get?_put_self (d : Disk) {l : Location} (h : l ≠ []) (i : Item) :
    (d.put l i).get? l = some i := by
  simp [get?, put, h]

theorem get?_put_of_ne (d : Disk) {l m : Location} (h : m ≠ l) (i : Item) :
    (d.put l i).get? m = d.get? m := by
  simp [get?, put, List.lookup_cons, beq_false_of_ne h, lookup_filter_of_ne h]

theorem get?_remove_self (d : Disk) {l : Location} (h : l ≠ []) : (d.remove l).get? l = none := by
  simp only [get?, remove, List.isEmpty_iff, h, if_false]
  induction d.items with
  | nil => rfl
  | cons e es ih =>
    obtain ⟨k, i⟩ := e
    by_cases hk : k = l
    · simpa [hk] using ih
    · simpa [hk, List.lookup_cons, beq_false_of_ne (Ne.symm hk)] using ih

theorem get?_remove_of_ne (d : Disk) {l m : Location} (h : m ≠ l) :
    (d.remove l).get? m = d.get? m := by
  simp [get?, remove, lookup_filter_of_ne h]

def file? (d : Disk) (l : Location) : Option Bytes :=
  match d.get? l with
  | some (.file b) => some b
  | _ => none

def enter (d : Disk) (l : Location) (name : String) : Except Failure Location :=
  match d.get? l with
  | none => .error .missing
  | some (.file _) => .error .notDirectory
  | some .directory =>
      if name = "." then .ok l
      else if name = ".." then .ok l.dropLast
      else if maxName < byteSize name.toList then .error .nameTooLong
      else .ok (l ++ [name])

def follow (d : Disk) : Location → List String → Except Failure Location
  | l, [] => .ok l
  | l, name :: names => do d.follow (← d.enter l name) names

def start (d : Disk) (r : Route) : Location :=
  if r.absolute then [] else d.home

def find (d : Disk) (path : String) : Except Failure (Location × Item) := do
  let r ← Route.ofPath path
  let l ← d.follow (d.start r) (r.names ++ if r.trailing then ["."] else [])
  match d.get? l with
  | some i => return (l, i)
  | none => .error .missing

def isDirectory (d : Disk) (path : String) : Bool :=
  match d.find path with
  | .ok (_, .directory) => true
  | _ => false

def readFile (d : Disk) (path : String) : Except Failure Bytes := do
  match ← d.find path with
  | (_, .file b) => return b
  | (_, .directory) => .error .isDirectory

def readText (d : Disk) (path : String) : Except Failure String := do
  match Text.Utf8.decode? (← d.readFile path) with
  | some s => return s
  | none => .error .notText

/-- The last name of a route, unless it leads nowhere new. -/
def lastName? (r : Route) : Option String :=
  match r.names.getLast? with
  | some name => if name = "." ∨ name = ".." then none else some name
  | none => none

def directoryOf (d : Disk) (r : Route) : Except Failure Location := do
  let l ← d.follow (d.start r) r.names.dropLast
  match d.get? l with
  | some .directory => return l
  | some (.file _) => .error .notDirectory
  | none => .error .missing

def makeDirectory (d : Disk) (path : String) : Except Failure Disk := do
  let r ← Route.ofPath path
  let l ← d.directoryOf r
  match lastName? r with
  | none => .error .exists
  | some name =>
      let l ← d.enter l name
      match d.get? l with
      | some _ => .error .exists
      | none => return d.put l .directory

def writeFile (d : Disk) (path : String) (contents : Bytes) : Except Failure Disk := do
  let r ← Route.ofPath path
  let l ← d.directoryOf r
  match lastName? r with
  | none => .error .isDirectory
  | some name =>
      let l ← d.enter l name
      match d.get? l with
      | some .directory => .error .isDirectory
      | some (.file _) =>
          if r.trailing then .error .notDirectory else return d.put l (.file contents)
      | none => if r.trailing then .error .isDirectory else return d.put l (.file contents)

def moveFile (d : Disk) (source target : String) : Except Failure Disk := do
  let r ← Route.ofPath source
  let s ← Route.ofPath target
  let dir ← d.directoryOf r
  let dir' ← d.directoryOf s
  match lastName? r, lastName? s with
  | some name, some name' =>
      let l ← d.enter dir name
      let l' ← d.enter dir' name'
      match d.get? l with
      | none => .error .missing
      | some .directory => .error .isDirectory
      | some (.file b) =>
          if r.trailing ∨ s.trailing then .error .notDirectory
          else if d.get? l' = some .directory then .error .isDirectory
          else if l = l' then return d
          else return (d.remove l).put l' (.file b)
  | _, _ => .error .busy

end Disk

end ModelBindings.Files
