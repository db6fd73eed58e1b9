import ModelBindings.Files.Disk
import ModelBindings.Files.Path

/-!
Publishing a file: it is written beside its place and moved there when it is whole, so that no
reader meets half of it.
-/

namespace ModelBindings.Files

inductive PublishError where
  | directory (path : String) (cause : Failure)
  | noName (path : String)
  | write (path : String) (cause : Failure)
  deriving DecidableEq, Repr

def PublishError.chain : PublishError → List String
  | .directory path cause => ["failed to create " ++ path, cause.message]
  | .noName path => ["output path " ++ path ++ " does not name a file"]
  | .write path cause => ["error writing file " ++ path, cause.message]

namespace Disk

/-- Makes a directory and those it stands in, as far as they are missing. What was made before a
failure stays. `levels` bounds the number of directories. -/
def makeDirectories : Nat → Disk → String → Except Failure Unit × Disk
  | 0, d, _ => (.error .missing, d)
  | levels + 1, d, path =>
      if path = "" then (.ok (), d)
      else
        match d.makeDirectory path with
        | .ok d => (.ok (), d)
        | .error .missing =>
            match parent? path with
            | none => (.error .missing, d)
            | some p =>
                match makeDirectories levels d p with
                | (.error e, d) => (.error e, d)
                | (.ok (), d) =>
                    match d.makeDirectory path with
                    | .ok d => (.ok (), d)
                    | .error e => (if d.isDirectory path then .ok () else .error e, d)
        | .error e => (if d.isDirectory path then .ok () else .error e, d)

def draftPath (path name : String) : String :=
  join ((parent? path).getD "") (name ++ ".tmp")

def publish (d : Disk) (path contents : String) : Except PublishError Unit × Disk :=
  let p := (parent? path).getD ""
  match d.makeDirectories (p.length + 1) p with
  | (.error e, d) => (.error (.directory p e), d)
  | (.ok (), d) =>
      match fileName? path with
      | none => (.error (.noName path), d)
      | some name =>
          let draft := draftPath path name
          match d.writeFile draft (Text.Utf8.encode contents) with
          | .error e => (.error (.write draft e), d)
          | .ok d =>
              match d.moveFile draft path with
              | .error e => (.error (.write path e), d)
              | .ok d => (.ok (), d)

end Disk

end ModelBindings.Files
