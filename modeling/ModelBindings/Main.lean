import ModelBindings.Cli.Run

/-!
The program. The part of the disk that a run may look at is read before it, and what the run has
changed is written back after it. No process is started from here: a query tool is a file beside
which a directory `<tool>.replies` holds what it answers, one document `<model>.json` for a model.
-/

namespace ModelBindings.Main

open Cli (Command Invocation UsageError)
open Files (Disk Item Location Route)
open Schema (Host Reply Tool)

def pathOf (l : Location) : String :=
  "/" ++ "/".intercalate l

def itemAt? (l : Location) : IO (Option Item) := do
  try
    return some (.file (← IO.FS.readBinFile (pathOf l)).toList)
  catch
    | .inappropriateType .. => return some .directory
    | _ => return none

def visit (d : Disk) (l : Location) (name : String) : IO (Disk × Location) := do
  let l := if name = "." then l else if name = ".." then l.dropLast else l ++ [name]
  match ← itemAt? l with
  | some i => return (d.put l i, l)
  | none => return (d, l)

def readPath (d : Disk) (path : String) : IO Disk := do
  match Route.ofPath path with
  | .error _ => return d
  | .ok r =>
      let (d, _) ← r.names.foldlM (fun (d, l) name => visit d l name) (d, d.start r)
      return d

def paths (i : Invocation) : List String :=
  match i.command with
  | .generate s =>
      let drafts := ((Files.fileName? s.out).map (Disk.draftPath s.out)).toList
      [s.mode.package, s.manifest, s.out] ++ drafts
  | .inspect s => [s.mode.package]

def program (i : Invocation) : String :=
  match i.command with
  | .generate s => s.connection.program
  | .inspect s => s.connection.program

def models (d : Disk) (i : Invocation) : List String :=
  match i.command with
  | .inspect s => [s.model]
  | .generate s =>
      match Cli.readManifest ⟨d, [], []⟩ s.manifest with
      | .ok m => m.names
      | .error _ => []

def unknownModel : Reply :=
  ⟨[], Text.Utf8.encode "model not found", .exit 1, 0⟩

def readReply (path model : String) : IO (String × Reply) := do
  try
    let document ← IO.FS.readBinFile (path ++ ".replies/" ++ model ++ ".json")
    return (model, ⟨document.toList, [], .exit 0, 0⟩)
  catch _ => return (model, unknownModel)

def candidates (program : String) (searchPath : List String) : List String :=
  if program.toList.contains '/' then [program] else searchPath.map (Files.join · program)

def toolAt? (d : Disk) (i : Invocation) (path : String) : IO (Option (Location × Tool)) := do
  match d.find path with
  | .ok (l, .file _) =>
      let replies ← (models d i).mapM (readReply path)
      return some (l, .scripted (.exit 0) fun model => (replies.lookup model).getD unknownModel)
  | _ => return none

def readHost (i : Invocation) : IO Host := do
  let searchPath := ((← IO.getEnv "PATH").getD "/bin:/usr/bin").splitOn ":"
  let home := Files.namesFrom [] (toString (← IO.currentDir)).toList
  let empty : Disk := ⟨(List.range home.length).map fun n => (home.take (n + 1), .directory), home⟩
  let programs := candidates (program i) searchPath
  let d ← (paths i ++ programs).foldlM readPath empty
  return ⟨d, ← programs.filterMapM (toolAt? d i), searchPath⟩

def writeBack (old new : Disk) : IO Unit := do
  let changed := new.items.filter fun (l, i) => old.get? l != some i
  let ordered := changed.mergeSort fun a b => a.1.length ≤ b.1.length
  for (l, i) in ordered do
    match i with
    | .directory => IO.FS.createDirAll (pathOf l)
    | .file b =>
        let draft := pathOf l ++ ".tmp"
        IO.FS.writeBinFile draft ⟨b.toArray⟩
        IO.FS.rename draft (pathOf l)

def usage : String :=
  "usage: generate --manifest FILE --out FILE --rpc-url URL --world ADDRESS [options]\n" ++
  "       inspect MODEL --rpc-url URL --world ADDRESS [options]\n"

def refuse (e : UsageError) : IO UInt32 := do
  if e = .help ∨ e = .version then
    IO.print usage
    return 0
  else
    IO.eprint usage
    return 2

def carryOut (i : Invocation) : IO UInt32 := do
  let h ← readHost i
  let o := Cli.run h i
  IO.eprint o.stderr
  writeBack h.disk o.disk
  IO.print o.stdout
  match o.result with
  | .ok () => return 0
  | .error e =>
      IO.eprintln ("error: " ++ e.message)
      return 1

end ModelBindings.Main

def main (arguments : List String) : IO UInt32 :=
  match ModelBindings.Cli.Invocation.ofArguments arguments with
  | .ok i => ModelBindings.Main.carryOut i
  | .error e => ModelBindings.Main.refuse e
