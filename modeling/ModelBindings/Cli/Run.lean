import ModelBindings.Cli.Outline
import ModelBindings.Compile.Pool
import ModelBindings.Component.File
import ModelBindings.Files.Publish

namespace ModelBindings.Cli

open Files (Disk Failure PublishError)
open Recs (Mode ModeRequest)
open Schema (Connection Host Source)

inductive RunError where
  | noTool (program : String)
  | readManifest (path : String) (cause : Failure)
  | manifest (path : String) (cause : Manifest.Error)
  | compile (cause : CompileError)
  | publish (cause : PublishError)
  deriving DecidableEq, Repr

def RunError.chain : RunError → List String
  | .noTool program =>
      ["unable to find `" ++ program ++ "` command. Please install using `dojoup`."]
  | .readManifest path cause => ["failed to read manifest " ++ path, cause.message]
  | .manifest path cause => ["invalid manifest " ++ path, cause.message]
  | .compile cause => cause.chain
  | .publish cause => cause.chain

def RunError.message (e : RunError) : String :=
  ": ".intercalate e.chain

structure Outcome where
  result : Except RunError Unit
  stdout : String
  stderr : String
  disk : Disk
  queries : List (List String)

namespace Outcome

def idle (h : Host) (stderr : String) (result : Except RunError Unit) : Outcome :=
  ⟨result, "", stderr, h.disk, []⟩

end Outcome

def banner (m : Mode) : String :=
  "...generating for " ++ Recs.library ++ " version " ++ m.describe ++
    "\n---------------------------\n"

def published : String := "file generated successfully\n"

def standardOutput : String := "-"

def readManifest (h : Host) (path : String) : Except RunError Manifest := do
  let text ← (h.disk.readText path).mapError (.readManifest path)
  (Manifest.ofText text).mapError (.manifest path)

def deliver (h : Host) (out stderr file : String) (queries : List (List String)) : Outcome :=
  if out = standardOutput then ⟨.ok (), file, stderr, h.disk, queries⟩
  else
    match h.disk.publish out file with
    | (.ok (), d) => ⟨.ok (), "", stderr ++ published, d, queries⟩
    | (.error e, d) => ⟨.error (.publish e), "", stderr, d, queries⟩

def generate (h : Host) (s : Generate) : Outcome :=
  let c := s.connection.connection
  let m := (s.mode.choose h.disk).1
  let stderr := banner m
  if c.isAvailable h then
    match readManifest h s.manifest with
    | .error e => .idle h stderr (.error e)
    | .ok manifest =>
        let w := Walk.withJobs m (c.source h) s.jobs manifest.names
        let queries := c.queries h w.asked
        match w.outcome with
        | .error e => ⟨.error (.compile e), "", stderr, h.disk, queries⟩
        | .ok cs => deliver h s.out stderr (componentsFile cs) queries
  else .idle h stderr (.error (.noTool c.program))

def description (c : Component) : String :=
  c.type.text ++ "\ntypes: " ++ Json.printStrings c.types ++ "\n"

def inspect (h : Host) (s : Inspect) : Outcome :=
  let c := s.connection.connection
  let m := (s.mode.choose h.disk).1
  let stderr := banner m
  if c.isAvailable h then
    let queries := c.queries h [s.model]
    match Component.ofSource m (c.source h) s.model with
    | .error e => ⟨.error (.compile e), "", stderr, h.disk, queries⟩
    | .ok component => ⟨.ok (), description component, stderr, h.disk, queries⟩
  else .idle h stderr (.error (.noTool c.program))

def run (h : Host) (i : Invocation) : Outcome :=
  match i.command with
  | .generate s =>
      if s.noOp then .idle h ((Outline.invocation i).text 0 ++ "\n") (.ok ())
      else generate h s
  | .inspect s => inspect h s

end ModelBindings.Cli
