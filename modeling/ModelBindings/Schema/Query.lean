import ModelBindings.Files.Disk
import ModelBindings.Files.Path
import ModelBindings.Schema.Source
import ModelBindings.Text.Blank

/-!
Asking a query tool for schemas. Every query of a run is a process of its own on a host, where the
tool is found by name and answers the arguments it is started with.
-/

namespace ModelBindings.Schema

open Files (Disk Failure Location)
open Text.Utf8 (Bytes byteSize)

/-- `delay` is the time in milliseconds until the tool ends. -/
structure Reply where
  stdout : Bytes
  stderr : Bytes
  ending : Ending
  delay : Nat
  deriving DecidableEq, Repr

abbrev Tool := List String → Reply

def Tool.scripted (probe : Ending) (reply : String → Reply) : Tool
  | ["--version"] => ⟨[], [], probe, 0⟩
  | "model" :: "schema" :: model :: _ => reply model
  | _ => ⟨[], [], .exit 2, 0⟩

@[simp] theorem Tool.scripted_model (probe : Ending) (reply : String → Reply) (model : String)
    (words : List String) :
    Tool.scripted probe reply ("model" :: "schema" :: model :: words) = reply model := by
  simp [Tool.scripted]

/-- `searchPath` holds the directories in which a program is looked for by its name alone. -/
structure Host where
  disk : Disk
  tools : List (Location × Tool)
  searchPath : List String

structure Connection where
  program : String
  rpcUrl : String
  world : String
  timeout : Option Nat
  deriving DecidableEq, Repr

def Ending.isSuccess (e : Ending) : Bool :=
  e == .exit 0

/-- The bytes of one argument. The NUL at its end comes on top of them. -/
def maxArgument : Nat := 131071

namespace Host

def toolAt? (h : Host) (path : String) : Except Failure Tool := do
  match ← h.disk.find path with
  | (_, .directory) => .error .denied
  | (l, .file _) =>
      match h.tools.lookup l with
      | some t => return t
      | none => .error .denied

def isPassedOver : Failure → Bool
  | .missing | .denied | .notDirectory => true
  | _ => false

/-- That a program was found where it may not be run outlives the directories that follow. -/
def search (h : Host) (name : String) (last : Failure) : List String → Except Failure Tool
  | [] => .error last
  | dir :: dirs =>
      match h.toolAt? (Files.join dir name) with
      | .ok t => .ok t
      | .error f =>
          if isPassedOver f then h.search name (if last = .denied then last else f) dirs
          else .error f

def tool? (h : Host) (program : String) : Except Failure Tool :=
  if program.toList.contains '/' then h.toolAt? program
  else if program = "" then .error .missing
  else if Files.maxName < byteSize program.toList then .error .nameTooLong
  else h.search program .missing h.searchPath

def run (h : Host) (program : String) (arguments : List String) : Except Failure Reply :=
  if (program :: arguments).any fun s => s.toList.contains '\x00' then .error .nulInCommand
  else do
    let tool ← h.tool? program
    if arguments.any fun s => decide (maxArgument < byteSize s.toList) then .error .argumentTooLong
    else return tool arguments

end Host

namespace Connection

def defaultProgram : String := "sozo"

def arguments (c : Connection) (model : String) : List String :=
  ["model", "schema", model, "--rpc-url", c.rpcUrl, "--json", "--world", c.world]

def isAvailable (c : Connection) (h : Host) : Bool :=
  match h.run c.program ["--version"] with
  | .ok r => r.ending.isSuccess
  | .error _ => false

def isLate (c : Connection) (r : Reply) : Bool :=
  match c.timeout with
  | some limit => limit ≤ r.delay
  | none => false

/-- A reply counts if it comes in time, reports success and is text, checked in this order. -/
def document (c : Connection) (r : Reply) : Except FetchError String :=
  if c.isLate r then .error (.late c.program ((c.timeout.getD 0) / 1000))
  else if r.ending.isSuccess then
    match Text.Utf8.decode? r.stdout with
    | some s => .ok s
    | none => .error (.notText c.program)
  else .error (.failed c.program r.ending (Text.trim (Text.Utf8.decodeLossy r.stderr)))

def source (c : Connection) (h : Host) : Source := fun model =>
  match h.run c.program (c.arguments model) with
  | .error f => .error (.notStarted c.program f.message)
  | .ok r => do Source.answer (← c.document r)

/-- The queries that are made when a source is asked for models: those whose process starts. -/
def queries (c : Connection) (h : Host) (asked : List String) : List (List String) :=
  (asked.map c.arguments).filter fun args => (h.run c.program args).isOk

end Connection

end ModelBindings.Schema
