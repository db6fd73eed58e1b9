import ModelBindings.Cli.Grammar
import ModelBindings.Recs.Choice
import ModelBindings.Schema.Query

namespace ModelBindings.Cli

open Recs (Mode ModeRequest)
open Schema (Connection)

structure Access where
  rpcUrl : String
  world : String
  program : String
  timeoutSeconds : Option Nat
  deriving DecidableEq, Repr

structure Generate where
  manifest : String
  out : String
  jobs : Nat
  connection : Access
  mode : ModeRequest
  noOp : Bool
  deriving DecidableEq, Repr

structure Inspect where
  model : String
  connection : Access
  mode : ModeRequest
  deriving DecidableEq, Repr

inductive Command where
  | generate (s : Generate)
  | inspect (s : Inspect)
  deriving DecidableEq, Repr

structure Invocation where
  verbose : Bool
  command : Command
  deriving DecidableEq, Repr

def Access.connection (s : Access) : Connection :=
  ⟨s.program, s.rpcUrl, s.world, s.timeoutSeconds.map (· * 1000)⟩

def verboseSwitch : Switch := ⟨"verbose", some 'v', .flag⟩

def helpSwitch : Switch := ⟨"help", some 'h', .help⟩

def commonSwitches : List Switch :=
  [⟨"rpc-url", none, .value .any⟩, ⟨"world", none, .value .any⟩, ⟨"sozo", none, .value .any⟩,
   ⟨"timeout-secs", none, .value .word⟩, ⟨"mode", none, .value .mode⟩,
   ⟨"recs-version", none, .value .any⟩, ⟨"package-json", none, .value .path⟩,
   verboseSwitch, helpSwitch]

def rootGrammar : Grammar :=
  ⟨[verboseSwitch, helpSwitch, ⟨"version", some 'V', .version⟩], ["generate", "inspect", "help"], 0⟩

def generateGrammar : Grammar :=
  ⟨⟨"manifest", none, .value .path⟩ :: ⟨"out", some 'o', .value .path⟩ ::
    ⟨"jobs", none, .value .word⟩ :: ⟨"no-op", none, .flag⟩ :: commonSwitches, [], 0⟩

def inspectGrammar : Grammar := ⟨commonSwitches, [], 1⟩

namespace Scan

def need (s : Scan) (long : String) : Except UsageError String :=
  match s.value? long with
  | some v => .ok v
  | none => .error .missingArgument

def count? (s : Scan) (long : String) : Option Nat :=
  (s.value? long).bind number?

def connection (s : Scan) : Except UsageError Access := do
  return ⟨← s.need "rpc-url", ← s.need "world",
    (s.value? "sozo").getD Connection.defaultProgram, s.count? "timeout-secs"⟩

def mode (s : Scan) : ModeRequest :=
  ⟨(s.value? "mode").bind Mode.ofName?, s.value? "recs-version",
    (s.value? "package-json").getD "package.json"⟩

def generate (s : Scan) : Except UsageError Generate := do
  return ⟨← s.need "manifest", ← s.need "out", (s.count? "jobs").getD 1, ← s.connection, s.mode,
    s.has "no-op"⟩

def inspect (s : Scan) : Except UsageError Inspect := do
  match s.places with
  | [] => .error .missingArgument
  | model :: _ => return ⟨model, ← s.connection, s.mode⟩

end Scan

def helpOn : List String → UsageError
  | [] => .help
  | [command] => if rootGrammar.commands.contains command then .help else .unknownCommand
  | _ => .unknownCommand

def Invocation.ofArguments (words : List String) : Except UsageError Invocation := do
  let (root, words) ← rootGrammar.scan .empty words
  match words with
  | "generate" :: words =>
      let (s, _) ← generateGrammar.scan .empty words
      let settings ← s.generate
      return ⟨root.has "verbose" || s.has "verbose", .generate settings⟩
  | "inspect" :: words =>
      let (s, _) ← inspectGrammar.scan .empty words
      let settings ← s.inspect
      return ⟨root.has "verbose" || s.has "verbose", .inspect settings⟩
  | _ :: words => .error (helpOn words)
  | [] => .error (if root.given.isEmpty then .nothingAsked else .missingCommand)

end ModelBindings.Cli
