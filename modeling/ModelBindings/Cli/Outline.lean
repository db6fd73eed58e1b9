import ModelBindings.Cli.Arguments
import ModelBindings.Text.Quoted

namespace ModelBindings.Cli

open Recs (Mode ModeRequest)

inductive Outline where
  | line (text : String)
  | fields (name : String) (entries : List (String × Outline))
  | case (name : String) (content : Outline)

def indent (depth : Nat) : String :=
  String.ofList (List.replicate (4 * depth) ' ')

mutual
/-- The text of an outline whose first line has been indented. -/
def Outline.text (depth : Nat) : Outline → String
  | .line text => text
  | .fields name entries =>
      name ++ " \x7b\n" ++ entriesText (depth + 1) entries ++ indent depth ++ "\x7d"
  | .case name content =>
      name ++ "(\n" ++ indent (depth + 1) ++ content.text (depth + 1) ++ ",\n" ++
        indent depth ++ ")"
termination_by structural o => o

def entriesText (depth : Nat) : List (String × Outline) → String
  | [] => ""
  | (name, o) :: es =>
      indent depth ++ name ++ ": " ++ o.text depth ++ ",\n" ++ entriesText depth es
termination_by structural es => es
end

namespace Outline

def bool (b : Bool) : Outline := .line (if b then "true" else "false")

def nat (n : Nat) : Outline := .line (toString n)

def quoted (s : String) : Outline := .line (Text.quoted s)

def path (s : String) : Outline := .line (Text.quotedPath s)

def option {α : Type} (f : α → Outline) : Option α → Outline
  | none => .line "None"
  | some a => .case "Some" (f a)

def mode : Mode → Outline
  | .narrow => .line "Narrow"
  | .wide => .line "Wide"

def connection (s : Access) : Outline :=
  .fields "ConnectionSettings"
    [("rpc_url", .quoted s.rpcUrl), ("world", .quoted s.world), ("sozo", .quoted s.program),
     ("timeout_secs", .option .nat s.timeoutSeconds)]

def modeSettings (s : ModeRequest) : Outline :=
  .fields "ModeSettings"
    [("mode", .option .mode s.mode), ("recs_version", .option .quoted s.constraint),
     ("package_json", .path s.package)]

def command : Command → Outline
  | .generate s =>
      .case "Generate" (.fields "GenerateOut"
        [("manifest", .path s.manifest), ("out", .path s.out), ("jobs", .nat s.jobs),
         ("connection", .connection s.connection), ("mode", .modeSettings s.mode),
         ("no_op", .bool s.noOp)])
  | .inspect s =>
      .case "Inspect" (.fields "InspectOut"
        [("model", .quoted s.model), ("connection", .connection s.connection),
         ("mode", .modeSettings s.mode)])

def invocation (i : Invocation) : Outline :=
  .fields "CommandLineInterface" [("verbose", .bool i.verbose), ("cmd", .command i.command)]

end Outline

end ModelBindings.Cli
