import ModelBindings.Json.Report
import ModelBindings.Recs.Mode
import ModelBindings.Text.Blank

namespace ModelBindings.Recs

open Json (Decoder Record Members)

def library : String := "@dojoengine/recs"

def pinsTwo : List Char → Bool
  | '2' :: '.' :: _ => true
  | _ => false

def Mode.ofConstraint (constraint : String) : Mode :=
  let cs := (Text.trim constraint).toList
  let pinned :=
    match cs with
    | '^' :: cs => pinsTwo cs
    | '~' :: cs => pinsTwo cs
    | cs => pinsTwo cs
  if pinned then .wide else .narrow

def package : Decoder Members :=
  (Record.one "PackageJson" "dependencies" .members (some [])).decoder

def constraintOfPackage (text : String) : String :=
  match package.ofWholeText? text with
  | none => ""
  | some ms =>
      match ms.get? library with
      | some (.string s) => s
      | _ => ""

end ModelBindings.Recs
