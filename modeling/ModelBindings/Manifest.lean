import ModelBindings.Json.Report
import ModelBindings.Text.Blank

namespace ModelBindings

open Json (Decoder Record)

structure Manifest where
  names : List String
  deriving DecidableEq, Repr

namespace Manifest

inductive Error where
  | unreadable (report : Json.Report)
  | blank (index : Nat)
  | repeated (name : String)
  deriving DecidableEq, Repr

def Error.message : Error → String
  | .unreadable r => "failed to parse manifest: " ++ r.text
  | .blank i => "manifest entry #" ++ toString i ++ " has an empty model name"
  | .repeated name => "model `" ++ name ++ "` is declared more than once"

def entry : Decoder String :=
  (Record.one "ModelDescriptor" "name" .text none).decoder

def decoder : Decoder Manifest :=
  (Record.one "Manifest" "models" (.list entry) none).decoder.map Manifest.mk

def check (seen : List String) : Nat → List String → Except Error Unit
  | _, [] => .ok ()
  | i, name :: names =>
      if Text.allBlank name then .error (.blank i)
      else if seen.contains name then .error (.repeated name)
      else check (name :: seen) (i + 1) names

def validate (m : Manifest) : Except Error Unit :=
  check [] 0 m.names

def ofText (text : String) : Except Error Manifest := do
  let m ← (decoder.ofText text).mapError .unreadable
  m.validate
  return m

end Manifest

end ModelBindings
