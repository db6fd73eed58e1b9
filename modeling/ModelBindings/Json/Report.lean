import ModelBindings.Json.Decoder

namespace ModelBindings.Json

structure Report where
  path : String
  message : String
  deriving DecidableEq, Repr

namespace Report

def text (r : Report) : String :=
  "at JSON path " ++ r.path ++ " → " ++ r.message

def anchorAt (r : Report) (anchor : String) : Report :=
  { r with path :=
      if r.path = "." then anchor
      else if r.path.toList.head? = some '[' then anchor ++ r.path
      else anchor ++ "." ++ r.path }

@[simp] theorem message_anchorAt (r : Report) (anchor : String) :
    (r.anchorAt anchor).message = r.message := rfl

end Report

namespace Decoder

variable {α : Type}

def readFront (d : Decoder α) (t : List Char) : Except (Located Stop) (α × List Char) :=
  d.read (t.length + 1) maxDepth t

def ofText (d : Decoder α) (text : String) : Except Report α :=
  match d.readFront text.toList with
  | .ok (a, _) => .ok a
  | .error e => .error ⟨e.path.text, e.what.message text.toList⟩

def ofWholeText? (d : Decoder α) (text : String) : Option α :=
  match d.readFront text.toList with
  | .ok (a, t) => if (skipBlank t).isEmpty then some a else none
  | .error _ => none

def ofValue (d : Decoder α) (v : Value) : Except Report α :=
  (d.convert v).mapError fun e => ⟨e.path.text, e.what.message⟩

end Decoder

end ModelBindings.Json
