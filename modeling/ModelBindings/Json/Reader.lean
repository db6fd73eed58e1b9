import ModelBindings.Json.Lexeme

/-!
Reading JSON values from text. A reader is given a bound on its steps, which the length of the text
supplies, and the number of brackets that may still be opened.
-/

namespace ModelBindings.Json

abbrev Reading := Except (Located Stop)

/-- Reads a value from the front of a text, given a bound on the steps and on the depth. -/
abbrev Reader (α : Type) := Nat → Nat → List Char → Reading (α × List Char)

def maxDepth : Nat := 127

def nextItem (first : Bool) (t : List Char) : Except Stop (Bool × List Char) :=
  match skipBlank t with
  | [] => stopInto .endInList []
  | ']' :: t => .ok (false, t)
  | c :: t =>
      if first then .ok (true, c :: t)
      else if c = ',' then
        match skipBlank t with
        | [] => stopInto .endInValue []
        | ']' :: t => stopInto .trailingComma (']' :: t)
        | t => .ok (true, t)
      else stopInto .expectedListComma (c :: t)

def readItems {α : Type} (item : List Char → Reading (α × List Char)) :
    Nat → Nat → List Char → Reading (List α × List Char)
  | 0, _, t => atRoot (stopAt .endInList t)
  | steps + 1, i, t => do
      match ← atRoot (nextItem (i == 0) t) with
      | (false, t) => return ([], t)
      | (true, t) =>
          let (a, t) ← within (.index i) (item t)
          let (as, t) ← readItems item steps (i + 1) t
          return (a :: as, t)

def nextKey (steps : Nat) (first : Bool) (t : List Char) :
    Except Stop (Option String × List Char) :=
  match skipBlank t with
  | [] => stopInto .endInObject []
  | '}' :: t => .ok (none, t)
  | c :: t =>
      if first then key (c :: t)
      else if c = ',' then
        match skipBlank t with
        | [] => stopInto .endInValue []
        | '}' :: t => stopInto .trailingComma ('}' :: t)
        | t => key t
      else stopInto .expectedObjectComma (c :: t)
where
  key : List Char → Except Stop (Option String × List Char)
    | '"' :: t => do
        let (s, t) ← readString steps t
        return (some s, t)
    | t => stopInto .keyNotString t

def readColon (t : List Char) : Except Stop (List Char) :=
  match skipBlank t with
  | [] => stopInto .endInObject []
  | ':' :: t => .ok t
  | t => stopInto .expectedColon t

def readMembers {α : Type} (value : List Char → Reading (α × List Char)) (steps : Nat) :
    Nat → Bool → List Char → Reading (List (String × α) × List Char)
  | 0, _, t => atRoot (stopAt .endInObject t)
  | left + 1, first, t => do
      match ← within .unknown (atRoot (nextKey steps first t)) with
      | (none, t) => return ([], t)
      | (some k, t) =>
          let t ← atRoot (readColon t)
          let (v, t) ← within (.key k) (value t)
          let (ms, t) ← readMembers value steps left false t
          return ((k, v) :: ms, t)

def tooDeep {α : Type} (t : List Char) : Reading α :=
  atRoot (stopInto .tooDeep t)

namespace Value

def read (steps : Nat) : Nat → List Char → Reading (Value × List Char)
  | 0, t => do
      match ← atRoot (openValue steps t) with
      | .scalar v t => return (v, t)
      | .list t => tooDeep ('[' :: t)
      | .object t => tooDeep ('{' :: t)
  | depth + 1, t => do
      match ← atRoot (openValue steps t) with
      | .scalar v t => return (v, t)
      | .list t =>
          let (vs, t) ← readItems (read steps depth) steps 0 t
          return (.array vs, t)
      | .object t =>
          let (ms, t) ← readMembers (read steps depth) steps steps true t
          return (.object (Members.ofWritten ms), t)

end Value

def Opening.shape : Opening → Shape
  | .scalar v _ => v.shape
  | .list _ => .sequence
  | .object _ => .map

/-- The text from which a value of the wrong type is still to be read: after a scalar, before a
bracket. -/
def Opening.unread : Opening → List Char
  | .scalar _ t => t
  | .list t => '[' :: t
  | .object t => '{' :: t

def Opening.reject {α : Type} (o : Opening) (wanted : Wanted) : Reading α :=
  atRoot (stopAt (.wrongType o.shape wanted) o.unread)

def readText : Reader String := fun steps _ t => do
  match ← atRoot (openValue steps t) with
  | .scalar (.string s) t => return (s, t)
  | o => o.reject .string

def readList {α : Type} (item : Reader α) : Reader (List α) := fun steps depth t => do
  match ← atRoot (openValue steps t) with
  | .list t =>
      match depth with
      | 0 => tooDeep ('[' :: t)
      | depth + 1 => readItems (item steps depth) steps 0 t
  | o => o.reject .sequence

def readObject : Reader Members := fun steps depth t => do
  match ← atRoot (openValue steps t) with
  | .object t =>
      match depth with
      | 0 => tooDeep ('{' :: t)
      | depth + 1 =>
          let (ms, t) ← readMembers (Value.read steps depth) steps steps true t
          return (Members.ofWritten ms, t)
  | o => o.reject .map

end ModelBindings.Json
