import ModelBindings.Json.Reader
import ModelBindings.Json.Skip

/-!
Decoders for what a document should hold. Each reads from text, and converts a value that has been
read already. A record is an object with its fields in any order among others that are skipped, or
an array of the fields in their own order.
-/

namespace ModelBindings.Json

abbrev Converting := Except (Located Cause)

structure Decoder (α : Type) where
  read : Reader α
  convert : Value → Converting α

namespace Decoder

def map {α β : Type} (f : α → β) (d : Decoder α) : Decoder β where
  read steps depth t := do
    let (a, t) ← d.read steps depth t
    return (f a, t)
  convert v := do return f (← d.convert v)

def any : Decoder Value where
  read := fun steps depth t => Value.read steps depth t
  convert v := .ok v

def text : Decoder String where
  read := readText
  convert
    | .string s => .ok s
    | v => atRoot (.error (.wrongType v.shape .string))

def members : Decoder Members where
  read := readObject
  convert
    | .object ms => .ok ms
    | v => atRoot (.error (.wrongType v.shape .map))

def convertItems {α : Type} (item : Value → Converting α) : Nat → List Value → Converting (List α)
  | _, [] => .ok []
  | i, v :: vs => do
      let a ← within (.index i) (item v)
      return a :: (← convertItems item (i + 1) vs)

def list {α : Type} (d : Decoder α) : Decoder (List α) where
  read := readList d.read
  convert
    | .array vs => convertItems d.convert 0 vs
    | v => atRoot (.error (.wrongType v.shape .sequence))

end Decoder

structure Field (ρ : Type) where
  key : String
  filled : ρ → Bool
  decoder : Decoder (ρ → ρ)

/-- A record under way starts `blank`. It is finished unless a field that must be there is missing;
the fields that need not be there come last. -/
structure Record (ρ α : Type) where
  name : String
  fields : List (Field ρ)
  blank : ρ
  finish : ρ → Except String α

namespace Record

variable {ρ α : Type}

def field? (r : Record ρ α) (key : String) : Option (Field ρ) :=
  r.fields.find? fun f => f.key == key

def short (r : Record ρ α) (length : Nat) : Cause :=
  .tooShort length r.name r.fields.length

/-- The end of an object is passed before a field is found to be there twice. -/
def passEnd (t : List Char) : List Char :=
  match skipBlank t with
  | '}' :: t => t
  | t => t

def readFields (r : Record ρ α) (steps depth : Nat) :
    Nat → Bool → ρ → List Char → Reading (ρ × List Char)
  | 0, _, _, t => atRoot (stopAt .endInObject t)
  | left + 1, first, s, t => do
      match ← within .unknown (atRoot (nextKey steps first t)) with
      | (none, t) => return (s, t)
      | (some k, t) =>
          match r.field? k with
          | none =>
              let t ← atRoot (readColon t)
              let t ← within (.key k) (atRoot (Skip.value steps t))
              r.readFields steps depth left false s t
          | some f =>
              if f.filled s then atRoot (stopAt (.duplicateField k) (passEnd t))
              else
                let t ← atRoot (readColon t)
                let (fill, t) ← within (.key k) (f.decoder.read steps depth t)
                r.readFields steps depth left false (fill s) t

def readEnd (t : List Char) : Except Stop (List Char) :=
  match skipBlank t with
  | [] => stopInto .endInList []
  | ']' :: t => .ok t
  | ',' :: t =>
      match skipBlank t with
      | ']' :: t => stopInto .trailingComma (']' :: t)
      | t => stopInto .trailingCharacters t
  | t => stopInto .trailingCharacters t

def readPlaces (steps depth : Nat) :
    List (Field ρ) → Nat → ρ → List Char → Reading (ρ × Nat × List Char)
  | [], i, s, t => do return (s, i, ← atRoot (readEnd t))
  | f :: fs, i, s, t => do
      match ← atRoot (nextItem (i == 0) t) with
      | (false, t) => return (s, i, t)
      | (true, t) =>
          let (fill, t) ← within (.index i) (f.decoder.read steps depth t)
          readPlaces steps depth fs (i + 1) (fill s) t

def read (r : Record ρ α) : Reader α := fun steps depth t => do
  match ← atRoot (openValue steps t) with
  | .scalar v t => Opening.reject (.scalar v t) (.record r.name)
  | .list t =>
      match depth with
      | 0 => tooDeep ('[' :: t)
      | depth + 1 =>
          let (s, n, t) ← readPlaces steps depth r.fields 0 r.blank t
          match r.finish s with
          | .ok a => return (a, t)
          | .error _ => atRoot (stopAt (r.short n) t)
  | .object t =>
      match depth with
      | 0 => tooDeep ('{' :: t)
      | depth + 1 =>
          let (s, t) ← r.readFields steps depth steps true r.blank t
          match r.finish s with
          | .ok a => return (a, t)
          | .error key => atRoot (stopAt (.missingField key) t)

def convertFields (r : Record ρ α) : ρ → Members → Converting ρ
  | s, [] => .ok s
  | s, (k, v) :: ms =>
      match r.field? k with
      | none => r.convertFields s ms
      | some f =>
          if f.filled s then atRoot (.error (.duplicateField k))
          else do
            let fill ← within (.key k) (f.decoder.convert v)
            r.convertFields (fill s) ms

def convertPlaces : List (Field ρ) → Nat → ρ → List Value → Converting (ρ × List Value)
  | [], _, s, vs => .ok (s, vs)
  | _, _, s, [] => .ok (s, [])
  | f :: fs, i, s, v :: vs => do
      let fill ← within (.index i) (f.decoder.convert v)
      convertPlaces fs (i + 1) (fill s) vs

def convert (r : Record ρ α) : Value → Converting α
  | .array vs => do
      let (s, rest) ← convertPlaces r.fields 0 r.blank vs
      match r.finish s, rest with
      | .error _, _ => atRoot (.error (r.short vs.length))
      | .ok a, [] => return a
      | .ok _, _ :: _ => atRoot (.error (.tooLong vs.length))
  | .object ms => do
      match r.finish (← r.convertFields r.blank ms) with
      | .ok a => return a
      | .error key => atRoot (.error (.missingField key))
  | v => atRoot (.error (.wrongType v.shape (.record r.name)))

def decoder (r : Record ρ α) : Decoder α where
  read := r.read
  convert := r.convert

def one {β : Type} (name key : String) (d : Decoder β) (default? : Option β) :
    Record (Option β) β where
  name
  fields := [⟨key, Option.isSome, d.map fun b _ => some b⟩]
  blank := none
  finish s :=
    match s, default? with
    | some b, _ => .ok b
    | none, some b => .ok b
    | none, none => .error key

def two {β γ : Type} (name key : String) (d : Decoder β) (key' : String) (d' : Decoder γ)
    (default? : Option γ) : Record (Option β × Option γ) (β × γ) where
  name
  fields :=
    [⟨key, fun s => s.1.isSome, d.map fun b s => (some b, s.2)⟩,
     ⟨key', fun s => s.2.isSome, d'.map fun c s => (s.1, some c)⟩]
  blank := (none, none)
  finish s :=
    match s, default? with
    | (some b, some c), _ => .ok (b, c)
    | (some b, none), some c => .ok (b, c)
    | (some _, none), none => .error key'
    | (none, _), _ => .error key

end Record

end ModelBindings.Json
