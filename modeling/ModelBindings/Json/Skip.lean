import ModelBindings.Json.Lexeme

/-!
Passing over a value that nobody asked for. Only its form is checked, neither the range of its
numbers nor the pairing of its surrogates, and brackets may be nested to any depth.
-/

namespace ModelBindings.Json.Skip

def escape : List Char → Except Stop (List Char)
  | [] => stopAt .endInString []
  | 'u' :: t => return (← readHex t).2
  | c :: t =>
      match simpleEscape? c with
      | some _ => .ok t
      | none => stopInto .invalidEscape (c :: t)

def string : Nat → List Char → Except Stop (List Char)
  | 0, t => stopAt .endInString t
  | _ + 1, [] => stopAt .endInString []
  | _ + 1, '"' :: t => .ok t
  | steps + 1, '\\' :: t => do string steps (← escape t)
  | steps + 1, c :: t =>
      if c.toNat < 0x20 then stopAt .controlCharacter (c :: t) else string steps t

def fraction : List Char → Except Stop (List Char)
  | '.' :: t =>
      match digitsOf t with
      | ([], t) => stopInto .invalidNumber t
      | (_, t) => .ok t
  | t => .ok t

def exponent : List Char → Except Stop (List Char)
  | [] => .ok []
  | c :: t =>
      if c = 'e' ∨ c = 'E' then
        match digitsOf (readSign t).2 with
        | ([], t) => stopInto .invalidNumber t
        | (_, t) => .ok t
      else .ok (c :: t)

def whole : List Char → Except Stop (List Char)
  | [] => stopAt .invalidNumber []
  | '0' :: t =>
      match t with
      | [] => .ok []
      | c :: t => if c.isDigit then stopInto .invalidNumber (c :: t) else .ok (c :: t)
  | c :: t => if c.isDigit then .ok (digitsOf t).2 else stopInto .invalidNumber (c :: t)

def number (t : List Char) : Except Stop (List Char) := do
  exponent (← fraction (← whole t))

def nextItem (first : Bool) (t : List Char) : Except Stop (Bool × List Char) :=
  match skipBlank t with
  | [] => stopInto .endInList []
  | ']' :: t => .ok (false, t)
  | ',' :: t => if first then .ok (true, ',' :: t) else .ok (true, t)
  | c :: t => if first then .ok (true, c :: t) else stopInto .expectedListComma (c :: t)

def items (value : List Char → Except Stop (List Char)) :
    Nat → Bool → List Char → Except Stop (List Char)
  | 0, _, t => stopAt .endInList t
  | steps + 1, first, t => do
      match ← nextItem first t with
      | (false, t) => return t
      | (true, t) => items value steps false (← value t)

def key (steps : Nat) (t : List Char) : Except Stop (List Char) :=
  match skipBlank t with
  | [] => stopInto .endInObject []
  | '"' :: t => do
      match skipBlank (← string steps t) with
      | [] => stopInto .endInObject []
      | ':' :: t => return t
      | t => stopInto .expectedColon t
  | t => stopInto .keyNotString t

def nextMember (first : Bool) (t : List Char) : Except Stop (Bool × List Char) :=
  match skipBlank t with
  | [] => stopInto .endInObject []
  | '}' :: t => .ok (false, t)
  | ',' :: t => if first then .ok (true, ',' :: t) else .ok (true, t)
  | c :: t => if first then .ok (true, c :: t) else stopInto .expectedObjectComma (c :: t)

def members (value : List Char → Except Stop (List Char)) :
    Nat → Bool → List Char → Except Stop (List Char)
  | 0, _, t => stopAt .endInObject t
  | steps + 1, first, t => do
      match ← nextMember first t with
      | (false, t) => return t
      | (true, t) => members value steps false (← value (← key steps t))

/-- Passes one value. A text of `n` characters nests no deeper than `n`. -/
def value : Nat → List Char → Except Stop (List Char)
  | 0, t => stopInto .expectedValue t
  | steps + 1, t =>
      match skipBlank t with
      | [] => stopInto .endInValue []
      | 'n' :: t => readLiteral ['u', 'l', 'l'] t
      | 't' :: t => readLiteral ['r', 'u', 'e'] t
      | 'f' :: t => readLiteral ['a', 'l', 's', 'e'] t
      | '"' :: t => string (steps + 1) t
      | '-' :: t => number t
      | '[' :: t => items (value steps) (steps + 1) true t
      | '{' :: t => members (value steps) (steps + 1) true t
      | c :: t => if c.isDigit then number (c :: t) else stopInto .expectedValue (c :: t)

end ModelBindings.Json.Skip
