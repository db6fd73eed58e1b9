import ModelBindings.Json.Fault

namespace ModelBindings.Json

open Text.Utf8 (byteSize)

def isBlank (c : Char) : Bool :=
  c = ' ' || c = '\n' || c = '\t' || c = '\r'

def skipBlank (t : List Char) : List Char :=
  t.dropWhile isBlank

def readLiteral : List Char → List Char → Except Stop (List Char)
  | [], t => .ok t
  | _ :: _, [] => stopAt .endInValue []
  | e :: es, c :: t => if c = e then readLiteral es t else stopInto .expectedLiteral (c :: t)

def hexValue? (c : Char) : Option Nat :=
  let n := c.toNat
  if '0' ≤ c ∧ c ≤ '9' then some (n - 0x30)
  else if 'a' ≤ c ∧ c ≤ 'f' then some (n - 0x57)
  else if 'A' ≤ c ∧ c ≤ 'F' then some (n - 0x37)
  else none

def hexUnit? (a b c d : Char) : Option Nat := do
  return (((← hexValue? a) * 16 + (← hexValue? b)) * 16 + (← hexValue? c)) * 16 + (← hexValue? d)

/-- Stops after the four bytes where digits should be, or at the end of a shorter text. -/
def stopInHex {α : Type} (t : List Char) : Except Stop α :=
  if byteSize t < 4 then stopAt .endInString [] else .error ⟨.invalidEscape, byteSize t - 4⟩

def readHex (t : List Char) : Except Stop (Nat × List Char) :=
  match t with
  | a :: b :: c :: d :: rest =>
      match hexUnit? a b c d with
      | some n => .ok (n, rest)
      | none => stopInHex t
  | _ => stopInHex t

def isLowSurrogate (n : Nat) : Bool := 0xDC00 ≤ n && n ≤ 0xDFFF

def isHighSurrogate (n : Nat) : Bool := 0xD800 ≤ n && n ≤ 0xDBFF

def joinSurrogates (high low : Nat) : Char :=
  Char.ofNat ((high - 0xD800) * 0x400 + (low - 0xDC00) + 0x10000)

def readPairMark : List Char → Except Stop (List Char)
  | [] => stopAt .endInString []
  | '\\' :: [] => stopAt .endInString []
  | '\\' :: 'u' :: t => .ok t
  | '\\' :: t => stopInto .halfSurrogatePair t
  | t => stopInto .halfSurrogatePair t

def readUnicode (t : List Char) : Except Stop (Char × List Char) := do
  let (n, t) ← readHex t
  if isLowSurrogate n then stopAt .loneSurrogate t
  else if isHighSurrogate n then do
    let (m, t) ← readHex (← readPairMark t)
    if isLowSurrogate m then return (joinSurrogates n m, t) else stopAt .loneSurrogate t
  else return (Char.ofNat n, t)

def simpleEscape? : Char → Option Char
  | '"' => some '"'
  | '\\' => some '\\'
  | '/' => some '/'
  | 'b' => some '\x08'
  | 'f' => some '\x0c'
  | 'n' => some '\n'
  | 'r' => some '\r'
  | 't' => some '\t'
  | _ => none

def readEscape : List Char → Except Stop (Char × List Char)
  | [] => stopAt .endInString []
  | 'u' :: t => readUnicode t
  | c :: t =>
      match simpleEscape? c with
      | some d => .ok (d, t)
      | none => stopInto .invalidEscape (c :: t)

def readCharacters : Nat → List Char → Except Stop (List Char × List Char)
  | 0, t => stopAt .endInString t
  | _ + 1, [] => stopAt .endInString []
  | _ + 1, '"' :: t => .ok ([], t)
  | steps + 1, '\\' :: t => do
      let (c, t) ← readEscape t
      let (cs, t) ← readCharacters steps t
      return (c :: cs, t)
  | steps + 1, c :: t =>
      if c.toNat < 0x20 then stopAt .controlCharacter t
      else do
        let (cs, t) ← readCharacters steps t
        return (c :: cs, t)

def readString (steps : Nat) (t : List Char) : Except Stop (String × List Char) := do
  let (cs, t) ← readCharacters steps t
  return (String.ofList cs, t)

def digitValue (c : Char) : Nat := c.toNat - '0'.toNat

/-- Takes digits into a number as long as it stays within `limit`, and answers with the number of
digits taken and those that are left. -/
def absorb (limit : Nat) : Nat → List Char → Nat × Nat × List Char
  | n, [] => (n, 0, [])
  | n, d :: ds =>
      let m := n * 10 + digitValue d
      if m ≤ limit then
        let (k, taken, left) := absorb limit m ds
        (k, taken + 1, left)
      else (n, 0, d :: ds)

def maxWord : Nat := Nat.pow 2 64 - 1

def maxExponent : Nat := Nat.pow 2 31 - 1

/-- A number as it is written: the digits that count, the power of ten they stand for, and whether
it has neither a fraction nor an exponent. -/
structure Numeral where
  digits : Nat
  exponent : Int
  whole : Bool
  deriving DecidableEq, Repr

/-- Digits beyond a word count into the exponent. -/
def Numeral.ofDigits (ds : List Char) : Numeral :=
  let (n, _, left) := absorb maxWord 0 ds
  ⟨n, left.length, left.isEmpty⟩

/-- Takes the digits of a fraction. Those beyond a word are dropped. -/
def Numeral.addFraction (x : Numeral) (ds : List Char) : Numeral :=
  let (n, taken, _) := absorb maxWord x.digits ds
  ⟨n, x.exponent - taken, false⟩

def digitsOf (t : List Char) : List Char × List Char :=
  (t.takeWhile Char.isDigit, t.dropWhile Char.isDigit)

def readFraction (x : Numeral) : List Char → Except Stop (Numeral × List Char)
  | '.' :: t =>
      match digitsOf t with
      | ([], []) => stopInto .endInValue []
      | ([], t) => stopInto .invalidNumber t
      | (ds, t) => .ok (x.addFraction ds, t)
  | t => .ok (x, t)

def readSign : List Char → Bool × List Char
  | '+' :: t => (false, t)
  | '-' :: t => (true, t)
  | t => (false, t)

/-- Reads the digits of an exponent. An exponent too large for a number that is not zero stops at
the digit that makes it so. -/
def readPower (x : Numeral) (negative : Bool) (t : List Char) : Except Stop (Numeral × List Char) :=
  match digitsOf t with
  | ([], []) => stopAt .endInValue []
  | ([], t) => stopInto .invalidNumber t
  | (ds, t) =>
      let (n, _, left) := absorb maxExponent 0 ds
      if left.isEmpty then
        let e : Int := n
        .ok (⟨x.digits, if negative then x.exponent - e else x.exponent + e, false⟩, t)
      else if x.digits ≠ 0 ∧ negative = false then stopAt .outOfRange (left.drop 1 ++ t)
      else .ok (⟨0, 0, false⟩, t)

def readExponent (x : Numeral) : List Char → Except Stop (Numeral × List Char)
  | [] => .ok (x, [])
  | c :: t =>
      if c = 'e' ∨ c = 'E' then
        let (negative, t) := readSign t
        readPower x negative t
      else .ok (x, c :: t)

def readWhole : List Char → Except Stop (Numeral × List Char)
  | [] => stopAt .endInValue []
  | '0' :: t =>
      match t with
      | [] => .ok (⟨0, 0, true⟩, [])
      | c :: t => if c.isDigit then stopInto .invalidNumber (c :: t) else .ok (⟨0, 0, true⟩, c :: t)
  | c :: t =>
      if c.isDigit then
        let (ds, t) := digitsOf (c :: t)
        .ok (Numeral.ofDigits ds, t)
      else stopInto .invalidNumber (c :: t)

def readNumeral (t : List Char) : Except Stop (Numeral × List Char) := do
  let (x, t) ← readWhole t
  let (x, t) ← readFraction x t
  readExponent x t

/-- Integers of 64 bits stay integers; a negative zero is none. -/
def Numeral.value? (negative : Bool) (x : Numeral) : Option Number :=
  if x.whole ∧ negative = false then some (.integer x.digits)
  else if x.whole ∧ 0 < x.digits ∧ x.digits ≤ Nat.pow 2 63 then some (.integer (-(x.digits : Int)))
  else (Double.ofDecimal x.digits x.exponent).map fun d => .double (if negative then d.neg else d)

def readNumber (negative : Bool) (t : List Char) : Except Stop (Number × List Char) := do
  let (x, t) ← readNumeral t
  match x.value? negative with
  | some n => return (n, t)
  | none => stopAt .outOfRange t

inductive Opening where
  | scalar (v : Value) (rest : List Char)
  | list (rest : List Char)
  | object (rest : List Char)

def openValue (steps : Nat) (t : List Char) : Except Stop Opening :=
  match skipBlank t with
  | [] => stopInto .endInValue []
  | 'n' :: t => return .scalar .null (← readLiteral ['u', 'l', 'l'] t)
  | 't' :: t => return .scalar (.bool true) (← readLiteral ['r', 'u', 'e'] t)
  | 'f' :: t => return .scalar (.bool false) (← readLiteral ['a', 'l', 's', 'e'] t)
  | '"' :: t => do
      let (s, t) ← readString steps t
      return .scalar (.string s) t
  | '-' :: t => do
      let (n, t) ← readNumber true t
      return .scalar (.number n) t
  | '[' :: t => return .list t
  | '{' :: t => return .object t
  | c :: t =>
      if c.isDigit then do
        let (n, t) ← readNumber false (c :: t)
        return .scalar (.number n) t
      else stopInto .expectedValue (c :: t)

end ModelBindings.Json
