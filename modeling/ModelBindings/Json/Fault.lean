import ModelBindings.Json.Path
import ModelBindings.Json.Value
import ModelBindings.Text.Utf8

namespace ModelBindings.Json

inductive Wanted where
  | string
  | sequence
  | map
  | record (name : String)
  deriving DecidableEq, Repr

def Wanted.text : Wanted → String
  | .string => "a string"
  | .sequence => "a sequence"
  | .map => "a map"
  | .record name => "struct " ++ name

inductive Cause where
  | endInValue
  | endInString
  | endInList
  | endInObject
  | expectedColon
  | expectedListComma
  | expectedObjectComma
  | expectedLiteral
  | expectedValue
  | keyNotString
  | invalidEscape
  | invalidNumber
  | outOfRange
  | loneSurrogate
  | halfSurrogatePair
  | controlCharacter
  | trailingComma
  | trailingCharacters
  | tooDeep
  | wrongType (found : Shape) (wanted : Wanted)
  | missingField (name : String)
  | duplicateField (name : String)
  | tooShort (length : Nat) (record : String) (fields : Nat)
  | tooLong (length : Nat)
  deriving DecidableEq, Repr

def elements (n : Nat) : String :=
  toString n ++ if n = 1 then " element" else " elements"

def Cause.message : Cause → String
  | .endInValue => "EOF while parsing a value"
  | .endInString => "EOF while parsing a string"
  | .endInList => "EOF while parsing a list"
  | .endInObject => "EOF while parsing an object"
  | .expectedColon => "expected `:`"
  | .expectedListComma => "expected `,` or `]`"
  | .expectedObjectComma => "expected `,` or `\x7d`"
  | .expectedLiteral => "expected ident"
  | .expectedValue => "expected value"
  | .keyNotString => "key must be a string"
  | .invalidEscape => "invalid escape"
  | .invalidNumber => "invalid number"
  | .outOfRange => "number out of range"
  | .loneSurrogate => "lone leading surrogate in hex escape"
  | .halfSurrogatePair => "unexpected end of hex escape"
  | .controlCharacter => "control character (\\u0000-\\u001F) found while parsing a string"
  | .trailingComma => "trailing comma"
  | .trailingCharacters => "trailing characters"
  | .tooDeep => "recursion limit exceeded"
  | .wrongType found wanted => "invalid type: " ++ found.text ++ ", expected " ++ wanted.text
  | .missingField name => "missing field `" ++ name ++ "`"
  | .duplicateField name => "duplicate field `" ++ name ++ "`"
  | .tooShort n record k =>
      "invalid length " ++ toString n ++ ", expected struct " ++ record ++ " with " ++ elements k
  | .tooLong n => "invalid length " ++ toString n ++ ", expected fewer elements in array"

/-- A cause and the number of bytes that were left unread when it arose. -/
structure Stop where
  cause : Cause
  left : Nat
  deriving DecidableEq, Repr

def stopAt {α : Type} (c : Cause) (rest : List Char) : Except Stop α :=
  .error ⟨c, Text.Utf8.byteSize rest⟩

/-- Stops one byte into `rest`, or at the end of the text. -/
def stopInto {α : Type} (c : Cause) (rest : List Char) : Except Stop α :=
  .error ⟨c, Text.Utf8.byteSize rest - 1⟩

/-- A line, counted from one, and the number of bytes before the place on that line. -/
structure Position where
  line : Nat
  column : Nat
  deriving DecidableEq, Repr

def Position.advance (p : Position) : Nat → List Char → Position
  | _, [] => p
  | n, c :: cs =>
      if n < c.utf8Size then { p with column := p.column + n }
      else if c = '\n' then Position.advance ⟨p.line + 1, 0⟩ (n - 1) cs
      else Position.advance { p with column := p.column + c.utf8Size } (n - c.utf8Size) cs

def Stop.position (s : Stop) (text : List Char) : Position :=
  Position.advance ⟨1, 0⟩ (Text.Utf8.byteSize text - s.left) text

def Stop.message (s : Stop) (text : List Char) : String :=
  let p := s.position text
  s.cause.message ++ " at line " ++ toString p.line ++ " column " ++ toString p.column

end ModelBindings.Json
