import ModelBindings.Text.Quoted

namespace ModelBindings.Json

def escape (c : Char) : List Char :=
  match c with
  | '"' => ['\\', '"']
  | '\\' => ['\\', '\\']
  | '\x08' => ['\\', 'b']
  | '\x0c' => ['\\', 'f']
  | '\n' => ['\\', 'n']
  | '\r' => ['\\', 'r']
  | '\t' => ['\\', 't']
  | c =>
      if c.toNat < 0x10 then '\\' :: 'u' :: '0' :: '0' :: '0' :: Text.hex c.toNat
      else if c.toNat < 0x20 then '\\' :: 'u' :: '0' :: '0' :: Text.hex c.toNat
      else [c]

def printString (s : String) : String :=
  String.ofList ('"' :: s.toList.flatMap escape ++ ['"'])

def printStrings (ss : List String) : String :=
  "[" ++ ",".intercalate (ss.map printString) ++ "]"

end ModelBindings.Json
