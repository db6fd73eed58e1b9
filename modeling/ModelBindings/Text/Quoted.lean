import ModelBindings.Text.Printable

namespace ModelBindings.Text

def hex (n : Nat) : List Char :=
  Nat.toDigits 16 n

def escape (quotes : List Char) (c : Char) : List Char :=
  if c = '\\' || quotes.contains c then ['\\', c]
  else if c = '\n' then ['\\', 'n']
  else if c = '\r' then ['\\', 'r']
  else if c = '\t' then ['\\', 't']
  else if c = '\x00' then ['\\', '0']
  else if isPrintable c then [c]
  else '\\' :: 'u' :: '\x7b' :: hex c.toNat ++ ['\x7d']

def quoted (s : String) : String :=
  String.ofList ('"' :: s.toList.flatMap (escape ['"']) ++ ['"'])

/-- A path is quoted like any text, and an apostrophe in it is escaped too. -/
def quotedPath (s : String) : String :=
  String.ofList ('"' :: s.toList.flatMap (escape ['"', '\'']) ++ ['"'])

end ModelBindings.Text
