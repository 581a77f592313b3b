import BlockPress.Text.Hex

/-!
# Quoted text

Text between double quotes, as JSON has it.  A quote and a backslash get a backslash in front, the
control characters with a letter of their own become that letter behind a backslash, all other
control characters become `\u` and four digits, and every other character stands for itself.
-/

namespace BlockPress.Quoted

/-- The written form of a character. -/
def escape (c : Char) : List Char :=
  if c = '"' then ['\\', '"']
  else if c = '\\' then ['\\', '\\']
  else if c = '\x08' then ['\\', 'b']
  else if c = '\t' then ['\\', 't']
  else if c = '\n' then ['\\', 'n']
  else if c = '\x0c' then ['\\', 'f']
  else if c = '\r' then ['\\', 'r']
  else if c.toNat < 0x20 then '\\' :: 'u' :: Hex.digits 4 c.toNat
  else [c]

/-- A text between quotes. -/
def encode (text : String) : String :=
  String.ofList ('"' :: text.toList.flatMap escape ++ ['"'])

end BlockPress.Quoted
