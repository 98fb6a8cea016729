import ReverseMode.Data
import ReverseMode.Text.Decimal

/-!
# Writing data trees as JSON text

`Data.toText` writes a tree on one line.  Reals have a fraction or an exponent, so they do
not read back as integers.  In strings the quote, the backslash and the control characters
are escaped, and all else stands as it is.
-/

namespace ReverseMode
namespace Data

section Strings

/-- A digit of base 16. -/
def hexDigit (n : Nat) : Char :=
  (Nat.toDigits 16 (n % 16)).headD '0'

/-- A character as it stands between quotes. -/
def escaped (c : Char) : List Char :=
  if c == '"' || c == '\\' then ['\\', c]
  else if c == '\n' then ['\\', 'n']
  else if c == '\r' then ['\\', 'r']
  else if c == '\t' then ['\\', 't']
  else if c.toNat < 0x20 then
    ['\\', 'u', '0', '0', hexDigit (c.toNat / 16), hexDigit c.toNat]
  else [c]

def quoted (s : String) : String :=
  "\"" ++ String.ofList (s.toList.flatMap escaped) ++ "\""

end Strings

mutual

/-- The text of a tree. -/
def toText : Data → String
  | null => "null"
  | bool b => if b then "true" else "false"
  | int n => toString n
  | real x => if x.isFinite then Text.Numeral.listing x else "null"
  | text s => quoted s
  | list entries => "[" ++ String.intercalate "," (entryTexts entries) ++ "]"
  | record fields => "\x7b" ++ String.intercalate "," (fieldTexts fields) ++ "\x7d"

def entryTexts : List Data → List String
  | [] => []
  | d :: rest => d.toText :: entryTexts rest

def fieldTexts : List (String × Data) → List String
  | [] => []
  | (name, d) :: rest => (quoted name ++ ":" ++ d.toText) :: fieldTexts rest

end

end Data
end ReverseMode
