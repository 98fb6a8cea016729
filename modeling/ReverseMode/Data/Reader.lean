import ReverseMode.Data

/-!
# Reading data trees from JSON text

**Input.**  A text.

**Algorithm.**  Recursive descent over the characters.  Each function takes the characters
still to be read and gives back those it leaves.  A budget goes down with every entry and
every level of nesting; the number of characters is always enough.

**Results.**  `Data.ofText?` reads a text that is one value with blanks around it.  A
number without fraction and exponent is an integer, except for `-0`, which is the real
negative zero.  Reals are rounded to the nearest binary64 number.
-/

namespace ReverseMode
namespace Data

section Numbers

def isBlank (c : Char) : Bool :=
  c == ' ' || c == '\t' || c == '\n' || c == '\r'

def skipBlanks (cs : List Char) : List Char :=
  cs.dropWhile isBlank

/-- The value of a list of decimal digits. -/
def digitsValue (ds : List Char) : Nat :=
  ds.foldl (fun n d => 10 * n + (d.toNat - '0'.toNat)) 0

/-- Digits at the front, and what follows them. -/
def spanDigits (cs : List Char) : List Char × List Char :=
  (cs.takeWhile Char.isDigit, cs.dropWhile Char.isDigit)

/-- The digits after a decimal point, if there is one. -/
def readFraction? (cs : List Char) : Option (Option (List Char) × List Char) :=
  match cs with
  | '.' :: rest =>
      let (ds, rest) := spanDigits rest
      if ds.isEmpty then none else some (some ds, rest)
  | _ => some (none, cs)

/-- The exponent after `e` or `E`, if there is one. -/
def readExponent? (cs : List Char) : Option (Option Int × List Char) :=
  match cs with
  | c :: rest =>
      if c == 'e' || c == 'E' then
        let (negative, rest) :=
          match rest with
          | '-' :: r => (true, r)
          | '+' :: r => (false, r)
          | r => (false, r)
        let (ds, rest) := spanDigits rest
        if ds.isEmpty then none
        else
          let n : Int := digitsValue ds
          some (some (if negative then -n else n), rest)
      else some (none, cs)
  | [] => some (none, cs)

/-- `m · 10 ^ e`, rounded. -/
def scaled (m : Nat) (e : Int) : Float :=
  Float.ofScientific m (decide (e < 0)) e.natAbs

/-- A number without sign, as a function of the sign. -/
def readNumber? (negative : Bool) (cs : List Char) : Option (Data × List Char) := do
  let (whole, rest) := spanDigits cs
  if whole.isEmpty || (whole.length > 1 && whole.head? == some '0') then none
  let (fraction?, rest) ← readFraction? rest
  let (exponent?, rest) ← readExponent? rest
  let n := digitsValue whole
  if fraction?.isNone && exponent?.isNone && !(negative && n == 0) then
    return (int (if negative then -n else n), rest)
  else
    let fraction := fraction?.getD []
    let x := scaled (digitsValue (whole ++ fraction)) (exponent?.getD 0 - fraction.length)
    return (real (if negative then -x else x), rest)

end Numbers

section Strings

def hexDigit? (c : Char) : Option Nat :=
  if c.isDigit then some (c.toNat - '0'.toNat)
  else if 'a' ≤ c ∧ c ≤ 'f' then some (c.toNat - 'a'.toNat + 10)
  else if 'A' ≤ c ∧ c ≤ 'F' then some (c.toNat - 'A'.toNat + 10)
  else none

/-- The 16-bit unit of four hexadecimal digits. -/
def readUnit? : List Char → Option (Nat × List Char)
  | a :: b :: c :: d :: rest => do
      let a ← hexDigit? a
      let b ← hexDigit? b
      let c ← hexDigit? c
      let d ← hexDigit? d
      return (((a * 16 + b) * 16 + c) * 16 + d, rest)
  | _ => none

/-- The character of an escape `\u`; one beyond 16 bits takes two escapes. -/
def readEscapedUnit? (cs : List Char) : Option (Char × List Char) := do
  let (high, rest) ← readUnit? cs
  if 0xD800 ≤ high ∧ high < 0xDC00 then
    match rest with
    | '\\' :: 'u' :: rest =>
        let (low, rest) ← readUnit? rest
        if 0xDC00 ≤ low ∧ low < 0xE000 then
          return (Char.ofNat (0x10000 + (high - 0xD800) * 0x400 + (low - 0xDC00)), rest)
        else none
    | _ => none
  else if 0xDC00 ≤ high ∧ high < 0xE000 then none
  else return (Char.ofNat high, rest)

/-- The characters of a string up to its closing quote, in reverse. -/
def readString? : Nat → List Char → List Char → Option (String × List Char)
  | 0, _, _ => none
  | budget + 1, cs, done =>
      match cs with
      | [] => none
      | '"' :: rest => some (String.ofList done.reverse, rest)
      | '\\' :: 'u' :: rest => do
          let (c, rest) ← readEscapedUnit? rest
          readString? budget rest (c :: done)
      | '\\' :: c :: rest =>
          match c with
          | '"' | '\\' | '/' => readString? budget rest (c :: done)
          | 'b' => readString? budget rest ('\x08' :: done)
          | 'f' => readString? budget rest ('\x0c' :: done)
          | 'n' => readString? budget rest ('\n' :: done)
          | 'r' => readString? budget rest ('\r' :: done)
          | 't' => readString? budget rest ('\t' :: done)
          | _ => none
      | c :: rest => if c.toNat < 0x20 then none else readString? budget rest (c :: done)

end Strings

section Values

mutual

/-- One value. -/
def readValue? : Nat → List Char → Option (Data × List Char)
  | 0, _ => none
  | budget + 1, cs =>
      match skipBlanks cs with
      | 'n' :: 'u' :: 'l' :: 'l' :: rest => some (null, rest)
      | 't' :: 'r' :: 'u' :: 'e' :: rest => some (bool true, rest)
      | 'f' :: 'a' :: 'l' :: 's' :: 'e' :: rest => some (bool false, rest)
      | '"' :: rest => (readString? (rest.length + 1) rest []).map fun r => (text r.1, r.2)
      | '[' :: rest =>
          match skipBlanks rest with
          | ']' :: rest => some (list [], rest)
          | rest => readEntries? budget rest []
      | '\x7b' :: rest =>
          match skipBlanks rest with
          | '\x7d' :: rest => some (record [], rest)
          | rest => readFields? budget rest []
      | '-' :: rest => readNumber? true rest
      | rest => readNumber? false rest

/-- The entries of a list up to its end, after those already read, which are in reverse. -/
def readEntries? : Nat → List Char → List Data → Option (Data × List Char)
  | 0, _, _ => none
  | budget + 1, cs, done =>
      match readValue? budget cs with
      | none => none
      | some (d, rest) =>
          match skipBlanks rest with
          | ',' :: rest => readEntries? budget rest (d :: done)
          | ']' :: rest => some (list (d :: done).reverse, rest)
          | _ => none

/-- The fields of a record up to its end, after those already read, which are in reverse. -/
def readFields? : Nat → List Char → List (String × Data) → Option (Data × List Char)
  | 0, _, _ => none
  | budget + 1, cs, done =>
      match skipBlanks cs with
      | '"' :: rest =>
          match readString? (rest.length + 1) rest [] with
          | none => none
          | some (name, rest) =>
              match skipBlanks rest with
              | ':' :: rest =>
                  match readValue? budget rest with
                  | none => none
                  | some (d, rest) =>
                      match skipBlanks rest with
                      | ',' :: rest => readFields? budget rest ((name, d) :: done)
                      | '\x7d' :: rest => some (record ((name, d) :: done).reverse, rest)
                      | _ => none
              | _ => none
      | _ => none

end

/-- The data of a text. -/
def ofText? (s : String) : Option Data :=
  let cs := s.toList
  match readValue? (cs.length + 1) cs with
  | some (d, rest) => if (skipBlanks rest).isEmpty then some d else none
  | none => none

end Values
end Data
end ReverseMode
