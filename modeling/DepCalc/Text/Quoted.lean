import DepCalc.Text.Printable

/-!
Quoted characters and strings inside messages. Printable characters stand for themselves, the
delimiter and the backslash are escaped, and all else is written by a short name or by its code.
-/
namespace DepCalc.Text.Quoted

/-- Lower-case hexadecimal, filled with zeros up to `width` digits. -/
def hex (width n : Nat) : String :=
  let digits := Nat.toDigits 16 n
  String.ofList (List.replicate (width - digits.length) '0' ++ digits)

/-- The control characters that have a name of their own. -/
def controlName? (c : Char) : Option String :=
  match c.toNat with
  | 0x07 => some "\\a"
  | 0x08 => some "\\b"
  | 0x09 => some "\\t"
  | 0x0a => some "\\n"
  | 0x0b => some "\\v"
  | 0x0c => some "\\f"
  | 0x0d => some "\\r"
  | _ => none

def code (c : Char) : String :=
  let n := c.toNat
  if n < 0x20 || n == 0x7f then "\\x" ++ hex 2 n
  else if n < 0x10000 then "\\u" ++ hex 4 n
  else "\\U" ++ hex 8 n

def escape (delimiter c : Char) : String :=
  if c == delimiter || c == '\\' then String.ofList ['\\', c]
  else if isPrintable c then c.toString
  else (controlName? c).getD (code c)

def char (c : Char) : String :=
  "'" ++ escape '\'' c ++ "'"

def string (s : String) : String :=
  "\"" ++ String.join (s.toList.map (escape '"')) ++ "\""

end DepCalc.Text.Quoted
