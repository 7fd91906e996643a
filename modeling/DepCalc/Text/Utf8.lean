/-!
Reading bytes as UTF-8. Every byte sequence is read: a byte that begins no well-formed encoding
stands for the replacement character.
-/
namespace DepCalc.Text

abbrev Bytes := List UInt8

def Bytes.ofString (s : String) : Bytes :=
  s.toUTF8.toList

namespace Utf8

def replacement : Char := '\ufffd'

/-- How many bytes an encoding with this first byte has, and the first byte's share of the code. -/
def leading (b : UInt8) : Nat × Nat :=
  if b < 0x80 then (1, b.toNat)
  else if b < 0xe0 then (2, b.toNat % 0x20)
  else if b < 0xf0 then (3, b.toNat % 0x10)
  else (4, b.toNat % 0x08)

/-- The character whose encoding begins the bytes. Encoding the candidate again rules out overlong
forms, surrogates and stray continuation bytes. -/
def front? : Bytes → Option Char
  | [] => none
  | first :: rest =>
    let (size, high) := leading first
    let code := (rest.take (size - 1)).foldl (fun n b => n * 0x40 + b.toNat % 0x40) high
    let c := Char.ofNat code
    if (String.utf8EncodeChar c).isPrefixOf (first :: rest) then some c else none

/-- Characters already read stand in `done`, the last one first. -/
def decodeOnto (done : List Char) : Bytes → List Char
  | [] => done.reverse
  | first :: rest =>
    match front? (first :: rest) with
    | some c => decodeOnto (c :: done) (rest.drop (c.utf8Size - 1))
    | none => decodeOnto (replacement :: done) rest
termination_by bytes => bytes.length
decreasing_by
  · simp only [List.length_drop, List.length_cons]; omega
  · simp

def decode (bytes : Bytes) : List Char :=
  decodeOnto [] bytes

end Utf8
end DepCalc.Text
