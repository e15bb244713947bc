/-
# JSON texts

A parser of JSON texts in UTF-8, after RFC 8259.  It works on bytes; the strings of a
JSON value are strings of Unicode characters, and a number is its exact value.  The
members of an object are kept in their order, with repeated names.

The recursion is bounded by a number of calls (`fuel`), which `parse` takes large enough
for the length of its text.
-/
import Mathlib

namespace JsonText

abbrev Bytes := List UInt8

/-- The encoding of a string. -/
def utf8 (s : String) : Bytes := s.toByteArray.data.toList

/-- The string with the encoding, if there is one. -/
def decodeUtf8 (bs : Bytes) : Option String := String.fromUTF8? ⟨bs.toArray⟩

/-- The byte of an ASCII character. -/
def byte (c : Char) : UInt8 := c.toUInt8

inductive Json where
  | null
  | bool (b : Bool)
  | num (q : ℚ)
  | str (s : String)
  | arr (elems : List Json)
  | obj (members : List (String × Json))

/-! ## Strings -/

/-- The value of a hexadecimal digit. -/
def hexValue (b : UInt8) : Option ℕ :=
  if byte '0' ≤ b ∧ b ≤ byte '9' then some (b.toNat - 48)
  else if byte 'a' ≤ b ∧ b ≤ byte 'f' then some (b.toNat - 87)
  else if byte 'A' ≤ b ∧ b ≤ byte 'F' then some (b.toNat - 55)
  else none

/-- The four digits of a Unicode escape. -/
def hex4 : Bytes → Option (ℕ × Bytes)
  | a :: b :: c :: d :: rest => do
    let w ← hexValue a
    let x ← hexValue b
    let y ← hexValue c
    let z ← hexValue d
    return (4096 * w + 256 * x + 16 * y + z, rest)
  | _ => none

/-- The second half of a surrogate pair, after the first. -/
def lowSurrogate : Bytes → Option (ℕ × Bytes)
  | a :: b :: rest => do
    guard (a = byte '\\' ∧ b = byte 'u')
    let (low, rest) ← hex4 rest
    guard (0xDC00 ≤ low ∧ low < 0xE000)
    return (low, rest)
  | _ => none

/-- A Unicode escape, after the `u`: the encoding of the character, and the rest. -/
def unicodeEscape (bs : Bytes) : Option (Bytes × Bytes) := do
  let (u, rest) ← hex4 bs
  if 0xD800 ≤ u ∧ u < 0xDC00 then
    let (low, rest) ← lowSurrogate rest
    return (String.utf8EncodeChar (Char.ofNat (0x10000 + (u - 0xD800) * 1024 + (low - 0xDC00))), rest)
  else
    guard ¬ (0xDC00 ≤ u ∧ u < 0xE000)
    return (String.utf8EncodeChar (Char.ofNat u), rest)

/-- The escapes of one character. -/
def simpleEscape (b : UInt8) : Option UInt8 :=
  if b = byte '"' ∨ b = byte '\\' ∨ b = byte '/' then some b
  else if b = byte 'b' then some 8
  else if b = byte 'f' then some 12
  else if b = byte 'n' then some 10
  else if b = byte 'r' then some 13
  else if b = byte 't' then some 9
  else none

/-- An escape, after the backslash. -/
def escape : Bytes → Option (Bytes × Bytes)
  | [] => none
  | b :: rest =>
    if b = byte 'u' then unicodeEscape rest else (simpleEscape b).map (fun c => ([c], rest))

/-- The characters of a string up to its quote, and the rest. -/
def chars : ℕ → Bytes → Option (Bytes × Bytes)
  | 0, _ => none
  | _ + 1, [] => none
  | fuel + 1, b :: rest =>
    if b = byte '"' then some ([], rest)
    else if b = byte '\\' then do
      let (c, rest) ← escape rest
      let (cs, rest) ← chars fuel rest
      return (c ++ cs, rest)
    else if b < 0x20 then none
    else do
      let (cs, rest) ← chars fuel rest
      return (b :: cs, rest)

/-- A string, after its first quote. -/
def parseString (bs : Bytes) : Option (String × Bytes) := do
  let (cs, rest) ← chars bs.length bs
  let s ← decodeUtf8 cs
  return (s, rest)

/-! ## Numbers -/

def isDigit (b : UInt8) : Bool := byte '0' ≤ b ∧ b ≤ byte '9'

/-- The number with the given digits. -/
def ofDigits (ds : Bytes) : ℕ := ds.foldl (fun n d => 10 * n + (d.toNat - 48)) 0

/-- One or more digits. -/
def digits (bs : Bytes) : Option (Bytes × Bytes) := do
  let r := bs.span isDigit
  guard (r.1 ≠ [])
  return r

/-- A minus sign, if there is one. -/
def sign : Bytes → ℚ × Bytes
  | [] => (1, [])
  | b :: rest => if b = byte '-' then (-1, rest) else (1, b :: rest)

/-- The integer part, without leading zeros. -/
def intPart (bs : Bytes) : Option (ℕ × Bytes) := do
  let (ds, rest) ← digits bs
  guard (ds.head? ≠ some (byte '0') ∨ ds.length = 1)
  return (ofDigits ds, rest)

/-- The fraction, if there is one. -/
def fraction : Bytes → Option (ℚ × Bytes)
  | [] => some (0, [])
  | b :: rest =>
    if b = byte '.' then do
      let (ds, rest) ← digits rest
      return ((ofDigits ds : ℚ) / 10 ^ ds.length, rest)
    else some (0, b :: rest)

/-- The sign of an exponent: whether it is a minus. -/
def exponentSign : Bytes → Bool × Bytes
  | [] => (false, [])
  | b :: rest =>
    if b = byte '-' then (true, rest)
    else if b = byte '+' then (false, rest)
    else (false, b :: rest)

/-- The power of ten of the exponent, if there is one. -/
def exponent : Bytes → Option (ℚ × Bytes)
  | [] => some (1, [])
  | b :: rest =>
    if b = byte 'e' ∨ b = byte 'E' then do
      let (negative, rest) := exponentSign rest
      let (ds, rest) ← digits rest
      return (if negative then 1 / 10 ^ ofDigits ds else 10 ^ ofDigits ds, rest)
    else some (1, b :: rest)

def parseNumber (bs : Bytes) : Option (ℚ × Bytes) := do
  let (s, rest) := sign bs
  let (n, rest) ← intPart rest
  let (f, rest) ← fraction rest
  let (e, rest) ← exponent rest
  return (s * (n + f) * e, rest)

/-! ## Values -/

def isSpace (b : UInt8) : Bool := b = 0x20 ∨ b = 0x09 ∨ b = 0x0A ∨ b = 0x0D

def skipSpace (bs : Bytes) : Bytes := bs.dropWhile isSpace

/-- A given word. -/
def keyword (word : String) (v : Json) (bs : Bytes) : Option (Json × Bytes) :=
  if (utf8 word).isPrefixOf bs then some (v, bs.drop (utf8 word).length) else none

/-- After an item of a list: whether there is another one, and the rest. -/
def separator (close : UInt8) (bs : Bytes) : Option (Bool × Bytes) :=
  match skipSpace bs with
  | [] => none
  | b :: rest =>
    if b = byte ',' then some (true, skipSpace rest)
    else if b = close then some (false, rest)
    else none

/-- The colon after a name. -/
def colon (bs : Bytes) : Option Bytes :=
  match skipSpace bs with
  | [] => none
  | b :: rest => if b = byte ':' then some (skipSpace rest) else none

/-- The name of a member and the colon. -/
def memberName : Bytes → Option (String × Bytes)
  | [] => none
  | b :: rest => do
    guard (b = byte '"')
    let (name, rest) ← parseString rest
    let rest ← colon rest
    return (name, rest)

/-- One or more items with commas between them, and the byte after them. -/
def listOf {α : Type} (item : Bytes → Option (α × Bytes)) (close : UInt8) :
    ℕ → Bytes → Option (List α × Bytes)
  | 0, _ => none
  | fuel + 1, bs => do
    let (x, rest) ← item bs
    let (more, rest) ← separator close rest
    if more then do
      let (xs, rest) ← listOf item close fuel rest
      return (x :: xs, rest)
    else return ([x], rest)

/-- A member of an object. -/
def member (value : Bytes → Option (Json × Bytes)) (bs : Bytes) :
    Option ((String × Json) × Bytes) := do
  let (name, rest) ← memberName bs
  let (v, rest) ← value rest
  return ((name, v), rest)

/-- A value without spaces before it. -/
def parseValue : ℕ → Bytes → Option (Json × Bytes)
  | 0, _ => none
  | _ + 1, [] => none
  | fuel + 1, b :: rest =>
    if b = byte '"' then (parseString rest).map (fun r => (.str r.1, r.2))
    else if b = byte '[' then
      if (skipSpace rest).head? = some (byte ']') then some (.arr [], (skipSpace rest).tail)
      else (listOf (parseValue fuel) (byte ']') fuel (skipSpace rest)).map
        (fun r => (.arr r.1, r.2))
    else if b = byte '\x7b' then
      if (skipSpace rest).head? = some (byte '\x7d') then some (.obj [], (skipSpace rest).tail)
      else (listOf (member (parseValue fuel)) (byte '\x7d') fuel (skipSpace rest)).map
        (fun r => (.obj r.1, r.2))
    else if b = byte 'n' then keyword "null" .null (b :: rest)
    else if b = byte 't' then keyword "true" (.bool true) (b :: rest)
    else if b = byte 'f' then keyword "false" (.bool false) (b :: rest)
    else (parseNumber (b :: rest)).map (fun r => (.num r.1, r.2))

/-- **The value of a JSON text.** -/
def parse (text : Bytes) : Option Json := do
  let (v, rest) ← parseValue (text.length + 1) (skipSpace text)
  guard (skipSpace rest = [])
  return v

end JsonText
