import RockOs.UnicodeForms

/-! `lib/charset.c`: conversion between UTF-8 and UTF-16. A string is the list of its
bytes or units up to, and without, the final zero, so its end is where a zero is read.
Pointers are not null. -/
namespace RockOs.Charset

/-- The replacement character `'?'`. -/
def replacement : UInt8 := '?'.toUInt8

/-! ## UTF-8 -/

/-- What is read from a stream of bytes; `error` is the exit at the label `error`. -/
structure Decoded (S : Type) where
  code : Int
  error : Bool
  rest : S
  deriving DecidableEq

section GetCode
variable {S : Type} (readU8 : S → UInt8 × S)

def Decoded.failed (data : S) : Decoded S := ⟨replacement.toNat, true, data⟩

/-- `ch < 0x80 || ch > 0xbf`. -/
def noContinuation (ch : UInt8) : Prop := ch < 0x80 ∨ 0xbf < ch

instance : Decidable (noContinuation ch) := inferInstanceAs (Decidable (_ ∨ _))

/-- From the comment `0xc0 - 0xdf or continuation byte` on. -/
def getLast (code ch : Nat) (data : S) : Decoded S :=
  let code := code + (ch &&& 0x3f) <<< 6
  let (ch, data) := readU8 data
  if noContinuation ch then .failed data else ⟨((ch.toNat &&& 0x3f) + code : Nat), false, data⟩

/-- From `code += ch << 12` on. -/
def getMiddle (code ch : Nat) (data : S) : Decoded S :=
  let code := code + ch <<< 12
  if (0xD800 ≤ code ∧ code ≤ 0xDFFF) ∨ 0x110000 ≤ code then .failed data
  else
    let (ch, data) := readU8 data
    if noContinuation ch then .failed data else getLast readU8 code ch.toNat data

def getCode (data : S) : Decoded S :=
  let (ch, data) := readU8 data
  if ch = 0 then ⟨0, false, data⟩
  else if 0xc2 ≤ ch ∧ ch ≤ 0xf4 then
    if 0xe0 ≤ ch then
      if 0xf0 ≤ ch then
        let code := (ch.toNat &&& 0x07) <<< 18
        let (ch, data) := readU8 data
        if noContinuation ch then .failed data else getMiddle readU8 code (ch.toNat &&& 0x3f) data
      else getMiddle readU8 0 (ch.toNat &&& 0x0f) data
    else getLast readU8 0 ch.toNat data
  else if 0x80 ≤ ch then .failed data
  else ⟨ch.toNat, false, data⟩

end GetCode

/-- The pointer stays where it is at the end of the string. -/
def readString : List UInt8 → UInt8 × List UInt8
  | [] => (0, [])
  | c :: src => (c, src)

def utf8Get (src : List UInt8) : Decoded (List UInt8) := getCode readString src

/-- The bytes written, or none where the result is -1. -/
def utf8Put (code : Int) : Option (List UInt8) :=
  if (0xD800 ≤ code ∧ code ≤ 0xDFFF) ∨ 0x110000 ≤ code then none
  else if code ≤ 0x007F then some [UInt8.ofNat (code % 256).toNat]
  else
    let code := code.toNat
    let last := UInt8.ofNat (code &&& 0x3F ||| 0x80)
    if code ≤ 0x07FF then some [UInt8.ofNat (code >>> 6 ||| 0xC0), last]
    else
      let middle := UInt8.ofNat (code >>> 6 &&& 0x3F ||| 0x80)
      if code < 0x10000 then some [UInt8.ofNat (code >>> 12 ||| 0xE0), middle, last]
      else some [UInt8.ofNat (code >>> 18 ||| 0xF0), UInt8.ofNat (code >>> 12 &&& 0x3F ||| 0x80), middle, last]

/-! ## UTF-16 -/

/-- The code point, or -1, and the units that follow. -/
def utf16Get : (src : List UInt16) → Int × List UInt16
  | [] => (0, [])
  | code :: src =>
    if 0xDC00 ≤ code ∧ code ≤ 0xDFFF then (-1, src)
    else if 0xD800 ≤ code ∧ code ≤ 0xDBFF then
      match src with
      | [] => (-1, [])
      | code2 :: src =>
        if code2 ≤ 0xDC00 ∨ 0xDFFF ≤ code2 then (-1, src)
        else ((((code.toNat &&& 0x3ff) <<< 10) + 0x10000 + (code2.toNat &&& 0x3ff) : Nat), src)
    else (code.toNat, src)

/-- The units written, or none where the result is -1. -/
def utf16Put (code : Int) : Option (List UInt16) :=
  if (0xD800 ≤ code ∧ code ≤ 0xDFFF) ∨ 0x110000 ≤ code then none
  else if code < 0x10000 then some [UInt16.ofNat (code % 65536).toNat]
  else
    let code := code.toNat - 0x10000
    some [UInt16.ofNat (code >>> 10 ||| 0xD800), UInt16.ofNat (code &&& 0x3ff ||| 0xDC00)]

/-! ## Lengths and copies -/

def utf8Utf16Strnlen : (count : Nat) → (src : List UInt8) → Nat
  | 0, _ => 0
  | _ + 1, [] => 0
  | count + 1, c :: src =>
    let got := utf8Get (c :: src)
    if got.code = 0 then 0
    else if got.code < 0 then utf8Utf16Strnlen count got.rest + 1
    else if got.code < 0x10000 then utf8Utf16Strnlen count got.rest + 1
    else utf8Utf16Strnlen count got.rest + 2

/-- `if (code < 0) code = '?'`. -/
def replaced (code : Int) : Int := if code < 0 then replacement.toNat else code

/-- The units in front of the terminating zero. -/
def utf8Utf16Strncpy : (count : Nat) → (src : List UInt8) → List UInt16
  | 0, _ => []
  | _ + 1, [] => []
  | count + 1, c :: src =>
    let got := utf8Get (c :: src)
    (utf16Put (replaced got.code)).getD [] ++ utf8Utf16Strncpy count got.rest

/-- The length, and the units that have not been looked at. -/
def utf16Utf8Strnlen : (count : Nat) → (src : List UInt16) → Nat × List UInt16
  | 0, src => (0, src)
  | _ + 1, [] => (0, [])
  | count + 1, c :: src =>
    let (code, src) := utf16Get (c :: src)
    if code = 0 then (0, src)
    else
      let (len, rest) := utf16Utf8Strnlen count src
      if code < 0 then (len + 1, rest)
      else if code < 0x80 then (len + 1, rest)
      else if code < 0x800 then (len + 2, rest)
      else if code < 0x10000 then (len + 3, rest)
      else (len + 4, rest)

/-- The bytes in front of the terminating NUL, and the units that have not been copied. -/
def utf16Utf8Strncpy : (count : Nat) → (src : List UInt16) → List UInt8 × List UInt16
  | 0, src => ([], src)
  | _ + 1, [] => ([], [])
  | count + 1, c :: src =>
    let (code, src) := utf16Get (c :: src)
    let (bytes, rest) := utf16Utf8Strncpy count src
    ((utf8Put (replaced code)).getD [] ++ bytes, rest)

/-! ## Bulk conversion -/

/-- The four bytes of a code point past the first plane. -/
def fourBytes (code : Nat) : List UInt8 :=
  [UInt8.ofNat (code >>> 18 ||| 0xF0), UInt8.ofNat (code >>> 12 &&& 0x3F ||| 0x80),
    UInt8.ofNat (code >>> 6 &&& 0x3F ||| 0x80), UInt8.ofNat (code &&& 0x3F ||| 0x80)]

/-- The loop, with `size` units to count, the next unit at `pos`, and `code_high`. No
result stands for a read outside of the units. -/
def bulkLoop (units : List UInt16) : (size pos codeHigh : Nat) → Option (List UInt8)
  | 0, _, _ => some []
  | size + 1, pos, codeHigh => do
    let unit ← units[pos]?
    let code := unit.toNat
    if codeHigh ≠ 0 then
      if 0xDC00 ≤ code ∧ code ≤ 0xDFFF then
        let code := (codeHigh - 0xD800) <<< 10 + (code - 0xDC00) + 0x10000
        return fourBytes code ++ (← bulkLoop units size (pos + 1) 0)
      -- `src--`, but `size` has been counted
      else return replacement :: (← bulkLoop units size pos 0)
    else if code ≤ 0x007F then return UInt8.ofNat code :: (← bulkLoop units size (pos + 1) 0)
    else if code ≤ 0x07FF then
      return UInt8.ofNat (code >>> 6 ||| 0xC0) :: UInt8.ofNat (code &&& 0x3F ||| 0x80) ::
        (← bulkLoop units size (pos + 1) 0)
    else if 0xD800 ≤ code ∧ code ≤ 0xDBFF then bulkLoop units size (pos + 1) code
    else if 0xDC00 ≤ code ∧ code ≤ 0xDFFF then return replacement :: (← bulkLoop units size (pos + 1) 0)
    else if code < 0x10000 then
      return UInt8.ofNat (code >>> 12 ||| 0xE0) :: UInt8.ofNat (code >>> 6 &&& 0x3F ||| 0x80) ::
        UInt8.ofNat (code &&& 0x3F ||| 0x80) :: (← bulkLoop units size (pos + 1) 0)
    else return fourBytes code ++ (← bulkLoop units size (pos + 1) 0)

def utf16ToUtf8 (units : List UInt16) : Option (List UInt8) := bulkLoop units units.length 0 0

end RockOs.Charset
