import Mathlib.Data.Nat.Bitwise
import RockOs.Ctype

/-! `lib/strto.c`: integers read from text. A string is the list of its bytes up
to, and without, the final NUL; `*endp` is what is left of it. -/
namespace RockOs.Strto
open Ctype

/-- The base, detected where it is given as 0, and the text after a `0x`. -/
def parseIntegerFixupRadix (s : List UInt8) (base : Nat) : List UInt8 × Nat :=
  let base :=
    if base = 0 then
      if s.getD 0 0 = '0'.toUInt8 then
        if toLower (s.getD 1 0) = 'x'.toUInt8 ∧ isXdigit (s.getD 2 0) then 16 else 8
      else 10
    else base
  if base = 16 ∧ s.getD 0 0 = '0'.toUInt8 ∧ toLower (s.getD 1 0) = 'x'.toUInt8 then (s.drop 2, base)
  else (s, base)

/-- The `value` of a hexadecimal digit. -/
def digitValue (c : UInt8) : Nat :=
  if isDigit c then c.toNat - 48 else (if isLower c then toUpper c else c).toNat - 65 + 10

/-- The loop of `simple_strtoul` and of `simple_strtoull`: both types have 64 bits. -/
def strtoLoop (base : Nat) : (cp : List UInt8) → (result : Nat) → Nat × List UInt8
  | [], result => (result, [])
  | c :: cp, result =>
    if isXdigit c ∧ digitValue c < base then strtoLoop base cp ((result * base + digitValue c) % 2 ^ 64)
    else (result, c :: cp)

def simpleStrtoul (cp : List UInt8) (base : Nat) : Nat × List UInt8 :=
  let (cp, base) := parseIntegerFixupRadix cp base
  strtoLoop base cp 0

def simpleStrtoull (cp : List UInt8) (base : Nat) : Nat × List UInt8 :=
  let (cp, base) := parseIntegerFixupRadix cp base
  strtoLoop base cp 0

/-- The minus sign negates an `unsigned long`, which is then read as a `long`. -/
def simpleStrtol (cp : List UInt8) (base : Nat) : Int × List UInt8 :=
  if cp.getD 0 0 = '-'.toUInt8 then
    let (result, rest) := simpleStrtoul (cp.drop 1) base
    ((-(result : Int)).bmod (2 ^ 64), rest)
  else
    let (result, rest) := simpleStrtoul cp base
    ((result : Int).bmod (2 ^ 64), rest)

/-- `EINVAL`. -/
def einval : Int := 22

/-- `strict_strtoul`: its value and `*res`. -/
def strictStrtoul (cp : List UInt8) (base : Nat) : Int × Nat :=
  let len := cp.length
  if len = 0 then (-einval, 0)
  else
    let (val, tail) := simpleStrtoul cp base
    let taken := len - tail.length
    if taken = 0 then (-einval, 0)
    else if tail.getD 0 0 = 0 ∨ len = taken + 1 ∧ tail.getD 0 0 = '\n'.toUInt8 then (0, val)
    else (-einval, 0)

/-- The loop of `trailing_strtoln`, which stops before the first character. -/
def trailingLoop (str : List UInt8) : (p : Nat) → Int
  | 0 => -1
  | p + 1 =>
    if !isDigit (str.getD (p + 1) 0) then ((simpleStrtoul (str.drop (p + 2)) 10).1 : Int).bmod (2 ^ 64)
    else trailingLoop str p

/-- `trailing_strtoln`; `fin` is `end`, null or a place in the string. There is no
result where it would read in front of the string. -/
def trailingStrtoln (str : List UInt8) (fin : Option Nat) : Option Int :=
  let fin := fin.getD str.length
  if fin = 0 then none
  else some (if isDigit (str.getD (fin - 1) 0) then trailingLoop str (fin - 1) else -1)

end RockOs.Strto
