import Mathlib.Data.Nat.Basic

/-! `lib/ctype.c` and `linux/ctype.h`: the classes of the 256 characters, read off
the table `_ctype`. -/
namespace RockOs.Ctype

/-- A string constant of the source, without its NUL. -/
def ascii (text : List Char) : List UInt8 := text.map Char.toUInt8

def isUpper (c : UInt8) : Bool := (65 ≤ c && c ≤ 90) || (192 ≤ c && c ≤ 222 && c != 215)

def isLower (c : UInt8) : Bool := (97 ≤ c && c ≤ 122) || (223 ≤ c && c != 247)

def isDigit (c : UInt8) : Bool := 48 ≤ c && c ≤ 57

def isXdigit (c : UInt8) : Bool := isDigit c || (65 ≤ c && c ≤ 70) || (97 ≤ c && c ≤ 102)

def isAlnum (c : UInt8) : Bool := isUpper c || isLower c || isDigit c

def isPrint (c : UInt8) : Bool := (32 ≤ c && c ≤ 126) || 160 ≤ c

def toLower (c : UInt8) : UInt8 := if isUpper c then c + 32 else c

def toUpper (c : UInt8) : UInt8 := if isLower c then c - 32 else c

end RockOs.Ctype
