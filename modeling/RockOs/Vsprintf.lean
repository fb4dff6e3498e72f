import RockOs.BoundedText
import RockOs.Ctype

/-! `lib/vsprintf.c`: the interpreter of format strings, from `put_dec` to
`vscnprintf`. Every character goes out through `ADDCH`, here `BoundedText.addch`.

A format string is the list of its bytes up to, and without, the final NUL. Local
arrays (`tmp`, `mac_addr`, …) are lists. Loops that count an `int` down are
written with the number of turns they make; only their first decrement can wrap. -/
namespace RockOs.Vsprintf
open ByteMemory BoundedText Ctype

/-- The value of a C `int` expression whose exact value is `value`. -/
def int32 (value : Int) : Int := value.bmod (2 ^ 32)

/-- The bits `ZEROPAD`, `SIGN`, … of `flags`. -/
structure Flags where
  zeropad : Bool := false
  sign : Bool := false
  plus : Bool := false
  space : Bool := false
  left : Bool := false
  small : Bool := false
  special : Bool := false
  deriving DecidableEq, Repr

/-- `d + '0'`. -/
def digitChar (d : Nat) : UInt8 := UInt8.ofNat (d + 48)

/-- The digits of `q`, least significant first. -/
def putDecTrunc (q : Nat) : List UInt8 :=
  let d1 := (q >>> 4) &&& 0xf
  let d2 := (q >>> 8) &&& 0xf
  let d3 := q >>> 12
  let d0 := 6 * (d3 + d2 + d1) + (q &&& 0xf)
  let q := (d0 * 0xcd) >>> 11
  let d0 := d0 - 10 * q
  let d1 := q + 9 * d3 + 5 * d2 + d1
  digitChar d0 :: if d1 ≠ 0 then
    let q := (d1 * 0xcd) >>> 11
    let d1 := d1 - 10 * q
    let d2 := q + 2 * d2
    digitChar d1 :: if d2 ≠ 0 ∨ d3 ≠ 0 then
      let q := (d2 * 0xd) >>> 7
      let d2 := d2 - 10 * q
      let d3 := q + 4 * d3
      digitChar d2 :: if d3 ≠ 0 then
        let q := (d3 * 0xcd) >>> 11
        let d3 := d3 - 10 * q
        digitChar d3 :: if q ≠ 0 then [digitChar q] else []
      else []
    else []
  else []

def putDecFull (q : Nat) : List UInt8 :=
  let d1 := (q >>> 4) &&& 0xf
  let d2 := (q >>> 8) &&& 0xf
  let d3 := q >>> 12
  let d0 := 6 * (d3 + d2 + d1) + (q &&& 0xf)
  let q0 := (d0 * 0xcd) >>> 11
  let d1 := q0 + 9 * d3 + 5 * d2 + d1
  let q1 := (d1 * 0xcd) >>> 11
  let d2 := q1 + 2 * d2
  let q2 := (d2 * 0xd) >>> 7
  let d3 := q2 + 4 * d3
  let q3 := (d3 * 0xcd) >>> 11
  [digitChar (d0 - 10 * q0), digitChar (d1 - 10 * q1), digitChar (d2 - 10 * q2), digitChar (d3 - 10 * q3),
    digitChar q3]

/-- The loop of `put_dec`; four turns are enough for 64 bits. -/
def putDecLoop : (turns num : Nat) → List UInt8
  | 0, num => putDecTrunc num
  | turns + 1, num =>
    if num < 100000 then putDecTrunc num
    else putDecFull (num % 100000) ++ putDecLoop turns (num / 100000)

def putDec (num : Nat) : List UInt8 := putDecLoop 4 num

/-- `digits[d]` of `number`. -/
def upperDigit (d : Nat) : UInt8 := if d < 10 then UInt8.ofNat (d + 48) else UInt8.ofNat (d + 55)

/-- The loop that fills `tmp` for base 8 or 16; 22 turns are enough for 64 bits. -/
def maskLoop (mask shift : Nat) (locase : UInt8) : (turns num : Nat) → List UInt8
  | 0, _ => []
  | turns + 1, num =>
    let digit := upperDigit ((num % 256) &&& mask) ||| locase
    if num >>> shift = 0 then [digit] else digit :: maskLoop mask shift locase turns (num >>> shift)

/-- The contents of `tmp` in `number`. -/
def numberDigits (num base : Nat) (locase : UInt8) : List UInt8 :=
  if num = 0 then ['0'.toUInt8]
  else if base ≠ 10 then maskLoop (base - 1) (if base = 16 then 4 else 3) locase 22 num
  else putDec num

/-- `while (--size >= 0) ADDCH(buf, ch)`. -/
def padDown (fin : Nat) (ch : UInt8) (size : Int) (out : Out) : Int × Out :=
  let size := int32 (size - 1)
  if 0 ≤ size then (-1, pad fin ch (size.toNat + 1) out) else (size, out)

/-- The local `sign` of `number`, `0` for none. -/
def numberSign (num : Nat) (type : Flags) : UInt8 :=
  if type.sign then
    if 2 ^ 63 ≤ num then '-'.toUInt8 else if type.plus then '+'.toUInt8 else if type.space then ' '.toUInt8 else 0
  else 0

/-- What `number` prints the digits of. -/
def magnitude (num : Nat) (type : Flags) : Nat :=
  if type.sign ∧ 2 ^ 63 ≤ num then 2 ^ 64 - num else num

/-- `size` of `number` after the sign, the prefix and the digits are taken off. -/
def numberRoom (num base : Nat) (size precision : Int) (type : Flags) : Int :=
  let size := if numberSign num type ≠ 0 then int32 (size - 1) else size
  let size :=
    if type.special ∧ base ≠ 10 then
      if base = 16 then int32 (int32 (size - 1) - 1) else int32 (size - 1)
    else size
  int32 (size - precision)

def number (fin num base : Nat) (size precision : Int) (type : Flags) (out : Out) : Out :=
  let locase : UInt8 := if type.small then 0x20 else 0
  let type := if type.left then { type with zeropad := false } else type
  let sign := numberSign num type
  let tmp := numberDigits (magnitude num type) base locase
  let precision := if precision < tmp.length then (tmp.length : Int) else precision
  let size := numberRoom num base size precision type
  -- leading space padding
  let (size, out) := if !type.zeropad && !type.left then padDown fin ' '.toUInt8 size out else (size, out)
  let out := if sign ≠ 0 then addch fin sign out else out
  let out :=
    if type.special ∧ base ≠ 10 then
      let out := addch fin '0'.toUInt8 out
      if base = 16 then addch fin ('X'.toUInt8 ||| locase) out else out
    else out
  -- zero or space padding
  let (size, out) :=
    if !type.left then padDown fin (if type.zeropad then '0'.toUInt8 else ' '.toUInt8) size out else (size, out)
  let out := pad fin '0'.toUInt8 (precision - tmp.length).toNat out
  let out := addchs fin tmp.reverse out
  -- trailing space padding
  (padDown fin ' '.toUInt8 size out).2

/-- `"<NULL>"`. -/
def nullText : List UInt8 := ascii ['<', 'N', 'U', 'L', 'L', '>']

def strnlen (s : List UInt8) (count : Nat) : Nat := ((s.take count).takeWhile (· ≠ 0)).length

/-- `while (len < field_width--) ADDCH(buf, ' ')`. -/
def padUnder (fin : Nat) (len fieldWidth : Int) (out : Out) : Int × Out :=
  if len < fieldWidth then (int32 (len - 1), pad fin ' '.toUInt8 (fieldWidth - len).toNat out)
  else (int32 (fieldWidth - 1), out)

/-- A null pointer is `none`; any other is the bytes it points to, then NUL. -/
def string (fin : Nat) (s : Option (List UInt8)) (fieldWidth precision : Int) (flags : Flags) (out : Out) :
    Out :=
  let s := s.getD nullText
  let len := int32 (strnlen s (precision % 2 ^ 64).toNat)
  let (fieldWidth, out) := if !flags.left then padUnder fin len fieldWidth out else (fieldWidth, out)
  let out := addchs fin (s.take len.toNat) out
  (padUnder fin len fieldWidth out).2

/-- `hex_asc[d]`. -/
def hexAsc (d : UInt8) : UInt8 := if d < 10 then d + 48 else d + 87

def hexBytePack (byte : UInt8) : List UInt8 := [hexAsc (byte >>> 4), hexAsc (byte &&& 0xf)]

/-- The local `mac_addr`. -/
def macAddr (addr : List UInt8) (flags : Flags) : List UInt8 :=
  List.intercalate (if flags.special then [] else [':'.toUInt8]) ((addr.take 6).map hexBytePack)

/-- The local `ip6_addr`. -/
def ip6Addr (addr : List UInt8) (flags : Flags) : List UInt8 :=
  List.intercalate (if flags.special then [] else [':'.toUInt8])
    ((List.range 8).map fun i => hexBytePack (addr.getD (2 * i) 0) ++ hexBytePack (addr.getD (2 * i + 1) 0))

/-- The local `ip4_addr`. -/
def ip4Addr (addr : List UInt8) : List UInt8 :=
  List.intercalate ['.'.toUInt8] ((addr.take 4).map fun quad => (putDecTrunc quad.toNat).reverse)

def macAddressString (fin : Nat) (addr : List UInt8) (fieldWidth precision : Int) (flags : Flags)
    (out : Out) : Out :=
  string fin (some (macAddr addr flags)) fieldWidth precision { flags with special := false } out

def ip6AddrString (fin : Nat) (addr : List UInt8) (fieldWidth precision : Int) (flags : Flags)
    (out : Out) : Out :=
  string fin (some (ip6Addr addr flags)) fieldWidth precision { flags with special := false } out

def ip4AddrString (fin : Nat) (addr : List UInt8) (fieldWidth precision : Int) (flags : Flags)
    (out : Out) : Out :=
  string fin (some (ip4Addr addr)) fieldWidth precision { flags with special := false } out

/-- The end of `pointer`: the number itself. -/
def pointerNumber (fin num : Nat) (fieldWidth precision : Int) (flags : Flags) (out : Out) : Out :=
  let flags := { flags with small := true }
  if fieldWidth = -1 then number fin num 16 16 precision { flags with zeropad := true } out
  else number fin num 16 fieldWidth precision flags out

/-- What `pointer` does with the characters after `%p`: the pointer as a number,
or one of the kinds of address it points to. -/
inductive Pointed where
  | number
  | physical
  | mac (special : Bool)
  | ip6 (special : Bool)
  | ip4 (special : Bool)
  | plain
  deriving DecidableEq, Repr

/-- The `switch` of `pointer`. -/
def pointed (fmt : List UInt8) : Pointed :=
  let c := fmt.getD 0 0
  let d := fmt.getD 1 0
  if c = 'a'.toUInt8 then .physical
  else if c = 'm'.toUInt8 then .mac true
  else if c = 'M'.toUInt8 then .mac false
  else if c = 'i'.toUInt8 then if d = '6'.toUInt8 then .ip6 true else if d = '4'.toUInt8 then .ip4 true else .plain
  else if c = 'I'.toUInt8 then if d = '6'.toUInt8 then .ip6 false else if d = '4'.toUInt8 then .ip4 false else .plain
  else .number

/-- Bytes of the object a `%p` argument points to that its suffix reads. -/
def Pointed.size : Pointed → Nat
  | .number => 0
  | .physical => 8
  | .mac _ => 6
  | .ip6 _ => 16
  | .ip4 _ => 4
  | .plain => 0

/-- The value of the bytes at a pointer, least significant first. -/
def loadBytes : List UInt8 → Nat
  | [] => 0
  | byte :: bytes => byte.toNat + 256 * loadBytes bytes

/-- A pointer to `target`; fails where the suffix reads past it. -/
def pointer (fin : Nat) (fmt : List UInt8) (ptr : Nat) (target : List UInt8) (fieldWidth precision : Int)
    (flags : Flags) (out : Out) : Option Out :=
  if target.length < (pointed fmt).size then none
  else match pointed fmt with
    | .number => some (pointerNumber fin ptr fieldWidth precision flags out)
    | .physical =>
      some (pointerNumber fin (loadBytes (target.take 8)) 18 precision
        { flags with special := true, zeropad := true } out)
    | .mac special =>
      some (macAddressString fin target fieldWidth precision
        { flags with special := special || flags.special } out)
    | .ip6 special =>
      some (ip6AddrString fin target fieldWidth precision
        { flags with special := special || flags.special } out)
    | .ip4 special =>
      some (ip4AddrString fin target fieldWidth precision
        { flags with special := special || flags.special } out)
    | .plain => some (pointerNumber fin ptr fieldWidth precision { flags with special := false } out)

/-- One argument of a `va_list`: an integer in a 64 bit slot, a string, or a
pointer with the object behind it. Objects are apart from the buffer printed to. -/
inductive Arg where
  | num (bits : Nat)
  | str (s : Option (List UInt8))
  | ptr (address : Nat) (target : List UInt8)
  deriving DecidableEq, Repr

/-- `va_arg(args, int)`. -/
def vaInt : List Arg → Option (Int × List Arg)
  | .num bits :: args => some (int32 bits, args)
  | _ => none

/-- Sign extension of the low `width` bits to 64. -/
def signExtend (width bits : Nat) : Nat :=
  if bits % 2 ^ width < 2 ^ (width - 1) then bits % 2 ^ width
  else bits % 2 ^ width + (2 ^ 64 - 2 ^ width)

/-- The size an integer conversion is qualified with; `size` is `Z` or `z`. -/
inductive Qualifier where
  | none
  | h
  | l
  | L
  | size
  | t
  deriving DecidableEq, Repr

/-- The argument of an integer conversion, by its qualifier. -/
def vaNum (qualifier : Qualifier) (flags : Flags) : List Arg → Option (Nat × List Arg)
  | .num bits :: args =>
    match qualifier with
    | .L | .l | .size | .t => some (bits % 2 ^ 64, args)
    | .h => some (if flags.sign then signExtend 16 bits else bits % 2 ^ 16, args)
    | .none => some (if flags.sign then signExtend 32 bits else bits % 2 ^ 32, args)
  | _ => Option.none

/-- The flags after `%`, from the label `repeat`. -/
def getFlags : (fmt : List UInt8) → Flags → Flags × List UInt8
  | [], flags => (flags, [])
  | c :: fmt, flags =>
    if c = '-'.toUInt8 then getFlags fmt { flags with left := true }
    else if c = '+'.toUInt8 then getFlags fmt { flags with plus := true }
    else if c = ' '.toUInt8 then getFlags fmt { flags with space := true }
    else if c = '#'.toUInt8 then getFlags fmt { flags with special := true }
    else if c = '0'.toUInt8 then getFlags fmt { flags with zeropad := true }
    else (flags, c :: fmt)

def skipAtoi : (s : List UInt8) → Int → Int × List UInt8
  | [], i => (i, [])
  | c :: s, i => if isDigit c then skipAtoi s (int32 (i * 10 + c.toNat - 48)) else (i, c :: s)

def getWidth (flags : Flags) (fmt : List UInt8) (args : List Arg) :
    Option (Flags × Int × List UInt8 × List Arg) :=
  if isDigit (fmt.headD 0) then
    some (flags, (skipAtoi fmt 0).1, (skipAtoi fmt 0).2, args)
  else if fmt.headD 0 = '*'.toUInt8 then do
    let (fieldWidth, args) ← vaInt args
    if fieldWidth < 0 then return ({ flags with left := true }, int32 (-fieldWidth), fmt.tail, args)
    else return (flags, fieldWidth, fmt.tail, args)
  else some (flags, -1, fmt, args)

def getPrecision (fmt : List UInt8) (args : List Arg) : Option (Int × List UInt8 × List Arg) :=
  if fmt.headD 0 = '.'.toUInt8 then
    let fmt := fmt.tail
    if isDigit (fmt.headD 0) then some (max (skipAtoi fmt 0).1 0, (skipAtoi fmt 0).2, args)
    else if fmt.headD 0 = '*'.toUInt8 then do
      let (precision, args) ← vaInt args
      return (max precision 0, fmt.tail, args)
    else some (0, fmt, args)
  else some (-1, fmt, args)

/-- The conversion qualifier; `ll` counts as `L`. -/
def getQualifier (fmt : List UInt8) : Qualifier × List UInt8 :=
  let c := fmt.headD 0
  if c = 'h'.toUInt8 then (.h, fmt.tail)
  else if c = 'l'.toUInt8 then
    if fmt.tail.headD 0 = 'l'.toUInt8 then (.L, fmt.tail.tail) else (.l, fmt.tail)
  else if c = 'L'.toUInt8 then (.L, fmt.tail)
  else if c = 'Z'.toUInt8 ∨ c = 'z'.toUInt8 then (.size, fmt.tail)
  else if c = 't'.toUInt8 then (.t, fmt.tail)
  else (.none, fmt)

/-- What one conversion puts out, with the arguments it has fetched. -/
inductive Piece where
  | chr (ch : UInt8) (fieldWidth : Int) (flags : Flags)
  | str (s : Option (List UInt8)) (fieldWidth precision : Int) (flags : Flags)
  | ptr (fmt : List UInt8) (address : Nat) (target : List UInt8) (fieldWidth precision : Int) (flags : Flags)
  /-- `%n`: the characters so far are stored at `ip`, a `long` or an `int` -/
  | count (ip : Nat) (long : Bool)
  /-- `%%`, and a conversion the interpreter does not know -/
  | raw (text : List UInt8)
  | num (value base : Nat) (fieldWidth precision : Int) (flags : Flags)
  deriving DecidableEq, Repr

/-- An integer conversion. -/
def getNum (qualifier : Qualifier) (base : Nat) (flags : Flags) (fieldWidth precision : Int) (fmt : List UInt8)
    (args : List Arg) : Option (Piece × List UInt8 × List Arg) := do
  let (num, args) ← vaNum qualifier flags args
  return (.num num base fieldWidth precision flags, fmt, args)

/-- The `switch` on the conversion; with it comes what follows in the format. -/
def conversion (flags : Flags) (fieldWidth precision : Int) (qualifier : Qualifier) (fmt : List UInt8)
    (args : List Arg) : Option (Piece × List UInt8 × List Arg) :=
  match fmt with
  | [] => some (.raw ['%'.toUInt8], [], args)
  | c :: fmt =>
    if c = 'c'.toUInt8 then do
      let (ch, args) ← vaInt args
      return (.chr (UInt8.ofNat (ch % 256).toNat) fieldWidth flags, fmt, args)
    else if c = 's'.toUInt8 then
      match args with
      | .str s :: args => some (.str s fieldWidth precision flags, fmt, args)
      | _ => none
    else if c = 'p'.toUInt8 then
      match args with
      | .ptr ptr target :: args =>
        some (.ptr fmt ptr target fieldWidth precision flags, fmt.dropWhile isAlnum, args)
      | _ => none
    else if c = 'n'.toUInt8 then
      match args with
      | .ptr ip _ :: args => some (.count ip (qualifier = .l), fmt, args)
      | _ => none
    else if c = '%'.toUInt8 then some (.raw ['%'.toUInt8], fmt, args)
    else if c = 'o'.toUInt8 then getNum qualifier 8 flags fieldWidth precision fmt args
    else if c = 'x'.toUInt8 then getNum qualifier 16 { flags with small := true } fieldWidth precision fmt args
    else if c = 'X'.toUInt8 then getNum qualifier 16 flags fieldWidth precision fmt args
    else if c = 'd'.toUInt8 ∨ c = 'i'.toUInt8 then
      getNum qualifier 10 { flags with sign := true } fieldWidth precision fmt args
    else if c = 'u'.toUInt8 then getNum qualifier 10 flags fieldWidth precision fmt args
    else if c = 0 then some (.raw ['%'.toUInt8], c :: fmt, args)
    else some (.raw ['%'.toUInt8, c], fmt, args)

/-- Everything between a `%` and the output of its conversion. Fails where an
argument is missing or of another kind. -/
def directive (fmt : List UInt8) (args : List Arg) : Option (Piece × List UInt8 × List Arg) := do
  let (flags, fmt) := getFlags fmt {}
  let (flags, fieldWidth, fmt, args) ← getWidth flags fmt args
  let (precision, fmt, args) ← getPrecision fmt args
  let (qualifier, fmt) := getQualifier fmt
  conversion flags fieldWidth precision qualifier fmt args

/-- `while (--field_width > 0) ADDCH(str, ' ')`. -/
def padAbove (fin : Nat) (fieldWidth : Int) (out : Out) : Int × Out :=
  let fieldWidth := int32 (fieldWidth - 1)
  if 0 < fieldWidth then (0, pad fin ' '.toUInt8 fieldWidth.toNat out) else (fieldWidth, out)

def Piece.emit (fin : Nat) (piece : Piece) (out : Out) : Option Out :=
  match piece with
  | .chr ch fieldWidth flags =>
    let (fieldWidth, out) := if !flags.left then padAbove fin fieldWidth out else (fieldWidth, out)
    some (padAbove fin fieldWidth (addch fin ch out)).2
  | .str s fieldWidth precision flags => some (string fin s fieldWidth precision flags out)
  | .ptr fmt address target fieldWidth precision flags =>
    pointer fin fmt address target fieldWidth precision flags out
  | .count _ _ => some out
  | .raw text => some (addchs fin text out)
  | .num value base fieldWidth precision flags => some (number fin value base fieldWidth precision flags out)

/-- `IS_ERR(str)` after `pointer`. -/
def Piece.stops (piece : Piece) (out : Out) : Bool :=
  match piece with
  | .ptr _ _ _ _ _ _ => 2 ^ 64 - 4095 ≤ out.str
  | _ => false

/-- What `%n` stores and where. -/
def Piece.stores (piece : Piece) (buf : Nat) (out : Out) : List (Nat × Int) :=
  match piece with
  | .count ip true => [(ip, ((out.str : Int) - buf).bmod (2 ^ 64))]
  | .count ip false => [(ip, int32 ((out.str : Int) - buf))]
  | _ => []

/-- How the loop of `vsnprintf_internal` ends: at the end of the format, or with
the early return of an error. The stores of `%n` come with it. -/
structure Ended where
  error : Option Int
  out : Out
  stores : List (Nat × Int)

/-- The loop of `vsnprintf_internal`. Each turn takes a character off the format,
so its length bounds the turns. -/
def vsnprintfLoop (buf fin : Nat) :
    (turns : Nat) → (fmt : List UInt8) → (args : List Arg) → Out → List (Nat × Int) → Option Ended
  | 0, _, _, _, _ => none
  | _ + 1, [], _, out, stores => some ⟨none, out, stores⟩
  | turns + 1, c :: fmt, args, out, stores =>
    if c = 0 then some ⟨none, out, stores⟩
    else if c ≠ '%'.toUInt8 then vsnprintfLoop buf fin turns fmt args (addch fin c out) stores
    else do
      let (piece, fmt, args) ← directive fmt args
      let stores := stores ++ piece.stores buf out
      let out ← piece.emit fin out
      if piece.stops out then return ⟨some (int32 out.str), out, stores⟩
      else vsnprintfLoop buf fin turns fmt args out stores

/-- What a call returns and leaves. -/
structure Printed where
  value : Int
  mem : Mem
  stores : List (Nat × Int)

def vsnprintfInternal (mem : Mem) (buf size : Nat) (fmt : List UInt8) (args : List Arg) : Option Printed := do
  let fin := (buf + size) % 2 ^ 64
  -- make sure `end` is not below `buf`
  let (fin, size) := if fin < buf then (2 ^ 64 - 1, 2 ^ 64 - 1 - buf) else (fin, size)
  let ended ← vsnprintfLoop buf fin (fmt.length + 1) fmt args ⟨mem, buf⟩ []
  match ended.error with
  | some error => return ⟨error, ended.out.mem, ended.stores⟩
  | none =>
    if 0 < size then
      let out := addch fin 0 ended.out
      let mem := if fin < out.str then Function.update out.mem (fin - 1) 0 else out.mem
      return ⟨int32 ((out.str : Int) - 1 - buf), mem, ended.stores⟩
    else return ⟨int32 ((ended.out.str : Int) - buf), ended.out.mem, ended.stores⟩

def vsnprintf (mem : Mem) (buf size : Nat) (fmt : List UInt8) (args : List Arg) : Option Printed :=
  vsnprintfInternal mem buf size fmt args

def vscnprintf (mem : Mem) (buf size : Nat) (fmt : List UInt8) (args : List Arg) : Option Printed := do
  let printed ← vsnprintf mem buf size fmt args
  if (printed.value % 2 ^ 64).toNat < size then return printed
  else if size ≠ 0 then return { printed with value := int32 ((size : Int) - 1) }
  else return { printed with value := 0 }

end RockOs.Vsprintf
