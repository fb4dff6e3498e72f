import Mathlib.Data.Nat.Bitwise
import RockOs.Machine

/-! `arch/arm64/kernel/cache_v8.c`: building and changing the translation
tables with a 4 KiB granule. Memory is the 64 bit descriptors at their byte
addresses; `memMap` is the region list of the board, which ends at the first
entry whose size and attributes are both zero. Cache maintenance and the switch
of the table base register change no table; they are in `LiveTables`. -/
namespace RockOs.PageTables
open Machine

/-- `struct mm_region`. -/
structure MmRegion where
  virt : Nat
  phys : Nat
  size : Nat
  attrs : BitVec 64

/-- Memory and the fields of `gd->arch`. -/
structure Mmu where
  mem : Nat → BitVec 64
  tlbAddr : Nat
  tlbSize : Nat
  tlbFillptr : Nat
  tlbEmerg : Nat

/-- The panics of `cache_v8.c`, one for each message. -/
inductive Panic where
  /-- "Insufficient RAM for page table: ..." -/
  | insufficientRam
  /-- "PTE %p (%llx) is not a block. ..." -/
  | notABlock
  /-- "pte not found" -/
  | pteNotFound
  /-- "PTE %p (%llx) for addr=%llx should be a table" -/
  | shouldBeTable
  /-- "Page table pointer not setup." -/
  | pointerNotSetup
  /-- "Emergency page table not setup." -/
  | emergencyNotSetup
  deriving DecidableEq, Repr

abbrev Pt := Code Mmu Panic

/-- `*pte = value`. -/
def Mmu.set (s : Mmu) (pte : Nat) (value : BitVec 64) : Mmu := { s with mem := Function.update s.mem pte value }

/-! ## Descriptors -/

def pteTypeMask : BitVec 64 := 3#64

def pteTypeFault : BitVec 64 := 0#64

def pteTypeTable : BitVec 64 := 3#64

def pteTypePage : BitVec 64 := 3#64

def pteTypeBlock : BitVec 64 := 1#64

def pteTypeValid : BitVec 64 := 1#64

def pteBlockAf : BitVec 64 := 0x400#64

def pteBlockPxn : BitVec 64 := 0x20000000000000#64

def pteBlockUxn : BitVec 64 := 0x40000000000000#64

def pmdAttrindxMask : BitVec 64 := 0x1c#64

def pmdAttrmask : BitVec 64 := pteBlockPxn ||| pteBlockUxn ||| pmdAttrindxMask ||| pteTypeValid

/-- The address of the table a table descriptor leads to. -/
def nextTable (d : BitVec 64) : Nat := (d &&& 0x0000fffffffff000#64).toNat

def pteType (d : BitVec 64) : BitVec 64 := d &&& pteTypeMask

/-! ## Address space -/

/-- The entries of `mem_map` that its loops visit. -/
def regions (memMap : List MmRegion) : List MmRegion :=
  memMap.takeWhile (fun map => map.size ≠ 0 ∨ map.attrs ≠ 0)

/-- `map->virt + map->size` in 64 bits. -/
def MmRegion.endAddr (map : MmRegion) : Nat := (map.virt + map.size) % 2 ^ 64

/-- What `get_tcr` returns: the register value and, through its pointers, the
address sizes. -/
structure Tcr where
  tcr : BitVec 64
  ips : Nat
  vaBits : Nat

/-- The largest address to support. -/
def maxAddr (memMap : List MmRegion) : Nat :=
  (regions memMap).foldl (fun largest map => max largest map.endAddr) 0

/-- `ips` and `va_bits`. -/
def addrSizes (largest : Nat) : Nat × Nat :=
  if 2 ^ 44 < largest then (5, 48)
  else if 2 ^ 42 < largest then (4, 44)
  else if 2 ^ 40 < largest then (3, 42)
  else if 2 ^ 36 < largest then (2, 40)
  else if 2 ^ 32 < largest then (1, 36)
  else (0, 32)

/-- `get_tcr`. The reserved bits are written `1 << 31` in `int` and so reach
the 64 bit register sign extended. -/
def getTcr (memMap : List MmRegion) (el : Int) : Tcr :=
  let (ips, vaBits) := addrSizes (maxAddr memMap)
  let reserved : BitVec 64 :=
    if el = 1 then 0xffffffff80000000#64 ||| (BitVec.ofNat 64 ips <<< 32) ||| (1#64 <<< 23)
    else if el = 2 then 0xffffffff80800000#64 ||| (BitVec.ofNat 64 ips <<< 16)
    else 0xffffffff80800000#64 ||| (BitVec.ofNat 64 ips <<< 16)
  let shareable := (0#64 <<< 14) ||| (3#64 <<< 12) ||| (1#64 <<< 10) ||| (1#64 <<< 8)
  { tcr := reserved ||| shareable ||| BitVec.ofNat 64 (64 - vaBits), ips, vaBits }

def level2shift (level : Int) : Nat := (12 + 9 * (3 - level)).toNat

/-- The level the walk of this address space starts on. -/
def startLevel (memMap : List MmRegion) : Nat := if (getTcr memMap 0).vaBits < 39 then 1 else 0

/-- The loop of `find_pte` from level `i` of `left` remaining ones, in the
table at `pte`. -/
def findPteLoop (mem : Nat → BitVec 64) (addr level : Nat) : (left i pte : Nat) → Option Nat
  | 0, _, _ => none
  | left + 1, i, pte =>
    let entry := pte + 8 * (addr >>> level2shift i &&& 0x1ff)
    if i = level then some entry
    else if pteType (mem entry) ≠ pteTypeTable then none
    else findPteLoop mem addr level left (i + 1) (nextTable (mem entry))

def findPte (memMap : List MmRegion) (s : Mmu) (addr level : Nat) : Option Nat :=
  if level < startLevel memMap then none
  else findPteLoop s.mem addr level (4 - startLevel memMap) (startLevel memMap) s.tlbAddr

/-! ## Building tables -/

/-- `memset(table, 0, 512 * sizeof(u64))`. -/
def clearTable (mem : Nat → BitVec 64) (table : Nat) : Nat → BitVec 64 := fun a =>
  if table ≤ a ∧ a < table + 4096 then 0#64 else mem a

def createTable : Pt Nat := do
  let s ← read
  let fillptr := (s.tlbFillptr + 4096) % 2 ^ 64
  write { s with tlbFillptr := fillptr }
  if s.tlbSize < (fillptr + 2 ^ 64 - s.tlbAddr) % 2 ^ 64 then panic .insufficientRam
  else
    write { s with tlbFillptr := fillptr, mem := clearTable s.mem s.tlbFillptr }
    return s.tlbFillptr

def setPteTable (pte table : Nat) : Pt Unit := do
  let s ← read
  write (s.set pte (pteTypeTable ||| BitVec.ofNat 64 table))

/-- The entry `i` of the table that takes the place of the block `old`. -/
def splitEntry (old : BitVec 64) (level i : Nat) : BitVec 64 :=
  let entry := old ||| (BitVec.ofNat 64 i <<< level2shift (level + 1))
  if level + 1 = 3 then entry ||| pteTypeTable else entry

/-- The first `count` entries of the new table. -/
def splitEntries (old : BitVec 64) (level table : Nat) : (count : Nat) → (Nat → BitVec 64) → Nat → BitVec 64
  | 0, mem => mem
  | count + 1, mem =>
    Function.update (splitEntries old level table count mem) (table + 8 * count) (splitEntry old level count)

def splitBlock (pte level : Nat) : Pt Unit := do
  let s ← read
  let oldPte := s.mem pte
  if pteType oldPte ≠ pteTypeBlock then panic .notABlock
  else
    let newTable ← createTable
    let s ← read
    write { s with mem := splitEntries oldPte level newTable 512 s.mem }
    setPteTable pte newTable

/-- A new table of invalid entries behind `pte`. -/
def newSubtable (pte : Nat) : Pt Unit := do
  let newTable ← createTable
  setPteTable pte newTable

/-- Make room below an entry that the region does not fill. -/
def openPte (pte level : Nat) : Pt Unit := do
  let s ← read
  if pteType (s.mem pte) = pteTypeFault then newSubtable pte
  else if pteType (s.mem pte) = pteTypeBlock then splitBlock pte level
  else pure ()

section AddMap
variable (memMap : List MmRegion)

/-- The level-0 step of `add_map`; there is no such entry when the walk starts
on level 1. -/
def openTop (virt : Nat) : Pt Unit := do
  let s ← read
  match findPte memMap s virt 0 with
  | none => pure ()
  | some pte => if pteType (s.mem pte) = pteTypeFault then newSubtable pte else pure ()

/-- The inner loop of `add_map`: map one block or page and return its size, or
zero when no level fits. -/
def mapBlock (virt phys size : Nat) (attrs : BitVec 64) : List Nat → Pt Nat
  | [] => return 0
  | level :: levels => do
    let s ← read
    match findPte memMap s virt level with
    | none => panic .pteNotFound
    | some pte =>
      let blocksize := 2 ^ level2shift level
      if blocksize ≤ size ∧ virt &&& (blocksize - 1) = 0 then
        let block := BitVec.ofNat 64 phys ||| attrs
        write (s.set pte (if level = 3 then block ||| pteTypePage else block))
        return blocksize
      else
        openPte pte level
        mapBlock virt phys size attrs levels

/-- The outer loop of `add_map`. Once no level fits, the second pass finds
nothing left to change and so does every later one. -/
def addMapLoop (attrs : BitVec 64) : (fuel virt phys size : Nat) → Pt Unit
  | 0, _, _, _ => hang
  | fuel + 1, virt, phys, size =>
    if size = 0 then return ()
    else do
      openTop memMap virt
      let blocksize ← mapBlock memMap virt phys size attrs [1, 2, 3]
      addMapLoop attrs fuel ((virt + blocksize) % 2 ^ 64) ((phys + blocksize) % 2 ^ 64) (size - blocksize)

def addMap (map : MmRegion) : Pt Unit :=
  addMapLoop memMap (map.attrs ||| pteTypeBlock ||| pteBlockAf) (map.size / 4096 + 3) map.virt map.phys map.size

def addMaps : List MmRegion → Pt Unit
  | [] => return ()
  | map :: maps => do
    addMap memMap map
    addMaps maps

def setupPgtables : Pt Unit := do
  let s ← read
  if s.tlbFillptr = 0 ∨ s.tlbAddr = 0 then panic .pointerNotSetup
  else
    let _ ← createTable
    addMaps memMap (regions memMap)

def setupAllPgtables : Pt Unit := do
  let s ← read
  write { s with tlbFillptr := s.tlbAddr }
  setupPgtables memMap
  let first ← read
  write { first with
    tlbSize := (first.tlbSize + 2 ^ 64 - (first.tlbFillptr + 2 ^ 64 - first.tlbAddr) % 2 ^ 64) % 2 ^ 64
    tlbAddr := first.tlbFillptr }
  setupPgtables memMap
  let second ← read
  write { second with tlbEmerg := second.tlbAddr, tlbAddr := s.tlbAddr, tlbSize := s.tlbSize }

end AddMap

/-! ## The size estimate -/

/-- `enum pte_type`. -/
inductive PteKind where
  | inval
  | block
  | level
  deriving DecidableEq, Repr

/-- The loop of `count_required_pts` over the regions, for the entry of
`level` at `addr`. -/
def pteKind (addr : Nat) (level : Int) : PteKind → List MmRegion → PteKind
  | kind, [] => kind
  | kind, map :: maps =>
    let levelend := addr + 2 ^ level2shift level
    let start := max addr map.virt
    let stop := min levelend map.endAddr
    if start ≤ stop then
      if start &&& (2 ^ level2shift level - 1) ≠ 0 ∨ stop &&& (2 ^ level2shift level - 1) ≠ 0 then .level
      else if level ≤ 0 then .level
      else pteKind addr level .block maps
    else pteKind addr level kind maps

/-- The loop of `count_required_pts` over at most `left` child entries of size
`step`, up to the end of the address space. -/
def countLoop (count : Nat → Option Nat) (step maxaddr : Nat) : (left addr r : Nat) → Option Nat
  | 0, _, r => some r
  | left + 1, addr, r => do
    let children ← count addr
    if maxaddr ≤ addr + step then return r + children
    else countLoop count step maxaddr left (addr + step) (r + children)

/-- `count_required_pts` on level `4 - left`. Below level 4 the shift count
would be negative, which is undefined. -/
def countRequiredPts (memMap : List MmRegion) (maxaddr : Nat) : (left addr : Nat) → Option Nat
  | 0, _ => none
  | left + 1, addr =>
    match pteKind addr (4 - left) .inval (regions memMap) with
    | .level =>
      countLoop (fun child => countRequiredPts memMap maxaddr left child) (2 ^ level2shift (5 - left)) maxaddr
        512 addr 1
    | _ => some 0

/-- `get_page_table_size`: the tables of the map twice, and four more. -/
def getPageTableSize (memMap : List MmRegion) : Option Nat := do
  let vaBits := (getTcr memMap 0).vaBits
  -- Level `start_level - 1` is reached with five or four levels left below level 4.
  let tables ← countRequiredPts memMap (2 ^ vaBits) (6 - startLevel memMap) 0
  return 4096 * tables * 2 + 4096 * 4

/-! ## Changing attributes -/

def isAligned (addr size align : Nat) : Prop := addr &&& (align - 1) = 0 ∧ size &&& (align - 1) = 0

instance (addr size align : Nat) : Decidable (isAligned addr size align) := inferInstanceAs (Decidable (_ ∧ _))

/-- The descriptor with new attributes; without `flag` only the memory type
index changes. -/
def withAttrs (d attrs : BitVec 64) (flag : Bool) : BitVec 64 :=
  if flag then d &&& ~~~pmdAttrmask ||| attrs &&& pmdAttrmask
  else d &&& ~~~pmdAttrindxMask ||| attrs &&& pmdAttrindxMask

/-- Split a block, if `pte` is one. -/
def splitIfBlock (pte level : Nat) : Pt Unit := do
  let s ← read
  if pteType (s.mem pte) = pteTypeBlock then splitBlock pte level else pure ()

section Regions
variable (memMap : List MmRegion)

def setOneRegion (start size : Nat) (attrs : BitVec 64) (flag : Bool) (level : Nat) : Pt Nat := do
  let s ← read
  match findPte memMap s start level with
  | none => fault
  | some pte =>
    let levelsize := 2 ^ level2shift level
    if isAligned start size levelsize then
      write (s.set pte (withAttrs (s.mem pte) attrs flag))
      return levelsize
    else
      splitIfBlock pte level
      let s ← read
      if pteType (s.mem pte) ≠ pteTypeTable then panic .shouldBeTable else return 0

/-- The inner loop over the levels: the size of the granule that was set, or
zero when none fits. -/
def setGranule (start size : Nat) (attrs : BitVec 64) (flag : Bool) : List Nat → Pt Nat
  | [] => return 0
  | level :: levels => do
    let r ← setOneRegion memMap start size attrs flag level
    if r ≠ 0 then return r else setGranule start size attrs flag levels

/-- The loop over the range. A pass that sets nothing leaves tables down to the
last level, and no later pass sets anything. -/
def setRegion (attrs : BitVec 64) (flag : Bool) : (fuel start size : Nat) → Pt Unit
  | 0, _, _ => hang
  | fuel + 1, start, size =>
    if size = 0 then return ()
    else do
      let r ← setGranule memMap start size attrs flag [1, 2, 3]
      setRegion attrs flag fuel ((start + r) % 2 ^ 64) (size - r)

def mmuSetRegionDcacheBehaviour (start size option : Nat) : Pt Unit := do
  let attrs := BitVec.ofNat 64 (option <<< 2 % 2 ^ 32)
  let s ← read
  if s.tlbEmerg = 0 then panic .emergencyNotSetup
  else setRegion memMap attrs false (size / 4096 + 3) start size

def mmuChangeRegionAttr (addr siz : Nat) (attrs : BitVec 64) : Pt Unit := do
  setRegion memMap pteTypeFault true (siz / 4096 + 3) addr siz
  setRegion memMap attrs true (siz / 4096 + 3) addr siz

end Regions

end RockOs.PageTables
