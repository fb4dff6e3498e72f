import RockOs.LinkedChain
import RockOs.MemoryPages
import RockOs.WordBits

/-! `lib/malloc.c`: power of two buckets carved out of whole pages. Each page
in use has a descriptor in its bucket's chain; the free blocks of the page are
threaded through their own first words, and the descriptors themselves live in
pages taken from the same arena. -/
namespace RockOs.Malloc
open ByteMemory LinkedChain Machine MemoryPages WordBits

/-! ## `struct bucket_desc` -/

/-- `sizeof(struct bucket_desc)`: three pointers, a padded short and a long. -/
def descSize : Nat := 40

/-- Descriptors in one page. -/
def descsPerPage : Nat := Config.pageSize / descSize

/-- The member of `width` bytes at `offset`. -/
def field (mem : Mem) (bdesc offset width : Nat) : Nat := load mem (bdesc + offset) width

def setField (mem : Mem) (bdesc offset width value : Nat) : Mem := store mem (bdesc + offset) width value

def page (mem : Mem) (bdesc : Nat) : Nat := field mem bdesc 0 8

def next (mem : Mem) (bdesc : Nat) : Nat := field mem bdesc 8 8

def freeptr (mem : Mem) (bdesc : Nat) : Nat := field mem bdesc 16 8

def refcnt (mem : Mem) (bdesc : Nat) : Nat := field mem bdesc 24 2

def descBucketSize (mem : Mem) (bdesc : Nat) : Nat := field mem bdesc 32 8

def setPage (mem : Mem) (bdesc value : Nat) : Mem := setField mem bdesc 0 8 value

def setNext (mem : Mem) (bdesc value : Nat) : Mem := setField mem bdesc 8 8 value

def setFreeptr (mem : Mem) (bdesc value : Nat) : Mem := setField mem bdesc 16 8 value

def setRefcnt (mem : Mem) (bdesc value : Nat) : Mem := setField mem bdesc 24 2 value

def setBucketSize (mem : Mem) (bdesc value : Nat) : Mem := setField mem bdesc 32 8 value

theorem field_setField_same : field (setField mem d offset width value) d offset width = value % 256 ^ width :=
  load_store_same

theorem field_setField_apart (apart : offset + width ≤ other ∨ other + length ≤ offset) :
    field (setField mem d offset width value) d other length = field mem d other length :=
  load_store_apart (by omega)

/-! ## `bucket_dir` -/

def bucketSizes : List Nat := [16, 32, 64, 128, 256, 512, 1024, 2048, 4096]

/-- `bucket_dir[k].size`; the entry after the last bucket is zero. -/
def bucketSize (k : Nat) : Nat := bucketSizes.getD k 0

/-- The first bucket whose size is at least `len`, or the terminator. -/
def bucketIndex (len : Nat) : Nat := bucketSizes.findIdx (fun size => len ≤ size)

/-! ## Allocation -/

/-- `left` times: point the word at `offset` in this cell to the next cell,
and go there. Both the descriptors of a fresh page and the blocks of a fresh
bucket are threaded this way. -/
def thread (offset stride : Nat) : (left cell : Nat) → Mem → Mem × Nat
  | 0, cell, mem => (mem, cell)
  | left + 1, cell, mem =>
    thread offset stride left (cell + stride) (storePtr mem (cell + offset) (cell + stride))

def initBucketDesc : Alloc Unit := do
  let first ← getFreePage
  if first = 0 then panic .outOfMemoryInInit
  else
    let h ← read
    let (mem, bdesc) := thread 8 descSize (descsPerPage - 1) first h.mem
    write { h with mem := setNext mem bdesc h.freeBucketDesc, freeBucketDesc := first }

/-- Thread the blocks of page `cp`, the last one to null. -/
def carveBlocks (mem : Mem) (size cp : Nat) : Mem :=
  let (mem, last) := thread 0 size (Config.pageSize / size - 1) cp mem
  storePtr mem last 0

/-- Thread the blocks of page `cp`, put its descriptor in front of the chain
and record the page's bucket size. -/
def carvePage (k bdesc cp : Nat) : Alloc Nat := do
  let h ← read
  let mem := setNext (carveBlocks h.mem (bucketSize k) cp) bdesc (h.chain k)
  -- `int i = page - malloc_base`: a negative index is far outside the table too.
  let i := sub64 (page mem bdesc) h.mallocBase % 2 ^ 32
  if Config.pagingPages ≤ i >>> 12 then fault
  else
    let kmap := Function.update h.bdKmap (i >>> 12) (bucketSize k)
    write { h with mem := mem, chain := Function.update h.chain k bdesc, bdKmap := kmap }
    return bdesc

/-- Turn the first spare descriptor and a fresh page into a bucket page. -/
def openBucket (k : Nat) : Alloc Nat := do
  let h ← read
  let bdesc := h.freeBucketDesc
  let mem := setBucketSize (setRefcnt h.mem bdesc 0) bdesc (bucketSize k)
  write { h with freeBucketDesc := next h.mem bdesc, mem := mem }
  let cp ← getFreePage
  let h ← read
  write { h with mem := setPage (setFreeptr h.mem bdesc cp) bdesc cp }
  if cp = 0 then panic .outOfMemoryInMalloc else carvePage k bdesc cp

/-- The branch of `malloc` that runs when no descriptor of the chain has a
free block. -/
def newBucket (k : Nat) : Alloc Nat := do
  if (← read).freeBucketDesc = 0 then initBucketDesc
  openBucket k

/-- The end of `malloc`: hand out the head of the free list. -/
def takeBlock (bdesc : Nat) : Alloc Nat := do
  let h ← read
  let retval := freeptr h.mem bdesc
  let mem := setFreeptr h.mem bdesc (loadPtr h.mem retval)
  write { h with mem := setRefcnt mem bdesc ((refcnt mem bdesc + 1) % 2 ^ 16) }
  return retval

def malloc (len : Nat) : Alloc Nat := do
  let k := bucketIndex len
  if bucketSize k = 0 then return 0
  else
    let h ← read
    match scan (next h.mem) (fun bdesc => freeptr h.mem bdesc ≠ 0) walkFuel (h.chain k) with
    | none => hang
    | some found =>
      if found = 0 then
        let bdesc ← newBucket k
        takeBlock bdesc
      else takeBlock found

/-! ## Release -/

/-- Look for the descriptor of `target` through the buckets from the first
one of at least `size`: bucket, previous descriptor and descriptor. The outer
`none` is a chain without end. -/
def findDesc (h : Heap) (target size : Nat) : List Nat → Option (Option (Nat × Nat × Nat))
  | [] => some none
  | k :: buckets =>
    if bucketSize k < size then findDesc h target size buckets
    else match scanPrev (next h.mem) (fun bdesc => page h.mem bdesc = target) walkFuel 0 (h.chain k) with
      | none => none
      | some (prev, bdesc) =>
        if bdesc = 0 then findDesc h target size buckets else some (some (k, prev, bdesc))

/-- The repeat-free check: is some link of the free list behind `head` equal
to the first word of `obj`? -/
def repeatCheck (mem : Mem) (head obj : Nat) : Option Bool :=
  if head = 0 then some false
  else (scan (loadPtr mem) (fun link => link = loadPtr mem obj) walkFuel (loadPtr mem head)).map
    (fun link => link ≠ 0)

/-- Take a descriptor out of its chain, after `prev` or at the head. -/
def unlinkDesc (k prev bdesc : Nat) : Alloc Unit := do
  let h ← read
  if prev ≠ 0 then
    write { h with mem := setNext h.mem prev (next h.mem bdesc) }
  else if h.chain k ≠ bdesc then panic .chainsCorrupted
  else write { h with chain := Function.update h.chain k (next h.mem bdesc) }

/-- Take a descriptor out of its chain, release its page and keep the
descriptor for later. -/
def releaseDesc (k prev bdesc : Nat) : Alloc Unit := do
  let h ← read
  let stale := (prev ≠ 0 ∧ next h.mem prev ≠ bdesc) ∨ (prev = 0 ∧ h.chain k ≠ bdesc)
  match if stale then scan (next h.mem) (fun p => next h.mem p = bdesc) walkFuel (h.chain k)
      else some prev with
  | none => hang
  | some prev =>
    unlinkDesc k prev bdesc
    let h ← read
    freePage (page h.mem bdesc)
    let h ← read
    write { h with mem := setNext h.mem bdesc h.freeBucketDesc, freeBucketDesc := bdesc }

/-- What `free` does once it has found the descriptor. -/
def freeFound (obj k prev bdesc : Nat) : Alloc Unit := do
  let h ← read
  match repeatCheck h.mem (freeptr h.mem bdesc) obj with
  | none => hang
  | some true => panic .repeatFree
  | some false =>
    let mem := setFreeptr (storePtr h.mem obj (freeptr h.mem bdesc)) bdesc obj
    let count := (refcnt mem bdesc + (2 ^ 16 - 1)) % 2 ^ 16
    write { h with mem := setRefcnt mem bdesc count }
    if count = 0 then releaseDesc k prev bdesc

/-- `obj & (size - 1)` in 64 bits: the mask is all ones when `size` is zero. -/
def misalignment (obj size : Nat) : Nat := obj &&& ((size + (2 ^ 64 - 1)) % 2 ^ 64)

/-- `obj & ~4095`. -/
def pageOf (obj : Nat) : Nat := obj &&& 0xfffffffffffff000

/-- The entry of `bd_kmap` that `free` reads for `obj`. -/
def kmapIndex (h : Heap) (obj : Nat) : Nat := sub64 (pageOf obj) h.mallocBase >>> 12

def free (obj : Nat) : Alloc Unit := do
  let h ← read
  if Config.pagingPages ≤ kmapIndex h obj then fault
  else if misalignment obj (h.bdKmap (kmapIndex h obj)) ≠ 0 then panic .freeUnalignAddr
  else match findDesc h (pageOf obj) (h.bdKmap (kmapIndex h obj)) (List.range bucketSizes.length) with
    | none => hang
    | some none => panic .badAddress
    | some (some (k, prev, bdesc)) => freeFound obj k prev bdesc

end RockOs.Malloc
