import Mathlib.Logic.Function.Basic
import RockOs.ByteMemory
import RockOs.Config
import RockOs.Machine

/-! `common/memory.c`: the table of 4 KiB pages the allocator draws from. The
state here also carries the globals of `lib/malloc.c`, which shares the arena. -/
namespace RockOs.MemoryPages
open ByteMemory Machine

/-- `struct mem_map_struct`. -/
structure MemMapStruct where
  memAddr : Nat
  use : Nat

/-- Memory and the globals of `memory.c` and `malloc.c`. Pointers are
addresses; null is `0`. -/
structure Heap where
  mem : Mem
  /-- `gd->malloc_base` -/
  mallocBase : Nat
  /-- `gd->malloc_limit` -/
  mallocLimit : Nat
  pagingPages : Nat
  memMap : Nat → MemMapStruct
  /-- `bucket_dir[k].chain` -/
  chain : Nat → Nat
  freeBucketDesc : Nat
  bdKmap : Nat → Nat

/-- The panics of `malloc.c`, one for each message. -/
inductive Panic where
  /-- "Out of memory in init_bucket_desc()" -/
  | outOfMemoryInInit
  /-- "Out of memory in malloc()" -/
  | outOfMemoryInMalloc
  /-- "Trying to free unalign addr" -/
  | freeUnalignAddr
  /-- "Bad address passed to free()" -/
  | badAddress
  /-- "Trying to repeat free addr" -/
  | repeatFree
  /-- "Malloc bucket chains corrupted" -/
  | chainsCorrupted
  deriving DecidableEq, Repr

abbrev Alloc := Code Heap Panic

/-- `mem_map[i].use = use`. -/
def Heap.setUse (h : Heap) (i use : Nat) : Heap :=
  { h with memMap := Function.update h.memMap i { h.memMap i with use } }

/-- The first page not in use, now in use; null when every page is. -/
def getFreePage : Alloc Nat := do
  let h ← read
  match (List.range h.pagingPages).find? (fun i => (h.memMap i).use = 0) with
  | some i =>
    write (h.setUse i (((h.memMap i).use + 1) % 2 ^ 8))
    return (h.memMap i).memAddr
  | none => return 0

/-- Give one page back and clear it. Addresses that are not a page in use are
ignored, each with its own message. -/
def freePage (addr : Nat) : Alloc Unit := do
  let h ← read
  let nrAddr := (addr - h.mallocBase) >>> 12
  if addr < h.mallocBase then return
  else if (h.mallocBase + h.mallocLimit) % 2 ^ 64 ≤ addr then return
  else if addr &&& 0xfff ≠ 0 then return
  else if Config.pagingPages ≤ nrAddr then fault
  else if (h.memMap nrAddr).use ≠ 1 then return
  else
    let cleared := memset h.mem (h.memMap nrAddr).memAddr 0 4096
    write { h.setUse nrAddr ((h.memMap nrAddr).use - 1) with mem := cleared }

/-- The loop of `memory_init`: `left` pages from page `i` at `addr`. -/
def memoryInitLoop : (left i addr : Nat) → Heap → Heap
  | 0, _, _, h => h
  | left + 1, i, addr, h =>
    memoryInitLoop left (i + 1) (addr + 4096)
      { h with memMap := Function.update h.memMap i { memAddr := addr, use := 0 } }

def memoryInit (h : Heap) : Heap :=
  memoryInitLoop (h.mallocLimit >>> 12) 0 h.mallocBase
    { h with pagingPages := h.mallocLimit >>> 12 }

end RockOs.MemoryPages
