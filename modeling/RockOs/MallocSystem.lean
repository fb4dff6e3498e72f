import RockOs.Malloc

/-! The allocator together with its clients. A run is any order of `malloc`
and `free` calls, each free of a block the caller holds, with clients storing
arbitrary bytes in their blocks in between. A run ends where a call panics. -/
namespace RockOs.MallocSystem
open ByteMemory LinkedChain Machine MemoryPages Malloc

/-- The memory handed to `memory_init`: whole pages, no more than the tables
have entries for, inside the address space so that its end is an address. -/
structure Arena where
  base : Nat
  pages : Nat
  aligned : base % 4096 = 0
  fits : pages ≤ Config.pagingPages
  inSpace : base + 4096 * pages < 2 ^ 64

/-- The address of a page of the arena. -/
def Arena.pageAddr (arena : Arena) (i : Nat) : Nat := arena.base + 4096 * i

/-- The globals before `memory_init`, over arbitrary memory contents. -/
def boot (arena : Arena) (mem : Mem) : Heap where
  mem := mem
  mallocBase := arena.base
  mallocLimit := 4096 * arena.pages
  pagingPages := 0
  memMap := fun _ => { memAddr := 0, use := 0 }
  chain := fun _ => 0
  freeBucketDesc := 0
  bdKmap := fun _ => 0

/-- A block a client holds: its address and the length that was asked for. -/
structure Block where
  addr : Nat
  len : Nat
  deriving DecidableEq, Repr

/-- The bytes a client may use: the size of the bucket that served it. -/
def Block.size (block : Block) : Nat := bucketSize (bucketIndex block.len)

/-- The allocator's state and the blocks its clients hold. -/
structure System where
  heap : Heap
  live : List Block

/-- What can happen next. -/
inductive Event where
  | malloc (len : Nat)
  | free (addr : Nat)
  /-- A client stores one byte. -/
  | poke (addr : Nat) (byte : UInt8)

/-- `addr` is a block some client holds. -/
def Live (live : List Block) (addr : Nat) : Prop := ∃ block ∈ live, block.addr = addr

instance (live : List Block) (addr : Nat) : Decidable (Live live addr) :=
  inferInstanceAs (Decidable (∃ block ∈ live, block.addr = addr))

/-- `addr` is a byte of a block some client holds. -/
def InLive (live : List Block) (addr : Nat) : Prop :=
  ∃ block ∈ live, block.addr ≤ addr ∧ addr < block.addr + block.size

instance (live : List Block) (addr : Nat) : Decidable (InLive live addr) :=
  inferInstanceAs (Decidable (∃ block ∈ live, block.addr ≤ addr ∧ addr < block.addr + block.size))

/-- One call or client store. Clients free only blocks they hold and store
only inside them; a call that does not return has no next state. -/
def step (sys : System) : Event → Option System
  | .malloc len =>
    match malloc len sys.heap with
    | .ret addr heap =>
      if addr = 0 then some { sys with heap }
      else some { heap, live := { addr, len } :: sys.live }
    | _ => none
  | .free addr =>
    if Live sys.live addr then
      match free addr sys.heap with
      | .ret _ heap => some { heap, live := sys.live.filter (fun block => block.addr ≠ addr) }
      | _ => none
    else none
  | .poke addr byte =>
    if InLive sys.live addr then
      some { sys with heap := { sys.heap with mem := store sys.heap.mem addr 1 byte.toNat } }
    else none

/-- The system after `memory_init`. -/
def start (arena : Arena) (mem : Mem) : System where
  heap := memoryInit (boot arena mem)
  live := []

/-- The states of all runs from a fresh arena. -/
def Reachable (arena : Arena) (sys : System) : Prop :=
  ∃ mem events, run step (start arena mem) events = some sys

/-! ## The pages a run takes -/

/-- `malloc` finds no free block in the chain of its bucket. -/
def OpensBucket (h : Heap) (len : Nat) : Prop :=
  bucketSize (bucketIndex len) ≠ 0 ∧
    scan (next h.mem) (fun bdesc => freeptr h.mem bdesc ≠ 0) walkFuel (h.chain (bucketIndex len)) = some 0

instance (h : Heap) (len : Nat) : Decidable (OpensBucket h len) :=
  inferInstanceAs (Decidable (_ ∧ _))

/-- The page a call of `get_free_page` returned. -/
def pageTaken : Outcome Heap Panic Nat → List Nat
  | .ret p _ => [p]
  | _ => []

/-- The page `init_bucket_desc` takes during `malloc len`, if it runs. -/
def initPage (h : Heap) (len : Nat) : List Nat :=
  if OpensBucket h len ∧ h.freeBucketDesc = 0 then pageTaken (getFreePage h) else []

/-- `newBucket` up to the page it takes. -/
def takeBucketPage : Alloc Nat := do
  if (← read).freeBucketDesc = 0 then initBucketDesc
  getFreePage

/-- The page `malloc len` itself takes for a bucket, if it opens one. -/
def bucketPage (h : Heap) (len : Nat) : List Nat :=
  if OpensBucket h len then pageTaken (takeBucketPage h) else []

/-- What `observe` sees in a `malloc` call; no page is taken by other events. -/
def Event.pages (observe : Heap → Nat → List Nat) (h : Heap) : Event → List Nat
  | .malloc len => observe h len
  | .free _ => []
  | .poke _ _ => []

/-- The pages seen by `observe` in the `malloc` calls of a run, last first. -/
def pagesTaken (observe : Heap → Nat → List Nat) : System → List Event → List Nat
  | _, [] => []
  | sys, event :: events =>
    match step sys event with
    | none => []
    | some after => pagesTaken observe after events ++ event.pages observe sys.heap

end RockOs.MallocSystem
