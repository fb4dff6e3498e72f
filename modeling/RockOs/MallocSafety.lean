import RockOs.MallocAllocate
import RockOs.MallocRelease

/-! The allocator over whole runs. The shape that `memory_init` sets up is kept
by every call and every store of a client; what the shape says is then read
back off the chains, descriptors and tables alone. -/
namespace RockOs.MallocSafety
open ByteMemory LinkedChain Machine MemoryPages Malloc MallocSystem MallocShape MallocAllocate MallocRelease

variable {arena : Arena} {h : Heap} {g : Shape} {r : Rec} {sys : System}

/-! ## The start -/

/-- The loop of `memory_init` fills the table in order and touches nothing
else. -/
theorem memory_init_loop (left i addr : Nat) (h : Heap) :
    memoryInitLoop left i addr h = { h with memMap := fun j =>
      if i ≤ j ∧ j < i + left then { memAddr := addr + 4096 * (j - i), use := 0 } else h.memMap j } := by
  induction left generalizing i addr h with
  | zero =>
    have none : ∀ j, ¬ (i ≤ j ∧ j < i + 0) := by omega
    simp only [memoryInitLoop, none, ↓reduceIte]
  | succ left ih =>
    rw [memoryInitLoop, ih]
    congr 1
    funext j
    by_cases first : j = i
    · subst first
      simp
    · by_cases later : i + 1 ≤ j ∧ j < i + 1 + left
      · have inside : i ≤ j ∧ j < i + (left + 1) := by omega
        have shift : addr + 4096 + 4096 * (j - (i + 1)) = addr + 4096 * (j - i) := by omega
        simp only [later, inside, and_self, ↓reduceIte, shift]
      · have outside : ¬ (i ≤ j ∧ j < i + (left + 1)) := by omega
        simp only [later, outside, ↓reduceIte, Function.update_of_ne first]

/-- Nothing is in use after `memory_init`. -/
theorem start_inv (arena : Arena) (mem : Mem) : Inv arena (start arena mem) ⟨[], [], []⟩ := by
  have count : (boot arena mem).mallocLimit >>> 12 = arena.pages := by
    show (4096 * arena.pages) >>> 12 = arena.pages
    rw [Nat.shiftRight_eq_div_pow]
    omega
  have entry : ∀ i < arena.pages,
      (start arena mem).heap.memMap i = { memAddr := arena.pageAddr i, use := 0 } := by
    intro i small
    simp only [start, memoryInit, memory_init_loop, count]
    simp [small, Arena.pageAddr, boot]
  constructor
  · constructor <;> simp [Shape.descs, Shape.pages]
  · refine {
      base := ?_, limit := ?_, pagingPages := ?_
      memAddr := fun i small => by rw [entry i small]
      use := fun i small => by rw [entry i small]; simp [Shape.pages]
      chains := fun k _ => ?_, freeDescs := ?_
      recs := by simp
      kmap := by simp }
    · simp only [start, memoryInit, memory_init_loop, boot]
    · simp only [start, memoryInit, memory_init_loop, boot]
    · simp only [start, memoryInit, memory_init_loop, count]
    · simp only [start, memoryInit, memory_init_loop, boot]
      rfl
    · simp only [start, memoryInit, memory_init_loop, boot]
      rfl
  · constructor <;> simp [start]
  · simp

/-! ## Clients -/

/-- A store inside a held block reaches no descriptor and no free block. -/
theorem poke_inv (inv : Inv arena sys g) (inside : InLive sys.live addr) (byte : UInt8) :
    Inv arena { sys with heap := { sys.heap with mem := store sys.heap.mem addr 1 byte.toNat } } g := by
  obtain ⟨b, inLive, low, high⟩ := inside
  obtain ⟨r, own, bucket, inBlocks, notFree⟩ := inv.accounts.block b inLive
  have size : b.size = r.size := by rw [Block.size, Rec.size, bucket]
  have page := inv.layout.block_inside own inBlocks
  have descs : ∀ d ∈ g.descs, Agree (store sys.heap.mem addr 1 byte.toNat) sys.heap.mem d descSize := by
    intro d member
    have apart := inv.layout.desc_page_apart member own
    exact store_agree (by omega)
  have links : ∀ d ∈ g.descs, next (store sys.heap.mem addr 1 byte.toNat) d = next sys.heap.mem d :=
    fun d member => next_agree (descs d member)
  have recs : ∀ s ∈ g.recs, RecAt (store sys.heap.mem addr 1 byte.toNat) s := by
    intro s member
    have desc := descs s.desc (Shape.rec_desc_mem member)
    have width : descSize = 40 := rfl
    refine (inv.holds.recs s member).frame (desc.mono (by omega) (by omega)) (desc.mono (by omega) (by omega)) ?_
    intro c free
    have freeBlock := inv.layout.freeBlocks s member c free
    have freePage := inv.layout.block_inside member freeBlock
    by_cases same : s.desc = r.desc
    · -- In the same page the two are different blocks.
      obtain rfl := inv.layout.rec_of_desc member own same
      have different : c ≠ b.addr := fun equal => notFree (equal ▸ free)
      have apart := pageBlocks_apart (inv.layout.bucket s member) freeBlock inBlocks different
      rw [← Rec.size] at apart
      exact store_agree (by omega)
    · have pages := inv.layout.pages_apart (Shape.rec_page_mem member) (Shape.rec_page_mem own)
        (inv.layout.rec_page_ne member own same)
      exact store_agree (by omega)
  exact {
    layout := inv.layout
    accounts := inv.accounts
    busy := inv.busy
    holds := { inv.holds with
      chains := fun k bound => (inv.holds.chains k bound).congr (fun d member => by
        obtain ⟨s, inRecs, _, rfl⟩ := Shape.mem_chain.mp member
        exact links s.desc (Shape.rec_desc_mem inRecs))
      freeDescs := inv.holds.freeDescs.congr (fun d member => links d (Shape.free_desc_mem member))
      recs := recs } }

/-! ## Runs -/

/-- One step keeps the invariant, takes descriptor pages as observed, and
leaves every page taken for a bucket with a record. -/
theorem step_inv (inv : Inv arena sys g) (taken : step sys event = some after) :
    ∃ g', Inv arena after g' ∧ g'.descPages = event.pages initPage sys.heap ++ g.descPages ∧
      ∀ q ∈ event.pages bucketPage sys.heap, q ∈ g'.recs.map Rec.page := by
  cases event with
  | malloc len =>
    have safe : (malloc len sys.heap).Safe (Served arena sys g len) := malloc_spec inv
    unfold step at taken
    cases ended : malloc len sys.heap with
    | ret p heap =>
      rw [ended] at safe
      obtain ⟨g', kept, descPages, pages⟩ := safe
      simp only [ended] at taken
      refine ⟨g', ?_, descPages, pages⟩
      by_cases zero : p = 0
      · simp only [zero, ↓reduceIte, Option.some.injEq] at taken kept
        exact taken ▸ kept
      · simp only [zero, ↓reduceIte, Option.some.injEq] at taken kept
        exact taken ▸ kept
    | panic | fault | hang => simp [ended] at taken
  | free addr =>
    unfold step at taken
    by_cases live : Live sys.live addr
    · simp only [live, ↓reduceIte] at taken
      obtain ⟨front, r, back, split, inBlocks, notFree⟩ := rec_of_live inv live
      rcases free_live inv split inBlocks notFree with ⟨_, stopped⟩ | ⟨_, heap, g', ran, kept, descPages⟩
      · simp [stopped] at taken
      · simp only [ran, Option.some.injEq] at taken
        exact ⟨g', taken ▸ kept, descPages, by simp [Event.pages]⟩
    · simp [live] at taken
  | poke addr byte =>
    unfold step at taken
    by_cases inside : InLive sys.live addr
    · simp only [inside, ↓reduceIte, Option.some.injEq] at taken
      exact ⟨g, taken ▸ poke_inv inv inside byte, rfl, by simp [Event.pages]⟩
    · simp [inside] at taken

/-- One page of descriptors is enough for all pages of the arena, so once
there is one there are spare descriptors. -/
theorem spare_of_descPages (layout : Layout arena g) (some : g.descPages ≠ []) : g.freeDescs ≠ [] := by
  intro nil
  obtain ⟨p, rest, isCons⟩ := List.exists_cons_of_ne_nil some
  have slots : ((List.range descsPerPage).map (fun j => p + descSize * j)).length ≤ g.descs.length := by
    refine (List.subperm_of_subset (List.Nodup.map_on ?_ List.nodup_range) (fun d member => ?_)).length_le
    · intro i _ j _ same
      unfold descSize at same
      omega
    · obtain ⟨j, small, rfl⟩ := List.mem_map.mp member
      exact (layout.descs_iff _).mpr ⟨p, by simp [isCons], j, List.mem_range.mp small, rfl⟩
  have pages : (g.recs.map Rec.page).length ≤ ((List.range arena.pages).map arena.pageAddr).length := by
    refine (List.subperm_of_subset (List.nodup_append.mp layout.pagesDistinct).2.1 (fun q member => ?_)).length_le
    obtain ⟨_, i, small, rfl⟩ := layout.pagesInArena q (List.mem_append_right _ member)
    exact List.mem_map_of_mem (List.mem_range.mpr small)
  have count : descsPerPage = 102 := rfl
  have fits := arena.fits
  simp only [Shape.descs, nil, List.length_map, List.length_range, List.append_nil,
    Config.pagingPages_eq] at slots pages fits
  omega

/-- `init_bucket_desc` takes a page only while there is none yet. -/
theorem initPage_nil (inv : Inv arena sys g) (some : g.descPages ≠ []) (len : Nat) :
    initPage sys.heap len = [] := by
  have spare := spare_of_descPages inv.layout some
  have nonzero : sys.heap.freeBucketDesc ≠ 0 :=
    fun zero => spare (inv.holds.freeDescs.eq_nil_iff.mp zero)
  simp [initPage, nonzero]

/-- A descriptor in use lies in a descriptor page. -/
theorem descPages_of_rec (layout : Layout arena g) (own : r ∈ g.recs) : g.descPages ≠ [] := by
  obtain ⟨p, member, _⟩ := layout.desc_inside (Shape.rec_desc_mem own)
  exact List.ne_nil_of_mem member

/-- A run keeps the invariant; the descriptor pages are those taken by
`init_bucket_desc`, and no page taken for a bucket is among them. -/
theorem run_inv (events : List Event) (inv : Inv arena sys g) (ran : run step sys events = some final) :
    ∃ g', Inv arena final g' ∧ g'.descPages = pagesTaken initPage sys events ++ g.descPages ∧
      (∀ q ∈ pagesTaken bucketPage sys events, q ∉ g'.descPages) ∧
      (g.descPages ≠ [] → g'.descPages = g.descPages) := by
  induction events generalizing sys g with
  | nil =>
    cases ran
    exact ⟨g, inv, rfl, by simp [pagesTaken], fun _ => rfl⟩
  | cons event events ih =>
    cases stepped : step sys event with
    | none => simp [run, stepped] at ran
    | some middle =>
      simp only [run, stepped] at ran
      obtain ⟨g₁, inv₁, descPages₁, pages₁⟩ := step_inv inv stepped
      obtain ⟨g₂, inv₂, descPages₂, pages₂, fixed₂⟩ := ih inv₁ ran
      have steady : g.descPages ≠ [] → g₁.descPages = g.descPages := by
        intro some
        rw [descPages₁]
        cases event with
        | malloc len => simp [Event.pages, initPage_nil inv some len]
        | free | poke => rfl
      refine ⟨g₂, inv₂, ?_, fun q member => ?_, fun some => ?_⟩
      · simp only [descPages₂, descPages₁, pagesTaken, stepped, List.append_assoc]
      · simp only [pagesTaken, stepped, List.mem_append] at member
        rcases member with later | now
        · exact pages₂ q later
        · obtain ⟨r, own, rfl⟩ := List.mem_map.mp (pages₁ q now)
          rw [fixed₂ (descPages_of_rec inv₁.layout own)]
          intro isDesc
          exact (List.nodup_append.mp inv₁.layout.pagesDistinct).2.2 r.page isDesc r.page
            (List.mem_map_of_mem own) rfl
      · rw [fixed₂ (by rw [steady some]; exact some), steady some]

/-! ## What the clients and the tables show -/

/-- The blocks held in the page at `p`. -/
def liveIn (live : List Block) (p : Nat) : List Block :=
  live.filter (fun b => p ≤ b.addr ∧ b.addr < p + 4096)

/-- Descriptor `d` in chain `k` owns an in-use page: its free list is exactly
the blocks of the page nobody holds, its count the number of held ones. -/
structure OwnsPage (arena : Arena) (sys : System) (k d : Nat) : Prop where
  inUse : ∃ i < arena.pages, page sys.heap.mem d = arena.pageAddr i ∧ (sys.heap.memMap i).use = 1 ∧
    sys.heap.bdKmap i = bucketSize k
  free : ∃ free, Linked (loadPtr sys.heap.mem) (freeptr sys.heap.mem d) free ∧ free.Nodup ∧
    ∀ a, a ∈ free ↔ a ∈ pageBlocks (page sys.heap.mem d) (bucketSize k) ∧ ¬ Live sys.live a
  count : refcnt sys.heap.mem d = (liveIn sys.live (page sys.heap.mem d)).length

/-- The allocator's representation: `chains k` and `spare` are what following
the links of `bucket_dir[k].chain` and `free_bucket_desc` visits. -/
structure Represents (arena : Arena) (sys : System) (chains : Nat → List Nat) (spare : List Nat) : Prop where
  chain : ∀ k < 9, Linked (next sys.heap.mem) (sys.heap.chain k) (chains k)
  spareChain : Linked (next sys.heap.mem) sys.heap.freeBucketDesc spare
  acyclic : (∀ k < 9, (chains k).Nodup) ∧ spare.Nodup
  disjoint : (∀ k < 9, ∀ j < 9, k ≠ j → (chains k).Disjoint (chains j)) ∧ ∀ k < 9, (chains k).Disjoint spare
  owns : ∀ k < 9, ∀ d ∈ chains k, OwnsPage arena sys k d
  pages : ∀ k < 9, ∀ j < 9, ∀ d ∈ chains k, ∀ e ∈ chains j, page sys.heap.mem d = page sys.heap.mem e → d = e
  blocks : ∀ b ∈ sys.live, b.len ≤ b.size ∧ b.size ∈ bucketSizes ∧ b.addr % b.size = 0 ∧
    arena.base ≤ b.addr ∧ b.addr + b.size ≤ arena.base + 4096 * arena.pages
  apart : sys.live.Pairwise (fun b c => b.addr + b.size ≤ c.addr ∨ c.addr + c.size ≤ b.addr)
  descPages : ∀ b ∈ sys.live, ∀ d, (∃ k < 9, d ∈ chains k) ∨ d ∈ spare →
    b.addr + b.size ≤ d / 4096 * 4096 ∨ d / 4096 * 4096 + 4096 ≤ b.addr

/-- In a page of the shape, the held blocks are the blocks not on the free
list. -/
theorem free_iff (inv : Inv arena sys g) (own : r ∈ g.recs) :
    a ∈ r.free ↔ a ∈ r.blocks ∧ ¬ Live sys.live a := by
  constructor
  · intro free
    have inBlocks := inv.layout.freeBlocks r own a free
    refine ⟨inBlocks, ?_⟩
    rintro ⟨b, inLive, rfl⟩
    obtain ⟨s, inRecs, _, inOther, notFree⟩ := inv.accounts.block b inLive
    rw [inv.layout.rec_of_block inRecs own inOther inBlocks] at notFree
    exact notFree free
  · rintro ⟨inBlocks, notLive⟩
    by_contra notFree
    exact notLive (inv.accounts.held r own a inBlocks notFree)

private theorem liveIn_length (inv : Inv arena sys g) (own : r ∈ g.recs) :
    (liveIn sys.live r.page).length + r.free.length = 4096 / r.size := by
  have member : ∀ a, a ∈ (liveIn sys.live r.page).map Block.addr ↔ a ∈ r.blocks ∧ a ∉ r.free := by
    intro a
    simp only [liveIn, List.mem_map, List.mem_filter, decide_eq_true_eq]
    constructor
    · rintro ⟨b, ⟨inLive, low, high⟩, rfl⟩
      obtain ⟨s, inRecs, _, inBlocks, notFree⟩ := inv.accounts.block b inLive
      have inside := inv.layout.block_inside inRecs inBlocks
      have aligned := inv.layout.page_aligned (Shape.rec_page_mem inRecs)
      have ownAligned := inv.layout.page_aligned (Shape.rec_page_mem own)
      obtain rfl := inv.layout.rec_unique inRecs own (by omega)
      exact ⟨inBlocks, notFree⟩
    · rintro ⟨inBlocks, notFree⟩
      obtain ⟨b, inLive, rfl⟩ := inv.accounts.held r own a inBlocks notFree
      have inside := inv.layout.block_inside own inBlocks
      exact ⟨b, ⟨inLive, by omega, by omega⟩, rfl⟩
  have distinct : ((liveIn sys.live r.page).map Block.addr).Nodup :=
    ((List.filter_sublist (l := sys.live)).map Block.addr).nodup inv.accounts.distinct
  have both : ((liveIn sys.live r.page).map Block.addr ++ r.free).Perm r.blocks := by
    refine (List.perm_ext_iff_of_nodup ?_ (pageBlocks_nodup (inv.layout.bucket r own))).mpr (fun a => ?_)
    · exact List.nodup_append'.mpr ⟨distinct, inv.layout.freeDistinct r own,
        fun a held free => ((member a).mp held).2 free⟩
    · rw [List.mem_append, member]
      constructor
      · rintro (⟨inBlocks, _⟩ | free)
        · exact inBlocks
        · exact inv.layout.freeBlocks r own a free
      · intro inBlocks
        by_cases free : a ∈ r.free
        · exact .inr free
        · exact .inl ⟨inBlocks, free⟩
  have lengths := both.length_eq
  rwa [List.length_append, List.length_map, Rec.blocks, pageBlocks_length] at lengths

/-- The descriptor of a record owns its page. -/
theorem owns_page (inv : Inv arena sys g) (own : r ∈ g.recs) : OwnsPage arena sys r.bucket r.desc := by
  have held := inv.holds.recs r own
  constructor
  · obtain ⟨_, i, small, atPage⟩ := inv.layout.pagesInArena r.page (Shape.rec_page_mem own)
    refine ⟨i, small, held.page.trans atPage, ?_, ?_⟩
    · rw [inv.holds.use i small, if_pos (atPage ▸ Shape.rec_page_mem own)]
    · have kmap := inv.holds.kmap r own
      rwa [atPage, Arena.pageAddr, Nat.add_sub_cancel_left, Nat.mul_div_cancel_left _ (by decide)] at kmap
  · rw [held.page]
    exact ⟨r.free, held.free, inv.layout.freeDistinct r own, fun a => free_iff inv own⟩
  · have total := liveIn_length inv own
    have count := held.count
    rw [held.page]
    omega

/-- A held block, its record, and what the record says about it. -/
theorem block_facts (inv : Inv arena sys g) (inLive : b ∈ sys.live) :
    ∃ r ∈ g.recs, b.addr ∈ r.blocks ∧ b.size = r.size ∧ b.len ≤ b.size := by
  obtain ⟨r, own, bucket, inBlocks, _⟩ := inv.accounts.block b inLive
  refine ⟨r, own, inBlocks, by rw [Block.size, Rec.size, bucket], ?_⟩
  exact bucketIndex_fits (bucket ▸ inv.layout.bucket r own)

private theorem blocks_apart (inv : Inv arena sys g) (first : b ∈ sys.live) (second : c ∈ sys.live)
    (different : b.addr ≠ c.addr) : b.addr + b.size ≤ c.addr ∨ c.addr + c.size ≤ b.addr := by
  obtain ⟨r, own, inBlocks, size, _⟩ := block_facts inv first
  obtain ⟨s, ownS, inBlocksS, sizeS, _⟩ := block_facts inv second
  by_cases same : r.desc = s.desc
  · obtain rfl := inv.layout.rec_of_desc own ownS same
    rw [size, sizeS]
    exact pageBlocks_apart (inv.layout.bucket r own) inBlocks inBlocksS different
  · have pages := inv.layout.pages_apart (Shape.rec_page_mem own) (Shape.rec_page_mem ownS)
      (inv.layout.rec_page_ne own ownS same)
    have inside := inv.layout.block_inside own inBlocks
    have insideS := inv.layout.block_inside ownS inBlocksS
    omega

private theorem represents (inv : Inv arena sys g) : Represents arena sys g.chain g.freeDescs := by
  have distinct := List.nodup_append.mp inv.layout.descsDistinct
  refine {
    chain := inv.holds.chains
    spareChain := inv.holds.freeDescs
    acyclic := ⟨fun k _ => inv.layout.chain_distinct k, distinct.2.1⟩
    disjoint := ⟨fun k _ j _ different d inK inJ => ?_, fun k _ d inK inSpare => ?_⟩
    owns := fun k _ d member => ?_
    pages := fun k _ j _ d inK e inJ same => ?_
    blocks := fun b inLive => ?_
    apart := ?_
    descPages := fun b inLive d isDesc => ?_ }
  · obtain ⟨r, own, rfl, rfl⟩ := Shape.mem_chain.mp inK
    obtain ⟨s, ownS, rfl, same⟩ := Shape.mem_chain.mp inJ
    exact different (congrArg Rec.bucket (inv.layout.rec_of_desc own ownS same.symm))
  · obtain ⟨r, own, _, rfl⟩ := Shape.mem_chain.mp inK
    exact distinct.2.2 r.desc (List.mem_map_of_mem own) r.desc inSpare rfl
  · obtain ⟨r, own, rfl, rfl⟩ := Shape.mem_chain.mp member
    exact owns_page inv own
  · obtain ⟨r, own, _, rfl⟩ := Shape.mem_chain.mp inK
    obtain ⟨s, ownS, _, rfl⟩ := Shape.mem_chain.mp inJ
    rw [(inv.holds.recs r own).page, (inv.holds.recs s ownS).page] at same
    exact congrArg Rec.desc (inv.layout.rec_unique own ownS same)
  · obtain ⟨r, own, inBlocks, size, fits⟩ := block_facts inv inLive
    have bound := inv.layout.bucket r own
    have aligned := inv.layout.page_aligned (Shape.rec_page_mem own)
    have multiple := ((mem_pageBlocks_iff bound aligned).mp inBlocks).2.2
    have inside := inv.layout.block_inside own inBlocks
    have inArena := inv.layout.page_inside (Shape.rec_page_mem own)
    refine ⟨fits, ?_, size ▸ multiple, by omega, by omega⟩
    rw [size]
    rcases bucketSize_cases bound with h | h | h | h | h | h | h | h | h <;> simp [Rec.size, h, bucketSizes]
  · refine (List.pairwise_map.mp inv.accounts.distinct).imp_of_mem (fun inB inC different => ?_)
    exact blocks_apart inv inB inC different
  · obtain ⟨r, own, inBlocks, size, _⟩ := block_facts inv inLive
    have member : d ∈ g.descs := by
      rcases isDesc with ⟨k, _, inChain⟩ | inSpare
      · obtain ⟨s, ownS, _, rfl⟩ := Shape.mem_chain.mp inChain
        exact Shape.rec_desc_mem ownS
      · exact Shape.free_desc_mem inSpare
    obtain ⟨p, isPage, low, high⟩ := inv.layout.desc_inside member
    have aligned := inv.layout.page_aligned (Shape.desc_page_mem isPage)
    have different : p ≠ r.page := fun same =>
      (List.nodup_append.mp inv.layout.pagesDistinct).2.2 p isPage r.page (List.mem_map_of_mem own) same
    have apart := inv.layout.pages_apart (Shape.desc_page_mem isPage) (Shape.rec_page_mem own) different
    have inside := inv.layout.block_inside own inBlocks
    have width : descSize = 40 := rfl
    omega

/-! ## The results -/

theorem reachable_inv (events : List Event) (ran : run step (start arena mem) events = some sys) :
    ∃ g, Inv arena sys g := by
  obtain ⟨g, inv, _⟩ := run_inv events (start_inv arena mem) ran
  exact ⟨g, inv⟩

/-- After every run the representation is intact, and the next call of a
client returns or panics: it neither loops nor leaves the tables. -/
theorem allocator_invariant (arena : Arena) (mem : Mem) (events : List Event)
    (ran : run step (start arena mem) events = some sys) :
    (∃ chains spare, Represents arena sys chains spare) ∧
      (∀ len, (malloc len sys.heap).Safe (fun _ _ => True)) ∧
      ∀ addr, Live sys.live addr → (free addr sys.heap).Safe (fun _ _ => True) := by
  obtain ⟨g, inv⟩ := reachable_inv events ran
  refine ⟨⟨_, _, represents inv⟩, fun len => ?_, fun addr live => ?_⟩
  · have safe : (malloc len sys.heap).Safe (Served arena sys g len) := malloc_spec inv
    exact safe.mono (fun _ allowed => allowed) (fun _ _ _ => trivial)
  · obtain ⟨front, r, back, split, inBlocks, notFree⟩ := rec_of_live inv live
    rcases free_live inv split inBlocks notFree with ⟨_, stopped⟩ | ⟨_, heap, _, returned, _⟩
    · rw [stopped]
      trivial
    · rw [returned]
      trivial

/-- An arena of the configured sixteen pages. -/
def sixteenPages : Arena := ⟨0x10000, 16, by decide, by decide, by decide⟩

/-- Two buckets, a client's store and a release. -/
theorem allocator_invariant_sixteen : ∃ sys,
    run step (start sixteenPages (fun _ => 0))
      [.malloc 100, .malloc 1000, .poke 0x11003 7, .malloc 4096, .free 0x11000] = some sys ∧
    sys.live.length = 2 ∧ ∃ chains spare, Represents sixteenPages sys chains spare := by
  have computed : (run step (start sixteenPages (fun _ => 0))
      [.malloc 100, .malloc 1000, .poke 0x11003 7, .malloc 4096, .free 0x11000]).any
        (fun sys => sys.live.length = 2) = true := by decide +kernel
  obtain ⟨sys, ran, held⟩ := (Option.any_eq_true _ _).mp computed
  exact ⟨sys, ran, of_decide_eq_true held, (allocator_invariant _ _ _ ran).1⟩

/-- When the last block is returned, every bucket page is free again and the
descriptors are all spare: only the pages of `init_bucket_desc` stay in use. -/
theorem no_page_leak (arena : Arena) (mem : Mem) (events : List Event)
    (ran : run step (start arena mem) events = some sys) (none : sys.live = []) :
    (∀ k < 9, sys.heap.chain k = 0) ∧
      (∀ i < arena.pages, arena.pageAddr i ∈ pagesTaken bucketPage (start arena mem) events →
        (sys.heap.memMap i).use = 0) ∧
      (∀ i < arena.pages, (sys.heap.memMap i).use ≠ 0 ↔
        arena.pageAddr i ∈ pagesTaken initPage (start arena mem) events) ∧
      ∃ spare, Linked (next sys.heap.mem) sys.heap.freeBucketDesc spare ∧ spare.Nodup ∧
        ∀ d, d ∈ spare ↔ ∃ p ∈ pagesTaken initPage (start arena mem) events,
          ∃ j < descsPerPage, d = p + descSize * j := by
  obtain ⟨g, inv, descPages, bucketPages, _⟩ := run_inv events (start_inv arena mem) ran
  rw [List.append_nil] at descPages
  -- A bucket page has a block in use, and there is none.
  have recs : g.recs = [] := by
    by_contra some
    obtain ⟨r, own⟩ := List.exists_mem_of_ne_nil _ some
    have busy := inv.busy r own
    have total := liveIn_length inv own
    rw [none, liveIn, List.filter_nil, List.length_nil] at total
    omega
  have pages : g.pages = g.descPages := by simp [Shape.pages, recs]
  have descs : g.descs = g.freeDescs := by simp [Shape.descs, recs]
  refine ⟨fun k bound => ?_, fun i small taken => ?_, fun i small => ?_, g.freeDescs, inv.holds.freeDescs,
    descs ▸ inv.layout.descsDistinct, fun d => ?_⟩
  · have chain := inv.holds.chains k bound
    simpa [Shape.chain, recs] using chain
  · rw [inv.holds.use i small, pages, if_neg (bucketPages _ taken)]
  · rw [inv.holds.use i small, pages, descPages]
    split_ifs with isDesc
    · simp [isDesc]
    · simp [isDesc]
  · rw [← descs, inv.layout.descs_iff, descPages]

/-- Two pages opened and released; the descriptor page stays. -/
theorem no_page_leak_sixteen : ∃ sys,
    run step (start sixteenPages (fun _ => 0))
      [.malloc 100, .malloc 4096, .free 0x11000, .free 0x12000] = some sys ∧
    sys.live = [] ∧ ∀ k < 9, sys.heap.chain k = 0 := by
  have computed : (run step (start sixteenPages (fun _ => 0))
      [.malloc 100, .malloc 4096, .free 0x11000, .free 0x12000]).any (fun sys => sys.live = []) = true := by
    decide +kernel
  obtain ⟨sys, ran, empty⟩ := (Option.any_eq_true _ _).mp computed
  have none : sys.live = [] := of_decide_eq_true empty
  exact ⟨sys, ran, none, (no_page_leak _ _ _ ran none).1⟩

end RockOs.MallocSafety
