import Mathlib.Data.List.GetD
import Mathlib.Tactic.IntervalCases
import RockOs.MallocSystem

/-! The shape of a healthy allocator. A `Shape` lists the bucket pages with
their descriptors and free blocks, the spare descriptors and the pages that
hold descriptors. `Layout` is the arithmetic of the shape alone; `Holds` ties
it to memory and the globals; `Accounts` ties it to the blocks clients hold.
Everything that keeps structures from overlapping is derived from `Layout`. -/
namespace RockOs.MallocShape
open ByteMemory LinkedChain MemoryPages Malloc MallocSystem

/-- One bucket page: its bucket, its descriptor and its free blocks in list
order. -/
structure Rec where
  bucket : Nat
  desc : Nat
  page : Nat
  free : List Nat

def Rec.size (r : Rec) : Nat := bucketSize r.bucket

/-- The blocks of the given size in a page. -/
def pageBlocks (page size : Nat) : List Nat := (List.range (4096 / size)).map (fun j => page + size * j)

/-- All blocks of the page, free or held. -/
def Rec.blocks (r : Rec) : List Nat := pageBlocks r.page r.size

/-- Bucket pages in chain order, spare descriptors in list order, and the
pages cut into descriptors. -/
structure Shape where
  recs : List Rec
  freeDescs : List Nat
  descPages : List Nat

def Shape.descs (g : Shape) : List Nat := g.recs.map Rec.desc ++ g.freeDescs

def Shape.pages (g : Shape) : List Nat := g.descPages ++ g.recs.map Rec.page

/-- The descriptors in the chain of bucket `k`. -/
def Shape.chain (g : Shape) (k : Nat) : List Nat :=
  (g.recs.filter (fun r => r.bucket = k)).map Rec.desc

/-- No page and no descriptor is used twice, the descriptors are exactly the
slots of the descriptor pages, and free blocks belong to their page. -/
structure Layout (arena : Arena) (g : Shape) : Prop where
  descsDistinct : g.descs.Nodup
  descs_iff : ∀ d, d ∈ g.descs ↔ ∃ p ∈ g.descPages, ∃ j < descsPerPage, d = p + descSize * j
  pagesDistinct : g.pages.Nodup
  pagesInArena : ∀ p ∈ g.pages, p ≠ 0 ∧ ∃ i < arena.pages, p = arena.pageAddr i
  bucket : ∀ r ∈ g.recs, r.bucket < 9
  freeDistinct : ∀ r ∈ g.recs, r.free.Nodup
  freeBlocks : ∀ r ∈ g.recs, ∀ b ∈ r.free, b ∈ r.blocks

/-- The descriptor of a bucket page says what the page is. -/
structure RecAt (mem : Mem) (r : Rec) : Prop where
  page : page mem r.desc = r.page
  free : Linked (loadPtr mem) (freeptr mem r.desc) r.free
  count : refcnt mem r.desc + r.free.length = 4096 / r.size
  size : descBucketSize mem r.desc = r.size

/-- Memory and globals hold the shape. -/
structure Holds (arena : Arena) (h : Heap) (g : Shape) : Prop where
  base : h.mallocBase = arena.base
  limit : h.mallocLimit = 4096 * arena.pages
  pagingPages : h.pagingPages = arena.pages
  memAddr : ∀ i < arena.pages, (h.memMap i).memAddr = arena.pageAddr i
  use : ∀ i < arena.pages, (h.memMap i).use = if arena.pageAddr i ∈ g.pages then 1 else 0
  chains : ∀ k < 9, Linked (next h.mem) (h.chain k) (g.chain k)
  freeDescs : Linked (next h.mem) h.freeBucketDesc g.freeDescs
  recs : ∀ r ∈ g.recs, RecAt h.mem r
  kmap : ∀ r ∈ g.recs, h.bdKmap ((r.page - arena.base) / 4096) = r.size

/-- The blocks clients hold are exactly the blocks not on a free list, each
served from the bucket of the length asked for. -/
structure Accounts (live : List Block) (g : Shape) : Prop where
  distinct : (live.map Block.addr).Nodup
  block : ∀ b ∈ live, ∃ r ∈ g.recs, r.bucket = bucketIndex b.len ∧ b.addr ∈ r.blocks ∧ b.addr ∉ r.free
  held : ∀ r ∈ g.recs, ∀ a ∈ r.blocks, a ∉ r.free → Live live a

/-- What every run keeps. A bucket page always has a block in use: it is
released with the last one. -/
structure Inv (arena : Arena) (sys : System) (g : Shape) : Prop where
  layout : Layout arena g
  holds : Holds arena sys.heap g
  accounts : Accounts sys.live g
  busy : ∀ r ∈ g.recs, r.free.length < 4096 / r.size

/-! ## Buckets and blocks -/

theorem bucketSize_eq (bound : k < 9) : bucketSize k = 2 ^ (k + 4) := by
  interval_cases k <;> rfl

private theorem bucketSize_ne_zero (bound : k < 9) : bucketSize k ≠ 0 := by
  interval_cases k <;> decide

theorem bucketSize_zero (beyond : ¬ k < 9) : bucketSize k = 0 :=
  List.getD_eq_default _ _ (by simp only [bucketSizes, List.length_cons, List.length_nil]; omega)

/-- Every bucket size is a power of two from 16 bytes to a page. -/
theorem bucketSize_cases (bound : k < 9) :
    bucketSize k = 16 ∨ bucketSize k = 32 ∨ bucketSize k = 64 ∨ bucketSize k = 128 ∨ bucketSize k = 256 ∨
      bucketSize k = 512 ∨ bucketSize k = 1024 ∨ bucketSize k = 2048 ∨ bucketSize k = 4096 := by
  interval_cases k <;> decide

theorem bucketSize_lt_iff (first : k < 9) (second : j < 9) : bucketSize k < bucketSize j ↔ k < j := by
  rw [bucketSize_eq first, bucketSize_eq second, Nat.pow_lt_pow_iff_right (by decide)]
  omega

/-- The bucket chosen for a length is large enough for it. -/
theorem bucketIndex_fits (bound : bucketIndex len < 9) : len ≤ bucketSize (bucketIndex len) := by
  have found : bucketSizes.findIdx (fun size => len ≤ size) < bucketSizes.length := bound
  have fits := List.findIdx_getElem (w := found)
  simpa [bucketSize, bucketIndex, List.getD_eq_getElem?_getD, List.getElem?_eq_getElem found] using fits

variable {arena : Arena} {g : Shape} {r s : Rec}

private theorem mem_pageBlocks : b ∈ pageBlocks first size ↔ ∃ j < 4096 / size, b = first + size * j := by
  simp [pageBlocks, eq_comm]

theorem pageBlocks_length : (pageBlocks first size).length = 4096 / size := by
  simp [pageBlocks]

theorem pageBlocks_nodup (bound : k < 9) : (pageBlocks first (bucketSize k)).Nodup := by
  refine List.Nodup.map_on ?_ List.nodup_range
  intro i _ j _ same
  have positive := Nat.pos_of_ne_zero (bucketSize_ne_zero bound)
  exact Nat.eq_of_mul_eq_mul_left positive (by omega)

/-- Blocks lie inside their page. -/
theorem pageBlocks_inside (bound : k < 9) (member : b ∈ pageBlocks first (bucketSize k)) :
    first ≤ b ∧ b + bucketSize k ≤ first + 4096 ∧ 16 ≤ bucketSize k := by
  obtain ⟨j, small, rfl⟩ := mem_pageBlocks.mp member
  rcases bucketSize_cases bound with h | h | h | h | h | h | h | h | h <;> rw [h] at small ⊢ <;> omega

/-- Different blocks of one page share no byte. -/
theorem pageBlocks_apart (bound : k < 9) (left : b ∈ pageBlocks first (bucketSize k))
    (right : c ∈ pageBlocks first (bucketSize k)) (different : b ≠ c) :
    b + bucketSize k ≤ c ∨ c + bucketSize k ≤ b := by
  obtain ⟨i, _, rfl⟩ := mem_pageBlocks.mp left
  obtain ⟨j, _, rfl⟩ := mem_pageBlocks.mp right
  rcases bucketSize_cases bound with h | h | h | h | h | h | h | h | h <;> rw [h] at different ⊢ <;> omega

/-- The aligned addresses of a page are exactly its blocks. -/
theorem mem_pageBlocks_iff (bound : k < 9) (aligned : first % 4096 = 0) :
    b ∈ pageBlocks first (bucketSize k) ↔ first ≤ b ∧ b < first + 4096 ∧ b % bucketSize k = 0 := by
  constructor
  · intro member
    obtain ⟨j, small, rfl⟩ := mem_pageBlocks.mp member
    rcases bucketSize_cases bound with h | h | h | h | h | h | h | h | h <;> rw [h] at small ⊢ <;> omega
  · rintro ⟨low, high, multiple⟩
    refine mem_pageBlocks.mpr ⟨(b - first) / bucketSize k, ?_, ?_⟩ <;>
      rcases bucketSize_cases bound with h | h | h | h | h | h | h | h | h <;> rw [h] at multiple ⊢ <;> omega

/-! ## What the layout keeps apart -/

theorem pageAddr_aligned : arena.pageAddr i % 4096 = 0 := by
  have aligned := arena.aligned
  unfold Arena.pageAddr
  omega

theorem pageAddr_lt (small : i < arena.pages) : arena.pageAddr i + 4096 < 2 ^ 64 := by
  have space := arena.inSpace
  unfold Arena.pageAddr
  omega

theorem Layout.page_aligned (layout : Layout arena g) (member : p ∈ g.pages) : p % 4096 = 0 := by
  obtain ⟨_, i, _, rfl⟩ := layout.pagesInArena p member
  exact pageAddr_aligned

theorem Layout.page_inside (layout : Layout arena g) (member : p ∈ g.pages) :
    arena.base ≤ p ∧ p + 4096 ≤ arena.base + 4096 * arena.pages := by
  obtain ⟨_, i, small, rfl⟩ := layout.pagesInArena p member
  unfold Arena.pageAddr
  omega

theorem Layout.pages_apart (layout : Layout arena g) (first : p ∈ g.pages) (second : q ∈ g.pages)
    (different : p ≠ q) : p + 4096 ≤ q ∨ q + 4096 ≤ p := by
  have left := layout.page_aligned first
  have right := layout.page_aligned second
  omega

theorem Shape.rec_page_mem (member : r ∈ g.recs) : r.page ∈ g.pages :=
  List.mem_append_right _ (List.mem_map_of_mem member)

theorem Shape.desc_page_mem (member : p ∈ g.descPages) : p ∈ g.pages :=
  List.mem_append_left _ member

theorem Shape.rec_desc_mem (member : r ∈ g.recs) : r.desc ∈ g.descs :=
  List.mem_append_left _ (List.mem_map_of_mem member)

theorem Shape.free_desc_mem (member : d ∈ g.freeDescs) : d ∈ g.descs :=
  List.mem_append_right _ member

theorem Layout.desc_inside (layout : Layout arena g) (member : d ∈ g.descs) :
    ∃ p ∈ g.descPages, p ≤ d ∧ d + descSize ≤ p + 4096 := by
  obtain ⟨p, pageMember, j, small, rfl⟩ := (layout.descs_iff d).mp member
  refine ⟨p, pageMember, by omega, ?_⟩
  have count : descsPerPage = 102 := rfl
  unfold descSize
  omega

theorem Layout.desc_ne_zero (layout : Layout arena g) (member : d ∈ g.descs) : d ≠ 0 := by
  obtain ⟨p, pageMember, low, _⟩ := layout.desc_inside member
  have nonzero := (layout.pagesInArena p (Shape.desc_page_mem pageMember)).1
  omega

private theorem Layout.desc_lt (layout : Layout arena g) (member : d ∈ g.descs) : d + descSize < 2 ^ 64 := by
  obtain ⟨p, pageMember, _, high⟩ := layout.desc_inside member
  have inside := layout.page_inside (Shape.desc_page_mem pageMember)
  have space := arena.inSpace
  omega

/-- Different descriptors share no byte. -/
theorem Layout.descs_apart (layout : Layout arena g) (first : d ∈ g.descs) (second : e ∈ g.descs)
    (different : d ≠ e) : d + descSize ≤ e ∨ e + descSize ≤ d := by
  obtain ⟨p, pMember, i, iSmall, rfl⟩ := (layout.descs_iff d).mp first
  obtain ⟨q, qMember, j, jSmall, rfl⟩ := (layout.descs_iff e).mp second
  have count : descsPerPage = 102 := rfl
  by_cases same : p = q
  · subst same
    unfold descSize at different ⊢
    omega
  · have apart := layout.pages_apart (Shape.desc_page_mem pMember) (Shape.desc_page_mem qMember) same
    unfold descSize
    omega

theorem Layout.rec_page_ne (layout : Layout arena g) (first : r ∈ g.recs) (second : s ∈ g.recs)
    (different : r.desc ≠ s.desc) : r.page ≠ s.page := by
  intro same
  have distinct := (List.nodup_append.mp layout.pagesDistinct).2.1
  have equal := List.inj_on_of_nodup_map distinct first second same
  exact different (congrArg Rec.desc equal)

/-- A descriptor shares no byte with a bucket page. -/
theorem Layout.desc_page_apart (layout : Layout arena g) (descMember : d ∈ g.descs)
    (member : r ∈ g.recs) : d + descSize ≤ r.page ∨ r.page + 4096 ≤ d := by
  obtain ⟨p, pageMember, low, high⟩ := layout.desc_inside descMember
  have different : p ≠ r.page := by
    intro same
    exact (List.nodup_append.mp layout.pagesDistinct).2.2 p pageMember r.page
      (List.mem_map_of_mem member) same
  have apart := layout.pages_apart (Shape.desc_page_mem pageMember) (Shape.rec_page_mem member) different
  omega

theorem Layout.block_inside (layout : Layout arena g) (member : r ∈ g.recs) (block : b ∈ r.blocks) :
    r.page ≤ b ∧ b + r.size ≤ r.page + 4096 ∧ 16 ≤ r.size :=
  pageBlocks_inside (layout.bucket r member) block

/-- The record of a page is determined by the page. -/
theorem Layout.rec_unique (layout : Layout arena g) (first : r ∈ g.recs) (second : s ∈ g.recs)
    (same : r.page = s.page) : r = s :=
  List.inj_on_of_nodup_map (List.nodup_append.mp layout.pagesDistinct).2.1 first second same

theorem Layout.rec_of_desc (layout : Layout arena g) (first : r ∈ g.recs) (second : s ∈ g.recs)
    (same : r.desc = s.desc) : r = s :=
  List.inj_on_of_nodup_map (List.nodup_append.mp layout.descsDistinct).1 first second same

/-- A block belongs to one record only. -/
theorem Layout.rec_of_block (layout : Layout arena g) (first : r ∈ g.recs) (second : s ∈ g.recs)
    (inFirst : b ∈ r.blocks) (inSecond : b ∈ s.blocks) : r = s := by
  apply layout.rec_unique first second
  have left := layout.block_inside first inFirst
  have right := layout.block_inside second inSecond
  have leftAligned := layout.page_aligned (Shape.rec_page_mem first)
  have rightAligned := layout.page_aligned (Shape.rec_page_mem second)
  omega

/-- A chain visits descriptors of its bucket's records. -/
theorem Shape.mem_chain : d ∈ g.chain k ↔ ∃ r ∈ g.recs, r.bucket = k ∧ r.desc = d := by
  simp [Shape.chain, and_assoc]

theorem Layout.chain_distinct (layout : Layout arena g) (k : Nat) : (g.chain k).Nodup :=
  ((List.filter_sublist (p := fun r : Rec => r.bucket = k)).map Rec.desc).nodup
    (List.nodup_append.mp layout.descsDistinct).1

theorem Layout.chain_short (layout : Layout arena g) (k : Nat) : (g.chain k).length < walkFuel := by
  have bounded : ∀ d ∈ g.chain k, d < 2 ^ 64 - 1 := by
    intro d member
    obtain ⟨r, inRecs, _, rfl⟩ := Shape.mem_chain.mp member
    have bound := layout.desc_lt (Shape.rec_desc_mem inRecs)
    unfold descSize at bound
    omega
  exact lt_of_le_of_lt (length_le_of_nodup_lt (layout.chain_distinct k) bounded)
    (by unfold walkFuel; decide)

theorem Layout.free_short (layout : Layout arena g) (member : r ∈ g.recs) : r.free.length < walkFuel := by
  have bounded : ∀ b ∈ r.free, b < 2 ^ 64 - 1 := by
    intro b free
    have inside := layout.block_inside member (layout.freeBlocks r member b free)
    have page := layout.page_inside (Shape.rec_page_mem member)
    have space := arena.inSpace
    omega
  exact lt_of_le_of_lt (length_le_of_nodup_lt (layout.freeDistinct r member) bounded)
    (by unfold walkFuel; decide)

/-! ## Globals -/

theorem pageAddr_injective (same : arena.pageAddr i = arena.pageAddr j) : i = j := by
  unfold Arena.pageAddr at same
  omega

theorem set_use_memAddr (holds : Holds arena h g) (small : j < arena.pages) :
    ((h.setUse i use).memMap j).memAddr = arena.pageAddr j := by
  by_cases same : j = i
  · subst same
    simpa [Heap.setUse] using holds.memAddr j small
  · simpa [Heap.setUse, Function.update_of_ne same] using holds.memAddr j small

theorem Holds.free_desc_lt (layout : Layout arena g) (holds : Holds arena h g) :
    h.freeBucketDesc < 2 ^ 64 :=
  holds.freeDescs.head_lt (by decide)
    (fun _ member => lt_of_le_of_lt (by omega) (layout.desc_lt (Shape.free_desc_mem member)))

theorem Holds.chain_lt (layout : Layout arena g) (holds : Holds arena h g) (bound : k < 9) :
    h.chain k < 2 ^ 64 := by
  refine (holds.chains k bound).head_lt (by decide) (fun d member => ?_)
  obtain ⟨r, inRecs, _, rfl⟩ := Shape.mem_chain.mp member
  exact lt_of_le_of_lt (by omega) (layout.desc_lt (Shape.rec_desc_mem inRecs))

/-! ## Frames -/

/-- A descriptor without its link, and the links of its free blocks, are all
that a record reads. -/
theorem RecAt.frame (held : RecAt mem r) (low : Agree after mem r.desc 8)
    (high : Agree after mem (r.desc + 16) 24) (blocks : ∀ b ∈ r.free, Agree after mem b 8) :
    RecAt after r where
  page := (load_agree low).trans held.page
  free := by
    have head : freeptr after r.desc = freeptr mem r.desc := load_agree (high.mono (by omega) (by omega))
    rw [head]
    exact held.free.congr (fun b member => loadPtr_agree (blocks b member))
  count := by
    have same : refcnt after r.desc = refcnt mem r.desc := load_agree (high.mono (by omega) (by omega))
    rw [same]
    exact held.count
  size := (load_agree (high.mono (by omega) (by omega))).trans held.size

/-- Nothing is written to a record's descriptor and page. -/
theorem RecAt.frame_page (layout : Layout arena g) (member : r ∈ g.recs) (held : RecAt mem r)
    (desc : Agree after mem r.desc descSize) (page : Agree after mem r.page 4096) : RecAt after r := by
  refine held.frame (desc.mono (by omega) (by unfold descSize; omega))
    (desc.mono (by omega) (by unfold descSize; omega)) (fun b free => ?_)
  have inside := layout.block_inside member (layout.freeBlocks r member b free)
  exact page.mono inside.1 (by omega)

theorem next_agree (same : Agree after mem d descSize) : next after d = next mem d :=
  load_agree (same.mono (by omega) (by unfold descSize; omega))

/-! ## Changing one free list -/

/-- The shape with another free list for the record between `front` and
`back`. -/
def Shape.withFree (g : Shape) (front : List Rec) (r : Rec) (back : List Rec) (free : List Nat) : Shape :=
  { g with recs := front ++ { r with free } :: back }

section WithFree
variable {front back : List Rec} {free : List Nat} {h : Heap}

private theorem withFree_descs (split : g.recs = front ++ r :: back) :
    (g.withFree front r back free).descs = g.descs := by
  simp [Shape.descs, Shape.withFree, split]

private theorem withFree_pages (split : g.recs = front ++ r :: back) :
    (g.withFree front r back free).pages = g.pages := by
  simp [Shape.pages, Shape.withFree, split]

private theorem withFree_chain (split : g.recs = front ++ r :: back) (k : Nat) :
    (g.withFree front r back free).chain k = g.chain k := by
  by_cases same : r.bucket = k <;> simp [Shape.chain, Shape.withFree, split, same]

/-- The records of the changed shape: the changed one, or one of the others. -/
theorem mem_withFree (layout : Layout arena g) (split : g.recs = front ++ r :: back)
    (member : s ∈ (g.withFree front r back free).recs) :
    s = { r with free } ∨ s ∈ g.recs ∧ s.desc ≠ r.desc := by
  have distinct := (List.nodup_append.mp layout.descsDistinct).1
  rw [split, List.map_append, List.map_cons, List.nodup_middle, List.nodup_cons] at distinct
  have other : s ∈ front ∨ s ∈ back → s ∈ g.recs ∧ s.desc ≠ r.desc := by
    intro inside
    refine ⟨by rw [split]; simp only [List.mem_append, List.mem_cons]; tauto, fun same => distinct.1 ?_⟩
    rw [← same, ← List.map_append]
    exact List.mem_map_of_mem (List.mem_append.mpr inside)
  rcases List.mem_append.mp member with member | member
  · exact .inr (other (.inl member))
  · rcases List.mem_cons.mp member with rfl | member
    · exact .inl rfl
    · exact .inr (other (.inr member))

theorem withFree_layout (layout : Layout arena g) (split : g.recs = front ++ r :: back)
    (distinct : free.Nodup) (blocks : ∀ b ∈ free, b ∈ r.blocks) :
    Layout arena (g.withFree front r back free) := by
  have own : r ∈ g.recs := by simp [split]
  refine {
    descsDistinct := (withFree_descs split).symm ▸ layout.descsDistinct
    descs_iff := fun d => (withFree_descs split).symm ▸ layout.descs_iff d
    pagesDistinct := (withFree_pages split).symm ▸ layout.pagesDistinct
    pagesInArena := fun p member => layout.pagesInArena p ((withFree_pages split) ▸ member)
    bucket := fun s member => ?_
    freeDistinct := fun s member => ?_
    freeBlocks := fun s member => ?_ }
  · rcases mem_withFree layout split member with rfl | ⟨member, _⟩
    · exact layout.bucket r own
    · exact layout.bucket s member
  · rcases mem_withFree layout split member with rfl | ⟨member, _⟩
    · exact distinct
    · exact layout.freeDistinct s member
  · rcases mem_withFree layout split member with rfl | ⟨member, _⟩
    · exact blocks
    · exact layout.freeBlocks s member

/-- A change of memory inside one record's descriptor and page, which keeps
the descriptor's link, changes that record only. -/
theorem withFree_holds (layout : Layout arena g) (holds : Holds arena h g)
    (split : g.recs = front ++ r :: back)
    (descs : ∀ d ∈ g.descs, d ≠ r.desc → Agree mem h.mem d descSize)
    (pages : ∀ s ∈ g.recs, s.desc ≠ r.desc → Agree mem h.mem s.page 4096)
    (link : next mem r.desc = next h.mem r.desc) (changed : RecAt mem { r with free }) :
    Holds arena { h with mem } (g.withFree front r back free) := by
  have own : r ∈ g.recs := by simp [split]
  have links : ∀ d ∈ g.descs, next mem d = next h.mem d := by
    intro d member
    by_cases same : d = r.desc
    · rw [same, link]
    · exact next_agree (descs d member same)
  refine {
    base := holds.base
    limit := holds.limit
    pagingPages := holds.pagingPages
    memAddr := holds.memAddr
    use := fun i small => (withFree_pages split).symm ▸ holds.use i small
    chains := fun k bound => ?_
    freeDescs := holds.freeDescs.congr (fun d member => links d (Shape.free_desc_mem member))
    recs := fun s member => ?_
    kmap := fun s member => ?_ }
  · rw [withFree_chain split]
    refine (holds.chains k bound).congr (fun d member => ?_)
    obtain ⟨s, inRecs, rfl⟩ := List.mem_map.mp member
    exact links s.desc (Shape.rec_desc_mem (List.mem_of_mem_filter inRecs))
  · rcases mem_withFree layout split member with rfl | ⟨member, different⟩
    · exact changed
    · exact RecAt.frame_page layout member (holds.recs s member)
        (descs s.desc (Shape.rec_desc_mem member) different) (pages s member different)
  · rcases mem_withFree layout split member with rfl | ⟨member, _⟩
    · exact holds.kmap r own
    · exact holds.kmap s member

end WithFree

end RockOs.MallocShape
