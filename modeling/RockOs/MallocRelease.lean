import RockOs.MallocShape

/-! What `free` does to a healthy allocator, for every address. The search
finds the descriptor exactly for the bucket pages; the repeat-free check looks
for the first word of the block among the links behind the head of the free
list; a release takes the descriptor out of its chain and returns the page. -/
namespace RockOs.MallocRelease
open ByteMemory LinkedChain Machine MemoryPages Malloc MallocSystem MallocShape WordBits

variable {arena : Arena} {h : Heap} {g : Shape} {r : Rec}

/-! ## Addresses -/

theorem pageOf_eq (fits : obj < 2 ^ 64) : pageOf obj = obj / 4096 * 4096 :=
  and_high_mask fits (by decide : 12 ≤ 64)

private theorem misalignment_bucket (bound : k < 9) : misalignment obj (bucketSize k) = obj % bucketSize k := by
  have mask : (bucketSize k + (2 ^ 64 - 1)) % 2 ^ 64 = bucketSize k - 1 := by
    rcases bucketSize_cases bound with h | h | h | h | h | h | h | h | h <;> rw [h] <;> decide
  rw [misalignment, mask, bucketSize_eq bound, Nat.and_two_pow_sub_one_eq_mod]

/-- The page table entry of an address in a page of the arena. -/
theorem kmapIndex_of_page (holds : Holds arena h g) (small : i < arena.pages)
    (inside : pageOf obj = arena.pageAddr i) : kmapIndex h obj = i := by
  have space := arena.inSpace
  unfold Arena.pageAddr at inside
  rw [kmapIndex, inside, holds.base, sub64_of_le (by omega) (by omega), Nat.shiftRight_eq_div_pow]
  omega

/-! ## The search -/

private theorem findDesc_skip (small : ∀ k ∈ front, bucketSize k < size) :
    findDesc h target size (front ++ rest) = findDesc h target size rest := by
  induction front with
  | nil => rfl
  | cons k front ih =>
    rw [List.cons_append, findDesc, if_pos (small k (by simp))]
    exact ih (fun j member => small j (by simp [member]))

private theorem buckets_split (bound : k < 9) :
    ∃ rest, List.range bucketSizes.length = List.range k ++ k :: rest := by
  interval_cases k <;> exact ⟨_, rfl⟩

/-- The descriptors of one bucket among some records. -/
def bucketDescs (recs : List Rec) (k : Nat) : List Nat :=
  (recs.filter (fun s => s.bucket = k)).map Rec.desc

private theorem mem_bucketDescs (member : d ∈ bucketDescs recs k) : ∃ s ∈ recs, s.bucket = k ∧ s.desc = d := by
  simpa [bucketDescs, and_assoc] using member

/-- The chain around one record. -/
theorem chain_split (split : g.recs = front ++ r :: back) :
    g.chain r.bucket = bucketDescs front r.bucket ++ r.desc :: bucketDescs back r.bucket := by
  simp [Shape.chain, bucketDescs, split]

/-- The descriptor in front of a record's in its chain, or null. -/
def prevDesc (front : List Rec) (k : Nat) : Nat := (bucketDescs front k).getLastD 0

private theorem prevDesc_cases (layout : Layout arena g) (split : g.recs = front ++ r :: back) :
    prevDesc front r.bucket = 0 ∧ bucketDescs front r.bucket = [] ∨
      prevDesc front r.bucket ≠ 0 ∧ bucketDescs front r.bucket ≠ [] ∧
        ∃ s ∈ front, s.bucket = r.bucket ∧ s.desc = prevDesc front r.bucket := by
  by_cases empty : bucketDescs front r.bucket = []
  · exact .inl ⟨by simp [prevDesc, empty], empty⟩
  · obtain ⟨s, inFront, bucket, desc⟩ := mem_bucketDescs (getLastD_mem empty 0)
    have nonzero := layout.desc_ne_zero (Shape.rec_desc_mem (r := s) (by simp [split, inFront]))
    rw [desc] at nonzero
    exact .inr ⟨nonzero, empty, s, inFront, bucket, desc⟩

private theorem findDesc_found (layout : Layout arena g) (holds : Holds arena h g)
    (split : g.recs = front ++ r :: back) :
    findDesc h r.page r.size (List.range bucketSizes.length) =
      some (some (r.bucket, prevDesc front r.bucket, r.desc)) := by
  have own : r ∈ g.recs := by simp [split]
  have bound := layout.bucket r own
  obtain ⟨rest, buckets⟩ := buckets_split bound
  have linked := holds.chains r.bucket bound
  rw [chain_split split] at linked
  have short : (bucketDescs front r.bucket).length < walkFuel := by
    have whole := layout.chain_short r.bucket
    rw [chain_split split, List.length_append] at whole
    omega
  have missed : ∀ d ∈ bucketDescs front r.bucket, decide (page h.mem d = r.page) = false := by
    intro d member
    obtain ⟨s, inFront, _, rfl⟩ := mem_bucketDescs member
    have inRecs : s ∈ g.recs := by simp [split, inFront]
    have distinct := (List.nodup_append.mp layout.pagesDistinct).2.1
    rw [split, List.map_append, List.nodup_append] at distinct
    rw [(holds.recs s inRecs).page]
    exact decide_eq_false (distinct.2.2 s.page (List.mem_map_of_mem inFront) r.page (by simp))
  have found : scanPrev (next h.mem) (fun d => page h.mem d = r.page) walkFuel 0 (h.chain r.bucket) =
      some (prevDesc front r.bucket, r.desc) :=
    scanPrev_found linked missed (decide_eq_true (holds.recs r own).page) short
  have nonzero := layout.desc_ne_zero (Shape.rec_desc_mem own)
  have smaller : ∀ k ∈ List.range r.bucket, bucketSize k < r.size := by
    intro k member
    have below := List.mem_range.mp member
    exact (bucketSize_lt_iff (by omega) bound).mpr below
  rw [buckets, findDesc_skip smaller, findDesc]
  simp only [Rec.size, lt_irrefl, ↓reduceIte, found, nonzero]

/-- An address outside the bucket pages belongs to no descriptor. -/
theorem findDesc_missed (layout : Layout arena g) (holds : Holds arena h g)
    (outside : ∀ r ∈ g.recs, r.page ≠ target) (buckets : List Nat) (bounds : ∀ k ∈ buckets, k < 9) :
    findDesc h target size buckets = some none := by
  induction buckets with
  | nil => rfl
  | cons k buckets ih =>
    have rest := ih (fun j member => bounds j (by simp [member]))
    rw [findDesc]
    split
    · exact rest
    · have missed : ∀ d ∈ g.chain k, decide (page h.mem d = target) = false := by
        intro d member
        obtain ⟨r, inRecs, _, rfl⟩ := Shape.mem_chain.mp member
        rw [(holds.recs r inRecs).page]
        exact decide_eq_false (outside r inRecs)
      rw [scanPrev_missed (holds.chains k (bounds k (by simp))) missed (layout.chain_short k)]
      simp only [↓reduceIte]
      exact rest

/-! ## The repeat-free check -/

/-- The check compares the first word of the block with every link behind the
head, and so fires exactly when that word is a free block other than the
head. -/
theorem repeatCheck_eq (layout : Layout arena g) (own : r ∈ g.recs) (held : RecAt h.mem r) :
    repeatCheck h.mem (freeptr h.mem r.desc) obj = some (decide (loadPtr h.mem obj ∈ r.free.tail)) := by
  have linked := held.free
  have short := layout.free_short own
  cases free : r.free with
  | nil =>
    rw [free] at linked
    have zero : freeptr h.mem r.desc = 0 := linked
    simp [repeatCheck, zero]
  | cons b rest =>
    rw [free] at linked short
    obtain ⟨head, nonzero, tail⟩ := linked
    rw [List.length_cons] at short
    rw [repeatCheck, head, if_neg nonzero, scan_linked tail (by omega), Option.map_some, List.tail_cons]
    congr 1
    apply Bool.eq_iff_iff.mpr
    simp only [decide_eq_true_eq]
    constructor
    · intro hit
      cases found : rest.find? (fun link => decide (link = loadPtr h.mem obj)) with
      | none => simp [found] at hit
      | some link =>
        have same : link = loadPtr h.mem obj := by simpa using List.find?_some found
        exact same ▸ List.mem_of_find?_eq_some found
    · intro member
      have present : rest.find? (fun link => decide (link = loadPtr h.mem obj)) = some (loadPtr h.mem obj) := by
        cases found : rest.find? (fun link => decide (link = loadPtr h.mem obj)) with
        | none => exact absurd (List.find?_eq_none.mp found _ member) (by simp)
        | some link =>
          have same : link = loadPtr h.mem obj := by simpa using List.find?_some found
          rw [same]
      rw [present]
      exact tail.ne_zero member

/-! ## Returning a block -/

/-- Memory after `obj` was put in front of the free list of descriptor `d`. -/
def pushMem (mem : Mem) (d obj : Nat) : Mem :=
  let linked := setFreeptr (storePtr mem obj (freeptr mem d)) d obj
  setRefcnt linked d ((refcnt linked d + (2 ^ 16 - 1)) % 2 ^ 16)

theorem pushMem_agree (desc : d + descSize ≤ address ∨ address + length ≤ d)
    (block : obj + 8 ≤ address ∨ address + length ≤ obj) :
    Agree (pushMem mem d obj) mem address length := by
  have width : descSize = 40 := rfl
  exact (store_agree (by omega)).trans ((store_agree (by omega)).trans (storePtr_agree block))

section PushMem
variable {mem : Mem} {d obj : Nat}

/-- A member of the descriptor other than the two written ones. -/
theorem pushMem_field (apart : d + descSize ≤ obj ∨ obj + 8 ≤ d)
    (inside : offset + width ≤ 16 ∨ 26 ≤ offset ∧ offset + width ≤ descSize) :
    field (pushMem mem d obj) d offset width = field mem d offset width := by
  have size : descSize = 40 := rfl
  unfold pushMem setRefcnt setFreeptr
  rw [field_setField_apart (by omega), field_setField_apart (by omega)]
  exact load_store_apart (by omega)

private theorem pushMem_freeptr (fits : obj < 2 ^ 64) : freeptr (pushMem mem d obj) d = obj := by
  unfold pushMem setRefcnt
  rw [freeptr, field_setField_apart (by omega), setFreeptr, field_setField_same]
  exact Nat.mod_eq_of_lt fits

theorem pushMem_refcnt (apart : d + descSize ≤ obj ∨ obj + 8 ≤ d) (some : 0 < refcnt mem d) :
    refcnt (pushMem mem d obj) d = refcnt mem d - 1 := by
  have size : descSize = 40 := rfl
  have bound : refcnt mem d < 256 ^ 2 := load_lt mem (d + 24) 2
  have before : refcnt (setFreeptr (storePtr mem obj (freeptr mem d)) d obj) d = refcnt mem d :=
    (field_setField_apart (by omega)).trans (load_store_apart (by omega))
  unfold pushMem
  rw [refcnt, setRefcnt, field_setField_same, before]
  omega

private theorem pushMem_link (apart : d + descSize ≤ obj ∨ obj + 8 ≤ d) :
    loadPtr (pushMem mem d obj) obj = freeptr mem d := by
  have size : descSize = 40 := rfl
  have kept : loadPtr (pushMem mem d obj) obj = loadPtr (storePtr mem obj (freeptr mem d)) obj :=
    loadPtr_agree ((store_agree (by omega)).trans (store_agree (by omega)))
  have bound : freeptr mem d < 2 ^ 64 := load_lt mem (d + 16) 8
  rw [kept, loadPtr_storePtr_same bound]

end PushMem

/-- A block and its descriptor never overlap. -/
theorem block_desc_apart (layout : Layout arena g) (own : r ∈ g.recs) (block : obj ∈ r.blocks)
    (desc : d ∈ g.descs) : d + descSize ≤ obj ∨ obj + 8 ≤ d := by
  have apart := layout.desc_page_apart desc own
  have inside := layout.block_inside own block
  omega

private theorem block_lt (layout : Layout arena g) (own : r ∈ g.recs) (block : obj ∈ r.blocks) :
    obj ≠ 0 ∧ obj < 2 ^ 64 := by
  have inside := layout.block_inside own block
  have page := layout.page_inside (Shape.rec_page_mem own)
  have nonzero := (layout.pagesInArena r.page (Shape.rec_page_mem own)).1
  have space := arena.inSpace
  omega

private theorem push_recAt (layout : Layout arena g) (own : r ∈ g.recs) (held : RecAt mem r)
    (block : obj ∈ r.blocks) (notFree : obj ∉ r.free) (some : 0 < refcnt mem r.desc) :
    RecAt (pushMem mem r.desc obj) { r with free := obj :: r.free } := by
  have size : descSize = 40 := rfl
  have apart := block_desc_apart layout own block (Shape.rec_desc_mem own)
  obtain ⟨nonzero, fits⟩ := block_lt layout own block
  constructor
  · exact (pushMem_field apart (by omega)).trans held.page
  · refine ⟨pushMem_freeptr fits, nonzero, ?_⟩
    rw [pushMem_link apart]
    refine held.free.congr (fun b free => loadPtr_agree (pushMem_agree ?_ ?_))
    · exact block_desc_apart layout own (layout.freeBlocks r own b free) (Shape.rec_desc_mem own)
    · have different : obj ≠ b := fun same => notFree (same ▸ free)
      have blocks := pageBlocks_apart (layout.bucket r own) block (layout.freeBlocks r own b free) different
      have wide := (layout.block_inside own block).2.2
      unfold Rec.size at wide
      omega
  · have count := held.count
    rw [pushMem_refcnt apart some]
    show refcnt mem r.desc - 1 + (r.free.length + 1) = 4096 / r.size
    omega
  · exact (pushMem_field apart (by omega)).trans held.size

/-- Freeing a held block moves it to the head of its page's free list. -/
theorem push_block (layout : Layout arena g) (holds : Holds arena h g) (accounts : Accounts live g)
    (split : g.recs = front ++ r :: back) (block : obj ∈ r.blocks) (notFree : obj ∉ r.free)
    (some : 0 < refcnt h.mem r.desc) :
    Layout arena (g.withFree front r back (obj :: r.free)) ∧
      Holds arena { h with mem := pushMem h.mem r.desc obj } (g.withFree front r back (obj :: r.free)) ∧
      Accounts (live.filter (fun b => b.addr ≠ obj)) (g.withFree front r back (obj :: r.free)) := by
  have own : r ∈ g.recs := by simp [split]
  have layout' : Layout arena (g.withFree front r back (obj :: r.free)) := by
    refine withFree_layout layout split (List.nodup_cons.mpr ⟨notFree, layout.freeDistinct r own⟩) ?_
    intro b member
    rcases List.mem_cons.mp member with rfl | member
    · exact block
    · exact layout.freeBlocks r own b member
  refine ⟨layout', ?_, ?_⟩
  · refine withFree_holds layout holds split (fun d member different => ?_) (fun s member different => ?_)
      ?_ (push_recAt layout own (holds.recs r own) block notFree some)
    · have descs := layout.descs_apart member (Shape.rec_desc_mem own) different
      have blocks := block_desc_apart layout own block member
      exact pushMem_agree (by omega) (by omega)
    · have desc := layout.desc_page_apart (Shape.rec_desc_mem own) member
      have pages := layout.pages_apart (Shape.rec_page_mem member) (Shape.rec_page_mem own)
        (layout.rec_page_ne member own different)
      have inside := layout.block_inside own block
      exact pushMem_agree (by omega) (by omega)
    · exact pushMem_field (block_desc_apart layout own block (Shape.rec_desc_mem own)) (by omega)
  · refine { distinct := ?_, block := fun b member => ?_, held := fun s member a inBlocks free => ?_ }
    · exact ((List.filter_sublist (p := fun b : Block => b.addr ≠ obj)).map Block.addr).nodup
        accounts.distinct
    · obtain ⟨inLive, different⟩ := List.mem_filter.mp member
      have different : b.addr ≠ obj := by simpa using different
      obtain ⟨s, inRecs, sameBucket, inBlocks, free⟩ := accounts.block b inLive
      rw [split] at inRecs
      rcases List.mem_append.mp inRecs with inFront | inBack
      · exact ⟨s, by simp [Shape.withFree, inFront], sameBucket, inBlocks, free⟩
      · rcases List.mem_cons.mp inBack with rfl | inBack
        · exact ⟨{ s with free := obj :: s.free }, by simp [Shape.withFree], sameBucket, inBlocks,
            by simp [different, free]⟩
        · exact ⟨s, by simp [Shape.withFree, inBack], sameBucket, inBlocks, free⟩
    · have old : Live live a ∧ a ≠ obj := by
        rcases mem_withFree layout split member with rfl | ⟨inRecs, different⟩
        · rw [List.mem_cons, not_or] at free
          exact ⟨accounts.held r own a inBlocks free.2, free.1⟩
        · refine ⟨accounts.held s inRecs a inBlocks free, ?_⟩
          rintro rfl
          exact different (congrArg Rec.desc (layout.rec_of_block inRecs own inBlocks block))
      obtain ⟨⟨b, inLive, rfl⟩, different⟩ := old
      exact ⟨b, List.mem_filter.mpr ⟨inLive, by simpa using different⟩, rfl⟩

/-! ## Releasing a page -/

/-- The state after `unlinkDesc`. -/
def unlinked (h : Heap) (k prev d : Nat) : Heap :=
  { h with
    mem := if prev = 0 then h.mem else setNext h.mem prev (next h.mem d)
    chain := if prev = 0 then Function.update h.chain k (next h.mem d) else h.chain }

/-- The state after descriptor `d` of page `i` went back to the spare ones. -/
def released (h : Heap) (k prev d i : Nat) : Heap :=
  let u := unlinked h k prev d
  { u.setUse i 0 with
    mem := setNext (memset u.mem (h.memMap i).memAddr 0 4096) d h.freeBucketDesc
    freeBucketDesc := d }

private theorem free_page_run (base : h.mallocBase = arena.base) (limit : h.mallocLimit = 4096 * arena.pages)
    (small : i < arena.pages) (used : (h.memMap i).use = 1) :
    freePage (arena.pageAddr i) h =
      .ret () { h.setUse i 0 with mem := memset h.mem (h.memMap i).memAddr 0 4096 } := by
  have space := arena.inSpace
  have aligned := arena.aligned
  have fits := arena.fits
  have index : (arena.base + 4096 * i - arena.base) >>> 12 = i := by
    rw [Nat.shiftRight_eq_div_pow]
    omega
  have low : (arena.base + 4096 * i) &&& 0xfff = 0 := by
    rw [show 0xfff = 2 ^ 12 - 1 by decide, Nat.and_two_pow_sub_one_eq_mod]
    omega
  have wrap : ¬ (arena.base + 4096 * arena.pages) % 2 ^ 64 ≤ arena.base + 4096 * i := by omega
  have notBelow : ¬ arena.base + 4096 * i < arena.base := by omega
  have inTable : ¬ Config.pagingPages ≤ i := by omega
  simp only [freePage, Arena.pageAddr, read_bind, base, limit, index, notBelow, wrap, low, inTable, used,
    ne_eq, not_true_eq_false, ↓reduceIte, write_apply]

private theorem unlink_desc_run (before : (if prev = 0 then h.chain k else next h.mem prev) = d) :
    unlinkDesc k prev d h = .ret () (unlinked h k prev d) := by
  by_cases first : prev = 0
  · have head : h.chain k = d := by simpa [first] using before
    simp [unlinkDesc, unlinked, first, head]
  · simp [unlinkDesc, unlinked, first]

/-- Unlinking touches the link of `prev` only. -/
theorem unlinked_agree (apart : prev ≠ 0 → prev + 16 ≤ address ∨ address + length ≤ prev + 8) :
    Agree (unlinked h k prev d).mem h.mem address length := by
  by_cases first : prev = 0
  · simp only [unlinked, if_pos first]
    exact fun _ _ _ => rfl
  · simp only [unlinked, if_neg first]
    exact store_agree (apart first)

/-- A descriptor that heads its chain, or follows `prev` in it, is released
without a search. -/
theorem release_desc_run (base : h.mallocBase = arena.base) (limit : h.mallocLimit = 4096 * arena.pages)
    (before : (if prev = 0 then h.chain k else next h.mem prev) = d)
    (apart : prev ≠ 0 → prev + descSize ≤ d ∨ d + descSize ≤ prev)
    (small : i < arena.pages) (used : (h.memMap i).use = 1) (owns : page h.mem d = arena.pageAddr i) :
    releaseDesc k prev d h = .ret () (released h k prev d i) := by
  have size : descSize = 40 := rfl
  have inPlace : ¬ ((prev ≠ 0 ∧ next h.mem prev ≠ d) ∨ (prev = 0 ∧ h.chain k ≠ d)) := by
    by_cases first : prev = 0 <;> simp [first] at before ⊢ <;> exact before
  have kept : page (unlinked h k prev d).mem d = arena.pageAddr i :=
    (load_agree (unlinked_agree (fun some => by have := apart some; omega))).trans owns
  have page := free_page_run (h := unlinked h k prev d) base limit small used
  unfold releaseDesc
  simp only [read_bind, if_neg inPlace]
  rw [bind_of_ret (unlink_desc_run before), read_bind, kept, bind_of_ret page, read_bind, write_apply]
  rfl

/-- What precedes a record's descriptor in its chain links to it. -/
theorem prevDesc_before (layout : Layout arena g) (holds : Holds arena h g)
    (split : g.recs = front ++ r :: back) :
    (if prevDesc front r.bucket = 0 then h.chain r.bucket else next h.mem (prevDesc front r.bucket)) =
      r.desc := by
  have linked := holds.chains r.bucket (layout.bucket r (by simp [split]))
  rw [chain_split split] at linked
  have before := linked.before 0
  rcases prevDesc_cases layout split with ⟨zero, empty⟩ | ⟨nonzero, nonempty, _⟩
  · rw [if_pos zero]
    rwa [if_pos empty] at before
  · rw [if_neg nonzero]
    rwa [if_neg nonempty] at before

/-- The shape without the record between `front` and `back`, its descriptor
spare again. -/
def Shape.without (g : Shape) (front : List Rec) (r : Rec) (back : List Rec) : Shape :=
  { g with recs := front ++ back, freeDescs := r.desc :: g.freeDescs }

section Without
variable {front back : List Rec}

private theorem without_descs (split : g.recs = front ++ r :: back) :
    (Shape.without g front r back).descs.Perm g.descs := by
  unfold Shape.without Shape.descs
  rw [split, List.map_append, List.map_append, List.map_cons]
  have left : (front.map Rec.desc ++ back.map Rec.desc ++ r.desc :: g.freeDescs).Perm
      (r.desc :: (front.map Rec.desc ++ back.map Rec.desc ++ g.freeDescs)) := List.perm_middle
  have right : (front.map Rec.desc ++ r.desc :: (back.map Rec.desc ++ g.freeDescs)).Perm
      (r.desc :: (front.map Rec.desc ++ (back.map Rec.desc ++ g.freeDescs))) := List.perm_middle
  rw [List.append_assoc (front.map Rec.desc) (r.desc :: back.map Rec.desc), List.cons_append]
  rw [List.append_assoc (front.map Rec.desc) (back.map Rec.desc) g.freeDescs] at left
  exact left.trans right.symm

private theorem without_pages (split : g.recs = front ++ r :: back) :
    g.pages.Perm (r.page :: (Shape.without g front r back).pages) := by
  unfold Shape.without Shape.pages
  rw [split, List.map_append, List.map_append, List.map_cons, ← List.append_assoc, ← List.append_assoc]
  exact List.perm_middle

private theorem without_chain_same :
    (Shape.without g front r back).chain r.bucket = bucketDescs front r.bucket ++ bucketDescs back r.bucket := by
  simp [Shape.chain, Shape.without, bucketDescs]

private theorem without_chain_other (split : g.recs = front ++ r :: back) (other : r.bucket ≠ k) :
    (Shape.without g front r back).chain k = g.chain k := by
  simp [Shape.chain, Shape.without, split, other]

private theorem without_layout (layout : Layout arena g) (split : g.recs = front ++ r :: back) :
    Layout arena (Shape.without g front r back) := by
  have kept : ∀ s ∈ front ++ back, s ∈ g.recs := by
    intro s member
    rw [split]
    exact List.perm_middle.symm.subset (List.mem_cons_of_mem _ member)
  have distinct := (without_pages split).nodup_iff.mp layout.pagesDistinct
  exact {
    descsDistinct := (without_descs split).nodup_iff.mpr layout.descsDistinct
    descs_iff := fun d => (without_descs split).mem_iff.trans (layout.descs_iff d)
    pagesDistinct := (List.nodup_cons.mp distinct).2
    pagesInArena := fun p member =>
      layout.pagesInArena p ((without_pages split).mem_iff.mpr (List.mem_cons_of_mem _ member))
    bucket := fun s member => layout.bucket s (kept s member)
    freeDistinct := fun s member => layout.freeDistinct s (kept s member)
    freeBlocks := fun s member => layout.freeBlocks s (kept s member) }

/-- A release writes the page, the link of the descriptor and the link that
led to it. -/
theorem released_agree (desc : d + 16 ≤ address ∨ address + length ≤ d + 8)
    (prevLink : prev ≠ 0 → prev + 16 ≤ address ∨ address + length ≤ prev + 8)
    (freed : (h.memMap i).memAddr + 4096 ≤ address ∨ address + length ≤ (h.memMap i).memAddr) :
    Agree (released h k prev d i).mem h.mem address length :=
  (store_agree desc).trans ((memset_agree freed).trans (unlinked_agree prevLink))

private theorem released_next (fits : h.freeBucketDesc < 2 ^ 64) :
    next (released h k prev d i).mem d = h.freeBucketDesc :=
  field_setField_same.trans (Nat.mod_eq_of_lt fits)

private theorem released_prev_next (nonzero : prev ≠ 0) (apart : prev + descSize ≤ d ∨ d + descSize ≤ prev)
    (freed : (h.memMap i).memAddr + 4096 ≤ prev ∨ prev + descSize ≤ (h.memMap i).memAddr) :
    next (released h k prev d i).mem prev = next h.mem d := by
  have size : descSize = 40 := rfl
  have link : next (unlinked h k prev d).mem prev = next h.mem d := by
    simp only [unlinked, if_neg nonzero]
    exact field_setField_same.trans (Nat.mod_eq_of_lt (load_lt h.mem (d + 8) 8))
  rw [← link]
  exact load_agree ((store_agree (by omega)).trans (memset_agree (by omega)))

section Unlinked
variable (layout : Layout arena g) (holds : Holds arena h g) (split : g.recs = front ++ r :: back)
include layout split

private theorem mem_without (member : s ∈ (Shape.without g front r back).recs) : s ∈ g.recs ∧ s.desc ≠ r.desc := by
  have distinct := (List.nodup_append.mp layout.descsDistinct).1
  rw [split, List.map_append, List.map_cons, List.nodup_middle, List.nodup_cons, ← List.map_append] at distinct
  refine ⟨?_, fun same => distinct.1 (same ▸ List.mem_map_of_mem member)⟩
  rw [split]
  exact List.perm_middle.symm.subset (List.mem_cons_of_mem _ member)

/-- The descriptor before a record's, if any, is another one of the bucket. -/
theorem prevDesc_rec (nonzero : prevDesc front r.bucket ≠ 0) :
    ∃ s ∈ g.recs, s.bucket = r.bucket ∧ s.desc = prevDesc front r.bucket ∧ s.desc ≠ r.desc := by
  rcases prevDesc_cases layout split with ⟨zero, _⟩ | ⟨_, _, s, inFront, bucket, desc⟩
  · exact absurd zero nonzero
  · obtain ⟨inRecs, different⟩ := mem_without layout split (s := s) (List.mem_append_left _ inFront)
    exact ⟨s, inRecs, bucket, desc, different⟩

theorem prevDesc_mem (nonzero : prevDesc front r.bucket ≠ 0) :
    prevDesc front r.bucket ∈ g.descs ∧ prevDesc front r.bucket ≠ r.desc := by
  obtain ⟨s, inRecs, _, desc, different⟩ := prevDesc_rec layout split nonzero
  exact desc ▸ ⟨Shape.rec_desc_mem inRecs, different⟩

section Cleared
variable {i : Nat} (memAddr : (h.memMap i).memAddr = r.page)
include memAddr

/-- Every other descriptor keeps all but possibly its link. -/
private theorem released_member (member : d ∈ g.descs) (different : d ≠ r.desc) (offset length : Nat)
    (inside : offset + length ≤ 8 ∨ 16 ≤ offset ∧ offset + length ≤ descSize) :
    Agree (released h r.bucket (prevDesc front r.bucket) r.desc i).mem h.mem (d + offset) length := by
  have size : descSize = 40 := rfl
  have own : r ∈ g.recs := by simp [split]
  have descs := layout.descs_apart member (Shape.rec_desc_mem own) different
  have freed := layout.desc_page_apart member own
  refine released_agree (by omega) (fun nonzero => ?_) (by omega)
  by_cases same : d = prevDesc front r.bucket
  · omega
  · have far := layout.descs_apart member (prevDesc_mem layout split nonzero).1 same
    omega

/-- And its link too, unless it is the one before. -/
private theorem released_link (member : d ∈ g.descs) (different : d ≠ r.desc) (notPrev : d ≠ prevDesc front r.bucket) :
    next (released h r.bucket (prevDesc front r.bucket) r.desc i).mem d = next h.mem d := by
  have size : descSize = 40 := rfl
  have own : r ∈ g.recs := by simp [split]
  have descs := layout.descs_apart member (Shape.rec_desc_mem own) different
  have freed := layout.desc_page_apart member own
  refine load_agree (released_agree (by omega) (fun nonzero => ?_) (by omega))
  have far := layout.descs_apart member (prevDesc_mem layout split nonzero).1 notPrev
  omega

private theorem released_page (member : s ∈ g.recs) (different : s.desc ≠ r.desc) :
    Agree (released h r.bucket (prevDesc front r.bucket) r.desc i).mem h.mem s.page 4096 := by
  have size : descSize = 40 := rfl
  have own : r ∈ g.recs := by simp [split]
  have desc := layout.desc_page_apart (Shape.rec_desc_mem own) member
  have freed := layout.pages_apart (Shape.rec_page_mem member) (Shape.rec_page_mem own)
    (layout.rec_page_ne member own different)
  refine released_agree (by omega) (fun nonzero => ?_) (by omega)
  have far := layout.desc_page_apart (prevDesc_mem layout split nonzero).1 member
  omega

include holds

/-- The chain the descriptor was in skips it now. -/
private theorem released_chain :
    Linked (next (released h r.bucket (prevDesc front r.bucket) r.desc i).mem)
      ((released h r.bucket (prevDesc front r.bucket) r.desc i).chain r.bucket)
      (bucketDescs front r.bucket ++ bucketDescs back r.bucket) := by
  have own : r ∈ g.recs := by simp [split]
  have linked := holds.chains r.bucket (layout.bucket r own)
  have distinct := layout.chain_distinct r.bucket
  rw [chain_split split] at linked distinct
  have kept : ∀ d ∈ bucketDescs front r.bucket ++ bucketDescs back r.bucket, d ∈ g.descs ∧ d ≠ r.desc := by
    intro d member
    rw [← without_chain_same (g := g)] at member
    obtain ⟨s, inside, _, rfl⟩ := Shape.mem_chain.mp member
    obtain ⟨inRecs, different⟩ := mem_without layout split inside
    exact ⟨Shape.rec_desc_mem inRecs, different⟩
  have fresh : 0 ∉ bucketDescs front r.bucket ++ bucketDescs back r.bucket :=
    fun zero => layout.desc_ne_zero (kept 0 zero).1 rfl
  have redirected : bucketDescs front r.bucket ≠ [] →
      next (released h r.bucket (prevDesc front r.bucket) r.desc i).mem (prevDesc front r.bucket) =
        next h.mem r.desc := by
    intro nonempty
    rcases prevDesc_cases layout split with ⟨_, empty⟩ | ⟨nonzero, _, _⟩
    · exact absurd empty nonempty
    · obtain ⟨inDescs, different⟩ := prevDesc_mem layout split nonzero
      exact released_prev_next nonzero (layout.descs_apart inDescs (Shape.rec_desc_mem own) different)
        (memAddr ▸ (layout.desc_page_apart inDescs own).symm)
  have cut := linked.cut distinct fresh redirected
    (fun d member notPrev => released_link layout split memAddr (kept d member).1 (kept d member).2 notPrev)
  rcases prevDesc_cases layout split with ⟨zero, empty⟩ | ⟨nonzero, nonempty, _⟩
  · rw [if_pos empty] at cut
    simpa [released, unlinked, Heap.setUse, zero] using cut
  · rw [if_neg nonempty] at cut
    simpa [released, unlinked, Heap.setUse, nonzero] using cut

/-- The other chains are as they were. -/
private theorem released_chain_other (bound : k < 9) (other : r.bucket ≠ k) :
    Linked (next (released h r.bucket (prevDesc front r.bucket) r.desc i).mem)
      ((released h r.bucket (prevDesc front r.bucket) r.desc i).chain k) (g.chain k) := by
  have own : r ∈ g.recs := by simp [split]
  have kept : (released h r.bucket (prevDesc front r.bucket) r.desc i).chain k = h.chain k := by
    by_cases first : prevDesc front r.bucket = 0
    · simp [released, unlinked, Heap.setUse, first, Ne.symm other]
    · simp [released, unlinked, Heap.setUse, first]
  rw [kept]
  refine (holds.chains k bound).congr (fun d member => ?_)
  obtain ⟨s, inRecs, bucket, rfl⟩ := Shape.mem_chain.mp member
  refine released_link layout split memAddr (Shape.rec_desc_mem inRecs) (fun equal => ?_) (fun equal => ?_)
  · exact other (layout.rec_of_desc inRecs own equal ▸ bucket)
  · have nonzero := layout.desc_ne_zero (Shape.rec_desc_mem inRecs)
    obtain ⟨p, pInRecs, pBucket, pDesc, _⟩ := prevDesc_rec layout split (equal ▸ nonzero)
    rw [layout.rec_of_desc pInRecs inRecs (pDesc.trans equal.symm), bucket] at pBucket
    exact other pBucket.symm

/-- The descriptor is the first of the spare ones now. -/
private theorem released_spare :
    Linked (next (released h r.bucket (prevDesc front r.bucket) r.desc i).mem) r.desc (r.desc :: g.freeDescs) := by
  have own : r ∈ g.recs := by simp [split]
  have spare : ∀ d ∈ g.freeDescs, ∀ s ∈ g.recs, d ≠ s.desc := by
    intro d member s inRecs same
    exact (List.nodup_append.mp layout.descsDistinct).2.2 s.desc (List.mem_map_of_mem inRecs) d member same.symm
  refine ⟨rfl, layout.desc_ne_zero (Shape.rec_desc_mem own), ?_⟩
  rw [released_next (Holds.free_desc_lt layout holds)]
  refine holds.freeDescs.congr (fun d member => released_link layout split memAddr (Shape.free_desc_mem member)
    (spare d member r own) (fun same => ?_))
  have nonzero := layout.desc_ne_zero (Shape.free_desc_mem member)
  obtain ⟨s, inRecs, _, desc, _⟩ := prevDesc_rec layout split (same ▸ nonzero)
  exact spare d member s inRecs (same.trans desc.symm)

end Cleared

include holds

private theorem without_use (atPage : r.page = arena.pageAddr i) (below : j < arena.pages) :
    ((h.setUse i 0).memMap j).use = if arena.pageAddr j ∈ (Shape.without g front r back).pages then 1 else 0 := by
  have distinct := (without_pages split).nodup_iff.mp layout.pagesDistinct
  by_cases same : j = i
  · subst same
    have gone : arena.pageAddr j ∉ (Shape.without g front r back).pages :=
      atPage ▸ (List.nodup_cons.mp distinct).1
    simp [Heap.setUse, gone]
  · have other : arena.pageAddr j ≠ r.page := fun equal => same (pageAddr_injective (equal.trans atPage))
    have kept := holds.use j below
    simp only [(without_pages split).mem_iff, List.mem_cons, other, false_or] at kept
    simpa [Heap.setUse, same] using kept

private theorem without_holds (small : i < arena.pages) (atPage : r.page = arena.pageAddr i) :
    Holds arena (released h r.bucket (prevDesc front r.bucket) r.desc i) (Shape.without g front r back) := by
  have memAddr : (h.memMap i).memAddr = r.page := (holds.memAddr i small).trans atPage.symm
  refine {
    base := holds.base
    limit := holds.limit
    pagingPages := holds.pagingPages
    memAddr := fun j below => set_use_memAddr (h := h) (i := i) holds below
    use := fun j below => without_use (h := h) layout holds split atPage below
    chains := fun k bound => ?chains
    freeDescs := released_spare layout holds split memAddr
    recs := fun s member => ?recs
    kmap := fun s member => holds.kmap s (mem_without layout split member).1 }
  case chains =>
    by_cases same : r.bucket = k
    · subst same
      rw [without_chain_same]
      exact released_chain layout holds split memAddr
    · rw [without_chain_other split same]
      exact released_chain_other layout holds split memAddr bound same
  case recs =>
    obtain ⟨inRecs, different⟩ := mem_without layout split member
    have desc := Shape.rec_desc_mem inRecs
    refine (holds.recs s inRecs).frame (released_member layout split memAddr desc different 0 8 (.inl le_rfl))
      (released_member layout split memAddr desc different 16 24 (.inr (by decide))) (fun b free => ?_)
    have inside := layout.block_inside inRecs (layout.freeBlocks s inRecs b free)
    exact (released_page layout split memAddr inRecs different).mono (by omega) (by omega)

end Unlinked

/-- A page all of whose blocks are free leaves no client behind. -/
theorem without_accounts (layout : Layout arena g) (accounts : Accounts live g)
    (split : g.recs = front ++ r :: back) (full : r.free.length = 4096 / r.size) :
    Accounts live (Shape.without g front r back) := by
  have own : r ∈ g.recs := by simp [split]
  have everyBlock : ∀ b ∈ r.blocks, b ∈ r.free := by
    have sub := List.subperm_of_subset (layout.freeDistinct r own) (layout.freeBlocks r own)
    have perm := sub.perm_of_length_le (by rw [full, Rec.blocks, pageBlocks_length])
    exact fun b member => perm.symm.subset member
  refine { distinct := accounts.distinct, block := fun b inLive => ?_, held := fun s member => ?_ }
  · obtain ⟨s, inRecs, bucket, inBlocks, notFree⟩ := accounts.block b inLive
    rw [split] at inRecs
    rcases List.mem_cons.mp (List.perm_middle.subset inRecs) with rfl | kept
    · exact absurd (everyBlock b.addr inBlocks) notFree
    · exact ⟨s, kept, bucket, inBlocks, notFree⟩
  · exact accounts.held s (mem_without layout split member).1

end Without

/-- Releasing a page all of whose blocks are free keeps everything in step. -/
theorem release_full (layout : Layout arena g) (holds : Holds arena h g) (accounts : Accounts live g)
    (split : g.recs = front ++ r :: back) (full : r.free.length = 4096 / r.size)
    (busy : ∀ s ∈ g.recs, s.desc ≠ r.desc → s.free.length < 4096 / s.size) :
    ∃ after, releaseDesc r.bucket (prevDesc front r.bucket) r.desc h = .ret () after ∧
      Inv arena { heap := after, live := live } (Shape.without g front r back) := by
  have own : r ∈ g.recs := by simp [split]
  obtain ⟨_, i, small, atPage⟩ := layout.pagesInArena r.page (Shape.rec_page_mem own)
  have used : (h.memMap i).use = 1 := by
    rw [holds.use i small, if_pos (atPage ▸ Shape.rec_page_mem own)]
  have run := release_desc_run holds.base holds.limit (prevDesc_before layout holds split)
    (fun nonzero => by
      obtain ⟨member, different⟩ := prevDesc_mem layout split nonzero
      exact layout.descs_apart member (Shape.rec_desc_mem own) different)
    small used ((holds.recs r own).page.trans atPage)
  refine ⟨_, run, ?_⟩
  exact {
    layout := without_layout layout split
    holds := without_holds layout holds split small atPage
    accounts := without_accounts layout accounts split full
    busy := fun s member => by
      obtain ⟨inRecs, different⟩ := mem_without layout split member
      exact busy s inRecs different }

/-! ## What `free` returns -/

/-- In a bucket page `free` finds the descriptor; elsewhere it panics or reads
past the table. -/
theorem free_bucket_page (layout : Layout arena g) (holds : Holds arena h g)
    (split : g.recs = front ++ r :: back) (inside : pageOf obj = r.page) :
    free obj h = if obj % r.size ≠ 0 then .panic .freeUnalignAddr h
      else freeFound obj r.bucket (prevDesc front r.bucket) r.desc h := by
  have own : r ∈ g.recs := by simp [split]
  obtain ⟨_, i, small, atPage⟩ := layout.pagesInArena r.page (Shape.rec_page_mem own)
  have index : kmapIndex h obj = i := kmapIndex_of_page holds small (inside.trans atPage)
  have inTable : ¬ Config.pagingPages ≤ i := by
    have fits := arena.fits
    omega
  have entry : h.bdKmap i = r.size := by
    have kmap := holds.kmap r own
    rwa [atPage, Arena.pageAddr, Nat.add_sub_cancel_left, Nat.mul_div_cancel_left _ (by decide)] at kmap
  have aligned : misalignment obj r.size = obj % r.size := misalignment_bucket (layout.bucket r own)
  simp only [free, read_bind, index, if_neg inTable, entry, aligned, inside,
    findDesc_found layout holds split]
  split <;> rfl

theorem free_elsewhere (layout : Layout arena g) (holds : Holds arena h g)
    (outside : ∀ r ∈ g.recs, r.page ≠ pageOf obj) :
    free obj h = if Config.pagingPages ≤ kmapIndex h obj then .fault h
      else if misalignment obj (h.bdKmap (kmapIndex h obj)) ≠ 0 then .panic .freeUnalignAddr h
      else .panic .badAddress h := by
  have missed : findDesc h (pageOf obj) (h.bdKmap (kmapIndex h obj)) (List.range bucketSizes.length) = some none :=
    findDesc_missed layout holds outside _ (fun k member => List.mem_range.mp member)
  simp only [free, read_bind, missed]
  split
  · rfl
  · split <;> rfl

theorem freeFound_repeat (layout : Layout arena g) (own : r ∈ g.recs) (held : RecAt h.mem r)
    (listed : loadPtr h.mem obj ∈ r.free.tail) :
    freeFound obj k prev r.desc h = .panic .repeatFree h := by
  simp only [freeFound, read_bind, repeatCheck_eq layout own held, listed, decide_true, panic_apply]

theorem freeFound_pushed (layout : Layout arena g) (own : r ∈ g.recs) (held : RecAt h.mem r)
    (listed : loadPtr h.mem obj ∉ r.free.tail) :
    freeFound obj k prev r.desc h =
      if refcnt (pushMem h.mem r.desc obj) r.desc = 0
      then releaseDesc k prev r.desc { h with mem := pushMem h.mem r.desc obj }
      else .ret () { h with mem := pushMem h.mem r.desc obj } := by
  have count : refcnt (pushMem h.mem r.desc obj) r.desc =
      (refcnt (setFreeptr (storePtr h.mem obj (freeptr h.mem r.desc)) r.desc obj) r.desc + (2 ^ 16 - 1)) %
        2 ^ 16 := by
    rw [pushMem, refcnt, setRefcnt, field_setField_same]
    exact Nat.mod_eq_of_lt (Nat.mod_lt _ (by decide))
  rw [count]
  simp only [freeFound, read_bind, repeatCheck_eq layout own held, listed, decide_false, write_bind]
  split <;> rfl

/-- The record of a held block. -/
theorem rec_of_live (inv : Inv arena sys g) (live : Live sys.live obj) :
    ∃ front r back, g.recs = front ++ r :: back ∧ obj ∈ r.blocks ∧ obj ∉ r.free := by
  obtain ⟨b, inLive, rfl⟩ := live
  obtain ⟨r, inRecs, _, inBlocks, notFree⟩ := inv.accounts.block b inLive
  obtain ⟨front, back, split⟩ := List.append_of_mem inRecs
  exact ⟨front, r, back, split, inBlocks, notFree⟩

theorem pageOf_block (layout : Layout arena g) (own : r ∈ g.recs) (block : obj ∈ r.blocks) :
    pageOf obj = r.page ∧ obj % r.size = 0 := by
  obtain ⟨_, fits⟩ := block_lt layout own block
  have inside := layout.block_inside own block
  have aligned := layout.page_aligned (Shape.rec_page_mem own)
  have multiple := ((mem_pageBlocks_iff (layout.bucket r own) aligned).mp block).2.2
  refine ⟨?_, multiple⟩
  rw [pageOf_eq fits]
  omega

/-- Freeing a held block panics when the repeat check is fooled, and succeeds
otherwise. -/
theorem free_live (inv : Inv arena sys g) (split : g.recs = front ++ r :: back) (block : obj ∈ r.blocks)
    (notFree : obj ∉ r.free) :
    (loadPtr sys.heap.mem obj ∈ r.free.tail ∧ free obj sys.heap = .panic .repeatFree sys.heap) ∨
      loadPtr sys.heap.mem obj ∉ r.free.tail ∧ ∃ after g', free obj sys.heap = .ret () after ∧
        Inv arena { heap := after, live := sys.live.filter (fun b => b.addr ≠ obj) } g' ∧
        g'.descPages = g.descPages := by
  have own : r ∈ g.recs := by simp [split]
  have held := inv.holds.recs r own
  obtain ⟨inside, multiple⟩ := pageOf_block inv.layout own block
  have found := free_bucket_page inv.layout inv.holds split inside
  rw [if_neg (by simpa using multiple)] at found
  by_cases listed : loadPtr sys.heap.mem obj ∈ r.free.tail
  · exact .inl ⟨listed, found.trans (freeFound_repeat inv.layout own held listed)⟩
  refine .inr ⟨listed, ?_⟩
  rw [found, freeFound_pushed inv.layout own held listed]
  have counted : 0 < refcnt sys.heap.mem r.desc := by
    have count := held.count
    have busy := inv.busy r own
    omega
  obtain ⟨layout, holds, accounts⟩ :=
    push_block inv.layout inv.holds inv.accounts split block notFree counted
  have pushed := push_recAt inv.layout own held block notFree counted
  split_ifs with last
  · -- The last block of the page: descriptor and page go back.
    have full : (obj :: r.free).length = 4096 / r.size := by
      have count := pushed.count
      rw [last, Nat.zero_add] at count
      exact count
    have busy : ∀ s ∈ (g.withFree front r back (obj :: r.free)).recs, s.desc ≠ r.desc →
        s.free.length < 4096 / s.size := by
      intro s member different
      rcases mem_withFree inv.layout split member with rfl | ⟨inRecs, _⟩
      · exact absurd rfl different
      · exact inv.busy s inRecs
    obtain ⟨after, run, kept⟩ := release_full (r := { r with free := obj :: r.free }) layout holds accounts rfl full busy
    exact ⟨after, _, run, kept, rfl⟩
  · refine ⟨_, _, rfl, ⟨layout, holds, accounts, fun s member => ?_⟩, rfl⟩
    rcases mem_withFree inv.layout split member with rfl | ⟨inRecs, _⟩
    · have count : refcnt (pushMem sys.heap.mem r.desc obj) r.desc + (obj :: r.free).length = 4096 / r.size :=
        pushed.count
      show (obj :: r.free).length < 4096 / r.size
      omega
    · exact inv.busy s inRecs


end RockOs.MallocRelease
