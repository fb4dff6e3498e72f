import RockOs.MallocShape

/-! Allocation keeps the shape. Taking a block moves it from the head of a
free list to its caller; opening a bucket turns a spare descriptor and a free
page into a new head of the chain with every block free. -/
namespace RockOs.MallocAllocate
open ByteMemory LinkedChain Machine MemoryPages Malloc MallocSystem MallocShape WordBits

variable {arena : Arena} {h : Heap} {g : Shape} {r : Rec}

/-! ## Pages and threads -/

/-- `get_free_page` takes a page outside the shape, or finds none. -/
theorem get_free_page_cases (holds : Holds arena h g) :
    getFreePage h = .ret 0 h ∨
      ∃ i < arena.pages, arena.pageAddr i ∉ g.pages ∧
        getFreePage h = .ret (arena.pageAddr i) (h.setUse i 1) := by
  unfold getFreePage
  rw [read_bind]
  cases found : (List.range h.pagingPages).find? (fun i => (h.memMap i).use = 0) with
  | none => exact .inl rfl
  | some i =>
    have idle : (h.memMap i).use = 0 := by simpa using List.find?_some found
    have small : i < arena.pages := by
      have member := List.mem_of_find?_eq_some found
      rwa [List.mem_range, holds.pagingPages] at member
    refine .inr ⟨i, small, ?_, ?_⟩
    · intro member
      have used := holds.use i small
      rw [if_pos member, idle] at used
      cases used
    · simp only [idle, write_bind, pure_apply, holds.memAddr i small]
      rfl

/-- `get_free_page` looks at no memory and no descriptor. -/
theorem get_free_page_frame {middle : Heap} (taken : getFreePage h = .ret p middle) (mem : Mem)
    (freeBucketDesc : Nat) :
    getFreePage { h with mem, freeBucketDesc } = .ret p { middle with mem, freeBucketDesc } := by
  simp only [getFreePage, read_bind] at taken ⊢
  cases found : (List.range h.pagingPages).find? (fun i => (h.memMap i).use = 0) with
  | none =>
    rw [found] at taken
    cases taken
    rfl
  | some i =>
    rw [found] at taken
    cases taken
    rfl

private theorem thread_end (offset stride left cell : Nat) (mem : Mem) :
    (thread offset stride left cell mem).2 = cell + stride * left := by
  induction left generalizing cell mem with
  | zero => rfl
  | succ left ih =>
    rw [thread, ih, Nat.mul_succ]
    omega

/-- Threading writes inside the cells it leaves only. -/
theorem thread_agree (room : offset + 8 ≤ stride) (left cell address length : Nat) (mem : Mem)
    (apart : cell + stride * left ≤ address ∨ address + length ≤ cell) :
    Agree (thread offset stride left cell mem).1 mem address length := by
  induction left generalizing cell mem with
  | zero => exact fun _ _ _ => rfl
  | succ left ih =>
    rw [Nat.mul_succ] at apart
    have outer := ih (cell + stride) (storePtr mem (cell + offset) (cell + stride)) (by omega)
    exact outer.trans (storePtr_agree (by omega))

private theorem thread_link (room : offset + 8 ≤ stride) (left cell j : Nat) (mem : Mem)
    (fits : cell + stride * left < 2 ^ 64) (small : j < left) :
    loadPtr (thread offset stride left cell mem).1 (cell + stride * j + offset) =
      cell + stride * (j + 1) := by
  induction left generalizing cell mem j with
  | zero => omega
  | succ left ih =>
    rw [Nat.mul_succ] at fits
    cases j with
    | zero =>
      have kept := thread_agree room left (cell + stride) (cell + offset) 8
        (storePtr mem (cell + offset) (cell + stride)) (by omega)
      rw [thread, Nat.mul_zero, Nat.add_zero, loadPtr_agree kept, loadPtr_storePtr_same (by omega)]
      omega
    | succ j =>
      have inner := ih (cell + stride) j (storePtr mem (cell + offset) (cell + stride)) (by omega) (by omega)
      have here : cell + stride * (j + 1) = cell + stride + stride * j := by
        rw [Nat.mul_succ]
        omega
      have there : cell + stride * (j + 1 + 1) = cell + stride + stride * (j + 1) := by
        rw [Nat.mul_succ stride (j + 1)]
        omega
      rw [thread, here, there]
      exact inner

/-! ## A fresh page of descriptors -/

/-- The shape after `init_bucket_desc` cut `p` into spare descriptors. -/
def Shape.withDescPage (g : Shape) (p : Nat) : Shape :=
  { g with
    freeDescs := (List.range descsPerPage).map (fun j => p + descSize * j) ++ g.freeDescs
    descPages := p :: g.descPages }

private theorem mem_descs_withDescPage : d ∈ (Shape.withDescPage g p).descs ↔
    d ∈ g.descs ∨ ∃ j < descsPerPage, d = p + descSize * j := by
  simp only [Shape.descs, Shape.withDescPage, List.mem_append, List.mem_map, List.mem_range]
  constructor
  · rintro (member | ⟨j, small, rfl⟩ | member)
    · exact .inl (.inl member)
    · exact .inr ⟨j, small, rfl⟩
    · exact .inl (.inr member)
  · rintro ((member | member) | ⟨j, small, rfl⟩)
    · exact .inl member
    · exact .inr (.inr member)
    · exact .inr (.inl ⟨j, small, rfl⟩)

/-- A page outside the shape shares no byte with a descriptor of it. -/
theorem fresh_page_desc_apart (layout : Layout arena g) (fresh : arena.pageAddr i ∉ g.pages)
    (member : d ∈ g.descs) :
    d + descSize ≤ arena.pageAddr i ∨ arena.pageAddr i + 4096 ≤ d := by
  obtain ⟨p, pageMember, low, high⟩ := layout.desc_inside member
  have aligned := layout.page_aligned (Shape.desc_page_mem pageMember)
  have own : arena.pageAddr i % 4096 = 0 := pageAddr_aligned
  have different : p ≠ arena.pageAddr i := by
    rintro rfl
    exact fresh (Shape.desc_page_mem pageMember)
  omega

private theorem fresh_page_apart (layout : Layout arena g) (fresh : arena.pageAddr i ∉ g.pages)
    (member : p ∈ g.pages) : p + 4096 ≤ arena.pageAddr i ∨ arena.pageAddr i + 4096 ≤ p := by
  have aligned := layout.page_aligned member
  have own : arena.pageAddr i % 4096 = 0 := pageAddr_aligned
  have different : p ≠ arena.pageAddr i := by
    rintro rfl
    exact fresh member
  omega

private theorem withDescPage_layout (layout : Layout arena g) (small : i < arena.pages)
    (fresh : arena.pageAddr i ∉ g.pages) (nonzero : arena.pageAddr i ≠ 0) :
    Layout arena (Shape.withDescPage g (arena.pageAddr i)) where
  descsDistinct := by
    have perm : (Shape.withDescPage g (arena.pageAddr i)).descs.Perm
        ((List.range descsPerPage).map (fun j => arena.pageAddr i + descSize * j) ++ g.descs) := by
      simp only [Shape.descs, Shape.withDescPage]
      rw [← List.append_assoc, ← List.append_assoc]
      exact List.Perm.append_right _ List.perm_append_comm
    refine perm.nodup_iff.mpr (List.nodup_append.mpr ⟨?_, layout.descsDistinct, ?_⟩)
    · refine List.Nodup.map_on (fun i _ j _ same => ?_) List.nodup_range
      unfold descSize at same
      omega
    · intro d member e old same
      subst same
      obtain ⟨j, inRange, rfl⟩ := List.mem_map.mp member
      have apart := fresh_page_desc_apart layout fresh old
      have count : descsPerPage = 102 := rfl
      have bound := List.mem_range.mp inRange
      unfold descSize at apart
      omega
  descs_iff := by
    intro d
    rw [mem_descs_withDescPage, layout.descs_iff]
    simp only [Shape.withDescPage, List.mem_cons, exists_eq_or_imp]
    exact Or.comm
  pagesDistinct := List.nodup_cons.mpr ⟨fresh, layout.pagesDistinct⟩
  pagesInArena := by
    intro p member
    rcases List.mem_cons.mp member with rfl | member
    · exact ⟨nonzero, i, small, rfl⟩
    · exact layout.pagesInArena p member
  bucket := layout.bucket
  freeDistinct := layout.freeDistinct
  freeBlocks := layout.freeBlocks

/-- Once the taken page joins the shape, the use counts match it again. -/
theorem set_use_taken {pages : List Nat} (holds : Holds arena h g)
    (joined : ∀ p, p ∈ pages ↔ p = arena.pageAddr i ∨ p ∈ g.pages) :
    ∀ j < arena.pages,
      ((h.setUse i 1).memMap j).use = if arena.pageAddr j ∈ pages then 1 else 0 := by
  intro j small
  by_cases same : j = i
  · subst same
    simp [Heap.setUse, joined]
  · have other : arena.pageAddr j ≠ arena.pageAddr i := fun equal => same (pageAddr_injective equal)
    simp only [Heap.setUse, Function.update_of_ne same, holds.use j small, joined, other, false_or]

/-- Memory after a page was cut into descriptors in front of `head`. -/
def descPageMem (mem : Mem) (p head : Nat) : Mem :=
  setNext (thread 8 descSize (descsPerPage - 1) p mem).1 (p + descSize * (descsPerPage - 1)) head

private theorem descPageMem_agree (apart : address + length ≤ p ∨ p + 4096 ≤ address) :
    Agree (descPageMem mem p head) mem address length := by
  have count : descsPerPage = 102 := rfl
  have size : descSize = 40 := rfl
  refine Agree.trans (store_agree ?_) (thread_agree ?_ _ _ _ _ _ ?_) <;> rw [count, size] at * <;> omega

private theorem descPageMem_linked (nonzero : p ≠ 0) (fits : p + 4096 < 2 ^ 64) (headFits : head < 2 ^ 64)
    (rest : Linked (next (descPageMem mem p head)) head items) :
    Linked (next (descPageMem mem p head)) p
      ((List.range descsPerPage).map (fun j => p + descSize * j) ++ items) := by
  have count : descsPerPage = 101 + 1 := rfl
  rw [count]
  refine linked_run nonzero (fun j small => ?_) ?_ rest
  · have link := thread_link (by decide : 8 + 8 ≤ descSize) 101 p j mem (by unfold descSize; omega) small
    have kept : next (descPageMem mem p head) (p + descSize * j) =
        loadPtr (thread 8 descSize 101 p mem).1 (p + descSize * j + 8) :=
      load_store_apart (by unfold descSize; omega)
    rw [kept, link]
  · exact field_setField_same.trans (Nat.mod_eq_of_lt headFits)

/-- A returning `init_bucket_desc` leaves the same bucket pages, one more
descriptor page and at least one spare descriptor. -/
theorem init_bucket_desc_spec (layout : Layout arena g) (holds : Holds arena h g) :
    (initBucketDesc h).Safe (fun _ after =>
      ∃ g', Layout arena g' ∧ Holds arena after g' ∧ g'.recs = g.recs ∧ g'.freeDescs ≠ [] ∧
        g'.descPages = pageTaken (getFreePage h) ++ g.descPages) := by
  unfold initBucketDesc
  rcases get_free_page_cases holds with none | ⟨i, small, fresh, taken⟩
  · rw [bind_of_ret none]
    simp
  rw [bind_of_ret taken]
  by_cases zero : arena.pageAddr i = 0
  · simp [zero]
  simp only [zero, ↓reduceIte, read_bind, write_apply, thread_end, ends_ret]
  have inside := pageAddr_lt small
  have headFits : h.freeBucketDesc < 2 ^ 64 := Holds.free_desc_lt layout holds
  have descAgree : ∀ d ∈ g.descs,
      Agree (descPageMem h.mem (arena.pageAddr i) h.freeBucketDesc) h.mem d descSize :=
    fun d member => descPageMem_agree (by have := fresh_page_desc_apart layout fresh member; omega)
  have pageAgree : ∀ p ∈ g.pages,
      Agree (descPageMem h.mem (arena.pageAddr i) h.freeBucketDesc) h.mem p 4096 :=
    fun p member => descPageMem_agree (by have := fresh_page_apart layout fresh member; omega)
  refine ⟨Shape.withDescPage g (arena.pageAddr i), withDescPage_layout layout small fresh zero, ?_, rfl, ?_,
    by rw [taken]; rfl⟩
  · exact {
      base := holds.base
      limit := holds.limit
      pagingPages := holds.pagingPages
      memAddr := fun j bound => set_use_memAddr holds bound
      use := set_use_taken holds (fun p => List.mem_cons)
      chains := fun k bound => (holds.chains k bound).congr (fun d member => by
        obtain ⟨r, inRecs, rfl⟩ := List.mem_map.mp member
        exact next_agree (descAgree r.desc (Shape.rec_desc_mem (List.mem_of_mem_filter inRecs))))
      freeDescs := descPageMem_linked zero inside headFits
        (holds.freeDescs.congr (fun d member => next_agree (descAgree d (Shape.free_desc_mem member))))
      recs := fun r member => RecAt.frame_page layout member (holds.recs r member)
        (descAgree r.desc (Shape.rec_desc_mem member)) (pageAgree r.page (Shape.rec_page_mem member))
      kmap := holds.kmap }
  · simp [Shape.withDescPage, descsPerPage, descSize]

/-! ## A fresh bucket page -/

/-- Memory after descriptor `d` took page `cp` with all its blocks threaded,
in front of the chain at `head`. -/
def bucketMem (mem : Mem) (d cp size head : Nat) : Mem :=
  let described := setPage (setFreeptr (setBucketSize (setRefcnt mem d 0) d size) d cp) d cp
  setNext (carveBlocks described size cp) d head

private theorem carveBlocks_eq : carveBlocks mem size cp =
    storePtr (thread 0 size (4096 / size - 1) cp mem).1 (cp + size * (4096 / size - 1)) 0 := by
  rw [← thread_end 0 size (4096 / size - 1) cp mem]
  rfl

/-- The room the threads need, for every bucket. -/
theorem bucket_room (bound : k < 9) :
    8 ≤ bucketSize k ∧ bucketSize k * (4096 / bucketSize k - 1) + bucketSize k = 4096 ∧
      0 < 4096 / bucketSize k := by
  interval_cases k <;> decide

section BucketMem
variable {mem : Mem} {d cp head k : Nat}

private theorem bucketMem_agree (bound : k < 9) (desc : d + descSize ≤ address ∨ address + length ≤ d)
    (page : cp + 4096 ≤ address ∨ address + length ≤ cp) :
    Agree (bucketMem mem d cp (bucketSize k) head) mem address length := by
  obtain ⟨small, whole, _⟩ := bucket_room bound
  have width : descSize = 40 := rfl
  have described : Agree
      (setPage (setFreeptr (setBucketSize (setRefcnt mem d 0) d (bucketSize k)) d cp) d cp) mem
      address length :=
    ((store_agree (by omega)).trans (store_agree (by omega))).trans
      ((store_agree (by omega)).trans (store_agree (by omega)))
  have threaded := thread_agree (by omega : 0 + 8 ≤ bucketSize k) (4096 / bucketSize k - 1) cp address length
    (setPage (setFreeptr (setBucketSize (setRefcnt mem d 0) d (bucketSize k)) d cp) d cp) (by omega)
  rw [bucketMem, carveBlocks_eq]
  exact (store_agree (by omega)).trans ((storePtr_agree (by omega)).trans (threaded.trans described))

/-- The descriptor fields, once the page is known not to overlap it. -/
theorem bucketMem_field (bound : k < 9) (apart : d + descSize ≤ cp ∨ cp + 4096 ≤ d)
    (inside : offset + width ≤ descSize) (notNext : offset + width ≤ 8 ∨ 16 ≤ offset) :
    field (bucketMem mem d cp (bucketSize k) head) d offset width =
      field (setPage (setFreeptr (setBucketSize (setRefcnt mem d 0) d (bucketSize k)) d cp) d cp) d
        offset width := by
  obtain ⟨small, whole, _⟩ := bucket_room bound
  unfold bucketMem setNext
  rw [field_setField_apart (by omega), carveBlocks_eq]
  refine load_agree ((storePtr_agree ?_).trans (thread_agree (by omega) _ _ _ _ _ ?_)) <;> omega

private theorem bucketMem_recAt (mem : Mem) (head : Nat) (bound : k < 9) (apart : d + descSize ≤ cp ∨ cp + 4096 ≤ d)
    (nonzero : cp ≠ 0) (fits : cp + 4096 < 2 ^ 64) :
    RecAt (bucketMem mem d cp (bucketSize k) head) ⟨k, d, cp, pageBlocks cp (bucketSize k)⟩ := by
  obtain ⟨small, whole, some⟩ := bucket_room bound
  have width : descSize = 40 := rfl
  have pageFits : cp % 256 ^ 8 = cp := Nat.mod_eq_of_lt (by omega)
  constructor
  · show field _ d 0 8 = cp
    rw [bucketMem_field bound apart (by omega) (by omega)]
    exact field_setField_same.trans pageFits
  · show Linked _ (field _ d 16 8) _
    rw [bucketMem_field bound apart (by omega) (by omega), setPage, field_setField_apart (by omega),
      setFreeptr, field_setField_same, pageFits]
    have count : 4096 / bucketSize k = (4096 / bucketSize k - 1) + 1 := by omega
    have chain : Linked (loadPtr (bucketMem mem d cp (bucketSize k) head)) cp
        ((List.range ((4096 / bucketSize k - 1) + 1)).map (fun j => cp + bucketSize k * j) ++ []) := by
      refine linked_run nonzero (fun j below => ?_) ?_ (linked_nil.mpr rfl)
      · have inner : bucketSize k * (j + 1) ≤ bucketSize k * (4096 / bucketSize k - 1) :=
          Nat.mul_le_mul_left _ below
        rw [Nat.mul_succ] at inner
        have kept : loadPtr (bucketMem mem d cp (bucketSize k) head) (cp + bucketSize k * j) =
            loadPtr (thread 0 (bucketSize k) (4096 / bucketSize k - 1) cp (setPage (setFreeptr
              (setBucketSize (setRefcnt mem d 0) d (bucketSize k)) d cp) d cp)).1 (cp + bucketSize k * j) := by
          rw [bucketMem, carveBlocks_eq]
          exact loadPtr_agree ((store_agree (by omega)).trans (storePtr_agree (by omega)))
        rw [kept]
        exact thread_link (by omega : 0 + 8 ≤ bucketSize k) _ cp j _ (by omega) below
      · have kept : loadPtr (bucketMem mem d cp (bucketSize k) head)
            (cp + bucketSize k * (4096 / bucketSize k - 1)) = 0 := by
          rw [bucketMem, carveBlocks_eq]
          exact (loadPtr_agree (store_agree (by omega))).trans (loadPtr_storePtr_same (by omega))
        exact kept
    rw [pageBlocks, count]
    simpa using chain
  · show field _ d 24 2 + (pageBlocks cp (bucketSize k)).length = _
    rw [bucketMem_field bound apart (by omega) (by omega), setPage, field_setField_apart (by omega),
      setFreeptr, field_setField_apart (by omega), setBucketSize, field_setField_apart (by omega),
      setRefcnt, field_setField_same, pageBlocks_length]
    simp [Rec.size]
  · show field _ d 32 8 = bucketSize k
    rw [bucketMem_field bound apart (by omega) (by omega), setPage, field_setField_apart (by omega),
      setFreeptr, field_setField_apart (by omega), setBucketSize, field_setField_same]
    exact Nat.mod_eq_of_lt (by omega)

private theorem bucketMem_next (fits : head < 2 ^ 64) :
    next (bucketMem mem d cp (bucketSize k) head) d = head :=
  field_setField_same.trans (Nat.mod_eq_of_lt fits)

end BucketMem

/-- The shape after the first spare descriptor took page `cp`. -/
def Shape.withBucket (g : Shape) (d : Nat) (spare : List Nat) (k cp : Nat) : Shape :=
  { g with
    recs := ⟨k, d, cp, pageBlocks cp (bucketSize k)⟩ :: g.recs
    freeDescs := spare }

private theorem withBucket_layout (bound : k < 9) (layout : Layout arena g) (free : g.freeDescs = d :: spare)
    (small : i < arena.pages) (fresh : arena.pageAddr i ∉ g.pages) (nonzero : arena.pageAddr i ≠ 0) :
    Layout arena (Shape.withBucket g d spare k (arena.pageAddr i)) := by
  have descPerm : (Shape.withBucket g d spare k (arena.pageAddr i)).descs.Perm g.descs := by
    rw [Shape.descs, Shape.descs, free]
    exact List.perm_middle.symm
  have pagePerm : (Shape.withBucket g d spare k (arena.pageAddr i)).pages.Perm
      (arena.pageAddr i :: g.pages) := List.perm_middle
  refine {
    descsDistinct := descPerm.nodup_iff.mpr layout.descsDistinct
    descs_iff := fun e => descPerm.mem_iff.trans (layout.descs_iff e)
    pagesDistinct := pagePerm.nodup_iff.mpr (List.nodup_cons.mpr ⟨fresh, layout.pagesDistinct⟩)
    pagesInArena := fun p member => ?_
    bucket := fun r member => ?_
    freeDistinct := fun r member => ?_
    freeBlocks := fun r member => ?_ }
  · rcases List.mem_cons.mp (pagePerm.mem_iff.mp member) with rfl | member
    · exact ⟨nonzero, i, small, rfl⟩
    · exact layout.pagesInArena p member
  · rcases List.mem_cons.mp member with rfl | member
    · exact bound
    · exact layout.bucket r member
  · rcases List.mem_cons.mp member with rfl | member
    · exact pageBlocks_nodup bound
    · exact layout.freeDistinct r member
  · rcases List.mem_cons.mp member with rfl | member
    · exact fun b free => free
    · exact layout.freeBlocks r member

/-- A fresh page and a spare descriptor: all other descriptors are as they were. -/
private theorem bucketMem_desc (bound : k < 9) (layout : Layout arena g) (dMember : d ∈ g.descs)
    (fresh : arena.pageAddr i ∉ g.pages) (member : e ∈ g.descs) (different : e ≠ d) :
    Agree (bucketMem mem d (arena.pageAddr i) (bucketSize k) head) mem e descSize := by
  have descs := layout.descs_apart member dMember different
  have page := fresh_page_desc_apart layout fresh member
  exact bucketMem_agree bound (by omega) (by omega)

private theorem rec_desc_ne_spare (layout : Layout arena g) (free : g.freeDescs = d :: spare) (member : r ∈ g.recs) :
    r.desc ≠ d := by
  intro same
  exact (List.nodup_append.mp layout.descsDistinct).2.2 r.desc (List.mem_map_of_mem member) d (by simp [free]) same

/-- All chains are as they were. -/
private theorem bucketMem_chains (head : Nat) (bound : k < 9) (layout : Layout arena g) (holds : Holds arena h g)
    (free : g.freeDescs = d :: spare) (fresh : arena.pageAddr i ∉ g.pages) (small : j < 9) :
    Linked (next (bucketMem h.mem d (arena.pageAddr i) (bucketSize k) head)) (h.chain j) (g.chain j) := by
  refine (holds.chains j small).congr (fun e member => ?_)
  obtain ⟨r, inRecs, rfl⟩ := List.mem_map.mp member
  have member := List.mem_of_mem_filter inRecs
  exact next_agree (bucketMem_desc bound layout (Shape.free_desc_mem (by simp [free])) fresh (Shape.rec_desc_mem member)
    (rec_desc_ne_spare layout free member))

/-- The chain of the bucket begins with the descriptor now. -/
private theorem withBucket_chains (bound : k < 9) (layout : Layout arena g) (holds : Holds arena h g)
    (free : g.freeDescs = d :: spare) (fresh : arena.pageAddr i ∉ g.pages) (below : j < 9) :
    Linked (next (bucketMem h.mem d (arena.pageAddr i) (bucketSize k) (h.chain k))) (Function.update h.chain k d j)
      ((Shape.withBucket g d spare k (arena.pageAddr i)).chain j) := by
  have kept := bucketMem_chains (h.chain k) bound layout holds free fresh below
  by_cases same : j = k
  · subst same
    have chain : (Shape.withBucket g d spare j (arena.pageAddr i)).chain j = d :: g.chain j := by
      simp [Shape.chain, Shape.withBucket]
    rw [chain]
    refine ⟨by simp, layout.desc_ne_zero (Shape.free_desc_mem (by simp [free])), ?_⟩
    rw [show next _ d = h.chain j from bucketMem_next (Holds.chain_lt layout holds below)]
    exact kept
  · have chain : (Shape.withBucket g d spare k (arena.pageAddr i)).chain j = g.chain j := by
      simp [Shape.chain, Shape.withBucket, Ne.symm same]
    rw [chain]
    simpa [Function.update_of_ne same] using kept

private theorem withBucket_spare (bound : k < 9) (layout : Layout arena g) (holds : Holds arena h g)
    (free : g.freeDescs = d :: spare) (fresh : arena.pageAddr i ∉ g.pages) :
    Linked (next (bucketMem h.mem d (arena.pageAddr i) (bucketSize k) head)) (next h.mem d) spare := by
  have linked := holds.freeDescs
  have distinct := (List.nodup_append.mp layout.descsDistinct).2.1
  rw [free] at linked distinct
  have others : ∀ e ∈ spare, e ≠ d := fun e member same => (List.nodup_cons.mp distinct).1 (same ▸ member)
  exact linked.2.2.congr (fun e member => next_agree (bucketMem_desc bound layout (Shape.free_desc_mem (by simp [free]))
    fresh (Shape.free_desc_mem (by simp [free, member])) (others e member)))

/-- The number of a page in `bd_kmap`. -/
private theorem pageAddr_number : (arena.pageAddr i - arena.base) / 4096 = i := by
  unfold Arena.pageAddr
  omega

private theorem withBucket_kmap (layout : Layout arena g) (holds : Holds arena h g) (fresh : arena.pageAddr i ∉ g.pages)
    (member : r ∈ (Shape.withBucket g d spare k (arena.pageAddr i)).recs) :
    Function.update h.bdKmap i (bucketSize k) ((r.page - arena.base) / 4096) = r.size := by
  rcases List.mem_cons.mp member with rfl | member
  · simp [pageAddr_number, Rec.size]
  · have different : (r.page - arena.base) / 4096 ≠ i := by
      intro same
      obtain ⟨_, j, _, atJ⟩ := layout.pagesInArena r.page (Shape.rec_page_mem member)
      rw [atJ, pageAddr_number] at same
      exact fresh (same ▸ atJ ▸ Shape.rec_page_mem member)
    simpa [Function.update_of_ne different] using holds.kmap r member

/-- The descriptors written over are spare, so no chain and no record loses a
field it reads. -/
theorem withBucket_holds (bound : k < 9) (layout : Layout arena g) (holds : Holds arena h g)
    (free : g.freeDescs = d :: spare) (small : i < arena.pages)
    (fresh : arena.pageAddr i ∉ g.pages) (nonzero : arena.pageAddr i ≠ 0) :
    Holds arena { h.setUse i 1 with
      freeBucketDesc := next h.mem d
      mem := bucketMem h.mem d (arena.pageAddr i) (bucketSize k) (h.chain k)
      chain := Function.update h.chain k d
      bdKmap := Function.update h.bdKmap i (bucketSize k) }
      (Shape.withBucket g d spare k (arena.pageAddr i)) := by
  have dMember : d ∈ g.descs := Shape.free_desc_mem (by simp [free])
  have inside := pageAddr_lt small
  refine {
    base := holds.base
    limit := holds.limit
    pagingPages := holds.pagingPages
    memAddr := fun j below => set_use_memAddr holds below
    use := set_use_taken holds (fun p => List.perm_middle.mem_iff.trans List.mem_cons)
    chains := fun j below => withBucket_chains bound layout holds free fresh below
    freeDescs := withBucket_spare bound layout holds free fresh
    recs := fun r member => ?_
    kmap := fun r member => withBucket_kmap layout holds fresh member }
  rcases List.mem_cons.mp member with rfl | member
  · exact bucketMem_recAt _ _ bound (fresh_page_desc_apart layout fresh dMember) nonzero inside
  · have pages := fresh_page_apart layout fresh (Shape.rec_page_mem member)
    have desc := layout.desc_page_apart dMember member
    exact RecAt.frame_page layout member (holds.recs r member)
      (bucketMem_desc bound layout dMember fresh (Shape.rec_desc_mem member) (rec_desc_ne_spare layout free member))
      (bucketMem_agree bound (by omega) (by omega))

/-- The index `malloc` computes for a page of the arena is its number. -/
theorem kmap_index (small : i < arena.pages) :
    (sub64 (arena.pageAddr i) arena.base % 2 ^ 32) >>> 12 = i := by
  have fits := arena.fits
  have space := arena.inSpace
  rw [Config.pagingPages_eq] at fits
  unfold Arena.pageAddr
  rw [sub64_of_le (by omega) (by omega), Nat.shiftRight_eq_div_pow]
  omega

private theorem carve_page_run (inRange : ¬ Config.pagingPages ≤ i)
    (index : (sub64 (page (setNext (carveBlocks h.mem (bucketSize k) cp) d (h.chain k)) d)
      h.mallocBase % 2 ^ 32) >>> 12 = i) :
    carvePage k d cp h = .ret d { h with
      mem := setNext (carveBlocks h.mem (bucketSize k) cp) d (h.chain k)
      chain := Function.update h.chain k d
      bdKmap := Function.update h.bdKmap i (bucketSize k) } := by
  unfold carvePage
  simp only [read_bind, index, inRange, ↓reduceIte, write_bind, pure_apply]

/-- The state and descriptor after a fresh page joined bucket `k`: where the
descriptor pages now are, and which page it was. -/
def Opened (arena : Arena) (g : Shape) (k : Nat) (descPages cp : List Nat) (d : Nat) (after : Heap) : Prop :=
  ∃ g' r, Layout arena g' ∧ Holds arena after g' ∧ g'.recs = r :: g.recs ∧
    r.bucket = k ∧ r.desc = d ∧ r.free = r.blocks ∧ g'.descPages = descPages ∧ cp = [r.page]

private theorem open_bucket_spec (bound : k < 9) (layout : Layout arena g) (holds : Holds arena h g)
    (some : g.freeDescs ≠ []) :
    (openBucket k h).Safe (Opened arena g k g.descPages (pageTaken (getFreePage h))) := by
  obtain ⟨e, spare, free⟩ := List.exists_cons_of_ne_nil some
  have head := holds.freeDescs.head
  rw [free, List.headD_cons] at head
  unfold openBucket
  simp only [read_bind, write_bind]
  rcases get_free_page_cases holds with none | ⟨i, small, fresh, taken⟩
  · rw [bind_of_ret (get_free_page_frame none _ _)]
    simp
  rw [bind_of_ret (get_free_page_frame taken _ _)]
  by_cases zero : arena.pageAddr i = 0
  · simp [zero]
  have inRange : ¬ Config.pagingPages ≤ i := by
    have fits := arena.fits
    omega
  have dMember : e ∈ g.descs := Shape.free_desc_mem (by simp [free])
  have inside := pageAddr_lt small
  have pageIs : page (bucketMem h.mem e (arena.pageAddr i) (bucketSize k) (h.chain k)) e = arena.pageAddr i :=
    (bucketMem_recAt _ _ bound (fresh_page_desc_apart layout fresh dMember) zero inside).page
  have index : (sub64 (page (bucketMem h.mem e (arena.pageAddr i) (bucketSize k) (h.chain k)) e)
      h.mallocBase % 2 ^ 32) >>> 12 = i := by
    rw [pageIs, holds.base]
    exact kmap_index small
  simp only [read_bind, write_bind, zero, ↓reduceIte, head]
  rw [carve_page_run inRange ?atIndex]
  case atIndex => exact index
  exact ⟨_, ⟨k, e, arena.pageAddr i, pageBlocks (arena.pageAddr i) (bucketSize k)⟩,
    withBucket_layout bound layout free small fresh zero,
    withBucket_holds bound layout holds free small fresh zero, rfl, rfl, rfl, rfl, rfl,
    by rw [taken]; rfl⟩

private theorem new_bucket_spec (bound : k < 9) (layout : Layout arena g) (holds : Holds arena h g) :
    (newBucket k h).Safe (Opened arena g k
      ((if h.freeBucketDesc = 0 then pageTaken (getFreePage h) else []) ++ g.descPages)
      (pageTaken (takeBucketPage h))) := by
  unfold newBucket takeBucketPage
  rw [read_bind, read_bind]
  by_cases empty : h.freeBucketDesc = 0
  · rw [if_pos empty, if_pos empty, if_pos empty]
    refine (init_bucket_desc_spec layout holds).bind (fun _ middle ended refilled => ?_)
    obtain ⟨g₁, layout₁, holds₁, recs₁, some₁, descPages₁⟩ := refilled
    unfold Opened
    rw [← recs₁, ← descPages₁, bind_of_ret ended]
    exact open_bucket_spec bound layout₁ holds₁ some₁
  · rw [if_neg empty, if_neg empty, if_neg empty]
    refine open_bucket_spec bound layout holds (fun nil => ?_)
    exact empty (holds.freeDescs.eq_nil_iff.mpr nil)

/-! ## Taking a block -/

/-- Memory after the head of the free list of descriptor `d` was taken. -/
def takeMem (mem : Mem) (d : Nat) : Mem :=
  let popped := setFreeptr mem d (loadPtr mem (freeptr mem d))
  setRefcnt popped d ((refcnt popped d + 1) % 2 ^ 16)

private theorem take_block_run : takeBlock d h = .ret (freeptr h.mem d) { h with mem := takeMem h.mem d } := rfl

private theorem takeMem_agree (apart : d + descSize ≤ address ∨ address + length ≤ d) :
    Agree (takeMem mem d) mem address length := by
  have width : descSize = 40 := rfl
  exact (store_agree (by omega)).trans (store_agree (by omega))

private theorem takeMem_next : next (takeMem mem d) d = next mem d := by
  unfold takeMem next setRefcnt setFreeptr
  rw [field_setField_apart (by omega), field_setField_apart (by omega)]

/-- Blocks lie outside every descriptor, so taking one leaves all links. -/
theorem takeMem_block (layout : Layout arena g) (member : r ∈ g.recs) (block : b ∈ r.blocks) :
    loadPtr (takeMem mem r.desc) b = loadPtr mem b := by
  have apart := layout.desc_page_apart (Shape.rec_desc_mem member) member
  have inside := layout.block_inside member block
  exact loadPtr_agree (takeMem_agree (by omega))

private theorem takeMem_recAt (layout : Layout arena g) (member : r ∈ g.recs) (held : RecAt mem r)
    (free : r.free = b :: rest) : RecAt (takeMem mem r.desc) { r with free := rest } := by
  have linked := held.free
  rw [free] at linked
  obtain ⟨head, nonzero, tail⟩ := linked
  have count := held.count
  rw [free, List.length_cons] at count
  have bound := layout.bucket r member
  have small : 4096 / r.size ≤ 4096 := Nat.div_le_self _ _
  constructor
  · unfold takeMem page setRefcnt setFreeptr
    rw [field_setField_apart (by omega), field_setField_apart (by omega)]
    exact held.page
  · have pointer : freeptr (takeMem mem r.desc) r.desc = loadPtr mem b := by
      unfold takeMem setRefcnt
      rw [freeptr, field_setField_apart (by omega), setFreeptr, field_setField_same, head]
      exact Nat.mod_eq_of_lt (loadPtr_lt mem b)
    rw [pointer]
    refine tail.congr (fun c inTail => takeMem_block layout member ?_)
    exact layout.freeBlocks r member c (by simp [free, inTail])
  · have counted : refcnt (takeMem mem r.desc) r.desc = refcnt mem r.desc + 1 := by
      have popped : refcnt (setFreeptr mem r.desc (loadPtr mem (freeptr mem r.desc))) r.desc =
          refcnt mem r.desc := field_setField_apart (by omega)
      unfold takeMem setRefcnt
      rw [refcnt, field_setField_same, popped]
      omega
    rw [counted]
    show refcnt mem r.desc + 1 + rest.length = 4096 / r.size
    omega
  · unfold takeMem descBucketSize setRefcnt setFreeptr
    rw [field_setField_apart (by omega), field_setField_apart (by omega)]
    exact held.size

variable {live : List Block}

/-- The block at the head of a free list can go to a caller. -/
theorem take_block (layout : Layout arena g) (holds : Holds arena h g) (accounts : Accounts live g)
    (split : g.recs = front ++ r :: back) (free : r.free = b :: rest)
    (bucket : r.bucket = bucketIndex len) :
    Layout arena (g.withFree front r back rest) ∧
      Holds arena { h with mem := takeMem h.mem r.desc } (g.withFree front r back rest) ∧
      Accounts ({ addr := b, len } :: live) (g.withFree front r back rest) := by
  have own : r ∈ g.recs := by simp [split]
  have distinct := layout.freeDistinct r own
  rw [free, List.nodup_cons] at distinct
  have isBlock : b ∈ r.blocks := layout.freeBlocks r own b (by simp [free])
  have keeps : ∀ c ∈ rest, c ∈ r.blocks := fun c inRest => layout.freeBlocks r own c (by simp [free, inRest])
  refine ⟨withFree_layout layout split distinct.2 keeps, ?_, ?_⟩
  · refine withFree_holds layout holds split (fun d member different => ?_) (fun s member _ => ?_)
      takeMem_next (takeMem_recAt layout own (holds.recs r own) free)
    · have apart := layout.descs_apart member (Shape.rec_desc_mem own) different
      exact takeMem_agree (by omega)
    · have apart := layout.desc_page_apart (Shape.rec_desc_mem own) member
      exact takeMem_agree (by omega)
  · refine { distinct := ?_, block := fun c member => ?_, held := fun s member a inBlocks notFree => ?_ }
    · rw [List.map_cons, List.nodup_cons]
      refine ⟨fun already => ?_, accounts.distinct⟩
      -- A block on a free list is not held by anyone yet.
      obtain ⟨c, inLive, same⟩ := List.mem_map.mp already
      obtain ⟨s, inRecs, _, inBlocks, notFree⟩ := accounts.block c inLive
      rw [same] at inBlocks notFree
      rw [layout.rec_of_block inRecs own inBlocks isBlock, free] at notFree
      exact notFree (by simp)
    · rcases List.mem_cons.mp member with rfl | member
      · exact ⟨{ r with free := rest }, by simp [Shape.withFree], bucket, isBlock, distinct.1⟩
      · obtain ⟨s, inRecs, sameBucket, inBlocks, notFree⟩ := accounts.block c member
        rw [split] at inRecs
        rcases List.mem_append.mp inRecs with inFront | inBack
        · exact ⟨s, by simp [Shape.withFree, inFront], sameBucket, inBlocks, notFree⟩
        · rcases List.mem_cons.mp inBack with rfl | inBack
          · refine ⟨{ s with free := rest }, by simp [Shape.withFree], sameBucket, inBlocks, fun inRest => ?_⟩
            exact notFree (by simp [free, inRest])
          · exact ⟨s, by simp [Shape.withFree, inBack], sameBucket, inBlocks, notFree⟩
    · rcases mem_withFree layout split member with rfl | ⟨member, _⟩
      · by_cases same : a = b
        · exact ⟨{ addr := b, len }, by simp, same.symm⟩
        · obtain ⟨c, inLive, atA⟩ := accounts.held r own a inBlocks (by
            rw [free, List.mem_cons]
            exact not_or.mpr ⟨same, notFree⟩)
          exact ⟨c, by simp [inLive], atA⟩
      · obtain ⟨c, inLive, atA⟩ := accounts.held s member a inBlocks notFree
        exact ⟨c, by simp [inLive], atA⟩

/-- The end of `malloc`, once a descriptor with a free block is at hand. -/
theorem take_inv (layout : Layout arena g) (holds : Holds arena h g) (accounts : Accounts live g)
    (busy : ∀ s ∈ g.recs, s.desc ≠ r.desc → s.free.length < 4096 / s.size) (own : r ∈ g.recs)
    (bucket : r.bucket = bucketIndex len) (some : r.free ≠ []) :
    freeptr h.mem r.desc ≠ 0 ∧ ∃ g', Inv arena
      { heap := { h with mem := takeMem h.mem r.desc }
        live := { addr := freeptr h.mem r.desc, len } :: live } g' ∧
      g'.descPages = g.descPages ∧ g'.recs.map Rec.page = g.recs.map Rec.page := by
  obtain ⟨b, rest, free⟩ := List.exists_cons_of_ne_nil some
  have record := holds.recs r own
  have linked := record.free
  rw [free] at linked
  have count := record.count
  rw [free, List.length_cons] at count
  obtain ⟨front, back, split⟩ := List.append_of_mem own
  obtain ⟨layout', holds', accounts'⟩ := take_block layout holds accounts split free bucket
  rw [linked.1]
  refine ⟨linked.2.1, _, ⟨layout', holds', accounts', fun s member => ?_⟩, rfl,
    by simp [Shape.withFree, split]⟩
  rcases mem_withFree layout split member with rfl | ⟨member, different⟩
  · show rest.length < 4096 / r.size
    omega
  · exact busy s member different

/-- A new record with every block free changes nothing for the clients. -/
theorem new_bucket_accounts (accounts : Accounts live g) (recs : g'.recs = r :: g.recs)
    (free : r.free = r.blocks) : Accounts live g' where
  distinct := accounts.distinct
  block := by
    intro b member
    obtain ⟨s, inRecs, facts⟩ := accounts.block b member
    exact ⟨s, by simp [recs, inRecs], facts⟩
  held := by
    intro s member a inBlocks notFree
    rw [recs] at member
    rcases List.mem_cons.mp member with rfl | member
    · exact absurd (free ▸ inBlocks) notFree
    · exact accounts.held s member a inBlocks notFree

/-- A block was handed out, or the request was refused, and the invariant
holds; pages were taken as observed. -/
def Served (arena : Arena) (sys : System) (g : Shape) (len p : Nat) (after : Heap) : Prop :=
  ∃ g', Inv arena { heap := after, live := if p = 0 then sys.live else { addr := p, len } :: sys.live } g' ∧
    g'.descPages = initPage sys.heap len ++ g.descPages ∧ ∀ q ∈ bucketPage sys.heap len, q ∈ g'.recs.map Rec.page

/-- `malloc` returns or panics; when it returns, the invariant is kept. -/
theorem malloc_spec (inv : Inv arena sys g) : (malloc len sys.heap).Safe (Served arena sys g len) := by
  unfold malloc
  by_cases large : bucketSize (bucketIndex len) = 0
  · simp only [large, ↓reduceIte, pure_apply]
    exact ⟨g, inv, by simp [initPage, OpensBucket, large], by simp [bucketPage, OpensBucket, large]⟩
  have bound : bucketIndex len < 9 := by
    by_contra beyond
    exact large (bucketSize_zero beyond)
  have scanned : scan (next sys.heap.mem) (fun bdesc => freeptr sys.heap.mem bdesc ≠ 0) walkFuel
      (sys.heap.chain (bucketIndex len)) =
        some (((g.chain (bucketIndex len)).find? (fun bdesc => freeptr sys.heap.mem bdesc ≠ 0)).getD 0) :=
    scan_linked (inv.holds.chains _ bound) (inv.layout.chain_short _)
  simp only [large, ↓reduceIte, read_bind, scanned]
  cases found : (g.chain (bucketIndex len)).find?
      (fun bdesc => decide (freeptr sys.heap.mem bdesc ≠ 0)) with
  | none =>
    have opens : OpensBucket sys.heap len := ⟨large, by rw [scanned, found]; rfl⟩
    simp only [Option.getD_none, ↓reduceIte]
    refine (new_bucket_spec bound inv.layout inv.holds).bind (fun d middle _ opened => ?_)
    obtain ⟨g', r, layout', holds', recs', bucket, rfl, free, descPages', taken⟩ := opened
    have own : r ∈ g'.recs := by simp [recs']
    have busy : ∀ s ∈ g'.recs, s.desc ≠ r.desc → s.free.length < 4096 / s.size := by
      intro s member different
      rw [recs'] at member
      rcases List.mem_cons.mp member with rfl | member
      · exact absurd rfl different
      · exact inv.busy s member
    have some : r.free ≠ [] := by
      intro nil
      have length := congrArg List.length (free.symm.trans nil)
      rw [Rec.blocks, pageBlocks_length, Rec.size, bucket] at length
      exact absurd length (Nat.ne_of_gt (bucket_room bound).2.2)
    obtain ⟨nonzero, g'', inv'', descPages'', pages''⟩ :=
      take_inv layout' holds' (new_bucket_accounts inv.accounts recs' free) busy own bucket some
    rw [take_block_run]
    refine ⟨g'', by simpa only [nonzero, ↓reduceIte] using inv'', ?_, fun q member => ?_⟩
    · simp only [descPages'', descPages', initPage, opens, true_and]
    · rw [bucketPage, if_pos opens, taken, List.mem_singleton] at member
      rw [pages'', member]
      exact List.mem_map_of_mem own
  | some e =>
    have matching : freeptr sys.heap.mem e ≠ 0 := by simpa using List.find?_some found
    obtain ⟨r, own, bucket, rfl⟩ := Shape.mem_chain.mp (List.mem_of_find?_eq_some found)
    have nonzero := inv.layout.desc_ne_zero (Shape.rec_desc_mem own)
    have stays : ¬ OpensBucket sys.heap len := by
      rintro ⟨_, none⟩
      rw [scanned, found] at none
      exact nonzero (Option.some.inj none)
    have some : r.free ≠ [] := fun nil => matching ((inv.holds.recs r own).free.eq_nil_iff.mpr nil)
    simp only [Option.getD_some, nonzero, ↓reduceIte]
    obtain ⟨nonnull, g', inv', descPages', _⟩ :=
      take_inv inv.layout inv.holds inv.accounts (fun s member _ => inv.busy s member) own bucket some
    rw [take_block_run]
    refine ⟨g', by simpa only [nonnull, ↓reduceIte] using inv', ?_, ?_⟩
    · simp [descPages', initPage, stays]
    · simp [bucketPage, stays]

end RockOs.MallocAllocate
