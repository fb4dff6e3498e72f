import RockOs.MallocSafety

/-! When `free` accepts an address and when it refuses one. The repeat-free
check compares the first word of the block, not its address, with the links of
the free list. So it can refuse a block its caller holds, and it accepts the
last block of a free list a second time. -/
namespace RockOs.MallocMisuse
open ByteMemory LinkedChain Machine MemoryPages Malloc MallocSystem MallocShape MallocRelease MallocSafety WordBits

variable {arena : Arena} {h : Heap} {g : Shape} {r : Rec} {sys : System}

/-- Descriptor `d` is in the chain of bucket `k`. -/
def InChain (h : Heap) (k d : Nat) : Prop :=
  k < 9 ∧ ∃ chain, Linked (next h.mem) (h.chain k) chain ∧ d ∈ chain

/-- The free list of descriptor `d`. -/
def FreeList (h : Heap) (d : Nat) (free : List Nat) : Prop := Linked (loadPtr h.mem) (freeptr h.mem d) free

/-- `a` is a block of a bucket page that is not on the page's free list. -/
def Allocated (h : Heap) (a : Nat) : Prop :=
  ∃ k d free, InChain h k d ∧ FreeList h d free ∧ a ∈ pageBlocks (page h.mem d) (bucketSize k) ∧ a ∉ free

/-- The first word of `p` is a free block of the same page other than the head
of the free list. -/
def StaleLink (h : Heap) (p : Nat) : Prop :=
  ∃ k d head tail, InChain h k d ∧ page h.mem d = pageOf p ∧ FreeList h d (head :: tail) ∧ loadPtr h.mem p ∈ tail

/-- `obj` is the last block on the free list of a page. -/
def LastFree (h : Heap) (obj : Nat) : Prop :=
  ∃ k d front, InChain h k d ∧ FreeList h d (front ++ [obj])

/-- The descriptors in the chains are those of the records. -/
theorem inChain_iff (layout : Layout arena g) (holds : Holds arena h g) :
    InChain h k d ↔ ∃ r ∈ g.recs, r.bucket = k ∧ r.desc = d := by
  constructor
  · rintro ⟨bound, chain, linked, member⟩
    rw [linked.unique (holds.chains k bound)] at member
    exact Shape.mem_chain.mp member
  · rintro ⟨r, own, rfl, rfl⟩
    have bound := layout.bucket r own
    exact ⟨bound, _, holds.chains r.bucket bound, Shape.mem_chain.mpr ⟨r, own, rfl, rfl⟩⟩

/-- Clients hold exactly the allocated blocks. -/
theorem allocated_iff (inv : Inv arena sys g) : Allocated sys.heap a ↔ Live sys.live a := by
  constructor
  · rintro ⟨k, d, free, inChain, list, inBlocks, notFree⟩
    obtain ⟨r, own, rfl, rfl⟩ := (inChain_iff inv.layout inv.holds).mp inChain
    have held := inv.holds.recs r own
    rw [Linked.unique list held.free] at notFree
    rw [held.page] at inBlocks
    exact inv.accounts.held r own a inBlocks notFree
  · rintro ⟨b, inLive, rfl⟩
    obtain ⟨r, own, _, inBlocks, notFree⟩ := inv.accounts.block b inLive
    have held := inv.holds.recs r own
    exact ⟨r.bucket, r.desc, r.free, (inChain_iff inv.layout inv.holds).mpr ⟨r, own, rfl, rfl⟩, held.free,
      by rw [held.page]; exact inBlocks, notFree⟩

private theorem staleLink_iff (inv : Inv arena sys g) (own : r ∈ g.recs) (inside : pageOf p = r.page) :
    StaleLink sys.heap p ↔ loadPtr sys.heap.mem p ∈ r.free.tail := by
  have held := inv.holds.recs r own
  constructor
  · rintro ⟨k, d, head, tail, inChain, atPage, list, member⟩
    obtain ⟨s, ownS, rfl, rfl⟩ := (inChain_iff inv.layout inv.holds).mp inChain
    rw [(inv.holds.recs s ownS).page, inside] at atPage
    obtain rfl := inv.layout.rec_unique ownS own atPage
    rw [← Linked.unique list held.free]
    exact member
  · intro member
    cases free : r.free with
    | nil => simp [free] at member
    | cons head tail =>
      rw [free] at member
      refine ⟨r.bucket, r.desc, head, tail, (inChain_iff inv.layout inv.holds).mpr ⟨r, own, rfl, rfl⟩,
        held.page.trans inside.symm, ?_, member⟩
      have list := held.free
      rwa [free] at list

/-! ## Blocks their callers hold -/

/-- Freeing a held block succeeds, and frees exactly that block, unless its
first word happens to be a link of the free list. -/
theorem free_of_live_iff (arena : Arena) (mem : Mem) (events : List Event)
    (ran : run step (start arena mem) events = some sys) (live : Live sys.live p) :
    (∃ after, free p sys.heap = .ret () after ∧ ∀ a, Allocated after a ↔ Allocated sys.heap a ∧ a ≠ p) ↔
      ¬ StaleLink sys.heap p := by
  obtain ⟨g, inv⟩ := reachable_inv events ran
  obtain ⟨front, r, back, split, inBlocks, notFree⟩ := rec_of_live inv live
  have own : r ∈ g.recs := by simp [split]
  rw [staleLink_iff inv own (pageOf_block inv.layout own inBlocks).1]
  rcases free_live inv split inBlocks notFree with ⟨listed, stopped⟩ | ⟨unlisted, after, g', returned, inv', _⟩
  · constructor
    · rintro ⟨after, returned, _⟩
      rw [stopped] at returned
      cases returned
    · exact fun unlisted => absurd listed unlisted
  · refine ⟨fun _ => unlisted, fun _ => ⟨after, returned, fun a => ?_⟩⟩
    rw [allocated_iff inv', allocated_iff inv]
    constructor
    · rintro ⟨b, member, rfl⟩
      obtain ⟨inLive, different⟩ := List.mem_filter.mp member
      exact ⟨⟨b, inLive, rfl⟩, by simpa using different⟩
    · rintro ⟨⟨b, inLive, rfl⟩, different⟩
      exact ⟨b, List.mem_filter.mpr ⟨inLive, by simpa using different⟩, rfl⟩

/-- Three blocks of one page; the first is returned, and then the third is
refused because it still holds the link it was carved with. -/
theorem free_of_live_refused : ∃ sys stopped,
    run step (start sixteenPages (fun _ => 0)) [.malloc 1024, .malloc 1024, .malloc 1024, .free 0x11000] =
      some sys ∧
    Live sys.live 0x11800 ∧ free 0x11800 sys.heap = .panic .repeatFree stopped := by
  have computed : (run step (start sixteenPages (fun _ => 0))
      [.malloc 1024, .malloc 1024, .malloc 1024, .free 0x11000]).any (fun sys =>
        Live sys.live 0x11800 ∧ (free 0x11800 sys.heap).reason? = some .repeatFree) = true := by
    decide +kernel
  obtain ⟨sys, ran, found⟩ := (Option.any_eq_true _ _).mp computed
  obtain ⟨live, reason⟩ := of_decide_eq_true found
  obtain ⟨stopped, panicked⟩ := Outcome.panic_of_reason reason
  exact ⟨sys, stopped, ran, live, panicked⟩

/-- The second of the three blocks is not refused in the same state. -/
theorem free_of_live_second : ∃ sys,
    run step (start sixteenPages (fun _ => 0)) [.malloc 1024, .malloc 1024, .malloc 1024, .free 0x11000] =
      some sys ∧
    ((∃ after, free 0x11400 sys.heap = .ret () after ∧
        ∀ a, Allocated after a ↔ Allocated sys.heap a ∧ a ≠ 0x11400) ↔ ¬ StaleLink sys.heap 0x11400) := by
  have computed : (run step (start sixteenPages (fun _ => 0))
      [.malloc 1024, .malloc 1024, .malloc 1024, .free 0x11000]).any (fun sys => Live sys.live 0x11400) =
        true := by decide +kernel
  obtain ⟨sys, ran, live⟩ := (Option.any_eq_true _ _).mp computed
  exact ⟨sys, ran, free_of_live_iff _ _ _ ran (of_decide_eq_true live)⟩

/-! ## Addresses nobody holds -/

/-- Chains, free lists, counts and pages are what they were. -/
structure Untouched (h after : Heap) : Prop where
  chains : ∀ k < 9, ∀ chain, Linked (next h.mem) (h.chain k) chain → Linked (next after.mem) (after.chain k) chain
  spare : ∀ descs, Linked (next h.mem) h.freeBucketDesc descs → Linked (next after.mem) after.freeBucketDesc descs
  freeLists : ∀ k d, InChain h k d → ∀ free, FreeList h d free → FreeList after d free
  counts : ∀ k d, InChain h k d → refcnt after.mem d = refcnt h.mem d
  pages : ∀ i, after.memMap i = h.memMap i ∧ after.bdKmap i = h.bdKmap i

/-- The call panicked or returned, in any case without damage, and did not
index `bd_kmap` outside its entries. -/
def Caught (h : Heap) : Outcome Heap Panic Unit → Prop
  | .ret _ after => Untouched h after
  | .panic _ after => Untouched h after
  | .fault _ => False
  | .hang => False

theorem Untouched.refl (h : Heap) : Untouched h h :=
  ⟨fun _ _ _ linked => linked, fun _ linked => linked, fun _ _ _ _ list => list, fun _ _ _ => rfl,
    fun _ => ⟨rfl, rfl⟩⟩

private theorem lastFree_iff (inv : Inv arena sys g) :
    LastFree sys.heap obj ↔ ∃ r ∈ g.recs, ∃ front, r.free = front ++ [obj] := by
  constructor
  · rintro ⟨k, d, front, inChain, list⟩
    obtain ⟨r, own, rfl, rfl⟩ := (inChain_iff inv.layout inv.holds).mp inChain
    exact ⟨r, own, front, (Linked.unique list (inv.holds.recs r own).free).symm⟩
  · rintro ⟨r, own, front, free⟩
    refine ⟨r.bucket, r.desc, front, (inChain_iff inv.layout inv.holds).mpr ⟨r, own, rfl, rfl⟩, ?_⟩
    have list := (inv.holds.recs r own).free
    rwa [free] at list

/-- The last block of a free list is a block of the page it lies in. -/
theorem lastFree_block (inv : Inv arena sys g) (last : LastFree sys.heap obj) :
    ∃ r ∈ g.recs, pageOf obj = r.page ∧ obj % r.size = 0 ∧ ∃ front, r.free = front ++ [obj] := by
  obtain ⟨r, own, front, free⟩ := (lastFree_iff inv).mp last
  have block := inv.layout.freeBlocks r own obj (by simp [free])
  obtain ⟨inside, multiple⟩ := pageOf_block inv.layout own block
  exact ⟨r, own, inside, multiple, front, free⟩

/-- A free block other than the last one links to another free block behind
the head. -/
theorem link_listed (held : RecAt mem r) (free : r.free = front ++ obj :: behind) (notLast : behind ≠ []) :
    loadPtr mem obj ∈ r.free.tail := by
  have list := held.free
  rw [free] at list
  obtain ⟨c, rest, rfl⟩ := List.exists_cons_of_ne_nil notLast
  rw [list.link, free]
  cases front with
  | nil => simp
  | cons head front => simp

/-- Without repetition only the end of a list is followed by nothing. -/
private theorem behind_nil {items : List Nat} (distinct : items.Nodup) (list : items = before ++ obj :: behind)
    (atEnd : items = front ++ [obj]) : behind = [] := by
  rcases List.eq_nil_or_concat behind with nil | ⟨rest, c, rfl⟩
  · exact nil
  · have shape : (before ++ obj :: rest) ++ [c] = front ++ [obj] := by
      rw [← atEnd, list]
      simp
    have same : c = obj := List.head_eq_of_cons_eq (List.append_inj' shape rfl).2
    rw [list, same] at distinct
    simp [List.nodup_append] at distinct

/-- The last block of a free list holds null, which is no link: it is put on
the list again. -/
theorem free_last (inv : Inv arena sys g) (split : g.recs = front ++ r :: back)
    (last : r.free = before ++ [obj]) : ¬ Caught sys.heap (free obj sys.heap) := by
  have own : r ∈ g.recs := by simp [split]
  have held := inv.holds.recs r own
  have block : obj ∈ r.blocks := inv.layout.freeBlocks r own obj (by simp [last])
  have unlisted : loadPtr sys.heap.mem obj ∉ r.free.tail := by
    have list := held.free
    intro member
    have nonzero := list.ne_zero (List.mem_of_mem_tail member)
    rw [last] at list
    exact nonzero list.link
  have counted : 0 < refcnt sys.heap.mem r.desc := by
    have count := held.count
    have busy := inv.busy r own
    omega
  obtain ⟨inside, multiple⟩ := pageOf_block inv.layout own block
  have apart := block_desc_apart inv.layout own block (Shape.rec_desc_mem own)
  rw [free_bucket_page inv.layout inv.holds split inside, if_neg (by simpa using multiple),
    freeFound_pushed inv.layout own held unlisted]
  split_ifs with lastOne
  · -- The page goes although its other blocks may be held.
    obtain ⟨_, i, small, atPage⟩ := inv.layout.pagesInArena r.page (Shape.rec_page_mem own)
    have used : (sys.heap.memMap i).use = 1 := by
      rw [inv.holds.use i small, if_pos (atPage ▸ Shape.rec_page_mem own)]
    have keepsPrev : prevDesc front r.bucket ≠ 0 →
        next (pushMem sys.heap.mem r.desc obj) (prevDesc front r.bucket) =
          next sys.heap.mem (prevDesc front r.bucket) := by
      intro nonzero
      obtain ⟨member, different⟩ := prevDesc_mem inv.layout split nonzero
      have descs := inv.layout.descs_apart member (Shape.rec_desc_mem own) different
      have blocks := block_desc_apart inv.layout own block member
      exact next_agree (pushMem_agree (by omega) (by omega))
    have beforeDesc : (if prevDesc front r.bucket = 0 then sys.heap.chain r.bucket
        else next (pushMem sys.heap.mem r.desc obj) (prevDesc front r.bucket)) = r.desc := by
      have linked := prevDesc_before inv.layout inv.holds split
      by_cases first : prevDesc front r.bucket = 0
      · simpa [first] using linked
      · simpa [first, keepsPrev first] using linked
    have run := release_desc_run (h := { sys.heap with mem := pushMem sys.heap.mem r.desc obj })
      inv.holds.base inv.holds.limit beforeDesc
      (fun nonzero => by
        obtain ⟨member, different⟩ := prevDesc_mem inv.layout split nonzero
        exact inv.layout.descs_apart member (Shape.rec_desc_mem own) different)
      small used ((pushMem_field apart (by omega)).trans (held.page.trans atPage))
    rw [run]
    intro untouched
    have same := congrArg MemMapStruct.use (untouched.pages i).1
    rw [used] at same
    simp [released, Heap.setUse] at same
  · intro untouched
    have same := untouched.counts r.bucket r.desc
      ((inChain_iff inv.layout inv.holds).mpr ⟨r, own, rfl, rfl⟩)
    have lower : refcnt (pushMem sys.heap.mem r.desc obj) r.desc = refcnt sys.heap.mem r.desc - 1 :=
      pushMem_refcnt apart counted
    simp only at same
    omega

/-- An address nobody holds is caught exactly when the table has an entry for
its page and it is not the last block of a free list. -/
theorem free_of_other_iff (arena : Arena) (mem : Mem) (events : List Event)
    (ran : run step (start arena mem) events = some sys) (fits : obj < 2 ^ 64) (notLive : ¬ Live sys.live obj) :
    Caught sys.heap (free obj sys.heap) ↔
      kmapIndex sys.heap obj < Config.pagingPages ∧ ¬ LastFree sys.heap obj := by
  obtain ⟨g, inv⟩ := reachable_inv events ran
  by_cases bucketPage : ∃ r ∈ g.recs, pageOf obj = r.page
  · obtain ⟨r, own, inside⟩ := bucketPage
    obtain ⟨front, back, split⟩ := List.append_of_mem own
    obtain ⟨_, i, small, atPage⟩ := inv.layout.pagesInArena r.page (Shape.rec_page_mem own)
    have inTable : kmapIndex sys.heap obj < Config.pagingPages := by
      have index : kmapIndex sys.heap obj = i := kmapIndex_of_page inv.holds small (inside.trans atPage)
      have pages := arena.fits
      omega
    have found := free_bucket_page inv.layout inv.holds split inside
    by_cases multiple : obj % r.size = 0
    · have aligned := inv.layout.page_aligned (Shape.rec_page_mem own)
      have block : obj ∈ r.blocks := by
        refine (mem_pageBlocks_iff (inv.layout.bucket r own) aligned).mpr ⟨?_, ?_, multiple⟩ <;>
          rw [pageOf_eq fits] at inside <;> omega
      have listed := (free_iff inv own).mpr ⟨block, notLive⟩
      obtain ⟨before, behind, list⟩ := List.append_of_mem listed
      by_cases last : behind = []
      · rw [last] at list
        exact iff_of_false (free_last inv split list)
          (fun both => both.2 ((lastFree_iff inv).mpr ⟨r, own, before, list⟩))
      · refine iff_of_true ?_ ⟨inTable, fun isLast => ?_⟩
        · have held := inv.holds.recs r own
          rw [found, if_neg (by simpa using multiple),
            freeFound_repeat inv.layout own held (link_listed held list last)]
          exact Untouched.refl _
        · obtain ⟨s, ownS, insideS, _, other, atEnd⟩ := lastFree_block inv isLast
          obtain rfl := inv.layout.rec_unique ownS own (insideS.symm.trans inside)
          exact last (behind_nil (inv.layout.freeDistinct s own) list atEnd)
    · refine iff_of_true ?_ ⟨inTable, fun isLast => ?_⟩
      · rw [found, if_pos multiple]
        exact Untouched.refl _
      · obtain ⟨s, ownS, insideS, multipleS, _⟩ := lastFree_block inv isLast
        obtain rfl := inv.layout.rec_unique ownS own (insideS.symm.trans inside)
        exact multiple multipleS
  · have notLast : ¬ LastFree sys.heap obj := by
      intro isLast
      obtain ⟨r, own, inside, _⟩ := lastFree_block inv isLast
      exact bucketPage ⟨r, own, inside⟩
    rw [free_elsewhere inv.layout inv.holds (fun r own same => bucketPage ⟨r, own, same.symm⟩)]
    by_cases inTable : kmapIndex sys.heap obj < Config.pagingPages
    · refine iff_of_true ?_ ⟨inTable, notLast⟩
      rw [if_neg (Nat.not_le.mpr inTable)]
      split_ifs
      · exact Untouched.refl _
      · exact Untouched.refl _
    · rw [if_pos (Nat.not_lt.mp inTable)]
      exact iff_of_false id (fun both => inTable both.1)

/-- Two blocks share a page and the second is returned twice: the second time
the page is released under the first. A null pointer is looked up outside the
table. -/
theorem free_of_other_damage : ∃ sys,
    run step (start sixteenPages (fun _ => 0)) [.malloc 2048, .malloc 2048, .free 0x11800] = some sys ∧
    Live sys.live 0x11000 ∧ ¬ Live sys.live 0x11800 ∧ ¬ Live sys.live 0 ∧
    ¬ Caught sys.heap (free 0x11800 sys.heap) ∧ ¬ Caught sys.heap (free 0 sys.heap) := by
  have computed : (run step (start sixteenPages (fun _ => 0)) [.malloc 2048, .malloc 2048, .free 0x11800]).any
      (fun sys => (Live sys.live 0x11000 ∧ ¬ Live sys.live 0x11800 ∧ ¬ Live sys.live 0) ∧
        Config.pagingPages ≤ kmapIndex sys.heap 0 ∧ (sys.heap.memMap 1).use = 1 ∧
        (free 0x11800 sys.heap).after?.any (fun after => (after.memMap 1).use = 0) = true) = true := by
    decide +kernel
  obtain ⟨sys, ran, found⟩ := (Option.any_eq_true _ _).mp computed
  obtain ⟨⟨first, second, null⟩, outside, used, returned⟩ := of_decide_eq_true found
  obtain ⟨after, isAfter, unused⟩ := (Option.any_eq_true _ _).mp returned
  obtain ⟨_, freed⟩ := Outcome.ret_of_after isAfter
  refine ⟨sys, ran, first, second, null, ?_, ?_⟩
  · rw [freed]
    intro untouched
    have same := congrArg MemMapStruct.use (untouched.pages 1).1
    rw [used, of_decide_eq_true unused] at same
    cases same
  · have faulted : free 0 sys.heap = .fault sys.heap := by
      rw [free, read_bind, if_pos outside, fault_apply]
    rw [faulted]
    exact id

/-- A misaligned address in the same state. -/
theorem free_of_other_misaligned : ∃ sys,
    run step (start sixteenPages (fun _ => 0)) [.malloc 2048, .malloc 2048, .free 0x11800] = some sys ∧
    (Caught sys.heap (free 0x11804 sys.heap) ↔
      kmapIndex sys.heap 0x11804 < Config.pagingPages ∧ ¬ LastFree sys.heap 0x11804) := by
  have computed : (run step (start sixteenPages (fun _ => 0)) [.malloc 2048, .malloc 2048, .free 0x11800]).any
      (fun sys => ¬ Live sys.live 0x11804) = true := by decide +kernel
  obtain ⟨sys, ran, notLive⟩ := (Option.any_eq_true _ _).mp computed
  exact ⟨sys, ran, free_of_other_iff _ _ _ ran (by decide) (of_decide_eq_true notLive)⟩

end RockOs.MallocMisuse
