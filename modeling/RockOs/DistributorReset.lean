import RockOs.Interrupts

/-! `gic_dist_config`, the reset of the shared interrupts in the distributor. Each
loop stores the same word to registers some interrupts apart. The loop for the
priorities takes the distance and the place of a bank with one bit for each
interrupt, where the priorities have a byte: its words are the first ones of the
bank. -/
namespace RockOs.DistributorReset
open Interrupts

/-! ## The code -/

/-- The distributor with its bank of trigger fields, two bits for each interrupt. -/
structure Distributor extends Gic where
  config : Nat → BitVec 2

def gicdIcfgr : Nat := 0x0c00

def gicdIgrpmodr : Nat := 0x0d00

def gicdIntActlowLvltrig : BitVec 32 := 0#32

def gicdIntDefPri : BitVec 8 := 0xa0#8

def gicdIntDefPriX4 : BitVec 32 := 0xa0a0a0a0#32

def gicdIntEnClrX32 : BitVec 32 := 0xffffffff#32

/-- Sixteen trigger fields. -/
def Distributor.setConfig (d : Distributor) (word : Nat) (value : BitVec 32) : Nat → BitVec 2 := fun i =>
  if d.present i ∧ i / 16 = word then value.extractLsb' (2 * (i % 16)) 2 else d.config i

/-- A store to a register of the distributor. -/
def Distributor.writel (d : Distributor) (offset : Nat) (value : BitVec 32) : Distributor :=
  if gicdIcfgr ≤ offset ∧ offset < gicdIgrpmodr then { d with config := d.setConfig ((offset - gicdIcfgr) / 4) value }
  else { d with toGic := d.toGic.writeDist offset value }

/-- The values of `i` in `for (i = 32; i < gic_irqs; i += step)`. -/
def spis (step gicIrqs : Nat) : List Nat := (List.range gicIrqs).filter (fun i => 32 ≤ i ∧ (i - 32) % step = 0)

def configLoop (gicIrqs : Nat) (d : Distributor) : Distributor :=
  (spis 16 gicIrqs).foldl (fun d i => d.writel (gicdIcfgr + i / 4) gicdIntActlowLvltrig) d

def priorityLoop (gicIrqs : Nat) (d : Distributor) : Distributor :=
  (spis 32 gicIrqs).foldl (fun d i => d.writel (gicdIpriorityr + i / 8) gicdIntDefPriX4) d

def clearLoop (gicIrqs : Nat) (d : Distributor) : Distributor :=
  (spis 32 gicIrqs).foldl (fun d i =>
    (d.writel (gicdIcactiver + i / 8) gicdIntEnClrX32).writel (gicdIcenabler + i / 8) gicdIntEnClrX32) d

def gicDistConfig (gicIrqs : Nat) (d : Distributor) : Distributor :=
  clearLoop gicIrqs (priorityLoop gicIrqs (configLoop gicIrqs d))

/-! ## What it is for -/

/-- A shared interrupt after reset: level triggered, with the default priority,
inactive and disabled. -/
structure Reset (d : Distributor) (i : Nat) : Prop where
  level : (d.config i).getLsbD 1 = false
  priority : d.priority i = gicdIntDefPri
  inactive : d.active i = false
  disabled : d.enable i = false

/-- The state of interrupt `i` is the same, in the distributor and the redistributor. -/
structure Untouched (before after : Distributor) (i : Nat) : Prop where
  config : after.config i = before.config i
  priority : after.priority i = before.priority i
  active : after.active i = before.active i
  enable : after.enable i = before.enable i
  pending : after.pending i = before.pending i
  sgiEnable : after.sgiEnable i = before.sgiEnable i
  sgiActive : after.sgiActive i = before.sgiActive i

/-- The interrupts whose priority the loop writes: four for each word, and a word
for each 32 interrupts after the first. -/
def Prioritised (gicIrqs i : Nat) : Prop := 4 ≤ i ∧ i / 4 * 32 < gicIrqs

instance (gicIrqs i : Nat) : Decidable (Prioritised gicIrqs i) := inferInstanceAs (Decidable (_ ∧ _))

/-! ## The loops -/

/-- A loop that gives all entries it touches one value, whatever was done to the
bank before. -/
theorem foldl_put (body : σ → Nat → σ) (put : (Nat → α) → σ) (touched : Nat → Nat → Prop)
    [∀ j i, Decidable (touched j i)] {v : α} {l : List Nat}
    (step : ∀ f, ∀ j ∈ l, body (put f) j = put (fun i => if touched j i then v else f i)) (f : Nat → α) :
    l.foldl body (put f) = put (fun i => if ∃ j ∈ l, touched j i then v else f i) := by
  induction l generalizing f with
  | nil => simp
  | cons j l ih =>
    rw [List.foldl_cons, step f j List.mem_cons_self, ih (fun f k member => step f k (List.mem_cons_of_mem _ member))]
    congr 1
    funext i
    by_cases later : ∃ k ∈ l, touched k i
    · obtain ⟨k, member, here⟩ := later
      rw [if_pos ⟨k, member, here⟩, if_pos ⟨k, List.mem_cons_of_mem _ member, here⟩]
    · rw [if_neg later]
      by_cases now : touched j i
      · rw [if_pos now, if_pos ⟨j, List.mem_cons_self, now⟩]
      · rw [if_neg now, if_neg]
        rintro ⟨k, member, here⟩
        rcases List.mem_cons.mp member with rfl | member
        · exact now here
        · exact later ⟨k, member, here⟩

section Loops
variable {d : Distributor} {gicIrqs i : Nat}

private theorem mem_spis {step : Nat} : i ∈ spis step gicIrqs ↔ i < gicIrqs ∧ 32 ≤ i ∧ (i - 32) % step = 0 := by
  rw [spis, List.mem_filter, List.mem_range, decide_eq_true_iff]

private theorem default_priority (i : Nat) : gicdIntDefPriX4.extractLsb' (8 * (i % 4)) 8 = gicdIntDefPri := by
  have place : i % 4 < 4 := Nat.mod_lt i (by decide)
  generalize i % 4 = byte at place
  obtain rfl | rfl | rfl | rfl : byte = 0 ∨ byte = 1 ∨ byte = 2 ∨ byte = 3 := by omega
  all_goals decide

private theorem hits_all (word i : Nat) : hits word gicdIntEnClrX32 i = decide (i / 32 = word) := by
  have bit : gicdIntEnClrX32.getLsbD (i % 32) = true := by
    rw [show gicdIntEnClrX32 = BitVec.allOnes 32 from rfl, BitVec.getLsbD_allOnes,
      decide_eq_true (Nat.mod_lt _ (by decide))]
  rw [hits, bit, Bool.and_true]

private theorem configLoop_eq (small : gicIrqs ≤ 1020) (d : Distributor) : configLoop gicIrqs d =
    { d with config := fun i => if ∃ j ∈ spis 16 gicIrqs, d.present i ∧ i / 16 = j / 16 then 0#2 else d.config i } := by
  refine foldl_put _ (fun config => { d with config }) (fun j i => d.present i ∧ i / 16 = j / 16)
    (fun f j member => ?_) d.config
  obtain ⟨below, _, place⟩ := mem_spis.mp member
  have inside : gicdIcfgr ≤ gicdIcfgr + j / 4 ∧ gicdIcfgr + j / 4 < gicdIgrpmodr := by
    unfold gicdIcfgr gicdIgrpmodr
    omega
  have word : (gicdIcfgr + j / 4 - gicdIcfgr) / 4 = j / 16 := by omega
  rw [Distributor.writel, if_pos inside, word]
  congr 1
  funext i
  simp only [Distributor.setConfig, gicdIntActlowLvltrig, BitVec.extractLsb'_zero]

section Stores
variable {j : Nat} (small : j < 1024) (d : Distributor)
include small

private theorem write_priority (value : BitVec 32) :
    d.writel (gicdIpriorityr + j / 8) value = { d with priority := d.setPriorities (j / 32) value } := by
  have word : (0x400 + j / 8 - 0x400) / 4 = j / 32 := by omega
  unfold Distributor.writel Gic.writeDist gicdIcfgr gicdIgrpmodr gicdIsenabler gicdIcenabler gicdIspendr gicdIcpendr
    gicdIsactiver gicdIcactiver gicdIpriorityr gicdItargetsr
  rw [if_neg (by omega), if_neg (by omega), if_neg (by omega), if_neg (by omega), if_neg (by omega), if_neg (by omega),
    if_neg (by omega), if_neg (by omega), if_pos (by omega), word]

private theorem write_active (value : BitVec 32) :
    d.writel (gicdIcactiver + j / 8) value = { d with active := d.clearBits d.active (j / 32) value } := by
  have word : (0x380 + j / 8 - 0x380) / 4 = j / 32 := by omega
  unfold Distributor.writel Gic.writeDist gicdIcfgr gicdIgrpmodr gicdIsenabler gicdIcenabler gicdIspendr gicdIcpendr
    gicdIsactiver gicdIcactiver gicdIpriorityr gicdItargetsr
  rw [if_neg (by omega), if_neg (by omega), if_neg (by omega), if_neg (by omega), if_neg (by omega), if_neg (by omega),
    if_neg (by omega), if_pos (by omega), word]

private theorem write_enable (value : BitVec 32) :
    d.writel (gicdIcenabler + j / 8) value = { d with enable := d.clearBits d.enable (j / 32) value } := by
  have word : (0x180 + j / 8 - 0x180) / 4 = j / 32 := by omega
  unfold Distributor.writel Gic.writeDist gicdIcfgr gicdIgrpmodr gicdIsenabler gicdIcenabler gicdIspendr gicdIcpendr
    gicdIsactiver gicdIcactiver gicdIpriorityr gicdItargetsr
  rw [if_neg (by omega), if_neg (by omega), if_neg (by omega), if_pos (by omega), word]

end Stores

private theorem clearBits_all (g : Gic) (bank : Nat → Bool) (word i : Nat) :
    g.clearBits bank word gicdIntEnClrX32 i = if g.present i ∧ i / 32 = word then false else bank i := by
  rw [Gic.clearBits, hits_all]
  by_cases present : g.present i = true <;> by_cases here : i / 32 = word <;> simp [present, here]

private theorem priorityLoop_eq (small : gicIrqs ≤ 1020) (d : Distributor) : priorityLoop gicIrqs d =
    { d with priority := fun i =>
        if ∃ j ∈ spis 32 gicIrqs, d.present i ∧ i / 4 = j / 32 then gicdIntDefPri else d.priority i } := by
  refine foldl_put _ (fun priority => { d with priority }) (fun j i => d.present i ∧ i / 4 = j / 32)
    (fun f j member => ?_) d.priority
  have below := (mem_spis.mp member).1
  rw [write_priority (by omega)]
  congr 2
  funext i
  simp only [Gic.setPriorities, default_priority]
  rfl

private theorem clearLoop_eq (small : gicIrqs ≤ 1020) (d : Distributor) : clearLoop gicIrqs d =
    { d with
      active := fun i => if ∃ j ∈ spis 32 gicIrqs, d.present i ∧ i / 32 = j / 32 then false else d.active i
      enable := fun i => if ∃ j ∈ spis 32 gicIrqs, d.present i ∧ i / 32 = j / 32 then false else d.enable i } := by
  have step : ∀ f : Nat → Bool × Bool, ∀ j ∈ spis 32 gicIrqs,
      (Distributor.writel { d with active := fun i => (f i).1, enable := fun i => (f i).2 } (gicdIcactiver + j / 8)
        gicdIntEnClrX32).writel (gicdIcenabler + j / 8) gicdIntEnClrX32 =
      { d with
        active := fun i => (if d.present i ∧ i / 32 = j / 32 then (false, false) else f i).1
        enable := fun i => (if d.present i ∧ i / 32 = j / 32 then (false, false) else f i).2 } := by
    intro f j member
    have below := (mem_spis.mp member).1
    rw [write_active (by omega), write_enable (by omega)]
    congr 2
    · funext i
      rw [apply_ite Prod.snd]
      exact clearBits_all _ _ _ i
    · funext i
      rw [apply_ite Prod.fst]
      exact clearBits_all _ _ _ i
  have both := foldl_put (fun d j => (d.writel (gicdIcactiver + j / 8) gicdIntEnClrX32).writel (gicdIcenabler + j / 8)
    gicdIntEnClrX32) (fun f : Nat → Bool × Bool => { d with active := fun i => (f i).1, enable := fun i => (f i).2 })
    (fun j i => d.present i ∧ i / 32 = j / 32) step (fun i => (d.active i, d.enable i))
  simp only [apply_ite Prod.fst, apply_ite Prod.snd] at both
  exact both

/-- The words that a loop stores to. -/
theorem exists_spi_iff {step word : Nat} (divides : step ∣ 32) :
    (∃ j ∈ spis step gicIrqs, word = j / step) ↔ 32 ≤ word * step ∧ word * step < gicIrqs := by
  constructor
  · rintro ⟨j, member, rfl⟩
    obtain ⟨below, above, place⟩ := mem_spis.mp member
    have whole : j / step * step = j := by
      refine Nat.div_mul_cancel ?_
      have rest := (Nat.dvd_add_iff_left divides).mp (Nat.dvd_of_mod_eq_zero place)
      rwa [Nat.sub_add_cancel above] at rest
    rw [whole]
    exact ⟨above, below⟩
  · rintro ⟨above, below⟩
    have positive : 0 < step := Nat.pos_of_dvd_of_pos divides (by decide)
    refine ⟨word * step, mem_spis.mpr ⟨below, above, ?_⟩, (Nat.mul_div_cancel word positive).symm⟩
    exact Nat.mod_eq_zero_of_dvd (Nat.dvd_sub (Nat.dvd_mul_left step word) divides)

private theorem present_spi_iff (p : Prop) {step word : Nat} (divides : step ∣ 32) :
    (∃ j ∈ spis step gicIrqs, p ∧ word = j / step) ↔ p ∧ 32 ≤ word * step ∧ word * step < gicIrqs := by
  rw [← exists_spi_iff divides]
  exact ⟨fun ⟨j, member, holds, place⟩ => ⟨holds, j, member, place⟩,
    fun ⟨holds, j, member, place⟩ => ⟨j, member, holds, place⟩⟩

private theorem gicDistConfig_eq (small : gicIrqs ≤ 1020) (d : Distributor) : gicDistConfig gicIrqs d =
    { d with
      config := fun i => if d.present i ∧ 32 ≤ i / 16 * 16 ∧ i / 16 * 16 < gicIrqs then 0#2 else d.config i
      priority := fun i => if d.present i ∧ 32 ≤ i / 4 * 32 ∧ i / 4 * 32 < gicIrqs then gicdIntDefPri else d.priority i
      active := fun i => if d.present i ∧ 32 ≤ i / 32 * 32 ∧ i / 32 * 32 < gicIrqs then false else d.active i
      enable := fun i => if d.present i ∧ 32 ≤ i / 32 * 32 ∧ i / 32 * 32 < gicIrqs then false else d.enable i } := by
  rw [gicDistConfig, configLoop_eq small, priorityLoop_eq small, clearLoop_eq small]
  simp only [present_spi_iff _ (show 16 ∣ 32 by decide), present_spi_iff _ (show 32 ∣ 32 by decide)]
  rfl

/-- The distributor resets every shared interrupt and leaves the others alone
exactly when the priorities that the loop misses are right already, and so are
those that it stores below the shared interrupts. -/
theorem dist_config_resets_iff (gicIrqs : Nat) (small : gicIrqs ≤ 1020) (d : Distributor) :
    ((∀ i, 32 ≤ i → i < gicIrqs → Reset (gicDistConfig gicIrqs d) i) ∧
      ∀ i < 32, Untouched d (gicDistConfig gicIrqs d) i) ↔
      (∀ i, 32 ≤ i → i < gicIrqs → ¬ Prioritised gicIrqs i → d.priority i = gicdIntDefPri) ∧
        (d.are = false → ∀ i < 32, Prioritised gicIrqs i → d.priority i = gicdIntDefPri) := by
  have shared : ∀ i, 32 ≤ i → d.present i = true := fun i above => by
    rw [Gic.present, decide_eq_true above, Bool.true_or]
  rw [gicDistConfig_eq small]
  refine and_congr ⟨fun reset i above below missed => ?_, fun right i above below => ?_⟩
    ⟨fun untouched legacy i below written => ?_, fun right i below => ?_⟩
  · have priority := (reset i above below).priority
    simp only at priority
    rwa [if_neg (fun all => missed ⟨by omega, all.2.2⟩)] at priority
  · refine ⟨?_, ?_, ?_, ?_⟩
    · simp only
      rw [if_pos ⟨shared i above, by omega, by omega⟩]
      rfl
    · simp only
      by_cases written : Prioritised gicIrqs i
      · unfold Prioritised at written
        rw [if_pos ⟨shared i above, by omega, written.2⟩]
      · split
        · rfl
        · exact right i above below written
    · exact if_pos ⟨shared i above, by omega, by omega⟩
    · exact if_pos ⟨shared i above, by omega, by omega⟩
  · have priority := (untouched i below).priority
    simp only at priority
    have present : d.present i = true := by rw [Gic.present, legacy, Bool.not_false, Bool.or_true]
    unfold Prioritised at written
    rw [if_pos ⟨present, by omega, written.2⟩] at priority
    exact priority.symm
  · refine ⟨if_neg (by omega), ?_, if_neg (by omega), if_neg (by omega), rfl, rfl, rfl⟩
    simp only
    by_cases legacy : d.are = false
    · split
      · rename_i written
        exact (right legacy i below ⟨by omega, written.2.2⟩).symm
      · rfl
    · have absent : d.present i = false := by
        rw [Bool.not_eq_false] at legacy
        rw [Gic.present, legacy, decide_eq_false (by omega)]
        rfl
      rw [absent, if_neg (fun all => absurd all.1 Bool.false_ne_true)]

end Loops

/-- A distributor after power up, with affinity routing. -/
def cold : Distributor :=
  { are := true, enable := fun _ => false, pending := fun _ => false, active := fun _ => false,
    priority := fun _ => 0#8, sgiEnable := fun _ => false, sgiActive := fun _ => false, config := fun _ => 0#2 }

/-- With 64 interrupts, interrupt 32 keeps its priority. -/
theorem dist_config_misses : (gicDistConfig 64 cold).priority 32 = 0#8 ∧ ¬ Reset (gicDistConfig 64 cold) 32 := by
  have missed : (gicDistConfig 64 cold).priority 32 = 0#8 := by
    rw [gicDistConfig_eq (by decide)]
    rfl
  refine ⟨missed, fun reset => ?_⟩
  have priority := reset.priority
  rw [missed] at priority
  revert priority
  decide

/-- The same with the default priorities in place. -/
def warm : Distributor := { cold with priority := fun _ => gicdIntDefPri }

theorem dist_config_prepared : (∀ i, 32 ≤ i → i < 64 → Reset (gicDistConfig 64 warm) i) ∧
    ∀ i < 32, Untouched warm (gicDistConfig 64 warm) i :=
  (dist_config_resets_iff 64 (by decide) _).mpr ⟨fun _ _ _ _ => rfl, fun _ _ _ _ => rfl⟩

end RockOs.DistributorReset
