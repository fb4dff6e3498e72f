import RockOs.Interrupts

/-! What installing or freeing a handler does to the GIC. The register is found
from the interrupt number without a bound. Below 1024 it is the enable bit of
the interrupt; the next 1024 numbers reach the registers behind, and so on up
to the priorities. Clearing an enable bit is the same store as setting the one
of the number 1024 higher, so one description of the store serves both. -/
namespace RockOs.InterruptFrame
open Interrupts

/-- Nothing changed but the enable bit of `irq`. -/
structure OnlyEnable (irq : Nat) (g h : Gic) : Prop where
  are : h.are = g.are
  enable : ∀ i, i ≠ irq ∨ irq < 32 → h.enable i = g.enable i
  pending : h.pending = g.pending
  active : h.active = g.active
  priority : h.priority = g.priority
  sgiEnable : ∀ i, i ≠ irq ∨ 32 ≤ irq → h.sgiEnable i = g.sgiEnable i
  sgiActive : h.sgiActive = g.sgiActive

/-! ## One store -/

/-- The bit that a store for the number `n` is about. -/
def spot (g : Gic) (n i : Nat) : Bool := g.present i && decide (i = n % 1024)

/-- What the store does that sets the enable bit of `n`, when there is one. -/
def hit (n : Nat) (g : Gic) : Gic :=
  match n / 1024 with
  | 0 => { g with enable := fun i => g.enable i || spot g n i }
  | 1 => { g with enable := fun i => g.enable i && !spot g n i }
  | 2 => { g with pending := fun i => g.pending i || spot g n i }
  | 3 => { g with pending := fun i => g.pending i && !spot g n i }
  | 4 => { g with active := fun i => g.active i || spot g n i }
  | 5 => { g with active := fun i => g.active i && !spot g n i }
  | _ => { g with priority := g.setPriorities (n / 32 - 192) (1#32 <<< (n % 32)) }

/-- The store finds what it would store. -/
def Silent (n : Nat) (g : Gic) : Prop :=
  match n / 1024 with
  | 0 => g.present (n % 1024) = true → g.enable (n % 1024) = true
  | 1 => g.present (n % 1024) = true → g.enable (n % 1024) = false
  | 2 => g.present (n % 1024) = true → g.pending (n % 1024) = true
  | 3 => g.present (n % 1024) = true → g.pending (n % 1024) = false
  | 4 => g.present (n % 1024) = true → g.active (n % 1024) = true
  | 5 => g.present (n % 1024) = true → g.active (n % 1024) = false
  | _ => ∀ i, g.present i = true → i / 4 = n / 32 - 192 → g.priority i = (1#32 <<< (n % 32)).extractLsb' (8 * (i % 4)) 8

section Stores
variable {g : Gic} {n : Nat}

private theorem hit_priority (block : 6 ≤ n / 1024) :
    hit n g = { g with priority := g.setPriorities (n / 32 - 192) (1#32 <<< (n % 32)) } := by
  obtain ⟨b, blocks⟩ : ∃ b, n / 1024 = b + 6 := ⟨n / 1024 - 6, by omega⟩
  rw [hit, blocks]
  rfl

theorem hits_mask (word n i : Nat) : hits word (1#32 <<< (n % 32)) i = decide (i / 32 = word ∧ i % 32 = n % 32) := by
  have small := Nat.mod_lt n (show 0 < 32 by decide)
  rw [hits, ← BitVec.twoPow_eq, BitVec.getLsbD_twoPow, decide_eq_true small, Bool.true_and, Bool.decide_and]
  congr 2
  exact propext eq_comm

private theorem setBits_eq (bank : Nat → Bool) (block : n / 1024 = b) :
    g.setBits bank (n / 32 - 32 * b) (1#32 <<< (n % 32)) = fun i => bank i || spot g n i := by
  funext i
  rw [Gic.setBits, hits_mask, spot]
  congr 3
  rw [eq_iff_iff]
  omega

private theorem clearBits_eq (bank : Nat → Bool) (block : n / 1024 = b) :
    g.clearBits bank (n / 32 - 32 * b) (1#32 <<< (n % 32)) = fun i => bank i && !spot g n i := by
  funext i
  rw [Gic.clearBits, hits_mask, spot]
  congr 4
  rw [eq_iff_iff]
  omega

/-- Where a store at the offset of `n` goes. -/
theorem write_hit (g : Gic) (small : n < 14336) :
    g.writeDist (gicdIsenabler + n / 32 * 4) (1#32 <<< (n % 32)) = hit n g := by
  obtain ⟨e0, e1, e2, e3, e4, e5, e6, e7⟩ : gicdIsenabler = 0x100 ∧ gicdIcenabler = 0x180 ∧ gicdIspendr = 0x200 ∧
      gicdIcpendr = 0x280 ∧ gicdIsactiver = 0x300 ∧ gicdIcactiver = 0x380 ∧ gicdIpriorityr = 0x400 ∧
        gicdItargetsr = 0x800 :=
    ⟨rfl, rfl, rfl, rfl, rfl, rfl, rfl, rfl⟩
  have word : ∀ base b, base = 0x100 + 0x80 * b → (gicdIsenabler + n / 32 * 4 - base) / 4 = n / 32 - 32 * b := by
    intro base b here
    omega
  unfold Gic.writeDist hit
  rw [if_neg (by omega)]
  rcases (by omega : n / 1024 = 0 ∨ n / 1024 = 1 ∨ n / 1024 = 2 ∨ n / 1024 = 3 ∨ n / 1024 = 4 ∨ n / 1024 = 5 ∨
    6 ≤ n / 1024) with block | block | block | block | block | block | block
  · rw [if_pos (by omega), word _ 0 e0, setBits_eq _ block, block]
    rfl
  · rw [if_neg (by omega), if_pos (by omega), word _ 1 e1, clearBits_eq _ block, block]
    rfl
  · rw [if_neg (by omega), if_neg (by omega), if_pos (by omega), word _ 2 e2, setBits_eq _ block, block]
    rfl
  · rw [if_neg (by omega), if_neg (by omega), if_neg (by omega), if_pos (by omega), word _ 3 e3, clearBits_eq _ block,
      block]
    rfl
  · rw [if_neg (by omega), if_neg (by omega), if_neg (by omega), if_neg (by omega), if_pos (by omega), word _ 4 e4,
      setBits_eq _ block, block]
    rfl
  · rw [if_neg (by omega), if_neg (by omega), if_neg (by omega), if_neg (by omega), if_neg (by omega), if_pos (by omega),
      word _ 5 e5, clearBits_eq _ block, block]
    rfl
  · rw [if_neg (by omega), if_neg (by omega), if_neg (by omega), if_neg (by omega), if_neg (by omega), if_neg (by omega),
      if_pos (by omega), word _ 6 e6]
    exact (hit_priority block).symm

private theorem poke_enable (g : Gic) (low : 32 ≤ irq) (high : irq < maxIrqId) :
    g.pokeIrq irq gicdIsenabler = hit irq g := by
  unfold maxIrqId lpiIrqMin at high
  rw [Gic.pokeIrq, if_neg (by omega)]
  exact write_hit g (by omega)

private theorem poke_disable (g : Gic) (low : 32 ≤ irq) (high : irq < maxIrqId) :
    g.pokeIrq irq gicdIcenabler = hit (irq + 1024) g := by
  unfold maxIrqId lpiIrqMin at high
  have offset : gicdIcenabler + irq / 32 * 4 = gicdIsenabler + (irq + 1024) / 32 * 4 := by
    unfold gicdIcenabler gicdIsenabler
    omega
  have bit : irq % 32 = (irq + 1024) % 32 := by omega
  rw [Gic.pokeIrq, if_neg (by omega), offset, bit]
  exact write_hit g (by omega)

/-! ## Stores without effect -/

/-- Setting a bit changes nothing when it is set. -/
private theorem set_eq_self (bank : Nat → Bool) :
    (fun i => bank i || spot g n i) = bank ↔ (g.present (n % 1024) = true → bank (n % 1024) = true) := by
  constructor
  · intro same present
    have here := congrFun same (n % 1024)
    simpa [spot, present] using here.symm
  · intro set
    funext i
    by_cases here : i = n % 1024
    · rw [here]
      cases present : g.present (n % 1024) with
      | false => simp [spot, present]
      | true => simp [set present]
    · simp [spot, here]

private theorem clear_eq_self (bank : Nat → Bool) :
    (fun i => bank i && !spot g n i) = bank ↔ (g.present (n % 1024) = true → bank (n % 1024) = false) := by
  constructor
  · intro same present
    have here := congrFun same (n % 1024)
    simpa [spot, present] using here.symm
  · intro clear
    funext i
    by_cases here : i = n % 1024
    · rw [here]
      cases present : g.present (n % 1024) with
      | false => simp [spot, present]
      | true => simp [clear present]
    · simp [spot, here]

private theorem priorities_eq_self (word : Nat) (value : BitVec 32) :
    g.setPriorities word value = g.priority ↔
      ∀ i, g.present i = true → i / 4 = word → g.priority i = value.extractLsb' (8 * (i % 4)) 8 := by
  constructor
  · intro same i present here
    have stored := congrFun same i
    rw [Gic.setPriorities, if_pos ⟨present, here⟩] at stored
    exact stored.symm
  · intro stored
    funext i
    rw [Gic.setPriorities]
    split
    · rename_i both
      exact (stored i both.1 both.2).symm
    · rfl

/-- A store changes nothing exactly when it finds what it would store. -/
theorem hit_eq_self (n : Nat) (g : Gic) : hit n g = g ↔ Silent n g := by
  obtain ⟨are, enable, pending, active, priority, sgiEnable, sgiActive⟩ := g
  unfold hit Silent
  split
  · rw [← set_eq_self]
    simp
  · rw [← clear_eq_self]
    simp
  · rw [← set_eq_self]
    simp
  · rw [← clear_eq_self]
    simp
  · rw [← set_eq_self]
    simp
  · rw [← clear_eq_self]
    simp
  · rw [← priorities_eq_self]
    simp

/-- Setting a bit that was just cleared. -/
private theorem set_cleared (bank : Nat → Bool) :
    (fun i => bank i && !spot g (n + 1024) i || spot g n i) = fun i => bank i || spot g n i := by
  funext i
  rw [spot, spot, Nat.add_mod_right]
  cases bank i <;> cases g.present i && decide (i = n % 1024) <;> rfl

/-- Clearing and then setting: what is behind the number 1024 higher, then what
is behind `n`. Where both are the same bit, the second store alone counts. -/
theorem hit_twice (low : 1024 ≤ n) (high : n < lpiIrqMin) :
    hit n (hit (n + 1024) g) = g ↔ Silent n g ∧ (n / 1024 = 2 ∨ n / 1024 = 4 ∨ Silent (n + 1024) g) := by
  have bound : n < 8192 := high
  rw [← hit_eq_self, ← hit_eq_self]
  by_cases same : n / 1024 = 2 ∨ n / 1024 = 4
  · have second : hit n (hit (n + 1024) g) = hit n g := by
      rcases same with two | four
      · simp only [hit, two, show (n + 1024) / 1024 = 3 by omega]
        exact congrArg (fun bank => { g with pending := bank }) (set_cleared g.pending)
      · simp only [hit, four, show (n + 1024) / 1024 = 5 by omega]
        exact congrArg (fun bank => { g with active := bank }) (set_cleared g.active)
    rw [second]
    exact ⟨fun quiet => ⟨quiet, same.elim .inl (fun four => .inr (.inl four))⟩, fun both => both.1⟩
  · -- The stores are about different parts of the state, so each must be silent.
    have apart : hit n (hit (n + 1024) g) = g → hit (n + 1024) g = g := by
      intro both
      rcases (by omega : n / 1024 = 1 ∨ n / 1024 = 3 ∨ n / 1024 = 5 ∨ 6 ≤ n / 1024) with block | block | block | block
      · simp only [hit, block, show (n + 1024) / 1024 = 2 by omega] at both ⊢
        exact congrArg (fun bank => { g with pending := bank }) (congrArg Gic.pending both)
      · simp only [hit, block, show (n + 1024) / 1024 = 4 by omega] at both ⊢
        exact congrArg (fun bank => { g with active := bank }) (congrArg Gic.active both)
      · simp only [hit, block, show (n + 1024) / 1024 = 6 by omega] at both ⊢
        exact congrArg (fun bank => { g with priority := bank }) (congrArg Gic.priority both)
      · have above : 6 ≤ (n + 1024) / 1024 := by omega
        rw [hit_priority above, hit_priority block] at both
        rw [hit_priority above]
        have kept : g.setPriorities ((n + 1024) / 32 - 192) (1#32 <<< ((n + 1024) % 32)) = g.priority := by
          funext i
          have final := congrFun (congrArg Gic.priority both) i
          by_cases word : i / 4 = (n + 1024) / 32 - 192
          · simp only [Gic.setPriorities] at final
            rwa [if_neg (fun inner => by omega)] at final
          · rw [Gic.setPriorities, if_neg (fun inner => word inner.2)]
        exact congrArg (fun bank => { g with priority := bank }) kept
    constructor
    · intro both
      have first := apart both
      rw [first] at both
      exact ⟨both, .inr (.inr first)⟩
    · rintro ⟨quiet, two | four | first⟩
      · exact absurd (.inl two) same
      · exact absurd (.inr four) same
      · rw [first, quiet]

end Stores

/-! ## Calls -/

section Calls
variable {declared : List IrqHandlerStruct} {irq : BitVec 32} {s : Irqs} {g h k : Gic} {n : Nat}

theorem OnlyEnable.refl (n : Nat) (g : Gic) : OnlyEnable n g g :=
  ⟨rfl, fun _ _ => rfl, rfl, rfl, rfl, fun _ _ => rfl, rfl⟩

theorem OnlyEnable.trans (first : OnlyEnable n g h) (second : OnlyEnable n h k) : OnlyEnable n g k where
  are := second.are.trans first.are
  enable i other := (second.enable i other).trans (first.enable i other)
  pending := second.pending.trans first.pending
  active := second.active.trans first.active
  priority := second.priority.trans first.priority
  sgiEnable i other := (second.sgiEnable i other).trans (first.sgiEnable i other)
  sgiActive := second.sgiActive.trans first.sgiActive

/-- Numbers that have an enable bit. -/
theorem poke_only_enable (small : n < 1024) (g : Gic) :
    OnlyEnable n g (g.pokeIrq n gicdIsenabler) ∧ OnlyEnable n g (g.pokeIrq n gicdIcenabler) := by
  have bound : n < maxIrqId := Nat.lt_of_lt_of_le small (by decide)
  by_cases banked : n < 32
  · have zero : n / 32 * 4 = 0 := by omega
    have mask : ∀ i, i ≠ n → hits 0 (1#32 <<< (n % 32)) i = false := by
      intro i other
      rw [hits_mask]
      exact decide_eq_false (by omega)
    simp only [Gic.pokeIrq, banked, ↓reduceIte, zero, Nat.add_zero, Gic.writeSgi, gicdIsenabler, gicdIcenabler]
    refine ⟨⟨rfl, fun _ _ => rfl, rfl, rfl, rfl, fun i other => ?_, rfl⟩,
      ⟨rfl, fun _ _ => rfl, rfl, rfl, rfl, fun i other => ?_, rfl⟩⟩
    · simp [mask i (by omega)]
    · simp [mask i (by omega)]
  · rw [poke_enable g (by omega) bound, poke_disable g (by omega) bound]
    have spots : ∀ m i, m % 1024 = n → i ≠ n → spot g m i = false := by
      intro m i here other
      rw [spot, here, decide_eq_false other, Bool.and_false]
    simp only [hit, show n / 1024 = 0 by omega, show (n + 1024) / 1024 = 1 by omega]
    refine ⟨⟨rfl, fun i other => ?_, rfl, rfl, rfl, fun _ _ => rfl, rfl⟩,
      ⟨rfl, fun i other => ?_, rfl, rfl, rfl, fun _ _ => rfl, rfl⟩⟩
    · simp [spots n i (by omega) (by omega)]
    · simp [spots (n + 1024) i (by omega) (by omega)]

/-- Numbers without an enable bit: any change is one too many. -/
theorem onlyEnable_iff (large : 1024 ≤ n) (same : h.enable n = g.enable n) : OnlyEnable n g h ↔ h = g := by
  constructor
  · intro only
    have enable : h.enable = g.enable := by
      funext i
      by_cases here : i = n
      · rw [here, same]
      · exact only.enable i (.inl here)
    have sgiEnable : h.sgiEnable = g.sgiEnable := funext (fun i => only.sgiEnable i (.inr (by omega)))
    obtain ⟨are, _, pending, active, priority, _, sgiActive⟩ := only
    obtain ⟨_, _, _, _, _, _, _⟩ := h
    simp only at are enable pending active priority sgiEnable sgiActive
    subst are enable pending active priority sgiEnable sgiActive
    rfl
  · rintro rfl
    exact OnlyEnable.refl n h

/-- A store done twice is done. -/
theorem hit_idem (n : Nat) (g : Gic) : hit n (hit n g) = hit n g := by
  have set : ∀ bank : Nat → Bool, (fun i => bank i || spot g n i || spot g n i) = fun i => bank i || spot g n i :=
    fun bank => funext (fun i => by rw [Bool.or_assoc, Bool.or_self])
  have clear : ∀ bank : Nat → Bool, (fun i => bank i && !spot g n i && !spot g n i) = fun i => bank i && !spot g n i :=
    fun bank => funext (fun i => by rw [Bool.and_assoc, Bool.and_self])
  rcases (by omega : n / 1024 = 0 ∨ n / 1024 = 1 ∨ n / 1024 = 2 ∨ n / 1024 = 3 ∨ n / 1024 = 4 ∨ n / 1024 = 5 ∨
    6 ≤ n / 1024) with block | block | block | block | block | block | block
  · simp only [hit, block]
    exact congrArg (fun bank => { g with enable := bank }) (set g.enable)
  · simp only [hit, block]
    exact congrArg (fun bank => { g with enable := bank }) (clear g.enable)
  · simp only [hit, block]
    exact congrArg (fun bank => { g with pending := bank }) (set g.pending)
  · simp only [hit, block]
    exact congrArg (fun bank => { g with pending := bank }) (clear g.pending)
  · simp only [hit, block]
    exact congrArg (fun bank => { g with active := bank }) (set g.active)
  · simp only [hit, block]
    exact congrArg (fun bank => { g with active := bank }) (clear g.active)
  · rw [hit_priority block, hit_priority block]
    refine congrArg (fun bank => { g with priority := bank }) (funext (fun i => ?_))
    simp only [Gic.setPriorities]
    split
    · rename_i inner
      rw [if_pos (show g.present i = true ∧ i / 4 = n / 32 - 192 from inner)]
    · rfl

private theorem poke_idem (n : Nat) (g : Gic) (small : n < lpiIrqMin) :
    (g.pokeIrq n gicdIsenabler).pokeIrq n gicdIsenabler = g.pokeIrq n gicdIsenabler := by
  by_cases banked : n < 32
  · have zero : n / 32 * 4 = 0 := by omega
    simp only [Gic.pokeIrq, banked, ↓reduceIte, zero, Nat.add_zero, Gic.writeSgi, Bool.or_assoc, Bool.or_self]
  · have bound : n < maxIrqId := Nat.lt_of_lt_of_le small (by decide)
    rw [poke_enable g (by omega) bound, poke_enable _ (by omega) bound, hit_idem]

/-- A declared handler takes the place of the freed one. -/
def Redeclared (declared : List IrqHandlerStruct) (irq : BitVec 32) : Prop :=
  ∃ entry ∈ declared, entry.irqid = irq ∧ isrAttrA55 &&& entry.irqflags ≠ 0

private theorem register_gic (entry : IrqHandlerStruct) (s : Irqs) :
    (registerEntry entry s).gic =
      if entry.irqid.toNat < lpiIrqMin then s.gic.pokeIrq entry.irqid.toNat gicdIsenabler else s.gic := by
  unfold registerEntry gicRegisterIrq
  by_cases refused : maxIrqId ≤ entry.irqid.toNat
  · rw [if_pos refused, if_neg (Nat.not_lt.mpr (Nat.le_trans (by decide) refused))]
  · rw [if_neg refused]
    split <;> rfl

private theorem restore_tab (declared : List IrqHandlerStruct) (irq : BitVec 32) (s : Irqs) (other : i ≠ irq.toNat) :
    (restoreDeclared declared irq s).tab i = s.tab i := by
  unfold restoreDeclared
  induction declared generalizing s with
  | nil => rfl
  | cons entry declared ih =>
    rw [List.foldl_cons, ih]
    split
    · rfl
    · rename_i same
      rw [Decidable.not_not] at same
      split
      · exact register_tab_other entry (same ▸ other)
      · rfl

/-- The declared handlers set the enable bit again, if there is one. -/
theorem restore_gic (declared : List IrqHandlerStruct) (irq : BitVec 32) (s : Irqs) :
    (Redeclared declared irq ∧ irq.toNat < lpiIrqMin →
        (restoreDeclared declared irq s).gic = s.gic.pokeIrq irq.toNat gicdIsenabler) ∧
      (¬ (Redeclared declared irq ∧ irq.toNat < lpiIrqMin) → (restoreDeclared declared irq s).gic = s.gic) := by
  unfold restoreDeclared
  induction declared generalizing s with
  | nil => exact ⟨fun some => absurd some.1 (by simp [Redeclared]), fun _ => rfl⟩
  | cons entry declared ih =>
    rw [List.foldl_cons]
    by_cases here : entry.irqid = irq ∧ isrAttrA55 &&& entry.irqflags ≠ 0
    · obtain ⟨rfl, meant⟩ := here
      have again : Redeclared (entry :: declared) entry.irqid := ⟨entry, List.mem_cons_self, rfl, meant⟩
      rw [if_neg (by simp), if_pos meant]
      obtain ⟨more, none⟩ := ih (registerEntry entry s)
      rw [register_gic] at more none
      by_cases lpi : entry.irqid.toNat < lpiIrqMin
      · rw [if_pos lpi] at more none
        refine ⟨fun _ => ?_, fun impossible => absurd ⟨again, lpi⟩ impossible⟩
        by_cases rest : Redeclared declared entry.irqid
        · rw [more ⟨rest, lpi⟩, poke_idem _ _ lpi]
        · exact none (fun both => rest both.1)
      · rw [if_neg lpi] at none
        exact ⟨fun both => absurd both.2 lpi, fun _ => none (fun both => lpi both.2)⟩
    · have skip : (if irq ≠ entry.irqid then s else if isrAttrA55 &&& entry.irqflags ≠ 0 then registerEntry entry s
          else s) = s := by
        split
        · rfl
        · rename_i same
          rw [Decidable.not_not] at same
          rw [if_neg (fun meant => here ⟨same.symm, meant⟩)]
      have rest : Redeclared (entry :: declared) irq ↔ Redeclared declared irq := by
        constructor
        · rintro ⟨found, member, both⟩
          rcases List.mem_cons.mp member with rfl | later
          · exact absurd both here
          · exact ⟨found, later, both⟩
        · rintro ⟨found, member, both⟩
          exact ⟨found, List.mem_cons_of_mem _ member, both⟩
      rw [skip, rest]
      exact ih s

/-! ## The frame -/

/-- When a call touches nothing but the enable bit of its interrupt. -/
def Confined (declared : List IrqHandlerStruct) (g : Gic) : Call → Prop
  | .install irq _ _ _ => irq.toNat < 1024 ∨ lpiIrqMin ≤ irq.toNat ∨ Silent irq.toNat g
  | .free irq =>
    irq.toNat < 1024 ∨ maxIrqId ≤ irq.toNat ∨
      (Redeclared declared irq ∧ irq.toNat < lpiIrqMin ∧ Silent irq.toNat g ∧
          (irq.toNat / 1024 = 2 ∨ irq.toNat / 1024 = 4 ∨ Silent (irq.toNat + 1024) g) ∨
        ¬ (Redeclared declared irq ∧ irq.toNat < lpiIrqMin) ∧ Silent (irq.toNat + 1024) g)

private theorem call_tab (declared : List IrqHandlerStruct) (call : Call) (s : Irqs) (other : i ≠ call.irq) :
    (call.code declared s).tab i = s.tab i := by
  cases call with
  | install irq handler arg flag =>
    show (irqInstallHandler irq handler arg flag s).tab i = _
    rw [install_eq, register_tab_other _ other]
  | free irq =>
    show (restoreDeclared declared irq (gicUnregisterIrq irq s)).tab i = _
    rw [restore_tab declared irq _ other, unregister_tab_other other]

private theorem hit_enable_above (large : 1024 ≤ n) (m : Nat) (g : Gic) : (hit m g).enable n = g.enable n := by
  have no : spot g m n = false := by
    rw [spot, decide_eq_false (by omega), Bool.and_false]
  unfold hit
  split <;> simp [no]

/-- A call changes no entry of the table but its own, and no state of the GIC but
the enable bit of its interrupt, exactly when its number has an enable bit or
makes no store, or the stores that go astray find what they would store. -/
theorem call_frame_iff (declared : List IrqHandlerStruct) (call : Call) (s : Irqs) :
    ((∀ i, i ≠ call.irq → (call.code declared s).tab i = s.tab i) ∧
      OnlyEnable call.irq s.gic (call.code declared s).gic) ↔ Confined declared s.gic call := by
  rw [and_iff_right (fun i other => call_tab declared call s other)]
  obtain ⟨lpis, last⟩ : lpiIrqMin = 8192 ∧ maxIrqId = 8224 := ⟨rfl, rfl⟩
  cases call with
  | install irq handler arg flag =>
    show OnlyEnable irq.toNat s.gic (irqInstallHandler irq handler arg flag s).gic ↔ _ ∨ _ ∨ _
    rw [install_eq, register_gic]
    simp only
    generalize irq.toNat = n
    by_cases small : n < 1024
    · rw [if_pos (by omega)]
      exact iff_of_true (poke_only_enable small _).1 (.inl small)
    · by_cases lpi : lpiIrqMin ≤ n
      · rw [if_neg (by omega)]
        exact iff_of_true (OnlyEnable.refl _ _) (.inr (.inl lpi))
      · rw [if_pos (by omega), poke_enable _ (by omega) (by omega),
          onlyEnable_iff (by omega) (hit_enable_above (by omega) _ _), hit_eq_self, or_iff_right small, or_iff_right lpi]
  | free irq =>
    show OnlyEnable irq.toNat s.gic (restoreDeclared declared irq (gicUnregisterIrq irq s)).gic ↔ _ ∨ _ ∨ _
    obtain ⟨again, none⟩ := restore_gic declared irq (gicUnregisterIrq irq s)
    by_cases refused : maxIrqId ≤ irq.toNat
    · have same : gicUnregisterIrq irq s = s := if_pos refused
      rw [none (by omega), same]
      exact iff_of_true (OnlyEnable.refl _ _) (.inr (.inl refused))
    · have cleared : (gicUnregisterIrq irq s).gic = s.gic.pokeIrq irq.toNat gicdIcenabler := by
        rw [gicUnregisterIrq, if_neg refused]
        rfl
      rw [cleared] at again none
      by_cases small : irq.toNat < 1024
      · refine iff_of_true ?_ (.inl small)
        by_cases both : Redeclared declared irq ∧ irq.toNat < lpiIrqMin
        · rw [again both]
          exact (poke_only_enable small _).2.trans (poke_only_enable small _).1
        · rw [none both]
          exact (poke_only_enable small _).2
      · rw [poke_disable _ (by omega) (by omega)] at again none
        rw [or_iff_right small, or_iff_right refused]
        by_cases both : Redeclared declared irq ∧ irq.toNat < lpiIrqMin
        · rw [again both, poke_enable _ (by omega) (by omega), onlyEnable_iff (by omega)
            ((hit_enable_above (by omega) _ _).trans (hit_enable_above (by omega) _ _)), hit_twice (by omega) both.2]
          constructor
          · exact fun quiet => .inl ⟨both.1, both.2, quiet⟩
          · rintro (⟨_, _, quiet⟩ | ⟨neither, _⟩)
            · exact quiet
            · exact absurd both neither
        · rw [none both, onlyEnable_iff (by omega) (hit_enable_above (by omega) _ _), hit_eq_self]
          constructor
          · exact fun quiet => .inr ⟨both, quiet⟩
          · rintro (⟨declaredAgain, lpi, _⟩ | ⟨_, quiet⟩)
            · exact absurd ⟨declaredAgain, lpi⟩ both
            · exact quiet

end Calls

/-- Interrupt 32 is enabled, and no handler is installed. -/
def oneEnabled : Irqs :=
  { tab := fun _ => ⟨0#32, none, 0, "", 0#32⟩
    gic := { are := true, enable := fun i => decide (i = 32), pending := fun _ => false, active := fun _ => false,
             priority := fun _ => 0#8, sgiEnable := fun _ => false, sgiActive := fun _ => false } }

/-- Installing a handler for number 1056 disables interrupt 32: the store goes to
`GICD_ICENABLER1`. -/
theorem install_disables_other :
    oneEnabled.gic.enable 32 = true ∧
      (irqInstallHandler 1056#32 (some 0x1000) 0 0x4#32 oneEnabled).gic.enable 32 = false := by
  decide

end RockOs.InterruptFrame
