import RockOs.PageWalk

/-! What `get_tcr` puts into the translation control register. The address size
is the smallest that holds the map, and T0SZ says so. The bits above are another
matter: the reserved bit is written `1 << 31` in `int` and arrives sign extended. -/
namespace RockOs.TranslationControl
open PageTables PageWalk

/-- The address sizes that the register can be given. -/
def sizes : List Nat := [32, 36, 40, 42, 44, 48]

/-- A field of the register. -/
def field (tcr : BitVec 64) (low width : Nat) : Nat := (tcr.extractLsb' low width).toNat

/-- Where the output size stands: IPS on EL1, PS on EL2 and EL3. -/
def psLow (el : Int) : Nat := if el = 1 then 32 else 16

/-- The last bit that the exception level uses. -/
def lastBit (el : Int) : Nat := if el = 1 then 34 else 31

/-- Every region of the map ends inside an address space of this size. -/
def Fits (memMap : List MmRegion) (bits : Nat) : Prop := ∀ m ∈ regions memMap, m.virt + m.size ≤ 2 ^ bits

/-- The register says what `get_tcr` reports, and nothing else. -/
structure Encodes (memMap : List MmRegion) (el : Int) : Prop where
  t0sz : field (getTcr memMap el).tcr 0 6 = 64 - (getTcr memMap el).vaBits
  ps : field (getTcr memMap el).tcr (psLow el) 3 = (getTcr memMap el).ips
  clear : ∀ i, lastBit el < i → (getTcr memMap el).tcr.getLsbD i = false
  size : (getTcr memMap el).vaBits ∈ sizes
  fits : Fits memMap (getTcr memMap el).vaBits
  smallest : ∀ bits ∈ sizes, Fits memMap bits → (getTcr memMap el).vaBits ≤ bits

section Register
variable {memMap : List MmRegion} {el : Int} {bits largest : Nat}

private theorem addrSizes_mem (largest : Nat) :
    addrSizes largest ∈ [(0, 32), (1, 36), (2, 40), (3, 42), (4, 44), (5, 48)] := by
  unfold addrSizes
  split_ifs <;> decide

/-- No smaller size holds the largest address. -/
theorem addrSizes_le (listed : bits ∈ sizes) (holds : largest ≤ 2 ^ bits) : (addrSizes largest).2 ≤ bits := by
  simp only [sizes, List.mem_cons, List.not_mem_nil, or_false] at listed
  unfold addrSizes
  rcases listed with rfl | rfl | rfl | rfl | rfl | rfl
  all_goals split_ifs <;> simp only <;> omega

/-- The sign of the reserved bit. -/
theorem tcr_sign (memMap : List MmRegion) (el : Int) (high : 31 ≤ i) (inside : i < 64) :
    (getTcr memMap el).tcr.getLsbD i = true := by
  have reserved : ∀ i, 31 ≤ i → i < 64 →
      (0xffffffff80000000#64).getLsbD i = true ∧ (0xffffffff80800000#64).getLsbD i = true := by
    decide
  obtain ⟨first, others⟩ := reserved i high inside
  unfold getTcr
  simp only [BitVec.getLsbD_or]
  split_ifs <;> simp [first, others]

/-- What is right about the register: T0SZ, the output size unless on EL1, and
the address size itself. -/
theorem tcr_fields (memMap : List MmRegion) (el : Int) (ends : Fits memMap 48) :
    field (getTcr memMap el).tcr 0 6 = 64 - (getTcr memMap el).vaBits ∧
    (el ≠ 1 → field (getTcr memMap el).tcr (psLow el) 3 = (getTcr memMap el).ips) ∧
    (getTcr memMap el).vaBits ∈ sizes ∧ Fits memMap (getTcr memMap el).vaBits ∧
    ∀ bits ∈ sizes, Fits memMap bits → (getTcr memMap el).vaBits ≤ bits := by
  have listed := addrSizes_mem (maxAddr memMap)
  refine ⟨?_, fun other => ?_, ?_, fun m member => region_in_space ends member, fun bits among fits => ?_⟩
  · unfold getTcr
    generalize addrSizes (maxAddr memMap) = both at listed
    simp only [List.mem_cons, List.not_mem_nil, or_false] at listed
    rcases listed with rfl | rfl | rfl | rfl | rfl | rfl
    all_goals simp only; split_ifs <;> decide
  · unfold getTcr psLow
    generalize addrSizes (maxAddr memMap) = both at listed
    simp only [List.mem_cons, List.not_mem_nil, or_false] at listed
    simp only [other, ↓reduceIte, ite_self]
    rcases listed with rfl | rfl | rfl | rfl | rfl | rfl
    all_goals decide
  · show (addrSizes (maxAddr memMap)).2 ∈ [(0, 32), (1, 36), (2, 40), (3, 42), (4, 44), (5, 48)].map Prod.snd
    exact List.mem_map_of_mem listed
  · refine addrSizes_le among ((maxAddr_le_iff memMap _).mpr (fun m member => ?_))
    exact (Nat.mod_le _ _).trans (fits m member)

/-- On no map and no exception level does the register say just what it should:
the bits above the fields are all set. -/
theorem tcr_never_encodes (memMap : List MmRegion) (el : Int) : ¬ Encodes memMap el := by
  intro encodes
  have clear : (getTcr memMap el).tcr.getLsbD 63 = false := by
    refine encodes.clear 63 ?_
    unfold lastBit
    split_ifs <;> decide
  rw [tcr_sign memMap el (by decide) (by decide)] at clear
  cases clear

/-- One region of 2 GiB: on EL1 the output size reads as the reserved value 7, and
the reported one is 0. -/
theorem tcr_output_size :
    let memMap : List MmRegion := [{ virt := 0, phys := 0, size := 0x80000000, attrs := 0x710#64 }]
    (getTcr memMap 1).ips = 0 ∧ field (getTcr memMap 1).tcr 32 3 = 7 ∧ (getTcr memMap 1).tcr.getLsbD 63 = true ∧
      ¬ Encodes memMap 1 := by
  refine ⟨by decide, by decide, by decide, fun encodes => ?_⟩
  have size := encodes.ps
  revert size
  decide

end Register

end RockOs.TranslationControl
