import Mathlib.Data.List.Infix

/-! Finding the redistributor of a CPU: `gic_iterate_rdists` and
`gic_populate_rdist` of `module/gicv3/irq-gicv3.c`. The frames follow each other
in memory, some twice as long, up to one marked as the last. The iteration
reports zero for a callback that was satisfied, and zero as well when it went
through all frames. -/
namespace RockOs.Redistributors

/-! ## The code -/

def sz64K : Nat := 0x10000

def gicrTyperVlpis : BitVec 64 := 1#64 <<< 1

def gicrTyperLast : BitVec 64 := 1#64 <<< 4

def gicPidr2ArchMask : BitVec 32 := 0xf0#32

def gicPidr2ArchGicv3 : BitVec 32 := 0x30#32

def gicPidr2ArchGicv4 : BitVec 32 := 0x40#32

def enodev : Int := 19

/-- `MPIDR_AFFINITY_LEVEL`. -/
def mpidrAffinityLevel (mpidr : BitVec 64) (level : Nat) : BitVec 64 := mpidr >>> (1 <<< level >>> 1 <<< 3) &&& 0xff#64

def mpidrHwidBitmask : BitVec 64 := 0xff00ffffff#64

/-- `GICR_TYPER` of the frame at an address, and `GICR_PIDR2` of the first one. -/
structure Region where
  rdistBase : Nat
  typer : Nat → BitVec 64
  pidr2 : BitVec 32

/-- The loop over the frames from `ptr` on: its result, and the frames that were
passed to the callback. Nothing comes out when the frames do not end. -/
def iterateLoop (r : Region) (fn : Nat → Int) : (fuel ptr : Nat) → Option (Int × List Nat)
  | 0, _ => none
  | fuel + 1, ptr =>
    let typer := r.typer ptr
    if fn ptr = 0 then some (0, [ptr])
    else
      let next := ptr + sz64K * 2
      let next := if typer &&& gicrTyperVlpis ≠ 0#64 then next + sz64K * 2 else next
      if typer &&& gicrTyperLast ≠ 0#64 then some (0, [ptr])
      else (iterateLoop r fn fuel next).map (fun (ret, rest) => (ret, ptr :: rest))

def gicIterateRdists (r : Region) (fn : Nat → Int) (fuel : Nat) : Option (Int × List Nat) :=
  let reg := r.pidr2 &&& gicPidr2ArchMask
  if reg ≠ gicPidr2ArchGicv3 ∧ reg ≠ gicPidr2ArchGicv4 then some (-enodev, [])
  else iterateLoop r fn fuel r.rdistBase

/-- The affinity of a CPU in the layout of `GICR_TYPER[63:32]`. -/
def affinity (mpidr : BitVec 64) : BitVec 32 :=
  let mpidr := mpidr &&& mpidrHwidBitmask
  BitVec.truncate 32 (mpidrAffinityLevel mpidr 3 <<< 24 ||| mpidrAffinityLevel mpidr 2 <<< 16 |||
    mpidrAffinityLevel mpidr 1 <<< 8 ||| mpidrAffinityLevel mpidr 0)

/-- The callback `__gic_populate_rdist`. -/
def populateFrame (r : Region) (mpidr : BitVec 64) (ptr : Nat) : Int :=
  if r.typer ptr >>> 32 = BitVec.zeroExtend 64 (affinity mpidr) then 0 else 1

def gicPopulateRdist (r : Region) (mpidr : BitVec 64) (fuel : Nat) : Option (Int × List Nat) :=
  (gicIterateRdists r (populateFrame r mpidr) fuel).map
    (fun (ret, frames) => if ret = 0 then (0, frames) else (-enodev, frames))

/-! ## Chains of frames -/

def Last (typer : BitVec 64) : Prop := typer.getLsbD 4 = true

/-- Where the frame after one at `ptr` starts. -/
def nextFrame (ptr : Nat) (typer : BitVec 64) : Nat := ptr + if typer.getLsbD 1 then 0x40000 else 0x20000

/-- The addresses of the frames of a chain. -/
def frames : Nat → List (BitVec 64) → List Nat
  | _, [] => []
  | ptr, typer :: chain => ptr :: frames (nextFrame ptr typer) chain

/-- The frames with these `GICR_TYPER` values lie at `ptr`, and the last of them is
the first one that is marked so. -/
def Laid (typer : Nat → BitVec 64) : Nat → List (BitVec 64) → Prop
  | _, [] => False
  | ptr, t :: chain => typer ptr = t ∧ (Last t ∧ chain = [] ∨ ¬ Last t ∧ Laid typer (nextFrame ptr t) chain)

/-- The affinity fields of `MPIDR_EL1`, without the bits between them. -/
def cpuAffinity (mpidr : BitVec 64) : BitVec 32 := mpidr.extractLsb' 32 8 ++ mpidr.extractLsb' 0 24

/-- `TYPER[63:32]`. -/
def frameAffinity (typer : BitVec 64) : BitVec 32 := typer.extractLsb' 32 32

/-- The search returns. It reports success for the CPUs that have a frame, and
looks at frames in order, at none twice. -/
def Sound (r : Region) (chain : List (BitVec 64)) (mpidr : BitVec 64) : Prop :=
  ∀ fuel, chain.length ≤ fuel → ∃ ret examined, gicPopulateRdist r mpidr fuel = some (ret, examined) ∧
    (ret = 0 ↔ ∃ typer ∈ chain, frameAffinity typer = cpuAffinity mpidr) ∧
    examined <+: frames r.rdistBase chain ∧ examined.Nodup

/-- The first frame says that it is one of a GICv3 or GICv4. -/
def Present (r : Region) : Prop :=
  r.pidr2 &&& gicPidr2ArchMask = gicPidr2ArchGicv3 ∨ r.pidr2 &&& gicPidr2ArchMask = gicPidr2ArchGicv4

private theorem flag_iff (typer : BitVec 64) {k : Nat} (inside : k < 64) :
    typer &&& 1#64 <<< k ≠ 0#64 ↔ typer.getLsbD k = true := by
  rw [← BitVec.twoPow_eq, BitVec.and_twoPow]
  cases typer.getLsbD k with
  | false => simp
  | true =>
    refine iff_of_true (fun zero => ?_) rfl
    have set := congrArg (fun x => x.getLsbD k) zero
    simp [inside] at set

section Search
variable {r : Region} {fn : Nat → Int} {ptr fuel : Nat} {chain : List (BitVec 64)}

private theorem nextFrame_eq (ptr : Nat) (typer : BitVec 64) :
    (if typer &&& gicrTyperVlpis ≠ 0#64 then ptr + sz64K * 2 + sz64K * 2 else ptr + sz64K * 2) =
      nextFrame ptr typer := by
  have flag : typer &&& gicrTyperVlpis ≠ 0#64 ↔ typer.getLsbD 1 = true := flag_iff typer (by decide)
  have double : sz64K * 2 = 0x20000 := by decide
  unfold nextFrame
  by_cases long : typer.getLsbD 1 = true
  · simp only [flag, long, ↓reduceIte]
    omega
  · simp only [flag, long, double]
    rfl

/-- Through a whole chain the loop reports zero, whatever the callback says. -/
theorem iterateLoop_chain (laid : Laid r.typer ptr chain) (enough : chain.length ≤ fuel) :
    ∃ examined, iterateLoop r fn fuel ptr = some (0, examined) ∧ examined <+: frames ptr chain := by
  induction chain generalizing ptr fuel with
  | nil => exact laid.elim
  | cons t chain ih =>
    obtain ⟨here, rest⟩ := laid
    rw [List.length_cons] at enough
    obtain ⟨fuel, rfl⟩ : ∃ more, fuel = more + 1 := ⟨fuel - 1, by omega⟩
    have one : [ptr] <+: frames ptr (t :: chain) := ⟨_, rfl⟩
    have marked : t &&& gicrTyperLast ≠ 0#64 ↔ Last t := flag_iff t (by decide)
    rw [iterateLoop]
    simp only [here, nextFrame_eq]
    split
    · exact ⟨_, rfl, one⟩
    · split
      · exact ⟨_, rfl, one⟩
      · rename_i unmarked
        have later := (rest.resolve_left (fun last => unmarked (marked.mpr last.1))).2
        obtain ⟨examined, looped, inside⟩ := ih later (show chain.length ≤ fuel by omega)
        rw [looped]
        exact ⟨ptr :: examined, rfl, List.cons_prefix_cons.mpr ⟨rfl, inside⟩⟩

private theorem le_of_mem_frames (member : x ∈ frames ptr chain) : ptr ≤ x := by
  induction chain generalizing ptr with
  | nil => cases member
  | cons t chain ih =>
    rcases List.mem_cons.mp member with rfl | member
    · exact le_rfl
    · have later := ih member
      unfold nextFrame at later
      omega

/-- No two frames of a chain are at one address. -/
theorem frames_nodup (ptr : Nat) (chain : List (BitVec 64)) : (frames ptr chain).Nodup := by
  induction chain generalizing ptr with
  | nil => exact List.nodup_nil
  | cons t chain ih =>
    refine List.nodup_cons.mpr ⟨fun member => ?_, ih _⟩
    have later := le_of_mem_frames member
    unfold nextFrame at later
    split at later <;> omega

/-- The search is sound exactly when the first frame is one of a GICv3 or GICv4 and
the CPU has a frame, or neither. -/
theorem populate_rdist_iff (r : Region) (chain : List (BitVec 64)) (laid : Laid r.typer r.rdistBase chain)
    (mpidr : BitVec 64) :
    Sound r chain mpidr ↔ (Present r ↔ ∃ typer ∈ chain, frameAffinity typer = cpuAffinity mpidr) := by
  have searched : ∀ fuel, chain.length ≤ fuel → ∃ ret examined, gicPopulateRdist r mpidr fuel = some (ret, examined) ∧
      (ret = 0 ↔ Present r) ∧ examined <+: frames r.rdistBase chain := by
    intro fuel enough
    unfold gicPopulateRdist gicIterateRdists
    by_cases present : Present r
    · obtain ⟨examined, looped, inside⟩ :
          ∃ examined, iterateLoop r (populateFrame r mpidr) fuel r.rdistBase = some (0, examined) ∧
            examined <+: frames r.rdistBase chain := iterateLoop_chain laid enough
      refine ⟨0, examined, ?_, iff_of_true rfl present, inside⟩
      simp only
      rw [if_neg (fun neither => present.elim neither.1 neither.2), looped]
      rfl
    · refine ⟨-enodev, [], ?_, iff_of_false (by decide) present, List.nil_prefix⟩
      simp only
      rw [if_pos (not_or.mp present)]
      rfl
  constructor
  · intro sound
    obtain ⟨ret, examined, returned, right, _⟩ := sound _ le_rfl
    obtain ⟨ret', examined', returned', zero, _⟩ := searched _ le_rfl
    rw [returned, Option.some.injEq, Prod.mk.injEq] at returned'
    rw [← zero, ← returned'.1, right]
  · intro agrees fuel enough
    obtain ⟨ret, examined, returned, zero, inside⟩ := searched fuel enough
    exact ⟨ret, examined, returned, zero.trans agrees, inside, (frames_nodup _ _).sublist inside.sublist⟩

end Search

/-- A GICv3 with one frame, for the CPU with affinity 1. -/
def oneFrame : Region :=
  { rdistBase := 0x2f100000, typer := fun _ => 0x100000010#64, pidr2 := 0x3b#32 }

/-- The CPU with affinity 0 has no frame, and is told that it has one. -/
theorem populate_rdist_missing : gicPopulateRdist oneFrame 0#64 1 = some (0, [0x2f100000]) ∧
    ¬ Sound oneFrame [0x100000010#64] 0#64 := by
  have returned : gicPopulateRdist oneFrame 0#64 1 = some (0, [0x2f100000]) := by decide
  refine ⟨returned, fun sound => ?_⟩
  obtain ⟨ret, examined, again, right, _⟩ := sound 1 le_rfl
  rw [returned, Option.some.injEq, Prod.mk.injEq] at again
  obtain ⟨typer, member, affinity⟩ := right.mp again.1.symm
  rw [List.mem_singleton.mp member] at affinity
  revert affinity
  decide

/-- A GICv4 with a frame of double length in front of two others. -/
def threeFrames : Region where
  rdistBase := 0x2f100000
  typer ptr := if ptr = 0x2f100000 then 0x2#64 else if ptr = 0x2f140000 then 0x100000000#64 else 0x200000010#64
  pidr2 := 0x4b#32

private theorem threeFrames_laid : Laid threeFrames.typer threeFrames.rdistBase
    [0x2#64, 0x100000000#64, 0x200000010#64] := by
  refine ⟨rfl, .inr ⟨?_, rfl, .inr ⟨?_, rfl, .inl ⟨?_, rfl⟩⟩⟩⟩ <;> unfold Last <;> decide

/-- The frame of the CPU with affinity 2 is the third. -/
theorem populate_rdist_found : Sound threeFrames [0x2#64, 0x100000000#64, 0x200000010#64] 2#64 ∧
    gicPopulateRdist threeFrames 2#64 3 = some (0, [0x2f100000, 0x2f140000, 0x2f160000]) :=
  ⟨(populate_rdist_iff threeFrames _ threeFrames_laid 2#64).mpr
    (iff_of_true (.inr (by decide)) ⟨0x200000010#64, by decide, by decide⟩), by decide⟩

end RockOs.Redistributors
