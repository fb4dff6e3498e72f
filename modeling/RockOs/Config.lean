import Mathlib.Data.Nat.Basic

/-! The build configuration the modelled sources are compiled with:
`include/generated/autoconf.h`, `include/rock/configs.h` and the headers that
derive sizes from them. -/
namespace RockOs.Config

/-- `CONFIG_RELOC_SYS_BLOCK_SIZE`. -/
def relocSysBlockSize : Nat := 0x2000000

/-- `CONFIG_MALLOC_F_LEN`. -/
def mallocFLen : Nat := 64 * 1024

/-- `CONFIG_START_ADDR_SP_SIZE`. -/
def startAddrSpSize : Nat := 8 * 1024

/-- `CONFIG_SYS_CBSIZE`. -/
def sysCbsize : Nat := 1024

/-- `CONFIG_SYS_PBSIZE`. -/
def sysPbsize : Nat := 1024

/-- `PAGE_SIZE` of `asm/mmu.h`. -/
def pageSize : Nat := 1 <<< 12

/-- `PAGING_MEMORY` of `malloc.h`. -/
def pagingMemory : Nat := if relocSysBlockSize ≤ 1024 * 1024 then 768 * 1024 else mallocFLen

/-- `PAGING_PAGES` of `malloc.h`: the entries of `mem_map` and `bd_kmap`. -/
def pagingPages : Nat := pagingMemory >>> 12

@[simp] theorem pageSize_eq : pageSize = 4096 := rfl

theorem pagingPages_eq : pagingPages = 16 := rfl

end RockOs.Config
