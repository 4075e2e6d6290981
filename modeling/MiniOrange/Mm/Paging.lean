import MiniOrange.Kernel.Panic
import MiniOrange.Mm.Mmu
import MiniOrange.Mm.Pmm

/-!
# Page tables

`vmm.c` maps and unmaps pages in the page directory that is active. Directories and tables are pages of the physical memory.
An access to a virtual address goes through the page walk, and is a fault in the kernel where that finds nothing.

The arrays `page_directory` and `page_tables` of the source lie in the last 4 MiB, where the directory is its own page table.
They are given here by what they lead to, the entries of the active directory and of its tables, and `walk_page_directory` and
`walk_page_tables` show that this is where the page walk goes.
-/

namespace MiniOrange

/-- The static state of `vmm.c` and `address_space.c`, the physical memory and its bitmaps, and the registers. -/
structure Paging where
  pmm : Pmm
  memory : Ram
  cr3 : Nat
  vmmInitialized : Bool
  kernelPageDirectoryPhysical : Nat
  addressSpaceWindowBusy : Bool
  /-- The interrupt flag in `address_space_window_irq_flags`. -/
  addressSpaceWindowIrqFlags : Bool
  /-- The interrupt flag. -/
  interrupts : Bool

namespace Paging

/-- `KERNEL_BASE`. -/
def kernelBase : Nat := 0xC0000000

/-- `KERNEL_PDE_INDEX`. -/
def kernelPdeIndex : Nat := 768

/-- `SCRATCH_VIRTUAL_ADDRESS`. -/
def scratchVirtualAddress : Nat := 0xC03FF000

/-- `RECURSIVE_PAGE_TABLES`. -/
def recursivePageTables : Nat := 0xFFC00000

/-- `RECURSIVE_PAGE_DIRECTORY`. -/
def recursivePageDirectory : Nat := 0xFFFFF000

/-- The page directory that is active. -/
def directory (s : Paging) : Nat := pageOf s.cr3

/-- `page_directory[index]`. -/
def pde (s : Paging) (index : Nat) : Nat := s.memory.word (s.directory + index * 4)

/-- Where `page_tables[index]` is. -/
def entryAddress (s : Paging) (index : Nat) : Nat := pageOf (s.pde (index / 1024)) + index % 1024 * 4

/-- `page_tables[index]`. -/
def pte (s : Paging) (index : Nat) : Nat := s.memory.word (s.entryAddress index)

/-- Where an access of the kernel to a virtual address goes. -/
def translate (s : Paging) (write : Bool) (address : Nat) : Option Nat := s.memory.walk s.directory false write address

/-! ## Accesses -/

/-- Read a word at a virtual address. -/
def loadWord (address : Nat) : Mem Paging Nat := do
  let s ← get
  match s.translate false address with
  | some physical => return s.memory.word physical
  | none => throw (.fault address)

/-- Write a word at a virtual address. -/
def storeWord (address value : Nat) : Mem Paging Unit := do
  let s ← get
  match s.translate true address with
  | some physical => set { s with memory := s.memory.setWord physical value }
  | none => throw (.fault address)

/-- Read a byte at a virtual address. -/
def loadByte (address : Nat) : Mem Paging UInt8 := do
  let s ← get
  match s.translate false address with
  | some physical => return s.memory physical
  | none => throw (.fault address)

/-- Write a byte at a virtual address. -/
def storeByte (address : Nat) (value : UInt8) : Mem Paging Unit := do
  let s ← get
  match s.translate true address with
  | some physical => set { s with memory := s.memory.setByte physical value }
  | none => throw (.fault address)

/-- Read `page_directory[index]`. -/
def pageDirectory (index : Nat) : Mem Paging Nat := do return (← get).pde index

/-- Write `page_directory[index]`. -/
def setPageDirectory (index value : Nat) : Mem Paging Unit :=
  modify fun s => { s with memory := s.memory.setWord (s.directory + index * 4) value }

/-- Read `page_tables[index]`. -/
def pageTables (index : Nat) : Mem Paging Nat := do
  let s ← get
  panicUnless (passes false false (s.pde (index / 1024)) = true) (.fault (recursivePageTables + index * 4))
  return s.pte index

/-- Write `page_tables[index]`. -/
def setPageTables (index value : Nat) : Mem Paging Unit := do
  let s ← get
  panicUnless (passes false true (s.pde (index / 1024)) = true) (.fault (recursivePageTables + index * 4))
  set { s with memory := s.memory.setWord (s.entryAddress index) value }

/-- `pmm_alloc`. -/
def pmmAlloc : Mem Paging Nat := fun s => .ok (s.pmm.pmmAlloc.1, { s with pmm := s.pmm.pmmAlloc.2 })

/-- `pmm_free`. -/
def pmmFree (physical : Nat) : Mem Paging Bool := fun s =>
  .ok ((s.pmm.pmmFree physical).1, { s with pmm := (s.pmm.pmmFree physical).2 })

/-! ## `vmm.c` -/

/-- The loop that writes zeros over the words of a page, with `left` words to go. -/
def zeroFrom (page : Nat) : Nat → Nat → Mem Paging Unit
  | 0, _ => return ()
  | left + 1, index => do
    storeWord (page + index * 4) 0
    zeroFrom page left (index + 1)

/-- The index in `page_tables` of the page at `SCRATCH_VIRTUAL_ADDRESS`. -/
def scratchIndex : Nat := kernelPdeIndex * 1024 + 1023

/-- `zero_page_through_scratch`. -/
def zeroPageThroughScratch (physicalAddress : Nat) : Mem Paging Unit := do
  let entry ← pageTables scratchIndex
  panicUnless (present entry = false) .scratchBusy
  setPageTables scratchIndex (physicalAddress ||| 1 ||| 2)
  zeroFrom scratchVirtualAddress 1024 0
  setPageTables scratchIndex 0

/-- `vmm_kernel_page_directory`. -/
def vmmKernelPageDirectory (s : Paging) : Nat := if s.vmmInitialized then s.kernelPageDirectoryPhysical else 0

/-- `vmm_current_page_directory`. -/
def vmmCurrentPageDirectory (s : Paging) : Nat := if s.vmmInitialized then s.directory else 0

/-- `vmm_activate_page_directory`. -/
def vmmActivatePageDirectory (physicalAddress : Nat) : Mem Paging Bool := do
  let s ← get
  if s.vmmInitialized = false ∨ physicalAddress = 0 ∨ physicalAddress % 4096 ≠ 0 then return false
  else
    set { s with cr3 := physicalAddress }
    return true

/-- `vmm_activate_kernel_address_space`. -/
def vmmActivateKernelAddressSpace : Mem Paging Bool := do vmmActivatePageDirectory (← get).kernelPageDirectoryPhysical

/-- The page table for an address of `vmm_map`, made if there is none; there is no page for it, or there is now a table. -/
def ensureTable (directoryIndex flags : Nat) : Mem Paging Bool := do
  let entry ← pageDirectory directoryIndex
  if present entry = false then
    let pageTablePhysical ← pmmAlloc
    if pageTablePhysical = 0 then return false
    else
      zeroPageThroughScratch pageTablePhysical
      setPageDirectory directoryIndex (pageTablePhysical ||| 1 ||| 2 ||| (flags &&& 4))
      return true
  else if userPage flags then
    setPageDirectory directoryIndex (entry ||| 4)
    return true
  else return true

/-- The index in `page_tables` of the page of an address. -/
def entryIndex (virtualAddress : Nat) : Nat := virtualAddress / 2 ^ 22 * 1024 + virtualAddress / 4096 % 1024

/-- What `vmm_map` refuses. -/
def MapRefused (s : Paging) (virtualAddress physicalAddress flags : Nat) : Prop :=
  s.vmmInitialized = false ∨ virtualAddress % 4096 ≠ 0 ∨ physicalAddress % 4096 ≠ 0 ∨
    virtualAddress = scratchVirtualAddress ∨ virtualAddress ≥ recursivePageTables ∨
    userPage flags = true ∧ virtualAddress ≥ kernelBase ∨ userPage flags = false ∧ virtualAddress < kernelBase

instance (s : Paging) (virtualAddress physicalAddress flags : Nat) : Decidable (MapRefused s virtualAddress physicalAddress flags) :=
  inferInstanceAs (Decidable (_ ∨ _))

/-- `vmm_map`. -/
def vmmMap (virtualAddress physicalAddress flags : Nat) : Mem Paging Bool := do
  if MapRefused (← get) virtualAddress physicalAddress flags then return false
  else
    if ← ensureTable (virtualAddress / 2 ^ 22) flags then
      let entry ← pageTables (entryIndex virtualAddress)
      if present entry then return false
      else
        setPageTables (entryIndex virtualAddress) (physicalAddress ||| 1 ||| (flags &&& 6))
        return true
    else return false

/-- The loop of `vmm_unmap` over the entries of a table, with `left` entries to go: none is present. -/
def tableEmptyFrom (directoryIndex : Nat) : Nat → Nat → Mem Paging Bool
  | 0, _ => return true
  | left + 1, index => do
    let entry ← pageTables (directoryIndex * 1024 + index)
    if present entry then return false else tableEmptyFrom directoryIndex left (index + 1)

/-- `vmm_unmap` from the loop on. -/
def releaseIfEmpty (directoryIndex : Nat) : Mem Paging Unit := do
  if ← tableEmptyFrom directoryIndex 1024 0 then
    let tablePhysical := pageOf (← pageDirectory directoryIndex)
    setPageDirectory directoryIndex 0
    panicUnless ((← pmmFree tablePhysical) = true) .emptyTableNotReleased
  else return ()

/-- `vmm_unmap`, with the page that was mapped. -/
def vmmUnmap (virtualAddress : Nat) : Mem Paging (Option Nat) := do
  if (← get).vmmInitialized = false ∨ virtualAddress % 4096 ≠ 0 ∨ virtualAddress ≥ recursivePageTables then return none
  else
    if present (← pageDirectory (virtualAddress / 2 ^ 22)) = false then return none
    else
      let entry ← pageTables (entryIndex virtualAddress)
      if present entry = false then return none
      else
        setPageTables (entryIndex virtualAddress) 0
        if virtualAddress / 2 ^ 22 = kernelPdeIndex then return some (pageOf entry)
        else
          releaseIfEmpty (virtualAddress / 2 ^ 22)
          return some (pageOf entry)

/-- The flags that `vmm_query` and `vmm_address_space_query` return. -/
def queryFlags (directoryEntry entry : Nat) : Nat :=
  (if writable entry && writable directoryEntry then 2 else 0) ||| (if userPage entry && userPage directoryEntry then 4 else 0)

/-- `vmm_query`, with the physical address and the flags. -/
def vmmQuery (s : Paging) (virtualAddress : Nat) : Option (Nat × Nat) :=
  if s.vmmInitialized = false ∨ virtualAddress ≥ recursivePageTables ∨ present (s.pde (virtualAddress / 2 ^ 22)) = false then none
  else if present (s.pte (entryIndex virtualAddress)) = false then none
  else some (pageOf (s.pte (entryIndex virtualAddress)) ||| virtualAddress % 4096,
    queryFlags (s.pde (virtualAddress / 2 ^ 22)) (s.pte (entryIndex virtualAddress)))

/-! ## The recursive entry -/

/-- The last entry of the directory leads to the directory. -/
def Recursive (m : Ram) (directory : Nat) : Prop := m.word (directory + 1023 * 4) = directory ||| 1 ||| 2

variable {m : Ram} {d i : Nat} {write : Bool}

theorem passes_recursive (hd : d % 4096 = 0) : passes false write (d ||| 1 ||| 2) = true := by
  have hbit : ∀ k < 12, (d ||| 1 ||| 2).testBit k = (1 ||| 2).testBit k := fun k hk => by
    rw [Nat.or_assoc, testBit_page_or hd hk]
  unfold passes present writable
  rw [hbit 0 (by decide), hbit 1 (by decide)]
  cases write with
  | true => rfl
  | false => rfl

/-- `page_directory[i]` is entry `i` of the directory. -/
theorem walk_page_directory (h : Recursive m d) (hd : d % 4096 = 0) (hi : i < 1024) :
    m.walk d false write (recursivePageDirectory + i * 4) = some (d + i * 4) := by
  have hpde : Ram.directoryEntry d (recursivePageDirectory + i * 4) = d + 1023 * 4 := by
    unfold Ram.directoryEntry recursivePageDirectory
    omega
  have hpte : Ram.tableEntry d (recursivePageDirectory + i * 4) = d + 1023 * 4 := by
    unfold Ram.tableEntry recursivePageDirectory
    omega
  have hpage : pageOf (d ||| 1 ||| 2) = d := by rw [Nat.or_assoc, pageOf_or hd (by decide)]
  have hpass : passes false write (d ||| 1 ||| 2) = true := passes_recursive hd
  have hoffset : (recursivePageDirectory + i * 4) % 4096 = i * 4 := by
    unfold recursivePageDirectory
    omega
  rw [Ram.walk_eq ((congrArg m.word hpde).trans h) (by rw [hpage, hpte, h]), hpage, hoffset, if_pos ⟨hpass, hpass⟩]

/-- `page_tables[i]` is entry `i % 1024` of the table of entry `i / 1024` of the directory. -/
theorem walk_page_tables (h : Recursive m d) (hd : d % 4096 = 0) (hi : i < 1024 * 1024) :
    m.walk d false write (recursivePageTables + i * 4) = if passes false write (m.word (d + i / 1024 * 4)) = true then
      some (pageOf (m.word (d + i / 1024 * 4)) + i % 1024 * 4) else none := by
  have hpde : Ram.directoryEntry d (recursivePageTables + i * 4) = d + 1023 * 4 := by
    unfold Ram.directoryEntry recursivePageTables
    omega
  have hpte : Ram.tableEntry d (recursivePageTables + i * 4) = d + i / 1024 * 4 := by
    unfold Ram.tableEntry recursivePageTables
    omega
  have hpage : pageOf (d ||| 1 ||| 2) = d := by rw [Nat.or_assoc, pageOf_or hd (by decide)]
  have hpass : passes false write (d ||| 1 ||| 2) = true := passes_recursive hd
  have hoffset : (recursivePageTables + i * 4) % 4096 = i % 1024 * 4 := by
    unfold recursivePageTables
    omega
  rw [Ram.walk_eq ((congrArg m.word hpde).trans h) (by rw [hpage, hpte]), hoffset]
  simp only [hpass, true_and]

/-! ## The page walk -/

theorem entryIndex_div (a : Nat) : entryIndex a / 1024 = a / 2 ^ 22 := by
  unfold entryIndex
  omega

theorem entryIndex_mod (a : Nat) : entryIndex a % 1024 = a / 4096 % 1024 := by
  unfold entryIndex
  omega

/-- The page walk finds the entries that `vmm_query` looks at. -/
theorem walk_directory (s : Paging) (user write : Bool) (a : Nat) : s.memory.walk s.directory user write a =
    if passes user write (s.pde (a / 2 ^ 22)) = true ∧ passes user write (s.pte (entryIndex a)) = true then
      some (pageOf (s.pte (entryIndex a)) + a % 4096) else none := by
  have hpte : s.memory.word (Ram.tableEntry (pageOf (s.pde (a / 2 ^ 22))) a) = s.pte (entryIndex a) := by
    unfold pte entryAddress Ram.tableEntry
    rw [entryIndex_div, entryIndex_mod]
  exact Ram.walk_eq rfl hpte

end Paging

end MiniOrange
