import MiniOrange.Mm.Paging

/-!
# Address spaces

`address_space.c` works on page directories that are not active, and on their tables, through two windows of the active
directory: a page is mapped at a window, accessed there and unmapped again. An address space is given by the physical address
of its page directory.
-/

namespace MiniOrange

namespace Paging

/-- `ADDRESS_SPACE_DIRECTORY_WINDOW`. -/
def directoryWindow : Nat := 0xD0800000

/-- `ADDRESS_SPACE_TABLE_WINDOW`. -/
def tableWindow : Nat := 0xD0801000

/-- `ADDRESS_SPACE_WINDOW_PDE`. -/
def windowPde : Nat := 834

/-- `RECURSIVE_PDE_INDEX`. -/
def recursivePdeIndex : Nat := 1023

/-- `valid_space`. -/
def validSpace (space : Nat) : Bool := space ≠ 0 && space % 4096 = 0

/-- `acquire_window`. -/
def acquireWindow : Mem Paging Bool := do
  let s ← get
  if s.addressSpaceWindowBusy then return false
  else
    set { s with interrupts := false, addressSpaceWindowBusy := true, addressSpaceWindowIrqFlags := s.interrupts }
    return true

/-- `release_window`. -/
def releaseWindow : Mem Paging Unit :=
  modify fun s => { s with addressSpaceWindowBusy := false, interrupts := s.addressSpaceWindowIrqFlags }

/-- A function with the windows, `acquire_window` before and `release_window` behind it. -/
def locked {α : Type} (refused : α) (body : Mem Paging α) : Mem Paging α := do
  if ← acquireWindow then
    let result ← body
    releaseWindow
    return result
  else return refused

/-- `map_window`. -/
def mapWindow (virtualAddress physicalAddress : Nat) : Mem Paging Bool := vmmMap virtualAddress physicalAddress 2

/-- `unmap_window`. -/
def unmapWindow (virtualAddress expectedPhysical : Nat) : Mem Paging Unit := do
  match ← vmmUnmap virtualAddress with
  | none => throw .window
  | some physical => panicUnless (physical = expectedPhysical) .window

/-- What is done with a page at a window, `map_window` before and `unmap_window` behind it. -/
def through {α : Type} (window physical : Nat) (refused body : Mem Paging α) : Mem Paging α := do
  if ← mapWindow window physical then
    let result ← body
    unmapWindow window physical
    return result
  else refused

/-- `directory[index]`. -/
def windowDirectory (index : Nat) : Mem Paging Nat := loadWord (directoryWindow + index * 4)

/-- `directory[index] = value`. -/
def setWindowDirectory (index value : Nat) : Mem Paging Unit := storeWord (directoryWindow + index * 4) value

/-- `table[index]`. -/
def windowTable (index : Nat) : Mem Paging Nat := loadWord (tableWindow + index * 4)

/-- `table[index] = value`. -/
def setWindowTable (index value : Nat) : Mem Paging Unit := storeWord (tableWindow + index * 4) value

/-- `refresh_active_translation`. -/
def refreshActiveTranslation (space : Nat) : Mem Paging Unit := do
  if (← get).vmmCurrentPageDirectory = space then panicUnless ((← vmmActivatePageDirectory space) = true) .tlbRefresh
  else return ()

/-- The loop that copies the entries of the kernel from the page at the one window to that at the other, with `left` entries
to go. -/
def copyKernelHalf : Nat → Nat → Mem Paging Unit
  | 0, _ => return ()
  | left + 1, index => do
    if index = windowPde then copyKernelHalf left (index + 1)
    else
      setWindowDirectory index (← windowTable index)
      copyKernelHalf left (index + 1)

/-- What `vmm_address_space_create` does with both windows. -/
def fillDirectory (physical : Nat) : Mem Paging Bool := do
  zeroFrom directoryWindow 1024 0
  copyKernelHalf 255 kernelPdeIndex
  setWindowDirectory recursivePdeIndex (physical ||| 1 ||| 2)
  return true

/-- `vmm_address_space_create`, with the directory of the new address space. -/
def vmmAddressSpaceCreate (space : Nat) : Mem Paging (Option Nat) := do
  let kernelPhysical := (← get).vmmKernelPageDirectory
  if space ≠ 0 ∨ kernelPhysical = 0 then return none
  else
    locked none do
      let physical ← pmmAlloc
      if physical = 0 then return none
      else
        if ← through directoryWindow physical (return false) (through tableWindow kernelPhysical (return false)
            (fillDirectory physical)) then return some physical
        else
          panicUnless ((← pmmFree physical) = true) .directoryRollback
          return none

/-- What `vmm_address_space_map` does with both windows; a table that is given back when they are closed. -/
def enterPage (directoryIndex tableIndex physicalAddress flags tablePhysical : Nat) (newTable : Bool) :
    Mem Paging (Bool × Option Nat) := do
  if newTable then
    zeroFrom tableWindow 1024 0
    setWindowDirectory directoryIndex (tablePhysical ||| 1 ||| 2 ||| 4)
  let entry ← windowTable tableIndex
  if present entry then
    if newTable then
      setWindowDirectory directoryIndex 0
      return (false, some tablePhysical)
    else return (false, none)
  else
    setWindowTable tableIndex (physicalAddress ||| 1 ||| 4 ||| (flags &&& 2))
    return (true, none)

/-- What `vmm_address_space_map` does when there is no page for the table or its window. -/
def rejectTable (tablePhysical : Nat) (newTable : Bool) : Mem Paging (Bool × Option Nat) := do
  if newTable then
    panicUnless ((← pmmFree tablePhysical) = true) .tableRollback
    return (false, none)
  else return (false, none)

/-- What `vmm_address_space_map` does with the directory at its window. -/
def mapInDirectory (virtualAddress physicalAddress flags : Nat) : Mem Paging (Bool × Option Nat) := do
  let directoryIndex := virtualAddress / 2 ^ 22
  let tableIndex := virtualAddress / 4096 % 1024
  let entry ← windowDirectory directoryIndex
  if present entry = false then
    let tablePhysical ← pmmAlloc
    if tablePhysical = 0 then return (false, none)
    else
      through tableWindow tablePhysical (rejectTable tablePhysical true)
        (enterPage directoryIndex tableIndex physicalAddress flags tablePhysical true)
  else
    through tableWindow (pageOf entry) (rejectTable (pageOf entry) false)
      (enterPage directoryIndex tableIndex physicalAddress flags (pageOf entry) false)

/-- `vmm_address_space_map`. -/
def vmmAddressSpaceMap (space virtualAddress physicalAddress flags : Nat) : Mem Paging Bool := do
  if validSpace space = false ∨ virtualAddress ≥ kernelBase ∨ virtualAddress % 4096 ≠ 0 ∨ physicalAddress % 4096 ≠ 0 ∨
      physicalAddress = 0 then return false
  else
    locked false do
      match ← through directoryWindow space (return (false, none)) (mapInDirectory virtualAddress physicalAddress flags) with
      | (true, _) =>
        refreshActiveTranslation space
        return true
      | (false, some tablePhysical) =>
        panicUnless ((← pmmFree tablePhysical) = true) .emptyTableRollback
        return false
      | (false, none) => return false

/-- The part that the other functions share: with the directory at its window, the entry for an address is looked up, and its
table is mapped at the other window. -/
def withEntry {α : Type} (space virtualAddress : Nat) (refused : α) (body : Nat → Nat → Mem Paging α) (finish : Nat → α → Mem Paging α) :
    Mem Paging α :=
  through directoryWindow space (return refused) do
    let entry ← windowDirectory (virtualAddress / 2 ^ 22)
    if present entry = false then return refused
    else
      let result ← through tableWindow (pageOf entry) (return refused) do
        let pte ← windowTable (virtualAddress / 4096 % 1024)
        if present pte = false then return refused else body entry pte
      finish (pageOf entry) result

/-- `vmm_address_space_protect`. -/
def vmmAddressSpaceProtect (space virtualAddress flags : Nat) : Mem Paging Bool := do
  if validSpace space = false ∨ virtualAddress ≥ kernelBase ∨ virtualAddress % 4096 ≠ 0 ∨ flags &&& 2 ≠ flags then return false
  else
    locked false do
      let changed ← withEntry space virtualAddress false
        (fun _ pte => do
          setWindowTable (virtualAddress / 4096 % 1024) (pageOf pte ||| 1 ||| 4 ||| (flags &&& 2))
          return true)
        fun _ changed => return changed
      if changed then
        refreshActiveTranslation space
        return true
      else return false

/-- The loop of `vmm_address_space_unmap` over the entries of the table at its window, with `left` entries to go. -/
def windowEmptyFrom : Nat → Nat → Mem Paging Bool
  | 0, _ => return true
  | left + 1, index => do
    if present (← windowTable index) then return false else windowEmptyFrom left (index + 1)

/-- `vmm_address_space_unmap`, with the page that was mapped. -/
def vmmAddressSpaceUnmap (space virtualAddress : Nat) : Mem Paging (Option Nat) := do
  if validSpace space = false ∨ virtualAddress ≥ kernelBase ∨ virtualAddress % 4096 ≠ 0 then return none
  else
    locked none do
      let removed ← withEntry space virtualAddress none
        (fun _ pte => do
          setWindowTable (virtualAddress / 4096 % 1024) 0
          let empty ← windowEmptyFrom 1024 0
          return some (pageOf pte, empty))
        fun tablePhysical removed => do
          match removed with
          | some (_, true) =>
            setWindowDirectory (virtualAddress / 2 ^ 22) 0
            panicUnless ((← pmmFree tablePhysical) = true) .tableNotReleased
            return removed
          | _ => return removed
      match removed with
      | some (physical, _) =>
        refreshActiveTranslation space
        return some physical
      | none => return none

/-- `vmm_address_space_query`, with the physical address and the flags. -/
def vmmAddressSpaceQuery (space virtualAddress : Nat) : Mem Paging (Option (Nat × Nat)) := do
  if validSpace space = false ∨ virtualAddress ≥ kernelBase then return none
  else
    locked none do
      withEntry space virtualAddress none
        (fun _ pte => do
          let entry ← windowDirectory (virtualAddress / 2 ^ 22)
          return some (pageOf pte ||| virtualAddress % 4096, queryFlags entry pte))
        fun _ result => return result

/-- `vmm_address_space_activate`. -/
def vmmAddressSpaceActivate (space : Nat) : Mem Paging Bool := do
  let kernelPhysical := (← get).vmmKernelPageDirectory
  if validSpace space = false ∨ kernelPhysical = 0 then return false
  else
    locked false do
      let copied ← through directoryWindow space (return false) (through tableWindow kernelPhysical (return false) do
        copyKernelHalf 255 kernelPdeIndex
        return true)
      if copied then vmmActivatePageDirectory space else return false

/-- The inner loop of `vmm_address_space_destroy`, with `left` entries to go. -/
def freePagesFrom : Nat → Nat → Mem Paging Unit
  | 0, _ => return ()
  | left + 1, index => do
    let entry ← windowTable index
    if present entry then
      setWindowTable index 0
      panicUnless ((← pmmFree (pageOf entry)) = true) .destroyPage
      freePagesFrom left (index + 1)
    else freePagesFrom left (index + 1)

/-- The outer loop of `vmm_address_space_destroy`, with `left` entries to go. -/
def freeTablesFrom : Nat → Nat → Mem Paging Unit
  | 0, _ => return ()
  | left + 1, index => do
    let entry ← windowDirectory index
    if present entry = false then freeTablesFrom left (index + 1)
    else
      through tableWindow (pageOf entry) (throw .destroyTable) (freePagesFrom 1024 0)
      setWindowDirectory index 0
      panicUnless ((← pmmFree (pageOf entry)) = true) .destroyTableRelease
      freeTablesFrom left (index + 1)

/-- `vmm_address_space_destroy`. -/
def vmmAddressSpaceDestroy (space : Nat) : Mem Paging Bool := do
  if validSpace space = false then return false
  else
    locked false do
      if (← get).vmmCurrentPageDirectory = space then return false
      else
        if ← through directoryWindow space (return false) (do
            freeTablesFrom kernelPdeIndex 0
            return true) then
          panicUnless ((← pmmFree space) = true) .destroyDirectory
          return true
        else return false

end Paging

end MiniOrange
