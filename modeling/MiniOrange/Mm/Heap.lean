import MiniOrange.Kernel.Panic
import MiniOrange.Logic.Word32

/-!
# The kernel heap

`heap.c` keeps the heap as a doubly linked list of blocks in the memory that it manages, from `HEAP_VIRTUAL_START` to
`heap_end`. A block is a header of six words and its payload. The words of the heap are given by their virtual
addresses; an access to a page that is not mapped is a fault in the kernel.

The pages come from the rest of the memory management, a parameter with a state of its own (`PageServices`).
-/

namespace MiniOrange

/-- What the heap uses of `pmm.c` and `vmm.c`, whose state has type `σ`. -/
structure PageServices (σ : Type) where
  /-- `pmm_alloc`; 0 if there is no page. -/
  pmmAlloc : Mem σ Nat
  pmmFree : Nat → Mem σ Bool
  /-- `vmm_map` of a page that is writable. -/
  vmmMap : Nat → Nat → Mem σ Bool
  /-- `vmm_unmap`, with the page that was mapped. -/
  vmmUnmap : Nat → Mem σ (Option Nat)
  /-- The page of this address is mapped. -/
  accessible : σ → Nat → Bool

/-- The static state of `heap.c`, the words of the heap and what the pages come from. -/
structure Heap (σ : Type) where
  heapHead : Nat
  heapEnd : Nat
  heapMappedPages : Nat
  heapInitialized : Bool
  words : Nat → Nat
  pages : σ

namespace Heap

/-- `HEAP_VIRTUAL_START`. -/
def virtualStart : Nat := 0xD1000000

/-- `HEAP_MAX_SIZE`. -/
def maxSize : Nat := 0x01000000

/-- `HEAP_MAGIC`. -/
def magic : Nat := 0x48454150

/-- `HEAP_STATE_FREE`. -/
def stateFree : Nat := 0x46524545

/-- `HEAP_STATE_ALLOCATED`. -/
def stateAllocated : Nat := 0x55534544

variable {σ : Type} (P : PageServices σ)

/-- Read a word. -/
def load (address : Nat) : Mem (Heap σ) Nat := do
  let h ← get
  panicUnless (P.accessible h.pages address = true) (.fault address)
  return h.words address

/-- Write a word. -/
def store (address value : Nat) : Mem (Heap σ) Unit := do
  let h ← get
  panicUnless (P.accessible h.pages address = true) (.fault address)
  set { h with words := Function.update h.words address value }

/-- A call into the rest of the memory management. -/
def page {α : Type} (m : Mem σ α) : Mem (Heap σ) α := fun h =>
  match m h.pages with
  | .ok (a, pages) => .ok (a, { h with pages := pages })
  | .error panic => .error panic

/-- `payload_address`. -/
def payloadAddress (block : Nat) : Nat := add32 block 24

/-- `initialize_block`. -/
def initializeBlock (block size prev next : Nat) : Mem (Heap σ) Unit := do
  store P block magic
  store P (block + 4) size
  store P (block + 8) prev
  store P (block + 12) next
  store P (block + 16) stateFree
  store P (block + 20) 0

/-- The checks of `validate_block` on the next block. -/
def validateNext (block size next : Nat) : Mem (Heap σ) Unit := do
  let heapEnd := (← get).heapEnd
  if next = 0 then panicUnless (add32 (payloadAddress block) size = heapEnd) .heapTail
  else
    panicUnless (add32 (payloadAddress block) size ≤ sub32 heapEnd 24 ∧ next = add32 (payloadAddress block) size) .heapLinks
    let back ← load P (next + 8)
    panicUnless (back = block) .heapReverseLink

/-- The checks of `validate_block` on the previous block. -/
def validatePrev (block prev : Nat) : Mem (Heap σ) Unit := do
  if prev = 0 then panicUnless (block = (← get).heapHead) .heapHeadLink
  else
    panicUnless (virtualStart ≤ prev ∧ prev ≤ sub32 block 24) .heapPreviousLink
    let prevMagic ← load P prev
    panicUnless (prevMagic = magic) .heapPreviousLink
    let forth ← load P (prev + 12)
    panicUnless (forth = block) .heapPreviousLink
    let size ← load P (prev + 4)
    panicUnless (add32 (payloadAddress prev) size = block) .heapPreviousLink

/-- `validate_block`. -/
def validateBlock (block : Nat) : Mem (Heap σ) Unit := do
  let heapEnd := (← get).heapEnd
  panicUnless (virtualStart ≤ block ∧ block ≤ sub32 heapEnd 24) .heapMetadata
  let blockMagic ← load P block
  panicUnless (blockMagic = magic) .heapMetadata
  let state ← load P (block + 16)
  panicUnless (state = stateFree ∨ state = stateAllocated) .heapMetadata
  let size ← load P (block + 4)
  panicUnless (size ≤ sub32 heapEnd (payloadAddress block) ∧ size % 8 = 0) .heapBounds
  let next ← load P (block + 12)
  validateNext P block size next
  let prev ← load P (block + 8)
  validatePrev P block prev

/-- `align_request`. -/
def alignRequest (size : Nat) : Option Nat :=
  if size = 0 ∨ size > 0xFFFFFFFF - 7 then none
  else if (size + 7) / 8 * 8 > maxSize - 24 then none
  else some ((size + 7) / 8 * 8)

/-- The loop of `heap_tail`; there are fewer blocks than words. -/
def heapTailFrom : Nat → Nat → Mem (Heap σ) Nat
  | 0, _ => throw .endless
  | count + 1, block => do
    let next ← load P (block + 12)
    if next = 0 then
      validateBlock P block
      return block
    else
      validateBlock P block
      heapTailFrom count next

/-- `heap_tail`. -/
def heapTail : Mem (Heap σ) Nat := do heapTailFrom P (2 ^ 32) (← get).heapHead

/-- The loop of `find_first_fit`. -/
def findFirstFitFrom (size : Nat) : Nat → Nat → Mem (Heap σ) (Option Nat)
  | 0, _ => throw .endless
  | count + 1, block =>
    if block = 0 then return none
    else do
      validateBlock P block
      let state ← load P (block + 16)
      let blockSize ← load P (block + 4)
      if state = stateFree ∧ blockSize ≥ size then return some block
      else
        let next ← load P (block + 12)
        findFirstFitFrom size count next

/-- `find_first_fit`. -/
def findFirstFit (size : Nat) : Mem (Heap σ) (Option Nat) := do findFirstFitFrom P size (2 ^ 32) (← get).heapHead

/-- `if (block != NULL) block->prev = prev`. -/
def linkBack (block prev : Nat) : Mem (Heap σ) Unit := if block = 0 then return () else store P (block + 8) prev

/-- `split_block` from where the new block is made. -/
def splitOff (block size remaining : Nat) : Mem (Heap σ) Unit := do
  let newBlock := add32 (payloadAddress block) size
  let next ← load P (block + 12)
  initializeBlock P newBlock (sub32 remaining 24) block next
  let next ← load P (block + 12)
  linkBack P next newBlock
  store P (block + 12) newBlock
  store P (block + 4) size

/-- `split_block`. -/
def splitBlock (block size : Nat) : Mem (Heap σ) Unit := do
  let remaining := sub32 (← load P (block + 4)) size
  if remaining < 24 + 8 then return () else splitOff P block size remaining

/-- `merge_with_next` from where the blocks are merged. -/
def absorb (block next : Nat) : Mem (Heap σ) Unit := do
  let size ← load P (block + 4)
  let nextSize ← load P (next + 4)
  store P (block + 4) (add32 size (add32 24 nextSize))
  let after ← load P (next + 12)
  store P (block + 12) after
  linkBack P after block
  store P next 0
  store P (next + 4) 0
  store P (next + 8) 0
  store P (next + 12) 0
  store P (next + 16) 0

/-- `merge_with_next`. -/
def mergeWithNext (block : Nat) : Mem (Heap σ) Unit := do
  let next ← load P (block + 12)
  validateBlock P block
  if next = 0 then return ()
  else
    validateBlock P next
    let state ← load P (next + 16)
    if state ≠ stateFree then return () else absorb P block next

/-- `coalesce`. -/
def coalesce (block : Nat) : Mem (Heap σ) Nat := do
  mergeWithNext P block
  let prev ← load P (block + 8)
  if prev = 0 then return block
  else
    validateBlock P prev
    let state ← load P (prev + 16)
    if state = stateFree then
      mergeWithNext P prev
      return prev
    else return block

/-- The first loop of `map_extension`, with `left` pages to go: how many pages it has mapped. -/
def mapPages (start : Nat) : Nat → Nat → Mem (Heap σ) Nat
  | 0, mapped => return mapped
  | left + 1, mapped => do
    let physical ← page P.pmmAlloc
    if physical = 0 then return mapped
    else
      if ← page (P.vmmMap (add32 start (mapped * 4096)) physical) then mapPages start left (mapped + 1)
      else
        panicUnless ((← page (P.pmmFree physical)) = true) .heapRejectedPage
        return mapped

/-- The second loop of `map_extension`. -/
def unmapPages (start : Nat) : Nat → Mem (Heap σ) Unit
  | 0 => return ()
  | mapped + 1 => do
    match ← page (P.vmmUnmap (add32 start (mapped * 4096))) with
    | none => throw .heapRollback
    | some physical =>
      panicUnless ((← page (P.pmmFree physical)) = true) .heapRollback
      unmapPages start mapped

/-- `map_extension`. -/
def mapExtension (start pageCount : Nat) : Mem (Heap σ) Bool := do
  let mapped ← mapPages P start pageCount 0
  if mapped = pageCount then return true
  else
    unmapPages P start mapped
    return false

/-- `grow_heap` from where the pages are mapped. -/
def extendTail (tail required : Nat) : Mem (Heap σ) Bool := do
  let h ← get
  let pageCount := add32 required 4095 / 4096
  if pageCount > sub32 maxSize (h.heapMappedPages * 4096) / 4096 then return false
  else
    if ← mapExtension P h.heapEnd pageCount then
      modify fun h => { h with
        heapEnd := add32 h.heapEnd (pageCount * 4096)
        heapMappedPages := h.heapMappedPages + pageCount }
      let state ← load P (tail + 16)
      if state = stateFree then
        let size ← load P (tail + 4)
        store P (tail + 4) (add32 size (pageCount * 4096))
        return true
      else
        initializeBlock P h.heapEnd (sub32 (pageCount * 4096) 24) tail 0
        store P (tail + 12) h.heapEnd
        return true
    else return false

/-- `grow_heap`. -/
def growHeap (size : Nat) : Mem (Heap σ) Bool := do
  let tail ← heapTail P
  let state ← load P (tail + 16)
  if state = stateFree then
    let tailSize ← load P (tail + 4)
    if tailSize ≥ size then return true else extendTail P tail (sub32 size tailSize)
  else if size > 0xFFFFFFFF - 24 then return false
  else extendTail P tail (add32 size 24)

/-- `heap_init`. -/
def heapInit : Mem (Heap σ) Unit := do
  panicUnless ((← get).heapInitialized = false) .heapInitializedTwice
  let physical ← page P.pmmAlloc
  panicUnless (physical ≠ 0) .heapInitialPage
  if ← page (P.vmmMap virtualStart physical) then
    modify fun h => { h with heapEnd := virtualStart + 4096, heapMappedPages := 1, heapHead := virtualStart }
    initializeBlock P virtualStart (4096 - 24) 0 0
    modify fun h => { h with heapInitialized := true }
  else
    panicUnless ((← page (P.pmmFree physical)) = true) .heapInitialRollback
    throw .heapInitialPage

/-- `kmalloc` with the block that it has found. -/
def takeBlock (block size : Nat) : Mem (Heap σ) Nat := do
  splitBlock P block size
  store P (block + 16) stateAllocated
  return payloadAddress block

/-- `kmalloc`; NULL is 0. -/
def kmalloc (size : Nat) : Mem (Heap σ) Nat := do
  if (← get).heapInitialized = false then return 0
  else
    match alignRequest size with
    | none => return 0
    | some aligned =>
      match ← findFirstFit P aligned with
      | some block => takeBlock P block aligned
      | none =>
        if ← growHeap P aligned then
          match ← findFirstFit P aligned with
          | some block => takeBlock P block aligned
          | none => throw .heapNoFit
        else return 0

/-- The loop of `kfree`. -/
def freeFrom (address : Nat) : Nat → Nat → Mem (Heap σ) Bool
  | 0, _ => throw .endless
  | count + 1, block =>
    if block = 0 then return false
    else do
      validateBlock P block
      if payloadAddress block = address then
        let state ← load P (block + 16)
        if state ≠ stateAllocated then return false
        else
          store P (block + 16) stateFree
          let _ ← coalesce P block
          return true
      else
        let next ← load P (block + 12)
        freeFrom address count next

/-- `kfree`. -/
def kfree (address : Nat) : Mem (Heap σ) Bool := do
  let h ← get
  if address = 0 then return true
  else if h.heapInitialized = false then return false
  else if address < virtualStart + 24 ∨ address ≥ h.heapEnd ∨ address % 8 ≠ 0 then return false
  else freeFrom P address (2 ^ 32) h.heapHead

end Heap

end MiniOrange
