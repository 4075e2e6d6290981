import MiniOrange.Fs.Volume

/-!
# The functions of `kernel/fs/minifs.c`

Each function is the source's, in its order and under its name. An error code is `Except.error`;
out-parameters are returned with the result. A loop is a recursion on the number of iterations left
where the source bounds it, and otherwise on a number that is at least that. Names and paths are
byte lists; the byte after the end of a list reads as the terminating NUL, and a `NULL` path is
rejected like the empty one.
-/

namespace MiniOrange

/-- A step that is taken only under a condition. -/
def onlyIf (c : Prop) [Decidable c] (step : Fs (Except Errno Unit)) : Fs (Except Errno Unit) :=
  if c then step else pure (.ok ())

/-! ## Locking -/

/-- `minifs_acquire`: the saved interrupt flag, or nothing when an operation is running. -/
def minifsAcquire : Fs (Option Bool) := do
  let flags ← irqSaveDisable
  if (← get).operationBusy then
    irqRestore flags
    return none
  modify fun s => { s with operationBusy := true }
  return some flags

/-- `minifs_release`. -/
def minifsRelease (irqFlags : Bool) : Fs Unit := do
  modify fun s => { s with operationBusy := false }
  irqRestore irqFlags

/-! ## Bitmaps -/

/-- `bitmap_bit_set`. -/
def bitmapBitSet (startBlock blockCount bit : Nat) : Fs Bool := do
  let bitmapBlock := bit / 32768
  let withinBlock := bit % 32768
  if bitmapBlock ≥ blockCount then return false
  match ← readVolumeBlock (startBlock + bitmapBlock) with
  | .error _ => return false
  | .ok () => return bitSet ((← getBuffer .ioBlock).byte (withinBlock / 8)) (withinBlock % 8)

/-- `bitmap_update`. -/
def bitmapUpdate (startBlock blockCount bit : Nat) (value : Bool) : Fs (Except Errno Unit) := do
  let bitmapBlock := bit / 32768
  let withinBlock := bit % 32768
  if bitmapBlock ≥ blockCount then return .error .eio
  match ← readVolumeBlock (startBlock + bitmapBlock) with
  | .error _ => return .error .eio
  | .ok () =>
    setBuffer .ioBlock ((← getBuffer .ioBlock).withBit withinBlock value)
    writeVolumeBlockFrom (startBlock + bitmapBlock) .ioBlock

/-- The loop of `allocate_bitmap_bit` from `bit`, with `count` bits left and `loadedBlock` in the
buffer. -/
def allocateBitmapBitFrom (startBlock blockCount : Nat) :
    Nat → Nat → Option Nat → Fs (Except Errno Nat)
  | 0, _, _ => return .error .enospc
  | count + 1, bit, loadedBlock => do
    let bitmapBlock := bit / 32768
    let withinBlock := bit % 32768
    if bitmapBlock ≥ blockCount then return .error .eio
    match ← onlyIf (loadedBlock ≠ some bitmapBlock)
        (readVolumeBlock (startBlock + bitmapBlock)) with
    | .error _ => return .error .eio
    | .ok () =>
      let block ← getBuffer .ioBlock
      if bitSet (block.byte (withinBlock / 8)) (withinBlock % 8) = false then
        setBuffer .ioBlock (block.withBit withinBlock true)
        match ← writeVolumeBlockFrom (startBlock + bitmapBlock) .ioBlock with
        | .error _ => return .error .eio
        | .ok () => return .ok bit
      else allocateBitmapBitFrom startBlock blockCount count (bit + 1) (some bitmapBlock)

/-- `allocate_bitmap_bit`. -/
def allocateBitmapBit (startBlock blockCount first limit : Nat) : Fs (Except Errno Nat) :=
  if first ≥ limit then return .error .einval else
  allocateBitmapBitFrom startBlock blockCount (limit - first) first none

/-! ## Inodes and data blocks -/

/-- `read_inode_internal`. -/
def readInodeInternal (number : Nat) : Fs (Except Errno Inode) := do
  let sb := (← get).superblock
  if number ≥ sb.totalInodes then return .error .einval
  if !(← bitmapBitSet sb.inodeBitmapStart sb.inodeBitmapBlocks number) then return .error .eio
  let tableBlock := number / 64
  let inodeIndex := number % 64
  if tableBlock ≥ sb.inodeTableBlocks then return .error .eio
  match ← readVolumeBlock (sb.inodeTableStart + tableBlock) with
  | .error _ => return .error .eio
  | .ok () =>
    match decodeInode ((← getBuffer .ioBlock).ptr (inodeIndex * 64)) with
    | none => return .error .eio
    | some inode => return if inodePointerShapeValid inode then .ok inode else .error .eio

/-- `write_inode_internal`. -/
def writeInodeInternal (number : Nat) (inode : Inode) : Fs (Except Errno Unit) := do
  let sb := (← get).superblock
  if number ≥ sb.totalInodes ∨ inodePointerShapeValid inode = false then return .error .einval
  let tableBlock := number / 64
  let inodeIndex := number % 64
  if tableBlock ≥ sb.inodeTableBlocks then return .error .eio
  match ← readVolumeBlock (sb.inodeTableStart + tableBlock) with
  | .error _ => return .error .eio
  | .ok () =>
    setBuffer .ioBlock (encodeInode (← getBuffer .ioBlock) (inodeIndex * 64) inode)
    writeVolumeBlockFrom (sb.inodeTableStart + tableBlock) .ioBlock

/-- `allocate_inode`. -/
def allocateInode : Fs (Except Errno Nat) := do
  let sb := (← get).superblock
  allocateBitmapBit sb.inodeBitmapStart sb.inodeBitmapBlocks 1 sb.totalInodes

/-- `free_inode`. -/
def freeInode (inodeNumber : Nat) : Fs (Except Errno Unit) := do
  let sb := (← get).superblock
  if inodeNumber = sb.rootInode ∨ inodeNumber ≥ sb.totalInodes then return .error .einval
  bitmapUpdate sb.inodeBitmapStart sb.inodeBitmapBlocks inodeNumber false

/-- `clear_inode_record`. -/
def clearInodeRecord (inodeNumber : Nat) : Fs (Except Errno Unit) := do
  let sb := (← get).superblock
  if inodeNumber = sb.rootInode ∨ inodeNumber ≥ sb.totalInodes then return .error .einval
  let tableBlock := inodeNumber / 64
  let inodeIndex := inodeNumber % 64
  if tableBlock ≥ sb.inodeTableBlocks then return .error .eio
  match ← readVolumeBlock (sb.inodeTableStart + tableBlock) with
  | .error _ => return .error .eio
  | .ok () =>
    setBuffer .ioBlock ((← getBuffer .ioBlock).clearBytes (inodeIndex * 64) 64)
    writeVolumeBlockFrom (sb.inodeTableStart + tableBlock) .ioBlock

/-- `data_block_valid`. -/
def dataBlockValid (sb : Superblock) (block : Nat) : Bool :=
  sb.dataStart ≤ block && block < sb.totalBlocks

/-- `data_block_allocated`. -/
def dataBlockAllocated (block : Nat) : Fs Bool := do
  let sb := (← get).superblock
  if dataBlockValid sb block then bitmapBitSet sb.blockBitmapStart sb.blockBitmapBlocks block
  else return false

/-- `allocate_block`: the block is zeroed before it is handed out. -/
def allocateBlock : Fs (Except Errno Nat) := do
  let sb := (← get).superblock
  match ← allocateBitmapBit sb.blockBitmapStart sb.blockBitmapBlocks sb.dataStart
      sb.totalBlocks with
  | .error e => return .error e
  | .ok block =>
    setBuffer .auxiliaryBlock .zero
    match ← writeVolumeBlockFrom block .auxiliaryBlock with
    | .error _ =>
      let _ ← bitmapUpdate sb.blockBitmapStart sb.blockBitmapBlocks block false
      return .error .eio
    | .ok () => return .ok block

/-- `free_block`. -/
def freeBlock (block : Nat) : Fs (Except Errno Unit) := do
  let sb := (← get).superblock
  if dataBlockValid sb block then bitmapUpdate sb.blockBitmapStart sb.blockBitmapBlocks block false
  else return .error .einval

/-- Word `index` of a block of pointers. -/
def Block.pointer (b : Block) (index : Nat) : Nat := readLe32 (b.ptr (index * 4))

/-- `inode_block_at`. -/
def inodeBlockAt (inode : Inode) (fileBlock : Nat) : Fs (Except Errno Nat) := do
  if fileBlock ≥ blocksOf inode.size then return .error .einval
  if fileBlock < 10 then
    let block := inode.directAt fileBlock
    if !(← dataBlockAllocated block) then return .error .eio
    return .ok block
  let indirectIndex := fileBlock - 10
  if !(← dataBlockAllocated inode.indirect) then return .error .eio
  if indirectIndex ≥ 1024 then return .error .eio
  match ← readVolumeBlock inode.indirect with
  | .error _ => return .error .eio
  | .ok () =>
    let block := (← getBuffer .ioBlock).pointer indirectIndex
    if !(← dataBlockAllocated block) then return .error .eio
    return .ok block

/-! ## Directories and paths -/

/-- `struct minifs_directory_record`. -/
structure DirectoryRecord where
  inode : Nat
  offset : Nat
  type : Nat
  name : List UInt8
  deriving DecidableEq

/-- `struct minifs_stat`. -/
structure Stat where
  inode : Nat
  mode : Nat
  linkCount : Nat
  size : Nat
  deriving DecidableEq

/-- The stat of an inode. -/
def Inode.stat (inode : Inode) (number : Nat) : Stat :=
  ⟨number, inode.mode, inode.linkCount, inode.size⟩

/-- Whether an entry's type is the mode of the inode it names (`entry_type` against
`child_inode.mode`). -/
def typeMatches (entryType mode : Nat) : Bool :=
  !((entryType == 2 && mode != 2) || (entryType == 1 && mode != 1))

/-- The inner loop of `directory_find_internal`: `count` entries of the block in the buffer, from
`index`. The result is `none` when the loop runs to its end. -/
def directoryFindEntries (component : List UInt8) (fileBlock : Nat) :
    Nat → Nat → Fs (Option (Except Errno DirectoryRecord))
  | 0, _ => return none
  | count + 1, index => do
    let entry := (← getBuffer .ioBlock).ptr (index * 64)
    let child := readLe32 entry
    let entryType := (entry 4).toNat
    let name : Bytes := fun i => entry (5 + i)
    if entryType = 0 then
      if directoryEntryUnused entry = false then return some (.error .eio)
      directoryFindEntries component fileBlock count (index + 1)
    else if (entryType ≠ 1 ∧ entryType ≠ 2) ∨ child ≥ (← get).superblock.totalInodes ∨
        directoryNameValid name = false then return some (.error .eio)
    else if directoryNameEqual name component then
      match ← readInodeInternal child with
      | .error _ => return some (.error .eio)
      | .ok childInode =>
        if typeMatches entryType childInode.mode = false then return some (.error .eio)
        return some (.ok
          ⟨child, fileBlock * 4096 + index * 64, entryType, (Entry.ofBytes entry).name⟩)
    else directoryFindEntries component fileBlock count (index + 1)

/-- The outer loop of `directory_find_internal`, over the blocks of the directory. -/
def directoryFindBlocks (directory : Inode) (component : List UInt8) :
    Nat → Nat → Nat → Fs (Except Errno DirectoryRecord)
  | 0, _, _ => return .error .enoent
  | fuel + 1, remainingEntries, fileBlock => do
    if remainingEntries = 0 then return .error .enoent
    match ← inodeBlockAt directory fileBlock with
    | .error _ => return .error .eio
    | .ok diskBlock =>
      match ← readVolumeBlock diskBlock with
      | .error _ => return .error .eio
      | .ok () =>
        let entries := min remainingEntries 64
        match ← directoryFindEntries component fileBlock entries 0 with
        | some result => return result
        | none =>
          directoryFindBlocks directory component fuel (remainingEntries - entries) (fileBlock + 1)

/-- `directory_find_internal`. -/
def directoryFindInternal (directory : Inode) (component : List UInt8) :
    Fs (Except Errno DirectoryRecord) :=
  if directory.mode ≠ 2 ∨ component.length = 0 ∨ component.length > 58 then return .error .einval
  else directoryFindBlocks directory component (directory.size / 64) (directory.size / 64) 0

/-- `directory_find`. -/
def directoryFind (directory : Inode) (component : List UInt8) : Fs (Except Errno Nat) := do
  return (← directoryFindInternal directory component).map DirectoryRecord.inode

/-- `bounded_path_length`. -/
def boundedPathLength (path : List UInt8) : Except Errno Nat :=
  if path.getD 0 0 ≠ 0x2F then .error .einval else
  match (List.range 256).find? fun index => path.getD index 0 = 0 with
  | some index => if index = 0 then .error .einval else .ok index
  | none => .error .einval

/-- The loop of `lookup_locked`: `rest` is the path from the cursor on. The result is the inode the
walk ends at. -/
def lookupFrom : Nat → List UInt8 → Nat → Fs (Except Errno Nat)
  | 0, _, current => return .ok current
  | fuel + 1, rest, current => do
    if rest = [] then return .ok current
    let rest := rest.dropWhile (· = 0x2F)
    if rest = [] then return .ok current
    let component := rest.takeWhile (· ≠ 0x2F)
    if component.any (· > 0x7F) then return .error .einval
    let next := rest.drop component.length
    if component.length = 0 ∨ component.length > 58 then return .error .einval
    match ← readInodeInternal current with
    | .error e => return .error e
    | .ok directory =>
      if directory.mode ≠ 2 then return .error .enotdir
      if component = [0x2E] then lookupFrom fuel next current
      else
        match ← directoryFind directory component with
        | .error e => return .error e
        | .ok child => lookupFrom fuel next child

/-- `lookup_locked`. -/
def lookupLocked (path : List UInt8) : Fs (Except Errno Stat) := do
  let sb := (← get).superblock
  match boundedPathLength path with
  | .error e => return .error e
  | .ok pathLength =>
    let trailingSlash := pathLength > 1 ∧ path.getD (pathLength - 1) 0 = 0x2F
    match ← lookupFrom pathLength ((path.take pathLength).drop 1) sb.rootInode with
    | .error e => return .error e
    | .ok current =>
      match ← readInodeInternal current with
      | .error e => return .error e
      | .ok inode =>
        if trailingSlash ∧ inode.mode ≠ 2 then return .error .enotdir
        return .ok (inode.stat current)

/-- The loop of `resolve_parent_locked`: the parent's number and inode and the last name. -/
def resolveParentFrom : Nat → List UInt8 → Nat → Fs (Except Errno (Nat × Inode × List UInt8))
  | 0, _, _ => return .error .einval
  | fuel + 1, rest, current => do
    if rest = [] then return .error .einval
    let rest := rest.dropWhile (· = 0x2F)
    if rest = [] then return .error .einval
    let component := rest.takeWhile (· ≠ 0x2F)
    if component.any (· > 0x7F) then return .error .einval
    if component.length = 0 ∨ component.length > 58 then return .error .einval
    let next := (rest.drop component.length).dropWhile (· = 0x2F)
    match ← readInodeInternal current with
    | .error e => return .error e
    | .ok directory =>
      if directory.mode ≠ 2 then return .error .enotdir
      if next = [] then
        if component = [0x2E] ∨ component = [0x2E, 0x2E] then return .error .einval
        return .ok (current, directory, component)
      if component = [0x2E] then resolveParentFrom fuel next current
      else
        match ← directoryFind directory component with
        | .error e => return .error e
        | .ok child => resolveParentFrom fuel next child

/-- `resolve_parent_locked`. -/
def resolveParentLocked (path : List UInt8) : Fs (Except Errno (Nat × Inode × List UInt8)) := do
  let sb := (← get).superblock
  match boundedPathLength path with
  | .error e => return .error e
  | .ok pathLength =>
    if pathLength ≤ 1 ∨ path.getD (pathLength - 1) 0 = 0x2F then return .error .einval
    resolveParentFrom pathLength ((path.take pathLength).drop 1) sb.rootInode

/-! ## Writing -/

/-- `write_chunk_locked` on a block the file has. -/
def writeChunkInPlace (inodeNumber : Nat) (inode : Inode) (offset : Nat) (source : Bytes)
    (length : Nat) : Fs (Except Errno Inode) := do
  match ← inodeBlockAt inode (offset / 4096) with
  | .error _ => return .error .eio
  | .ok diskBlock =>
    match ← readVolumeBlock diskBlock with
    | .error _ => return .error .eio
    | .ok () =>
      setBuffer .ioBlock ((← getBuffer .ioBlock).copyBytes (offset % 4096) source length)
      match ← writeVolumeBlockFrom diskBlock .ioBlock with
      | .error _ => return .error .eio
      | .ok () =>
        if offset + length > inode.size then
          let inode := { inode with size := offset + length }
          match ← writeInodeInternal inodeNumber inode with
          | .error _ => return .error .eio
          | .ok () => return .ok inode
        else return .ok inode

/-- The two `free_block` calls that undo the allocations of `write_chunk_locked`; an `indirect` of
0 was not allocated. -/
def freeFresh (diskBlock newIndirect : Nat) : Fs Unit := do
  let _ ← freeBlock diskBlock
  let _ ← onlyIf (newIndirect ≠ 0) (freeBlock newIndirect)

/-- `write_le32` of one pointer in `auxiliary_block`, then the write of the indirect block. -/
def writePointer (indirect index pointer : Nat) : Fs (Except Errno Unit) := do
  setBuffer .auxiliaryBlock ((← getBuffer .auxiliaryBlock).writeLe32 (index * 4) pointer)
  writeVolumeBlockFrom indirect .auxiliaryBlock

/-- `write_chunk_locked` past the last block of the file, once the data block `diskBlock` is
written: enter it in the inode or in the indirect block, then commit the inode. -/
def writeChunkCommit (inodeNumber : Nat) (inode : Inode) (fileBlock diskBlock newIndirect size : Nat) :
    Fs (Except Errno Inode) := do
  if h : fileBlock < 10 then
    let inode := { inode with direct := Function.update inode.direct ⟨fileBlock, h⟩ diskBlock,
                              size := size }
    match ← writeInodeInternal inodeNumber inode with
    | .error _ =>
      freeFresh diskBlock newIndirect
      return .error .eio
    | .ok () => return .ok inode
  else
    let indirectIndex := fileBlock - 10
    if indirectIndex ≥ 1024 then
      freeFresh diskBlock newIndirect
      return .error .eio
    match ← readVolumeBlockInto inode.indirect .auxiliaryBlock with
    | .error _ =>
      freeFresh diskBlock newIndirect
      return .error .eio
    | .ok () =>
      match ← writePointer inode.indirect indirectIndex diskBlock with
      | .error _ =>
        freeFresh diskBlock newIndirect
        return .error .eio
      | .ok () =>
        let inode := { inode with size := size }
        match ← writeInodeInternal inodeNumber inode with
        | .error _ =>
          let _ ← onlyIf (newIndirect = 0) (writePointer inode.indirect indirectIndex 0)
          freeFresh diskBlock newIndirect
          return .error .eio
        | .ok () => return .ok inode

/-- `write_chunk_locked` past the last block of the file: `newIndirect` is the indirect block just
allocated, or 0. -/
def writeChunkAppend (inodeNumber : Nat) (inode : Inode) (newIndirect offset : Nat) (source : Bytes)
    (length : Nat) : Fs (Except Errno Inode) := do
  match ← allocateBlock with
  | .error e =>
    let _ ← onlyIf (newIndirect ≠ 0) (freeBlock newIndirect)
    return .error e
  | .ok diskBlock =>
    setBuffer .ioBlock (Block.zero.copyBytes (offset % 4096) source length)
    match ← writeVolumeBlockFrom diskBlock .ioBlock with
    | .error _ =>
      freeFresh diskBlock newIndirect
      return .error .eio
    | .ok () =>
      writeChunkCommit inodeNumber inode (offset / 4096) diskBlock newIndirect (offset + length)

/-- `write_chunk_locked`: write inside one block. The result is the inode as it is then in memory;
on an error the caller's inode is what it was. -/
def writeChunkLocked (inodeNumber : Nat) (inode : Inode) (offset : Nat) (source : Bytes)
    (length : Nat) : Fs (Except Errno Inode) := do
  let fileBlock := offset / 4096
  let allocatedBlocks := blocksOf inode.size
  if fileBlock < allocatedBlocks then writeChunkInPlace inodeNumber inode offset source length
  else if fileBlock ≠ allocatedBlocks then return .error .einval
  else if fileBlock ≥ 10 ∧ inode.indirect = 0 then
    match ← allocateBlock with
    | .error e => return .error e
    | .ok newIndirect =>
      writeChunkAppend inodeNumber { inode with indirect := newIndirect } newIndirect offset source
        length
  else writeChunkAppend inodeNumber inode 0 offset source length

/-- The scan of `directory_append_locked` for the first unused entry, from `offset`. -/
def findUnusedEntry (directory : Inode) : Nat → Nat → Fs (Except Errno Nat)
  | 0, offset => return .ok offset
  | fuel + 1, offset => do
    if offset ≥ directory.size then return .ok offset
    match ← inodeBlockAt directory (offset / 4096) with
    | .error _ => return .error .eio
    | .ok diskBlock =>
      match ← readVolumeBlock diskBlock with
      | .error _ => return .error .eio
      | .ok () =>
        if directoryEntryUnused ((← getBuffer .ioBlock).ptr (offset % 4096)) then return .ok offset
        findUnusedEntry directory fuel (offset + 64)

/-- `directory_append_locked`. -/
def directoryAppendLocked (directoryNumber : Nat) (directory : Inode) (childNumber entryType : Nat)
    (name : List UInt8) : Fs (Except Errno Unit) := do
  if name.length = 0 ∨ name.length > 58 ∨ (entryType ≠ 1 ∧ entryType ≠ 2) ∨
      directory.size > 1034 * 4096 - 64 then return .error .einval
  let entry := encodeDirectoryEntry childNumber entryType name
  match ← findUnusedEntry directory directory.size 0 with
  | .error e => return .error e
  | .ok offset =>
    if entryType = 2 ∧ directory.linkCount = 0xFFFF then return .error .enospc
    let directory' :=
      if entryType = 2 then { directory with linkCount := directory.linkCount + 1 } else directory
    match ← writeChunkLocked directoryNumber directory' offset entry 64 with
    | .error e => return .error e
    | .ok directory' =>
      if offset ≠ directory.size ∧ entryType = 2 then
        match ← writeInodeInternal directoryNumber directory' with
        | .error _ =>
          let _ ← writeChunkLocked directoryNumber directory' offset (fun _ => 0) 64
          return .error .eio
        | .ok () => return .ok ()
      else return .ok ()

/-- `rollback_created_inode`. -/
def rollbackCreatedInode (inodeNumber : Nat) : Fs Unit := do
  let _ ← clearInodeRecord inodeNumber
  let _ ← freeInode inodeNumber

/-- `create_locked` once the name is known to be free. -/
def createNamed (parentNumber : Nat) (parent : Inode) (name : List UInt8) :
    Fs (Except Errno Stat) := do
  match ← allocateInode with
  | .error e => return .error e
  | .ok inodeNumber =>
    match ← writeInodeInternal inodeNumber .clear with
    | .error _ =>
      rollbackCreatedInode inodeNumber
      return .error .eio
    | .ok () =>
      match ← directoryAppendLocked parentNumber parent inodeNumber 1 name with
      | .error e =>
        rollbackCreatedInode inodeNumber
        return .error e
      | .ok () => return .ok (Inode.clear.stat inodeNumber)

/-- `create_locked`. -/
def createLocked (path : List UInt8) : Fs (Except Errno Stat) := do
  match ← resolveParentLocked path with
  | .error e => return .error e
  | .ok (parentNumber, parent, name) =>
    match ← directoryFind parent name with
    | .ok _ => return .error .eexist
    | .error .enoent => createNamed parentNumber parent name
    | .error e => return .error e

/-- The inode of a new directory with its data block. -/
def newDirectoryInode (dataBlock : Nat) : Inode :=
  { Inode.clear with mode := 2, linkCount := 2, size := 128,
                     direct := Function.update (fun _ => 0) 0 dataBlock }

/-- The first block of a new directory: its `.` and `..`. -/
def newDirectoryBlock (inodeNumber parentNumber : Nat) : Block :=
  (Block.zero.copyBytes 0 (encodeDirectoryEntry inodeNumber 2 [0x2E]) 64).copyBytes 64
    (encodeDirectoryEntry parentNumber 2 [0x2E, 0x2E]) 64

/-- The rollback of `mkdir_locked`. -/
def rollbackDirectory (inodeNumber dataBlock : Nat) : Fs Unit := do
  let _ ← freeBlock dataBlock
  rollbackCreatedInode inodeNumber

/-- `mkdir_locked` once the name is known to be free. -/
def mkdirNamed (parentNumber : Nat) (parent : Inode) (name : List UInt8) :
    Fs (Except Errno Unit) := do
  match ← allocateInode with
  | .error e => return .error e
  | .ok inodeNumber =>
    match ← allocateBlock with
    | .error e =>
      let _ ← freeInode inodeNumber
      return .error e
    | .ok dataBlock =>
      setBuffer .ioBlock (newDirectoryBlock inodeNumber parentNumber)
      match ← writeVolumeBlockFrom dataBlock .ioBlock with
      | .error _ =>
        rollbackDirectory inodeNumber dataBlock
        return .error .eio
      | .ok () =>
        match ← writeInodeInternal inodeNumber (newDirectoryInode dataBlock) with
        | .error _ =>
          rollbackDirectory inodeNumber dataBlock
          return .error .eio
        | .ok () =>
          match ← directoryAppendLocked parentNumber parent inodeNumber 2 name with
          | .error e =>
            rollbackDirectory inodeNumber dataBlock
            return .error e
          | .ok () => return .ok ()

/-- `mkdir_locked`. -/
def mkdirLocked (path : List UInt8) : Fs (Except Errno Unit) := do
  match ← resolveParentLocked path with
  | .error e => return .error e
  | .ok (parentNumber, parent, name) =>
    match ← directoryFind parent name with
    | .ok _ => return .error .eexist
    | .error .enoent => mkdirNamed parentNumber parent name
    | .error e => return .error e

/-! ## Removing -/

/-- The loop of `directory_empty_locked`, from `offset`. -/
def directoryEmptyFrom (directory : Inode) : Nat → Nat → Fs (Except Errno Unit)
  | 0, _ => return .ok ()
  | fuel + 1, offset => do
    if offset ≥ directory.size then return .ok ()
    match ← inodeBlockAt directory (offset / 4096) with
    | .error _ => return .error .eio
    | .ok diskBlock =>
      match ← readVolumeBlock diskBlock with
      | .error _ => return .error .eio
      | .ok () =>
        let entry := (← getBuffer .ioBlock).ptr (offset % 4096)
        let type := (entry 4).toNat
        let name : Bytes := fun i => entry (5 + i)
        if type = 0 then
          if directoryEntryUnused entry = false then return .error .eio
          directoryEmptyFrom directory fuel (offset + 64)
        else if (type ≠ 1 ∧ type ≠ 2) ∨ directoryNameValid name = false then return .error .eio
        else if directoryNameEqual name [0x2E] = false ∧
            directoryNameEqual name [0x2E, 0x2E] = false then return .error .enotempty
        else directoryEmptyFrom directory fuel (offset + 64)

/-- `directory_empty_locked`. -/
def directoryEmptyLocked (directory : Inode) : Fs (Except Errno Unit) :=
  if directory.mode ≠ 2 then return .error .enotdir else
  directoryEmptyFrom directory directory.size 0

/-- A loop of `free_block` calls, on the `count` blocks `block s index` from `index` on, where `s`
is the state at the call. Any failure is `EIO`. -/
def freeBlocksFrom (block : Machine → Nat → Nat) : Nat → Nat → Fs (Except Errno Unit)
  | 0, _ => return .ok ()
  | count + 1, index => do
    match ← freeBlock (block (← get) index) with
    | .error _ => return .error .eio
    | .ok () => freeBlocksFrom block count (index + 1)

/-- The blocks of an inode named by pointers in `compare_buffer`, by file block. -/
def comparePointer (s : Machine) (index : Nat) : Nat := s.buffers.compareBuffer.pointer (index - 10)

/-- The end of `release_inode_locked`, once the data blocks are free. -/
def releaseInodeRecord (inodeNumber : Nat) (inode : Inode) : Fs (Except Errno Unit) := do
  match ← onlyIf (inode.indirect ≠ 0) (freeBlock inode.indirect) with
  | .error _ => return .error .eio
  | .ok () =>
    match ← clearInodeRecord inodeNumber with
    | .error _ => return .error .eio
    | .ok () =>
      match ← freeInode inodeNumber with
      | .error _ => return .error .eio
      | .ok () => return .ok ()

/-- `release_inode_locked`. -/
def releaseInodeLocked (inodeNumber : Nat) (inode : Inode) : Fs (Except Errno Unit) := do
  let blocks := blocksOf inode.size
  match ← onlyIf (blocks > 10) (readVolumeBlockInto inode.indirect .compareBuffer) with
  | .error _ => return .error .eio
  | .ok () =>
    match ← freeBlocksFrom (fun _ => inode.directAt) (min blocks 10) 0 with
    | .error e => return .error e
    | .ok () =>
      match ← freeBlocksFrom comparePointer (blocks - 10) 10 with
      | .error e => return .error e
      | .ok () => releaseInodeRecord inodeNumber inode

/-- `unlink_locked` once the entry is cleared: the parent loses a link to a directory, and the
inode is released. `diskBlock` and `blockOffset` locate the entry, which `auxiliary_block` keeps. -/
def unlinkEntry (parentNumber : Nat) (parent : Inode) (childNumber : Nat) (inode : Inode)
    (diskBlock blockOffset : Nat) : Fs (Except Errno Unit) := do
  if inode.mode = 2 then
    match ← writeInodeInternal parentNumber { parent with linkCount := parent.linkCount - 1 } with
    | .error _ =>
      match ← readVolumeBlock diskBlock with
      | .error _ => return .error .eio
      | .ok () =>
        setBuffer .ioBlock ((← getBuffer .ioBlock).copyBytes blockOffset
          ((← getBuffer .auxiliaryBlock).ptr 0) 64)
        let _ ← writeVolumeBlockFrom diskBlock .ioBlock
        return .error .eio
    | .ok () => releaseInodeLocked childNumber inode
  else releaseInodeLocked childNumber inode

/-- `unlink_locked` once the entry is found and its inode read. -/
def unlinkFound (parentNumber : Nat) (parent : Inode) (record : DirectoryRecord) (inode : Inode) :
    Fs (Except Errno Unit) := do
  let blockOffset := record.offset % 4096
  match ← inodeBlockAt parent (record.offset / 4096) with
  | .error _ => return .error .eio
  | .ok diskBlock =>
    match ← readVolumeBlock diskBlock with
    | .error _ => return .error .eio
    | .ok () =>
      let block ← getBuffer .ioBlock
      setBuffer .auxiliaryBlock
        ((← getBuffer .auxiliaryBlock).copyBytes 0 (block.ptr blockOffset) 64)
      setBuffer .ioBlock (block.clearBytes blockOffset 64)
      match ← writeVolumeBlockFrom diskBlock .ioBlock with
      | .error _ => return .error .eio
      | .ok () => unlinkEntry parentNumber parent record.inode inode diskBlock blockOffset

/-- `unlink_locked`. -/
def unlinkLocked (path : List UInt8) : Fs (Except Errno Unit) := do
  match ← resolveParentLocked path with
  | .error e => return .error e
  | .ok (parentNumber, parent, name) =>
    match ← directoryFindInternal parent name with
    | .error e => return .error e
    | .ok record =>
      if record.inode = (← get).superblock.rootInode then return .error .eio
      match ← readInodeInternal record.inode with
      | .error _ => return .error .eio
      | .ok inode =>
        if inode.mode = 2 then
          match ← directoryEmptyLocked inode with
          | .error e => return .error e
          | .ok () =>
            if parent.linkCount = 0 then return .error .eio
            unlinkFound parentNumber parent record inode
        else unlinkFound parentNumber parent record inode

/-! ## Truncation -/

/-- `truncate_locked` once the shrunk inode is on disk: free the blocks it gave up. -/
def truncateFree (oldInode : Inode) (oldBlocks newBlocks : Nat) : Fs (Except Errno Unit) := do
  match ← freeBlocksFrom (fun _ => oldInode.directAt) (min oldBlocks 10 - newBlocks) newBlocks with
  | .error e => return .error e
  | .ok () =>
    if oldBlocks > 10 then
      let first := if newBlocks < 10 then 10 else newBlocks
      match ← freeBlocksFrom comparePointer (oldBlocks - first) first with
      | .error e => return .error e
      | .ok () =>
        if newBlocks ≤ 10 then
          match ← freeBlock oldInode.indirect with
          | .error _ => return .error .eio
          | .ok () => return .ok ()
        else return .ok ()
    else return .ok ()

/-- The shrunk inode of `truncate_locked`. -/
def truncatedInode (inode : Inode) (newSize oldBlocks newBlocks : Nat) : Inode :=
  { inode with
    indirect := if newBlocks > 10 then inode.indirect else 0
    direct := fun k => if newBlocks ≤ k.val ∧ k.val < oldBlocks then 0 else inode.direct k
    size := newSize }

/-- `truncate_locked` on a file with an indirect block: keep its pointers in both buffers. -/
def loadIndirect (inode : Inode) : Fs (Except Errno Unit) := do
  match ← readVolumeBlockInto inode.indirect .auxiliaryBlock with
  | .error _ => return .error .eio
  | .ok () =>
    setBuffer .compareBuffer (← getBuffer .auxiliaryBlock)
    return .ok ()

/-- `truncate_locked` on a file that keeps its indirect block: clear the pointers it gives up. -/
def clearIndirect (inode : Inode) (oldBlocks newBlocks : Nat) : Fs (Except Errno Unit) := do
  let first := newBlocks - 10
  let count := oldBlocks - 10
  setBuffer .auxiliaryBlock ((← getBuffer .auxiliaryBlock).writeWords 0 (fun _ => 0)
    (List.range' first (count - first)))
  writeVolumeBlockFrom inode.indirect .auxiliaryBlock

/-- `truncate_locked` on an inode it shrinks. -/
def truncateShrink (inodeNumber : Nat) (inode : Inode) (newSize : Nat) :
    Fs (Except Errno Unit) := do
  let oldBlocks := blocksOf inode.size
  let newBlocks := blocksOf newSize
  match ← onlyIf (inode.indirect ≠ 0) (loadIndirect inode) with
  | .error _ => return .error .eio
  | .ok () =>
    match ← onlyIf (newBlocks > 10) (clearIndirect inode oldBlocks newBlocks) with
    | .error _ => return .error .eio
    | .ok () =>
      match ← writeInodeInternal inodeNumber (truncatedInode inode newSize oldBlocks newBlocks) with
      | .error _ =>
        let _ ← onlyIf (newBlocks > 10) (writeVolumeBlockFrom inode.indirect .compareBuffer)
        return .error .eio
      | .ok () => truncateFree inode oldBlocks newBlocks

/-- `truncate_locked`. -/
def truncateLocked (inodeNumber newSize : Nat) : Fs (Except Errno Unit) := do
  match ← readInodeInternal inodeNumber with
  | .error _ => return .error .eio
  | .ok inode =>
    if inode.mode = 2 then return .error .eisdir
    if newSize > inode.size then return .error .einval
    if newSize = inode.size then return .ok ()
    truncateShrink inodeNumber inode newSize

/-! ## The public operations -/

/-- The frame of a public operation: the mount check, the lock, the body and the release. -/
def locked {α : Type} (unmounted : Errno) (body : Fs (Except Errno α)) : Fs (Except Errno α) := do
  if (← get).mounted = false then return .error unmounted
  match ← minifsAcquire with
  | none => return .error .eagain
  | some irqFlags =>
    let result ← body
    minifsRelease irqFlags
    return result

/-- The loop of `minifs_mount` over the metadata blocks: every one is marked. -/
def metadataMarked (sb : Superblock) : Nat → Nat → Fs Bool
  | 0, _ => return true
  | count + 1, block => do
    if !(← bitmapBitSet sb.blockBitmapStart sb.blockBitmapBlocks block) then return false
    metadataMarked sb count (block + 1)

/-- `minifs_mount` once the superblock is installed. -/
def mountChecks (sb : Superblock) : Fs Bool := do
  if !(← metadataMarked sb sb.dataStart 0) then return false
  if !(← bitmapBitSet sb.inodeBitmapStart sb.inodeBitmapBlocks sb.rootInode) then return false
  match ← readInodeInternal sb.rootInode with
  | .error _ => return false
  | .ok root => return root.mode = 2

/-- `minifs_mount`. -/
def minifsMount : Fs (Except Errno Unit) := do
  match ← minifsAcquire with
  | none => return .error .eagain
  | some irqFlags =>
    modify fun s => { s with mounted := false, superblock := .clear }
    let s ← get
    if s.layout.startBlock > s.deviceBlockCount ∨
        s.layout.blockCount > s.deviceBlockCount - s.layout.startBlock then
      minifsRelease irqFlags
      return .error .eio
    match ← blockRead 0 .ioBlock with
    | .error _ =>
      minifsRelease irqFlags
      return .error .eio
    | .ok () =>
      match decodeSuperblock s.layout.blockCount (← getBuffer .ioBlock) with
      | none =>
        minifsRelease irqFlags
        return .error .eio
      | some candidate =>
        modify fun s => { s with superblock := candidate }
        if ← mountChecks candidate then
          modify fun s => { s with mounted := true }
          minifsRelease irqFlags
          return .ok ()
        else
          modify fun s => { s with superblock := .clear }
          minifsRelease irqFlags
          return .error .eio

/-- `minifs_lookup`. -/
def minifsLookup (path : List UInt8) : Fs (Except Errno Stat) := locked .eio (lookupLocked path)

/-- `minifs_stat_inode`. -/
def minifsStatInode (inodeNumber : Nat) : Fs (Except Errno Stat) :=
  locked .eio do return (← readInodeInternal inodeNumber).map (·.stat inodeNumber)

/-- The loop of `minifs_read`: `completed` holds the bytes read so far. -/
def minifsReadFrom (inode : Inode) (offset length : Nat) :
    Nat → List UInt8 → Fs (Except Errno (List UInt8))
  | 0, completed => return .ok completed
  | fuel + 1, completed => do
    if completed.length ≥ length then return .ok completed
    let position := offset + completed.length
    let blockOffset := position % 4096
    let chunk := min (4096 - blockOffset) (length - completed.length)
    match ← inodeBlockAt inode (position / 4096) with
    | .error _ => return .error .eio
    | .ok diskBlock =>
      match ← readVolumeBlock diskBlock with
      | .error _ => return .error .eio
      | .ok () =>
        let block ← getBuffer .ioBlock
        minifsReadFrom inode offset length fuel
          (completed ++ (List.range chunk).map fun index => block.byte (blockOffset + index))

/-- `minifs_read`: the bytes read. -/
def minifsRead (inodeNumber offset length : Nat) : Fs (Except Errno (List UInt8)) :=
  locked .einval do
    match ← readInodeInternal inodeNumber with
    | .error e => return .error e
    | .ok inode =>
      if inode.mode = 2 then return .error .eisdir
      if offset ≥ inode.size ∨ length = 0 then return .ok []
      let length := min length (inode.size - offset)
      minifsReadFrom inode offset length length []

/-- `minifs_create`. -/
def minifsCreate (path : List UInt8) : Fs (Except Errno Stat) := locked .eio (createLocked path)

/-- `minifs_mkdir`. -/
def minifsMkdir (path : List UInt8) : Fs (Except Errno Unit) := locked .eio (mkdirLocked path)

/-- `minifs_unlink`. -/
def minifsUnlink (path : List UInt8) : Fs (Except Errno Unit) := locked .eio (unlinkLocked path)

/-- `struct minifs_dirent`. -/
structure Dirent where
  inode : Nat
  mode : Nat
  name : List UInt8
  deriving DecidableEq

/-- The loop of `minifs_readdir` from `cursor`: the next entry and the offset after it. -/
def minifsReaddirFrom (directory : Inode) : Nat → Nat → Fs (Except Errno (Option Dirent × Nat))
  | 0, cursor => return .ok (none, cursor)
  | fuel + 1, cursor => do
    if cursor ≥ directory.size then return .ok (none, cursor)
    match ← inodeBlockAt directory (cursor / 4096) with
    | .error _ => return .error .eio
    | .ok diskBlock =>
      match ← readVolumeBlock diskBlock with
      | .error _ => return .error .eio
      | .ok () =>
        let rawEntry := (← getBuffer .ioBlock).ptr (cursor % 4096)
        let type := (rawEntry 4).toNat
        let name : Bytes := fun i => rawEntry (5 + i)
        let childNumber := readLe32 rawEntry
        if type = 0 then
          if directoryEntryUnused rawEntry = false then return .error .eio
          minifsReaddirFrom directory fuel (cursor + 64)
        else if (type ≠ 1 ∧ type ≠ 2) ∨ directoryNameValid name = false then return .error .eio
        else
          match ← readInodeInternal childNumber with
          | .error _ => return .error .eio
          | .ok child =>
            if typeMatches type child.mode = false then return .error .eio
            return .ok (some ⟨childNumber, child.mode,
              ((List.range 58).map name).takeWhile (· ≠ 0)⟩, cursor + 64)

/-- `minifs_readdir`: the entry found, if any, and the new offset. -/
def minifsReaddir (inodeNumber offset : Nat) : Fs (Except Errno (Option Dirent × Nat)) := do
  if (← get).mounted = false ∨ offset % 64 ≠ 0 then return .error .einval
  locked .einval do
    match ← readInodeInternal inodeNumber with
    | .error e => return .error e
    | .ok directory =>
      if directory.mode ≠ 2 then return .error .enotdir
      minifsReaddirFrom directory directory.size offset

/-- The loop of `minifs_write`: `completed` bytes of `source` are written. -/
def minifsWriteFrom (inodeNumber offset : Nat) (source : List UInt8) :
    Nat → Inode → Nat → Fs (Except Errno Nat)
  | 0, _, completed => return .ok completed
  | fuel + 1, inode, completed => do
    if completed ≥ source.length then return .ok completed
    let position := offset + completed
    let blockOffset := position % 4096
    let chunk := min (4096 - blockOffset) (source.length - completed)
    match ← writeChunkLocked inodeNumber inode position
        (fun i => source.getD (completed + i) 0) chunk with
    | .error e => return if completed > 0 then .ok completed else .error e
    | .ok inode => minifsWriteFrom inodeNumber offset source fuel inode (completed + chunk)

/-- `minifs_write`: the number of bytes written. -/
def minifsWrite (inodeNumber offset : Nat) (source : List UInt8) : Fs (Except Errno Nat) := do
  if (← get).mounted = false ∨ source.length > 0x7FFFFFFF ∨ offset > 1034 * 4096 ∨
      source.length > 1034 * 4096 - offset then return .error .einval
  locked .einval do
    match ← readInodeInternal inodeNumber with
    | .error e => return .error e
    | .ok inode =>
      if inode.mode = 2 then return .error .eisdir
      if offset > inode.size then return .error .einval
      minifsWriteFrom inodeNumber offset source source.length inode 0

/-- `minifs_truncate`. -/
def minifsTruncate (inodeNumber newSize : Nat) : Fs (Except Errno Unit) := do
  if (← get).mounted = false ∨ newSize > 1034 * 4096 then return .error .einval
  locked .einval (truncateLocked inodeNumber newSize)

end MiniOrange
