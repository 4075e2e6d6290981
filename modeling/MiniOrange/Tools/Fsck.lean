import MiniOrange.Tools.Minifs

/-!
# `fsck.py`

The checker of a volume, as `class Checker` of `tools/fsck.py` computes it: it decodes the superblock,
loads the inodes and claims their blocks one by one, compares the claims with the bitmaps, and walks
the directories from the root, counting references. A method that fails raises; here it returns the
error. The dictionaries of the source are functions to `Option`, and a set is a `Finset`.
-/

namespace MiniOrange

namespace Tools

open Check

/-- Byte `offset` of a volume. -/
def byteOf (volume : Disk) (offset : Nat) : UInt8 := (volume (offset / 4096)).byte (offset % 4096)

/-- The bytes of a volume from `offset` on. -/
def sliceOf (volume : Disk) (offset : Nat) : Bytes := fun i => byteOf volume (offset + i)

/-- `class Checker`. -/
structure Checker where
  volume : Disk
  superblock : Superblock
  inodes : Nat → Option Inode
  fileBlocks : Nat → List Nat
  claimedBlocks : Nat → Option Owner

namespace Checker

/-- The regions of a superblock. -/
def geometryOf (value : Superblock) : List Nat :=
  [value.blockBitmapStart, value.blockBitmapBlocks, value.inodeBitmapStart, value.inodeBitmapBlocks,
    value.inodeTableStart, value.inodeTableBlocks, value.dataStart, value.rootInode]

/-- `Checker.__init__`. -/
def init (volume : Disk) (expectedBlocks : Nat) : Except MiniFsError Checker := do
  let superblock ← decodeSuperblock (volume 0)
  failIf (superblock.totalBlocks ≠ expectedBlocks) .totalBlocks
  let expected ← makeSuperblock superblock.totalBlocks superblock.totalInodes
  failIf (geometryOf superblock ≠ geometryOf expected) .geometry
  failIf (superblock.totalInodes = 0) .totalInodes
  return {
    volume
    superblock
    inodes := fun _ => none
    fileBlocks := fun _ => []
    claimedBlocks := fun block => if block < superblock.dataStart then some .metadata else none }

/-- A bit of `self.block_bitmap`. -/
def blockBit (c : Checker) (bit : Nat) : Except MiniFsError Bool :=
  bitmapGet (sliceOf c.volume (c.superblock.blockBitmapStart * 4096))
    (c.superblock.blockBitmapBlocks * 4096) bit

/-- A bit of `self.inode_bitmap`. -/
def inodeBit (c : Checker) (bit : Nat) : Except MiniFsError Bool :=
  bitmapGet (sliceOf c.volume (c.superblock.inodeBitmapStart * 4096))
    (c.superblock.inodeBitmapBlocks * 4096) bit

/-- `_inode_raw`. -/
def inodeRaw (c : Checker) (number : Nat) : Bytes :=
  sliceOf c.volume (c.superblock.inodeTableStart * 4096 + number * 64)

/-- `_claim_data_block`. -/
def claimDataBlock (c : Checker) (block : Nat) (owner : Owner) : Except MiniFsError Checker := do
  failIf (block < c.superblock.dataStart ∨ block ≥ c.superblock.totalBlocks) (.notDataBlock owner block)
  match c.claimedBlocks block with
  | some previous => throw (.claimedTwice block previous owner)
  | none =>
    let marked ← c.blockBit block
    failIf (marked = false) (.notMarked owner block)
    return { c with claimedBlocks := Function.update c.claimedBlocks block (some owner) }

/-! ## The inodes -/

/-- What a loop over pointers reports: the owner of a pointer, one that is missing and one that is
past the size. -/
structure PointerReports where
  owner : Nat → Owner
  missing : Nat → MiniFsError
  stray : Nat → MiniFsError

/-- The loops of `_load_inodes` over the direct and the indirect pointers: those below `required` are
claimed, and the others are zero. -/
def claimPointers (reports : PointerReports) (pointer : Nat → Nat) (required : Nat) :
    List Nat → Checker → List Nat → Except MiniFsError (Checker × List Nat)
  | [], c, blocks => return (c, blocks)
  | index :: rest, c, blocks => do
    if index < required then
      failIf (pointer index = 0) (reports.missing index)
      let c ← c.claimDataBlock (pointer index) (reports.owner index)
      claimPointers reports pointer required rest c (blocks ++ [pointer index])
    else
      failIf (pointer index ≠ 0) (reports.stray index)
      claimPointers reports pointer required rest c blocks

/-- The loop over `inode.direct`. -/
def claimDirect (number : Nat) (inode : Inode) (required : Nat) (c : Checker) :
    Except MiniFsError (Checker × List Nat) :=
  claimPointers ⟨.direct number, .missingDirect number, .strayDirect number⟩ inode.directAt required
    (List.range 10) c []

/-- The loop over the pointers of the indirect block. -/
def claimIndirect (number : Nat) (pointer : Nat → Nat) (required : Nat) (c : Checker)
    (blocks : List Nat) : Except MiniFsError (Checker × List Nat) :=
  claimPointers ⟨.pointer number, .missingPointer number, .strayPointer number⟩ pointer required
    (List.range 1024) c blocks

/-- The checks of `_load_inodes` on the fields of a record. -/
def checkRecord (number : Nat) (inode : Inode) : Except MiniFsError Unit := do
  failIf (inode.mode ≠ 1 ∧ inode.mode ≠ 2) (.mode number)
  failIf (inode.linkCount = 0 ∨ inode.reserved ≠ 0) (.linkCountOrReserved number)
  failIf (inode.size > (10 + 1024) * 4096) (.size number)
  failIf (inode.mode = 2 ∧ (inode.size = 0 ∨ inode.size % 64 ≠ 0)) (.directorySize number)

/-- The indirect block of an inode and the blocks behind it: `required` of them. -/
def claimIndirectBlock (c : Checker) (number : Nat) (inode : Inode) (required : Nat)
    (blocks : List Nat) : Except MiniFsError (Checker × List Nat) := do
  if required > 0 then
    failIf (inode.indirect = 0) (.missingIndirect number)
    let c ← c.claimDataBlock inode.indirect (.indirect number)
    let pointers := fun index => readLe32 (sliceOf c.volume (inode.indirect * 4096 + 4 * index))
    claimIndirect number pointers required c blocks
  else
    failIf (inode.indirect ≠ 0) (.strayIndirect number)
    return (c, blocks)

/-- The blocks of an inode: `_load_inodes` claims them and returns those of the file. -/
def claimBlocks (c : Checker) (number : Nat) (inode : Inode) :
    Except MiniFsError (Checker × List Nat) := do
  let required := blocksForBytes inode.size 4096
  let directRequired := min required 10
  let (c, blocks) ← claimDirect number inode directRequired c
  c.claimIndirectBlock number inode (required - directRequired) blocks

/-- One round of the loop of `_load_inodes`. -/
def loadInode (c : Checker) (number : Nat) : Except MiniFsError Checker := do
  let allocated ← c.inodeBit number
  let raw := c.inodeRaw number
  if allocated = false then
    failIf (∃ i ∈ List.range 64, raw i ≠ 0) (.freeRecord number)
    return c
  else
    let inode := decodeInode raw
    checkRecord number inode
    let (c, blocks) ← claimBlocks c number inode
    return { c with
      inodes := Function.update c.inodes number (some inode)
      fileBlocks := Function.update c.fileBlocks number blocks }

/-- `_load_inodes`. -/
def loadInodes (c : Checker) : Except MiniFsError Checker := do
  let c ← (List.range c.superblock.totalInodes).foldlM loadInode c
  match c.inodes c.superblock.rootInode with
  | none => throw .rootNotAllocated
  | some root =>
    failIf (root.mode ≠ 2) .rootNotDirectory
    return c

/-! ## The bitmaps -/

/-- `_check_bitmap_coverage`. -/
def checkBitmapCoverage (c : Checker) : Except MiniFsError Unit := do
  (List.range c.superblock.totalBlocks).forM fun block => do
    let marked ← c.blockBit block
    failIf (marked ≠ (c.claimedBlocks block).isSome) (.bitmapMismatch block)
  let blockCapacity := c.superblock.blockBitmapBlocks * 4096 * 8
  (List.range' c.superblock.totalBlocks (blockCapacity - c.superblock.totalBlocks)).forM fun block => do
    let marked ← c.blockBit block
    failIf (marked = false) .blockTail
  let inodeCapacity := c.superblock.inodeBitmapBlocks * 4096 * 8
  (List.range' c.superblock.totalInodes (inodeCapacity - c.superblock.totalInodes)).forM fun inode => do
    let marked ← c.inodeBit inode
    failIf (marked = false) .inodeTail

/-! ## The directories -/

/-- `_read_inode_content`. -/
def readInodeContent (c : Checker) (number : Nat) (inode : Inode) : List UInt8 :=
  ((c.fileBlocks number).flatMap fun block =>
    (List.range 4096).map (sliceOf c.volume (block * 4096))).take inode.size

/-- `_decode_name`. -/
def decodeName (raw : List UInt8) (owner : Nat) : Except MiniFsError (List UInt8) := do
  match raw.findIdx? (· = 0) with
  | none => throw (.nameNotTerminated owner)
  | some terminator =>
    failIf (terminator = 0 ∨ terminator > 58) (.nameNotTerminated owner)
    failIf ((raw.drop (terminator + 1)).any (· ≠ 0) = true) (.namePadding owner)
    let nameBytes := raw.take terminator
    failIf (0x2F ∈ nameBytes) (.nameSlash owner)
    failIf (∃ x ∈ nameBytes, x > 0x7F) (.entryNameNotAscii owner)
    return nameBytes

/-- A name of a directory with its child and type: an item of the dictionary `names`. -/
structure Name where
  name : List UInt8
  child : Nat
  type : Nat
  deriving DecidableEq

/-- `names.get(name)`. -/
def getName (names : List Name) (name : List UInt8) : Option (Nat × Nat) :=
  (names.find? (·.name = name)).map fun item => (item.child, item.type)

/-- The loop of `_check_directories` over the entries of a directory: the names so far, and the
references. -/
def checkEntries (c : Checker) (number : Nat) (content : List UInt8) :
    List Nat → List Name → (Nat → Nat) → Except MiniFsError (List Name × (Nat → Nat))
  | [], names, references => return (names, references)
  | offset :: rest, names, references => do
    let raw : Bytes := fun i => content.getD (offset + i) 0
    let entry := Entry.ofBytes raw
    if entry.type = 0 then
      failIf (∃ i ∈ List.range 64, raw i ≠ 0) (.unusedEntry number)
      checkEntries c number content rest names references
    else
      failIf (entry.type ≠ 1 ∧ entry.type ≠ 2) (.entryType number)
      let name ← decodeName entry.name number
      failIf (getName names name ≠ none) (.duplicateName number name)
      match c.inodes entry.inode with
      | none => throw (.childNotAllocated number entry.inode)
      | some child =>
        let expectedType := if child.mode = 2 then 2 else 1
        failIf (entry.type ≠ expectedType) (.typeMismatch name)
        checkEntries c number content rest (names ++ [⟨name, entry.inode, entry.type⟩])
          (Function.update references entry.inode (references entry.inode + 1))

/-- The variables of the loop of `_check_directories`. -/
structure Walk where
  queue : List (Nat × Nat)
  visited : Finset Nat
  reachable : Finset Nat
  references : Nat → Nat

/-- The names that are not `.` or `..`. -/
def children (names : List Name) : List Name :=
  names.filter fun item => item.name ≠ [0x2E] ∧ item.name ≠ [0x2E, 0x2E]

/-- The body of the loop of `_check_directories`, with the pair taken off the queue. -/
def checkDirectory (c : Checker) (w : Walk) (number parent : Nat) : Except MiniFsError Walk := do
  failIf (number ∈ w.visited) (.directoryTwice number)
  match c.inodes number with
  | none => throw (.childNotAllocated number number)
  | some inode =>
    let content := c.readInodeContent number inode
    let offsets := (List.range ((content.length + 63) / 64)).map (· * 64)
    let (names, references) ← c.checkEntries number content offsets [] w.references
    failIf (getName names [0x2E] ≠ some (number, 2)) (.dot number)
    failIf (getName names [0x2E, 0x2E] ≠ some (parent, 2)) (.dotdot number)
    return {
      queue := w.queue ++ ((children names).filter (·.type = 2)).map fun item => (item.child, number)
      visited := insert number w.visited
      reachable := w.reachable ∪ ((children names).map (·.child)).toFinset
      references }

/-- The loop of `_check_directories`. Every round visits one more inode, so that once all are visited
the next in the queue is there for the second time. -/
def walkDirectories (c : Checker) : Nat → Walk → Except MiniFsError Walk
  | rounds, w =>
    match w.queue with
    | [] => return w
    | (number, parent) :: queue =>
      match rounds with
      | 0 => throw (.directoryTwice number)
      | rounds + 1 => do
        let w ← c.checkDirectory { w with queue } number parent
        walkDirectories c rounds w

/-- The keys of `self.inodes`. -/
def allocated (c : Checker) : Finset Nat :=
  (Finset.range c.superblock.totalInodes).filter fun number => (c.inodes number).isSome

/-- `_check_directories`: the numbers of regular files and of directories. -/
def checkDirectories (c : Checker) : Except MiniFsError (Nat × Nat) := do
  let root := c.superblock.rootInode
  let w ← c.walkDirectories c.allocated.card
    { queue := [(root, root)], visited := ∅, reachable := {root}, references := fun _ => 0 }
  failIf (w.reachable ≠ c.allocated) (.unreachable ((c.allocated \ w.reachable).sort (· ≤ ·)))
  (List.range c.superblock.totalInodes).forM fun number =>
    match c.inodes number with
    | none => return
    | some inode =>
      failIf (w.references number ≠ inode.linkCount)
        (.linkCount number inode.linkCount (w.references number))
  let regular := (c.allocated.filter fun number => (c.inodes number).map (·.mode) = some 1).card
  return (regular, w.visited.card)

/-- `run`: the numbers of allocated inodes, of regular files and of directories. -/
def run (c : Checker) : Except MiniFsError (Nat × Nat × Nat) := do
  let c ← c.loadInodes
  c.checkBitmapCoverage
  let (regular, directories) ← c.checkDirectories
  return (c.allocated.card, regular, directories)

end Checker

/-- `fsck.py` on a volume of `expectedBlocks` blocks. -/
def fsck (expectedBlocks : Nat) (volume : Disk) : Except MiniFsError (Nat × Nat × Nat) := do
  let c ← Checker.init volume expectedBlocks
  c.run

/-- The checker accepts the volume. -/
def Accepts (expectedBlocks : Nat) (volume : Disk) : Prop := ∃ r, fsck expectedBlocks volume = .ok r

end Tools

end MiniOrange
