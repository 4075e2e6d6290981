import MiniOrange.Tools.Minifs

/-!
# `mkfs.py`

The builder of a volume, as `tools/mkfs.py` computes it: `Builder` marks the metadata, takes data
blocks one after the other, and writes the root directory, the directory `/bin` and the imported
files. `parseImports` is the parsing of the `--import` arguments. A character of an argument is its
code point; what a source file holds is a parameter.
-/

namespace MiniOrange

namespace Tools

open Check

/-- `ImportedFile`. -/
structure ImportedFile where
  name : List UInt8
  payload : List UInt8
  deriving DecidableEq

/-! ## The payload -/

/-- `payload[offset : offset + len(value)] = value`, for a slice within one block. -/
def assign (payload : Disk) (offset : Nat) (value : List UInt8) : Disk :=
  Function.update payload (offset / 4096)
    ((payload (offset / 4096)).copyBytes (offset % 4096) (bytesOf value) value.length)

/-- `bitmap_set` on a payload of `length` bytes. -/
def bitmapSet (payload : Disk) (length offset bit : Nat) : Except MiniFsError Disk := do
  let position := offset + bit / 8
  failIf (position ≥ length) .bitmapRange
  return assign payload position
    [withBit ((payload (position / 4096)).byte (position % 4096)) (bit % 8) true]

/-- `class Builder`. -/
structure Builder where
  superblock : Superblock
  payload : Disk
  nextBlock : Nat

namespace Builder

/-- `len(self.payload)`. -/
def length (b : Builder) : Nat := b.superblock.totalBlocks * 4096

/-- `_mark_block`. -/
def markBlock (b : Builder) (block : Nat) : Except MiniFsError Builder := do
  let payload ← bitmapSet b.payload b.length (b.superblock.blockBitmapStart * 4096) block
  return { b with payload }

/-- `_mark_inode`. -/
def markInode (b : Builder) (inode : Nat) : Except MiniFsError Builder := do
  let payload ← bitmapSet b.payload b.length (b.superblock.inodeBitmapStart * 4096) inode
  return { b with payload }

/-- `Builder.__init__`. -/
def init (totalBlocks totalInodes : Nat) : Except MiniFsError Builder := do
  let superblock ← makeSuperblock totalBlocks totalInodes
  let b : Builder := ⟨superblock, fun _ => .zero, superblock.dataStart⟩
  let b ← (List.range superblock.dataStart).foldlM markBlock b
  let blockCapacity := superblock.blockBitmapBlocks * 4096 * 8
  let b ← (List.range' totalBlocks (blockCapacity - totalBlocks)).foldlM markBlock b
  let inodeCapacity := superblock.inodeBitmapBlocks * 4096 * 8
  (List.range' totalInodes (inodeCapacity - totalInodes)).foldlM markInode b

/-- `allocate_block`. -/
def allocateBlock (b : Builder) : Except MiniFsError (Builder × Nat) := do
  failIf (b.nextBlock ≥ b.superblock.totalBlocks) .blocksExhausted
  let block := b.nextBlock
  let b ← { b with nextBlock := b.nextBlock + 1 }.markBlock block
  return (b, block)

/-- `write_inode`. -/
def writeInode (b : Builder) (number : Nat) (value : Inode) : Except MiniFsError Builder := do
  failIf (number ≥ b.superblock.totalInodes) .inodesExhausted
  let record ← encodeInode value
  let offset := b.superblock.inodeTableStart * 4096 + number * 64
  { b with payload := assign b.payload offset record }.markInode number

/-- The loop of `write_file` over the blocks of the file. -/
def writeChunks (payload : List UInt8) :
    List Nat → Builder → List Nat → Except MiniFsError (Builder × List Nat)
  | [], b, blocks => return (b, blocks)
  | index :: rest, b, blocks => do
    let (b, block) ← b.allocateBlock
    let chunk := (payload.drop (index * 4096)).take 4096
    writeChunks payload rest { b with payload := assign b.payload (block * 4096) chunk } (blocks ++ [block])

/-- The loop of `write_file` over the pointers in the indirect block, from `index` on. -/
def writePointers (indirect : Nat) : List Nat → Nat → Builder → Except MiniFsError Builder
  | [], _, b => return b
  | block :: rest, index, b => do
    let bytes ← pack 4 block
    writePointers indirect rest (index + 1)
      { b with payload := assign b.payload (indirect * 4096 + index * 4) bytes }

/-- `write_file`. -/
def writeFile (b : Builder) (number : Nat) (payload : List UInt8) : Except MiniFsError Builder := do
  let blockCount := blocksForBytes payload.length 4096
  failIf (blockCount > 10 + 1024) .importTooLarge
  let (b, blocks) ← writeChunks payload (List.range blockCount) b []
  let direct := fun k : Fin 10 => blocks.getD k.val 0
  if blockCount > 10 then
    let (b, indirect) ← b.allocateBlock
    let b ← writePointers indirect (blocks.drop 10) 0 b
    b.writeInode number ⟨1, 1, payload.length, direct, indirect, 0, 0, 0⟩
  else
    b.writeInode number ⟨1, 1, payload.length, direct, 0, 0, 0, 0⟩

/-- The bytes of the entries of a directory. -/
def encodeEntries : List (Nat × Nat × List UInt8) → Except MiniFsError (List UInt8)
  | [] => return []
  | (inode, entryType, name) :: rest => do
    let entry ← encodeDirectoryEntry inode entryType name
    return entry ++ (← encodeEntries rest)

/-- `write_directory`. -/
def writeDirectory (b : Builder) (number linkCount : Nat) (entries : List (Nat × Nat × List UInt8)) :
    Except MiniFsError Builder := do
  let content ← encodeEntries entries
  failIf (content.length > 4096) .directoryTooLarge
  let (b, block) ← b.allocateBlock
  let b := { b with payload := assign b.payload (block * 4096) content }
  b.writeInode number ⟨2, linkCount, content.length, fun k => if k = 0 then block else 0, 0, 0, 0, 0⟩

/-- `finish`. -/
def finish (b : Builder) : Except MiniFsError Disk := do
  let block ← encodeSuperblock b.superblock
  return Function.update b.payload 0 block

end Builder

/-! ## The volume -/

/-- `file_numbers[name]`: of two imports with one name the later one counts. -/
def fileNumber (imports : List ImportedFile) (name : List UInt8) : Nat :=
  (imports.zipIdx.foldl (fun number item => if item.1.name = name then item.2 + 2 else number) 0)

/-- The name `bin`. -/
def binName : List UInt8 := [0x62, 0x69, 0x6E]

/-- `_build_volume`, for a layout of `blockCount` blocks. -/
def buildVolume (blockCount : Nat) (imports : List ImportedFile) : Except MiniFsError Disk := do
  failIf (imports.length + 2 > 1024) .tooManyImports
  let b ← Builder.init blockCount 1024
  let b ← b.writeDirectory 0 3 [(0, 2, [0x2E]), (0, 2, [0x2E, 0x2E]), (1, 2, binName)]
  let b ← b.writeDirectory 1 2 ([(1, 2, [0x2E]), (0, 2, [0x2E, 0x2E])] ++
    imports.map fun item => (fileNumber imports item.name, 1, item.name))
  let b ← imports.foldlM (fun b item => b.writeFile (fileNumber imports item.name) item.payload) b
  b.finish

/-! ## The arguments -/

/-- `value.partition(separator)`: what is before the first separator, and what is behind it if there is
one. -/
def partition (separator : Nat) (value : List Nat) : List Nat × Option (List Nat) :=
  (value.takeWhile (· ≠ separator), match value.dropWhile (· ≠ separator) with
    | [] => none
    | _ :: rest => some rest)

/-- `value.split(separator)`. -/
def split (separator : Nat) : List Nat → List (List Nat)
  | [] => [[]]
  | x :: rest =>
    if x = separator then [] :: split separator rest
    else match split separator rest with
      | [] => [[x]]
      | part :: parts => (x :: part) :: parts

/-- `name.encode("ascii")`. -/
def encodeAscii (name : List Nat) : Except MiniFsError (List UInt8) := do
  failIf (∃ x ∈ name, x ≥ 0x80) (.importNameNotAscii name)
  return name.map UInt8.ofNat

/-- The limits of `_read_stable_file`: `source` names a file that can be read, and holds some bytes. -/
def readStableFile (read : List Nat → Option (List UInt8)) (source : List Nat) :
    Except MiniFsError (List UInt8) := do
  match read source with
  | none => throw (.sourceUnreadable source)
  | some payload =>
    failIf (payload.length = 0 ∨ payload.length > 1034 * 4096) (.sourceSize source)
    return payload

/-- One round of the loop of `_parse_imports`: the files so far, and the destinations. -/
def parseImport (read : List Nat → Option (List UInt8)) (state : List ImportedFile × List (List Nat))
    (value : List Nat) : Except MiniFsError (List ImportedFile × List (List Nat)) := do
  let (result, destinations) := state
  let (destination, source) := partition 0x3D value
  match source, split 0x2F destination with
  | some source, [first, second, name] =>
    failIf (first ≠ [] ∨ second ≠ [0x62, 0x69, 0x6E]) (.importForm value)
    let bytes ← encodeAscii name
    let _ ← encodeDirectoryEntry 0 1 bytes
    failIf (destination ∈ destinations) (.importTwice destination)
    let payload ← readStableFile read source
    failIf (¬ [0x7F, 0x45, 0x4C, 0x46] <+: payload) (.sourceNotElf source)
    return (result ++ [⟨bytes, payload⟩], destinations ++ [destination])
  | _, _ => throw (.importForm value)

/-- `_parse_imports`. -/
def parseImports (read : List Nat → Option (List UInt8)) (values : List (List Nat)) :
    Except MiniFsError (List ImportedFile) := do
  let (result, _) ← values.foldlM (parseImport read) ([], [])
  let result := result.mergeSort fun a b => a.name ≤ b.name
  failIf (result = []) .noImports
  failIf (result.length + 2 > 4096 / 64) .importsTooMany
  return result

end Tools

end MiniOrange
