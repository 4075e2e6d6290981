import MiniOrange.Bytes.Block

/-!
# The on-disk format of MiniFS

A volume is a sequence of 4096-byte blocks: the superblock, the block bitmap, the inode bitmap, the
table of 64-byte inode records and the data blocks. A file has ten direct pointers and one block of
1024 indirect ones; a directory is a file of 64-byte entries, each a child inode, a type and a
name field of 59 bytes. This module has the records and the kernel's codecs for them, as
`kernel/fs/minifs.c` writes them out, with the lemmas that decoding inverts encoding.
-/

namespace MiniOrange

/-- The error codes of `minios/abi/errno.h`. -/
inductive Errno where
  | enoent | eio | e2big | enoexec | ebadf | echild | eagain | enomem | efault | ebusy | eexist
  | enotdir | eisdir | einval | enfile | emfile | enospc | enosys | enotempty
  deriving DecidableEq, Repr

/-- `divide_round_up`. -/
def divideRoundUp (value divisor : Nat) : Nat := if value = 0 then 0 else (value - 1) / divisor + 1

/-- The number of blocks of a file of `size` bytes. -/
abbrev blocksOf (size : Nat) : Nat := divideRoundUp size 4096

variable {b : Block} {p : Bytes}

theorem lt_divideRoundUp {value divisor k : Nat} (hd : 0 < divisor) :
    k < divideRoundUp value divisor ↔ k * divisor < value := by
  unfold divideRoundUp
  split
  · simp_all
  · next h =>
    rw [Nat.lt_succ_iff, Nat.le_div_iff_mul_le hd]
    omega

theorem lt_blocksOf {size k : Nat} : k < blocksOf size ↔ k * 4096 < size :=
  lt_divideRoundUp (by omega)

theorem blocksOf_le {size k : Nat} : blocksOf size ≤ k ↔ size ≤ k * 4096 := by
  rw [← not_lt, lt_blocksOf, not_lt]

@[simp] theorem blocksOf_zero : blocksOf 0 = 0 := rfl

/-! ## The superblock -/

/-- `struct minifs_superblock`. -/
structure Superblock where
  totalBlocks : Nat
  totalInodes : Nat
  blockBitmapStart : Nat
  blockBitmapBlocks : Nat
  inodeBitmapStart : Nat
  inodeBitmapBlocks : Nat
  inodeTableStart : Nat
  inodeTableBlocks : Nat
  dataStart : Nat
  rootInode : Nat
  deriving DecidableEq, Repr

/-- The zeroed superblock of an unmounted volume (`clear_superblock`). -/
def Superblock.clear : Superblock := ⟨0, 0, 0, 0, 0, 0, 0, 0, 0, 0⟩

/-- One bit of `superblock_crc32`. -/
def crcBit (crc : UInt32) : UInt32 := (crc >>> 1) ^^^ (0xEDB88320 &&& (0 - (crc &&& 1)))

/-- One byte of `superblock_crc32`: the byte is joined, then eight bits are shifted out. -/
def crcByte (crc : UInt32) (value : UInt8) : UInt32 := Nat.repeat crcBit 8 (crc ^^^ value.toUInt32)

/-- `superblock_crc32`: the checksum field counts as zero. -/
def superblockCrc32 (block : Block) : UInt32 :=
  ~~~((List.range 4096).foldl
    (fun crc index => crcByte crc (if 52 ≤ index ∧ index < 56 then 0 else block.byte index))
    0xFFFFFFFF)

/-- `superblock_reserved_zero`. -/
def superblockReservedZero (block : Block) : Bool :=
  (List.range' 56 4040).all fun index => block.byte index == 0

/-- `decode_superblock` on a volume of `volumeBlocks` blocks (`MINIFS_VOLUME_BLOCK_COUNT`). Sums
are 32-bit ones, as the source's checks against wrapping have it. -/
def decodeSuperblock (volumeBlocks : Nat) (block : Block) : Option Superblock :=
  if readLe32 (block.ptr 0) ≠ 0x3153464D ∨ readLe32 (block.ptr 4) ≠ 1 ∨
      readLe32 (block.ptr 8) ≠ 4096 ∨
      readLe32 (block.ptr 52) ≠ (superblockCrc32 block).toNat ∨
      ¬ superblockReservedZero block then none else
  let totalBlocks := readLe32 (block.ptr 12)
  let totalInodes := readLe32 (block.ptr 16)
  if totalBlocks ≠ volumeBlocks ∨ totalInodes = 0 ∨ totalInodes > 0xFFFFFFFF / 64 then none else
  let blockBitmapBlocks := divideRoundUp totalBlocks 32768
  let inodeBitmapBlocks := divideRoundUp totalInodes 32768
  let inodeBytes := totalInodes * 64
  let inodeTableBlocks := divideRoundUp inodeBytes 4096
  let inodeBitmapStart := (1 + blockBitmapBlocks) % 2 ^ 32
  if inodeBitmapStart < blockBitmapBlocks then none else
  let inodeTableStart := (inodeBitmapStart + inodeBitmapBlocks) % 2 ^ 32
  if inodeTableStart < inodeBitmapStart then none else
  let dataStart := (inodeTableStart + inodeTableBlocks) % 2 ^ 32
  if dataStart < inodeTableStart ∨ dataStart ≥ totalBlocks ∨
      readLe32 (block.ptr 20) ≠ 1 ∨ readLe32 (block.ptr 24) ≠ blockBitmapBlocks ∨
      readLe32 (block.ptr 28) ≠ inodeBitmapStart ∨ readLe32 (block.ptr 32) ≠ inodeBitmapBlocks ∨
      readLe32 (block.ptr 36) ≠ inodeTableStart ∨ readLe32 (block.ptr 40) ≠ inodeTableBlocks ∨
      readLe32 (block.ptr 44) ≠ dataStart ∨ readLe32 (block.ptr 48) ≥ totalInodes then none else
  some ⟨totalBlocks, totalInodes, 1, blockBitmapBlocks, inodeBitmapStart, inodeBitmapBlocks,
    inodeTableStart, inodeTableBlocks, dataStart, readLe32 (block.ptr 48)⟩

/-- The layout of the regions of a volume: each follows the one before it, and the bitmaps and the
table have room for what they describe. -/
structure Superblock.Geometry (sb : Superblock) : Prop where
  blockBitmapStart : sb.blockBitmapStart = 1
  inodeBitmapStart : sb.inodeBitmapStart = 1 + sb.blockBitmapBlocks
  inodeTableStart : sb.inodeTableStart = sb.inodeBitmapStart + sb.inodeBitmapBlocks
  dataStart : sb.dataStart = sb.inodeTableStart + sb.inodeTableBlocks
  blockBitmapBlocks : sb.blockBitmapBlocks = divideRoundUp sb.totalBlocks 32768
  inodeBitmapBlocks : sb.inodeBitmapBlocks = divideRoundUp sb.totalInodes 32768
  inodeTableBlocks : sb.inodeTableBlocks = divideRoundUp (sb.totalInodes * 64) 4096
  dataStart_lt : sb.dataStart < sb.totalBlocks
  totalBlocks_lt : sb.totalBlocks < 2 ^ 32
  rootInode_lt : sb.rootInode < sb.totalInodes
  totalInodes_lt : sb.totalInodes < 2 ^ 32

variable {sb : Superblock}

/-- Block 0 is not a data block. -/
theorem Superblock.Geometry.dataStart_pos (h : sb.Geometry) : 0 < sb.dataStart := by
  have hstart := h.inodeBitmapStart
  have htable := h.inodeTableStart
  have hdata := h.dataStart
  omega

/-- What `decode_superblock` accepts has the geometry of a volume. -/
theorem decodeSuperblock_geometry {n : Nat}
    (h : decodeSuperblock n b = some sb) : sb.Geometry ∧ sb.totalBlocks = n := by
  have hb := readLe32_lt (b.ptr 12)
  have hi := readLe32_lt (b.ptr 16)
  unfold decodeSuperblock at h
  split at h
  · cases h
  dsimp only at h
  split at h
  · cases h
  next h1 =>
  split at h
  · cases h
  next h2 =>
  split at h
  · cases h
  next h3 =>
  split at h
  · cases h
  next h4 =>
  push Not at h1 h4
  simp only [Option.some.injEq] at h
  subst h
  -- no sum wraps: each is below the number of blocks, by the order the checks establish
  have hbb : divideRoundUp (readLe32 (b.ptr 12)) 32768 ≤ 2 ^ 17 := by
    unfold divideRoundUp; split <;> omega
  have hib : divideRoundUp (readLe32 (b.ptr 16)) 32768 ≤ 2 ^ 17 := by
    unfold divideRoundUp; split <;> omega
  have hit : divideRoundUp (readLe32 (b.ptr 16) * 64) 4096 ≤ 2 ^ 26 := by
    unfold divideRoundUp; split <;> omega
  refine ⟨⟨rfl, ?_, ?_, ?_, rfl, rfl, rfl, ?_, hb, ?_, hi⟩, h1.1⟩ <;> dsimp only <;> omega

/-! ## Inodes -/

instance neZero_direct : NeZero (10 : Nat) := ⟨by decide⟩

/-- An inode record: `struct minifs_inode` with the record's reserved word. -/
@[ext] structure Inode where
  mode : Nat
  linkCount : Nat
  size : Nat
  direct : Fin 10 → Nat
  indirect : Nat
  createdTick : Nat
  modifiedTick : Nat
  reserved : Nat
  deriving DecidableEq

namespace Inode

/-- The all-zero record. -/
def zero : Inode := ⟨0, 0, 0, fun _ => 0, 0, 0, 0, 0⟩

/-- `clear_inode`: an empty regular file with one link. -/
def clear : Inode := { zero with mode := 1, linkCount := 1 }

/-- The fields fit their widths on disk. -/
structure Fits (i : Inode) : Prop where
  mode : i.mode < 2 ^ 16
  linkCount : i.linkCount < 2 ^ 16
  size : i.size < 2 ^ 32
  direct : ∀ k, i.direct k < 2 ^ 32
  indirect : i.indirect < 2 ^ 32
  createdTick : i.createdTick < 2 ^ 32
  modifiedTick : i.modifiedTick < 2 ^ 32
  reserved : i.reserved = 0

/-- The fields of a 64-byte record. -/
def ofBytes (source : Bytes) : Inode where
  mode := readLe16 source
  linkCount := readLe16 (fun i => source (2 + i))
  size := readLe32 (fun i => source (4 + i))
  direct := fun k => readLe32 (fun i => source (8 + 4 * k.val + i))
  indirect := readLe32 (fun i => source (48 + i))
  createdTick := readLe32 (fun i => source (52 + i))
  modifiedTick := readLe32 (fun i => source (56 + i))
  reserved := readLe32 (fun i => source (60 + i))

/-- `inode->direct[k]`. -/
def directAt (inode : Inode) (k : Nat) : Nat := if h : k < 10 then inode.direct ⟨k, h⟩ else 0

end Inode

/-- `decode_inode`'s test of the fields it has read. -/
def Inode.valid (i : Inode) : Bool :=
  (i.mode == 1 || i.mode == 2) && i.linkCount != 0 && i.size ≤ 1034 * 4096 && i.reserved == 0 &&
    !(i.mode == 2 && (i.size == 0 || i.size % 64 != 0))

/-- `decode_inode`. -/
def decodeInode (source : Bytes) : Option Inode :=
  let i := Inode.ofBytes source
  if i.valid then some i else none

/-- `encode_inode(inode, &b[off])`. -/
def encodeInode (b : Block) (off : Nat) (inode : Inode) : Block :=
  let b := b.clearBytes off 64
  let b := b.writeLe16 off inode.mode
  let b := b.writeLe16 (off + 2) inode.linkCount
  let b := b.writeLe32 (off + 4) inode.size
  let b := b.writeWords (off + 8) (fun k => if h : k < 10 then inode.direct ⟨k, h⟩ else 0)
    (List.range 10)
  let b := b.writeLe32 (off + 48) inode.indirect
  let b := b.writeLe32 (off + 52) inode.createdTick
  b.writeLe32 (off + 56) inode.modifiedTick

/-- `inode_pointer_shape_valid`: exactly the pointers the size needs are set. -/
def inodePointerShapeValid (inode : Inode) : Bool :=
  let required := blocksOf inode.size
  let directRequired := min required 10
  (List.finRange 10).all (fun k =>
    !((k.val < directRequired && inode.direct k == 0) ||
      (k.val ≥ directRequired && inode.direct k != 0))) &&
    ((required > 10 && inode.indirect != 0) || (required ≤ 10 && inode.indirect == 0))

/-! ### Decoding inverts encoding -/

/-- A record is determined by its 64 bytes. -/
theorem Inode.ofBytes_congr {q : Bytes} (h : ∀ i < 64, p i = q i) :
    Inode.ofBytes p = Inode.ofBytes q := by
  ext k <;> simp only [Inode.ofBytes]
  · exact readLe16_congr fun i hi => h i (by omega)
  · exact readLe16_congr fun i hi => h _ (by omega)
  · exact readLe32_congr fun i hi => h _ (by omega)
  · exact readLe32_congr fun i hi => h _ (by omega)
  · exact readLe32_congr fun i hi => h _ (by omega)
  · exact readLe32_congr fun i hi => h _ (by omega)
  · exact readLe32_congr fun i hi => h _ (by omega)
  · exact readLe32_congr fun i hi => h _ (by omega)

variable {inode : Inode}

/-- The bytes outside a record stay as they were. -/
theorem byte_encodeInode {off i : Nat}
    (h : i < off ∨ off + 64 ≤ i) : (encodeInode b off inode).byte i = b.byte i := by
  simp only [encodeInode, Block.writeLe16, Block.writeLe32, Block.clearBytes]
  repeat rw [Block.byte_copyBytes_of_not_mem (by omega)]
  rw [Block.byte_writeWords (n := 10) (by simp) (by omega)]
  repeat rw [Block.byte_copyBytes_of_not_mem (by omega)]

/-- The record read back after it was encoded. -/
theorem ofBytes_encodeInode {off : Nat} (h : inode.Fits)
    (hoff : off + 64 ≤ 4096) : Inode.ofBytes ((encodeInode b off inode).ptr off) = inode := by
  have hp : ∀ (b : Block) (k : Nat), (fun i => b.ptr off (k + i)) = b.ptr (off + k) := by
    intro b k; funext i; simp [Nat.add_assoc]
  have hw : ∀ (b : Block) (k : Nat), (fun i => b.ptr off (8 + 4 * k + i)) =
      b.ptr (off + 8 + 4 * k) := by
    intro b k; funext i; simp [Nat.add_assoc]
  have hout : ∀ (b : Block) (p : Nat) (f : Nat → Nat), p + 4 ≤ off + 8 ∨ off + 48 ≤ p →
      readLe32 ((b.writeWords (off + 8) f (List.range 10)).ptr p) = readLe32 (b.ptr p) := by
    intro b p f hp
    refine readLe32_congr fun i hi => ?_
    rw [Block.ptr_apply, Block.ptr_apply, Block.byte_writeWords (n := 10) (by simp) (by omega)]
  have hout' : ∀ (b : Block) (p : Nat) (f : Nat → Nat), p + 2 ≤ off + 8 →
      readLe16 ((b.writeWords (off + 8) f (List.range 10)).ptr p) = readLe16 (b.ptr p) := by
    intro b p f hp
    refine readLe16_congr fun i hi => ?_
    rw [Block.ptr_apply, Block.ptr_apply, Block.byte_writeWords (n := 10) (by simp) (by omega)]
  ext k
  · simp only [Inode.ofBytes, encodeInode, Block.writeLe32]
    rw [Block.readLe16_copyBytes (by omega), Block.readLe16_copyBytes (by omega),
      Block.readLe16_copyBytes (by omega), hout' _ _ _ (by omega),
      Block.readLe16_copyBytes (by omega), Block.writeLe16, Block.readLe16_copyBytes (by omega),
      Block.readLe16_writeLe16 _ (by omega), Nat.mod_eq_of_lt h.mode]
  · simp only [Inode.ofBytes, encodeInode, Block.writeLe32, hp]
    rw [Block.readLe16_copyBytes (by omega), Block.readLe16_copyBytes (by omega),
      Block.readLe16_copyBytes (by omega), hout' _ _ _ (by omega),
      Block.readLe16_copyBytes (by omega),
      Block.readLe16_writeLe16 _ (by omega), Nat.mod_eq_of_lt h.linkCount]
  · simp only [Inode.ofBytes, encodeInode, hp]
    rw [Block.writeLe32, Block.readLe32_copyBytes (by omega), Block.writeLe32,
      Block.readLe32_copyBytes (by omega), Block.writeLe32, Block.readLe32_copyBytes (by omega),
      hout _ _ _ (by omega), Block.readLe32_writeLe32 _ (by omega), Nat.mod_eq_of_lt h.size]
  · simp only [Inode.ofBytes, encodeInode, hw]
    have hk := k.isLt
    rw [Block.writeLe32, Block.readLe32_copyBytes (by omega), Block.writeLe32,
      Block.readLe32_copyBytes (by omega), Block.writeLe32, Block.readLe32_copyBytes (by omega),
      Block.readLe32_writeWords (by omega), if_pos (by simp), dif_pos hk,
      Nat.mod_eq_of_lt (h.direct _)]
  · simp only [Inode.ofBytes, encodeInode, hp]
    rw [Block.writeLe32, Block.readLe32_copyBytes (by omega), Block.writeLe32,
      Block.readLe32_copyBytes (by omega), Block.readLe32_writeLe32 _ (by omega),
      Nat.mod_eq_of_lt h.indirect]
  · simp only [Inode.ofBytes, encodeInode, hp]
    rw [Block.writeLe32, Block.readLe32_copyBytes (by omega),
      Block.readLe32_writeLe32 _ (by omega), Nat.mod_eq_of_lt h.createdTick]
  · simp only [Inode.ofBytes, encodeInode, hp]
    rw [Block.readLe32_writeLe32 _ (by omega), Nat.mod_eq_of_lt h.modifiedTick]
  · -- the reserved word is only cleared
    rw [h.reserved]
    simp only [Inode.ofBytes, encodeInode, hp]
    refine readLe32_eq_zero.2 fun i hi => ?_
    simp only [Block.ptr_apply, Block.writeLe32, Block.writeLe16]
    rw [Block.byte_copyBytes_of_not_mem (by omega), Block.byte_copyBytes_of_not_mem (by omega),
      Block.byte_copyBytes_of_not_mem (by omega),
      Block.byte_writeWords (n := 10) (by simp) (by omega),
      Block.byte_copyBytes_of_not_mem (by omega), Block.byte_copyBytes_of_not_mem (by omega),
      Block.byte_copyBytes_of_not_mem (by omega), Block.clearBytes,
      Block.byte_copyBytes_of_mem (by omega) (by omega) (by omega)]

/-- A record determines its 64 bytes. -/
theorem Inode.ofBytes_inj {q : Bytes} : Inode.ofBytes p = Inode.ofBytes q ↔ ∀ i < 64, p i = q i := by
  refine ⟨fun h i hi => ?_, Inode.ofBytes_congr⟩
  have h' := fun f : Inode → Nat => congrArg f h
  have hm : readLe16 p = readLe16 q := h' Inode.mode
  have hl : readLe16 (fun i => p (2 + i)) = readLe16 fun i => q (2 + i) := h' Inode.linkCount
  have hd : ∀ k : Fin 10, readLe32 (fun i => p (8 + 4 * k.val + i)) = readLe32 fun i => q (8 + 4 * k.val + i) :=
    fun k => h' fun i => i.direct k
  have hw : ∀ k, k = 4 ∨ k = 48 ∨ k = 52 ∨ k = 56 ∨ k = 60 →
      readLe32 (fun i => p (k + i)) = readLe32 fun i => q (k + i) := by
    rintro k (rfl | rfl | rfl | rfl | rfl)
    exacts [h' Inode.size, h' Inode.indirect, h' Inode.createdTick, h' Inode.modifiedTick,
      h' Inode.reserved]
  rw [readLe16_inj] at hm hl
  simp only [readLe32_inj] at hd hw
  by_cases h1 : i < 2
  · exact hm i h1
  by_cases h2 : i < 4
  · simpa [show 2 + (i - 2) = i by omega] using hl (i - 2) (by omega)
  by_cases h3 : 8 ≤ i ∧ i < 48
  · simpa [show 8 + 4 * ((i - 8) / 4) + (i - 8) % 4 = i by omega] using
      hd ⟨(i - 8) / 4, by omega⟩ ((i - 8) % 4) (by omega)
  · simpa [show i / 4 * 4 + i % 4 = i by omega] using
      hw (i / 4 * 4) (by omega) (i % 4) (by omega)

/-- A record decodes to all zeros exactly when its bytes are zero. -/
theorem Inode.ofBytes_eq_zero : Inode.ofBytes p = Inode.zero ↔ ∀ i < 64, p i = 0 := by
  have hzero : Inode.ofBytes (fun _ => 0) = Inode.zero := by
    simp only [Inode.ofBytes, Inode.zero, readLe16_eq_zero.2 fun _ _ => rfl, readLe32_eq_zero.2 fun _ _ => rfl]
  rw [← hzero, Inode.ofBytes_inj]

/-- The fields of a record fit their widths. -/
theorem Inode.fits_ofBytes (h : (Inode.ofBytes p).reserved = 0) : (Inode.ofBytes p).Fits :=
  ⟨readLe16_lt p, readLe16_lt fun i => p (2 + i), readLe32_lt fun i => p (4 + i),
    fun k => readLe32_lt fun i => p (8 + 4 * k.val + i), readLe32_lt fun i => p (48 + i),
    readLe32_lt fun i => p (52 + i), readLe32_lt fun i => p (56 + i), h⟩

/-! ### What the kernel's checks say -/

/-- An inode that `decode_inode` and `inode_pointer_shape_valid` accept. -/
structure Inode.Ok (i : Inode) : Prop where
  mode : i.mode = 1 ∨ i.mode = 2
  linkCount : i.linkCount ≠ 0
  size_le : i.size ≤ 1034 * 4096
  reserved : i.reserved = 0
  dir_size : i.mode = 2 → i.size ≠ 0 ∧ i.size % 64 = 0
  direct : ∀ k : Fin 10, i.direct k ≠ 0 ↔ k.val < blocksOf i.size
  indirect : i.indirect ≠ 0 ↔ 10 < blocksOf i.size

variable {i : Inode}

theorem inodePointerShapeValid_iff : inodePointerShapeValid i = true ↔
    (∀ k : Fin 10, i.direct k ≠ 0 ↔ k.val < blocksOf i.size) ∧
      (i.indirect ≠ 0 ↔ 10 < blocksOf i.size) := by
  simp only [inodePointerShapeValid, Bool.and_eq_true, List.all_eq_true, List.mem_finRange,
    true_implies, Bool.or_eq_true, decide_eq_true_eq, bne_iff_ne, beq_iff_eq, Bool.not_eq_true',
    Bool.or_eq_false_iff, Bool.and_eq_false_iff, decide_eq_false_iff_not, bne_eq_false_iff_eq,
    beq_eq_false_iff_ne]
  refine and_congr (forall_congr' fun k => ?_) ?_
  · have := k.isLt
    constructor
    · rintro ⟨h1, h2⟩
      constructor
      · intro h; by_contra hk; rcases h2 with h2 | h2 <;> omega
      · intro h; rcases h1 with h1 | h1
        · omega
        · exact h1
    · intro h
      by_cases hk : k.val < blocksOf i.size
      · exact ⟨Or.inr (h.2 hk), Or.inl (by omega)⟩
      · exact ⟨Or.inl (by omega), Or.inr (by by_contra h'; exact hk (h.1 h'))⟩
  · constructor
    · rintro (⟨h1, h2⟩ | ⟨h1, h2⟩)
      · exact ⟨fun _ => h1, fun _ => h2⟩
      · exact ⟨fun h => absurd h2 h, fun h => absurd h1 (by omega)⟩
    · intro h
      by_cases hk : 10 < blocksOf i.size
      · exact Or.inl ⟨hk, h.2 hk⟩
      · exact Or.inr ⟨by omega, by by_contra h'; exact hk (h.1 h')⟩

theorem Inode.valid_iff : i.valid = true ↔
    (i.mode = 1 ∨ i.mode = 2) ∧ i.linkCount ≠ 0 ∧ i.size ≤ 1034 * 4096 ∧ i.reserved = 0 ∧
      (i.mode = 2 → i.size ≠ 0 ∧ i.size % 64 = 0) := by
  simp only [Inode.valid, Bool.and_eq_true, Bool.or_eq_true, beq_iff_eq, bne_iff_ne,
    decide_eq_true_eq, Bool.not_eq_true', Bool.and_eq_false_iff, Bool.or_eq_false_iff,
    beq_eq_false_iff_ne, bne_eq_false_iff_eq, and_assoc]
  refine and_congr_right fun _ => and_congr_right fun _ => and_congr_right fun _ =>
    and_congr_right fun _ => ?_
  rw [imp_iff_not_or]

/-- The two checks together are `Inode.Ok`. -/
theorem Inode.ok_iff : i.Ok ↔ i.valid = true ∧ inodePointerShapeValid i = true := by
  rw [Inode.valid_iff, inodePointerShapeValid_iff]
  constructor
  · rintro ⟨h1, h2, h3, h4, h5, h6, h7⟩
    exact ⟨⟨h1, h2, h3, h4, h5⟩, h6, h7⟩
  · rintro ⟨⟨h1, h2, h3, h4, h5⟩, h6, h7⟩
    exact ⟨h1, h2, h3, h4, h5, h6, h7⟩

end MiniOrange
