import MiniOrange.Fs.Volume
import MiniOrange.Logic.Check

/-!
# The host's codecs

`tools/minifs.py` writes out the on-disk format a second time, for the tools that build and check a
volume on the host. This module has its superblock, inode, entry and bitmap codecs, and the lemmas by
which they agree with the kernel's: the checksum is the kernel's (`zlibCrc32_eq`), what the kernel
decodes of a superblock is what the host decodes (`kernel_decodeSuperblock_eq_some`), and records and entries
written by the host read back (`ofBytes_encodeInode`, `ofBytes_encodeDirectoryEntry`).
-/

namespace MiniOrange

namespace Tools

open Check

/-! ## Errors -/

/-- Who has claimed a block, in the words of `fsck.py`. -/
inductive Owner where
  | metadata
  | direct (inode index : Nat)
  | indirect (inode : Nat)
  | pointer (inode index : Nat)
  deriving DecidableEq, Repr

/-- The reports of `minifs.fail`, with the values in the message. -/
inductive MiniFsError where
  /-- `struct.error`: a value does not fit its field. -/
  | packRange
  /-- "MiniFS 容量必须为正数" -/
  | capacityNotPositive
  /-- "MiniFS 容量不足以容纳元数据" -/
  | metadataTooLarge
  /-- "Superblock magic 无效" -/
  | magic
  /-- "Superblock version 不受支持" -/
  | version
  /-- "Superblock block_size 无效" -/
  | blockSize
  /-- "Superblock checksum 无效" -/
  | checksum
  /-- "Superblock 保留区域必须为 0" -/
  | superblockReserved
  /-- "最低版本仅支持 ASCII 目录名" -/
  | nameNotAscii (name : List UInt8)
  /-- "目录项无效" -/
  | entryInvalid (name : List UInt8)
  /-- "bitmap bit 越界" -/
  | bitmapRange
  /-- "Superblock total_blocks 与镜像布局不一致" -/
  | totalBlocks
  /-- "Superblock 元数据区域不连续或大小不足" -/
  | geometry
  /-- "Superblock total_inodes 无效" -/
  | totalInodes
  /-- "引用了非数据区域块" -/
  | notDataBlock (owner : Owner) (block : Nat)
  /-- "数据块被重复引用" -/
  | claimedTwice (block : Nat) (previous owner : Owner)
  /-- "引用的块未在 block bitmap 标记" -/
  | notMarked (owner : Owner) (block : Nat)
  /-- "未分配 inode 的磁盘记录非零" -/
  | freeRecord (inode : Nat)
  /-- "inode mode 无效" -/
  | mode (inode : Nat)
  /-- "inode link_count 或 reserved 无效" -/
  | linkCountOrReserved (inode : Nat)
  /-- "inode size 超过文件上限" -/
  | size (inode : Nat)
  /-- "目录 inode size 无效" -/
  | directorySize (inode : Nat)
  /-- "inode 缺少 direct" -/
  | missingDirect (inode index : Nat)
  /-- "inode 存在超出 size 的 direct" -/
  | strayDirect (inode index : Nat)
  /-- "inode 缺少 indirect 块" -/
  | missingIndirect (inode : Nat)
  /-- "inode indirect 为空" -/
  | missingPointer (inode index : Nat)
  /-- "inode 存在超出 size 的 indirect" -/
  | strayPointer (inode index : Nat)
  /-- "inode 存在不需要的 indirect 块" -/
  | strayIndirect (inode : Nat)
  /-- "root_inode 未分配" -/
  | rootNotAllocated
  /-- "root_inode 不是目录" -/
  | rootNotDirectory
  /-- "block bitmap 与块的所有权不一致" -/
  | bitmapMismatch (block : Nat)
  /-- "block bitmap 容量外尾部 bit 必须置 1" -/
  | blockTail
  /-- "inode bitmap 容量外尾部 bit 必须置 1" -/
  | inodeTail
  /-- "目录 inode 包含未终止或空名称" -/
  | nameNotTerminated (directory : Nat)
  /-- "目录 inode 的名称填充非零" -/
  | namePadding (directory : Nat)
  /-- "目录 inode 的名称包含斜杠" -/
  | nameSlash (directory : Nat)
  /-- "目录 inode 包含非 ASCII 初始名称" -/
  | entryNameNotAscii (directory : Nat)
  /-- "目录 inode 被多个父目录引用" -/
  | directoryTwice (directory : Nat)
  /-- "目录 inode 的空闲目录项非零" -/
  | unusedEntry (directory : Nat)
  /-- "目录 inode 包含无效 type" -/
  | entryType (directory : Nat)
  /-- "目录 inode 包含重复名称" -/
  | duplicateName (directory : Nat) (name : List UInt8)
  /-- "目录 inode 引用未分配 inode" -/
  | childNotAllocated (directory child : Nat)
  /-- "目录项 type 与 inode mode 不一致" -/
  | typeMismatch (name : List UInt8)
  /-- "目录 inode 的 . 项无效" -/
  | dot (directory : Nat)
  /-- "目录 inode 的 .. 项无效" -/
  | dotdot (directory : Nat)
  /-- "存在不可达 inode" -/
  | unreachable (missing : List Nat)
  /-- "inode link_count，目录引用数" -/
  | linkCount (inode linkCount references : Nat)
  /-- "MiniFS 数据块耗尽" -/
  | blocksExhausted
  /-- "MiniFS inode 耗尽" -/
  | inodesExhausted
  /-- "导入文件超过 MiniFS 一级间接块上限" -/
  | importTooLarge
  /-- "初始目录超过一个数据块" -/
  | directoryTooLarge
  /-- "初始文件数量超过 inode 容量" -/
  | tooManyImports
  /-- "最低版本仅支持 ASCII 目录名", of the name in an argument -/
  | importNameNotAscii (name : List Nat)
  /-- "导入参数必须使用 /bin/name=source" -/
  | importForm (value : List Nat)
  /-- "重复导入路径" -/
  | importTwice (destination : List Nat)
  /-- "无法安全打开导入源" and the other reports on a source that cannot be read -/
  | sourceUnreadable (source : List Nat)
  /-- "导入源大小超出 MiniFS 文件上限" -/
  | sourceSize (source : List Nat)
  /-- "/bin 导入源不是 ELF" -/
  | sourceNotElf (source : List Nat)
  /-- "至少需要导入一个 /bin 程序" -/
  | noImports
  /-- "/bin 初始目录项超过一个目录块" -/
  | importsTooMany
  deriving DecidableEq

/-! ## Packing -/

/-- One field of a `struct` format: little-endian, `width` bytes. -/
def pack (width value : Nat) : Except MiniFsError (List UInt8) := do
  failIf (value ≥ 2 ^ (8 * width)) .packRange
  return (List.range width).map (leByte value)

/-- Fields of one width, one after the other. -/
def packAll (width : Nat) : List Nat → Except MiniFsError (List UInt8)
  | [] => return []
  | value :: rest => do
    let bytes ← pack width value
    return bytes ++ (← packAll width rest)

/-- The bytes of a list, and zeros behind them. -/
def bytesOf (l : List UInt8) : Bytes := fun i => l.getD i 0

/-! ## The superblock -/

/-- `minifs.Superblock`. -/
structure Superblock extends MiniOrange.Superblock where
  magic : Nat
  version : Nat
  blockSize : Nat
  checksum : Nat
  deriving DecidableEq

/-- `blocks_for_bytes`. -/
def blocksForBytes (size unit : Nat) : Nat := (size + unit - 1) / unit

/-- `make_superblock`. -/
def makeSuperblock (totalBlocks totalInodes : Nat) : Except MiniFsError Superblock := do
  failIf (totalBlocks = 0 ∨ totalInodes = 0) .capacityNotPositive
  let blockBitmapBlocks := blocksForBytes totalBlocks (4096 * 8)
  let inodeBitmapBlocks := blocksForBytes totalInodes (4096 * 8)
  let inodeTableBlocks := blocksForBytes (totalInodes * 64) 4096
  let inodeBitmapStart := 1 + blockBitmapBlocks
  let inodeTableStart := inodeBitmapStart + inodeBitmapBlocks
  let dataStart := inodeTableStart + inodeTableBlocks
  failIf (dataStart ≥ totalBlocks) .metadataTooLarge
  return {
    magic := 0x3153464D
    version := 1
    blockSize := 4096
    totalBlocks
    totalInodes
    blockBitmapStart := 1
    blockBitmapBlocks
    inodeBitmapStart
    inodeBitmapBlocks
    inodeTableStart
    inodeTableBlocks
    dataStart
    rootInode := 0
    checksum := 0 }

/-- The fields of the superblock in the order of the header. -/
def Superblock.fields (value : Superblock) : List Nat :=
  [value.magic, value.version, value.blockSize, value.totalBlocks, value.totalInodes,
    value.blockBitmapStart, value.blockBitmapBlocks, value.inodeBitmapStart,
    value.inodeBitmapBlocks, value.inodeTableStart, value.inodeTableBlocks, value.dataStart,
    value.rootInode, value.checksum]

/-- One bit of the standard reflected CRC-32. -/
def crcShift (crc : UInt32) : UInt32 :=
  if crc &&& 1 = 1 then (crc >>> 1) ^^^ 0xEDB88320 else crc >>> 1

/-- `zlib.crc32`. -/
def zlibCrc32 (bytes : List UInt8) : UInt32 :=
  ~~~(bytes.foldl (fun crc byte => Nat.repeat crcShift 8 (crc ^^^ byte.toUInt32)) 0xFFFFFFFF)

/-- The bytes of a block. -/
def blockBytes (b : Block) : List UInt8 := (List.range 4096).map b.byte

/-- `encode_superblock`. -/
def encodeSuperblock (value : Superblock) : Except MiniFsError Block := do
  let header ← packAll 4 { value with checksum := 0 }.fields
  let block := Block.zero.copyBytes 0 (bytesOf header) 56
  let checksum := (zlibCrc32 (blockBytes block)).toNat
  return block.copyBytes 52 (leByte checksum) 4

/-- The fields of a header, as `SUPERBLOCK_HEADER` unpacks them. -/
def Superblock.unpack (block : Block) : Superblock where
  magic := readLe32 (block.ptr 0)
  version := readLe32 (block.ptr 4)
  blockSize := readLe32 (block.ptr 8)
  totalBlocks := readLe32 (block.ptr 12)
  totalInodes := readLe32 (block.ptr 16)
  blockBitmapStart := readLe32 (block.ptr 20)
  blockBitmapBlocks := readLe32 (block.ptr 24)
  inodeBitmapStart := readLe32 (block.ptr 28)
  inodeBitmapBlocks := readLe32 (block.ptr 32)
  inodeTableStart := readLe32 (block.ptr 36)
  inodeTableBlocks := readLe32 (block.ptr 40)
  dataStart := readLe32 (block.ptr 44)
  rootInode := readLe32 (block.ptr 48)
  checksum := readLe32 (block.ptr 52)

/-- `decode_superblock`. -/
def decodeSuperblock (block : Block) : Except MiniFsError Superblock := do
  let value := Superblock.unpack block
  failIf (value.magic ≠ 0x3153464D) .magic
  failIf (value.version ≠ 1) .version
  failIf (value.blockSize ≠ 4096) .blockSize
  let copy := block.copyBytes 52 (leByte 0) 4
  failIf ((zlibCrc32 (blockBytes copy)).toNat ≠ value.checksum) .checksum
  failIf (∃ i ∈ List.range' 56 4040, block.byte i ≠ 0) .superblockReserved
  return value

/-! ## Inodes, entries and bitmaps -/

/-- `encode_inode`. -/
def encodeInode (value : Inode) : Except MiniFsError (List UInt8) := do
  let short ← packAll 2 [value.mode, value.linkCount]
  let long ← packAll 4 ([value.size] ++ (List.finRange 10).map value.direct ++
    [value.indirect, value.createdTick, value.modifiedTick, value.reserved])
  return short ++ long

/-- `decode_inode`: the sixteen-bit fields, then the thirty-two-bit ones. -/
def decodeInode (payload : Bytes) : Inode where
  mode := readLe16 payload
  linkCount := readLe16 fun i => payload (2 + i)
  size := readLe32 fun i => payload (4 + i)
  direct k := readLe32 fun i => payload (8 + 4 * k.val + i)
  indirect := readLe32 fun i => payload (48 + i)
  createdTick := readLe32 fun i => payload (52 + i)
  modifiedTick := readLe32 fun i => payload (56 + i)
  reserved := readLe32 fun i => payload (60 + i)

/-- `encode_directory_entry`. -/
def encodeDirectoryEntry (inode entryType : Nat) (name : List UInt8) :
    Except MiniFsError (List UInt8) := do
  failIf (∃ x ∈ name, x > 0x7F) (.nameNotAscii name)
  failIf (name = [] ∨ name.length > 58 ∨ 0x2F ∈ name ∨ 0 ∈ name ∨ (entryType ≠ 1 ∧ entryType ≠ 2))
    (.entryInvalid name)
  let inode ← pack 4 inode
  let entryType ← pack 1 entryType
  return inode ++ entryType ++ (name ++ List.replicate (59 - name.length) 0)

/-- `bitmap_get` on a bitmap of `length` bytes. -/
def bitmapGet (payload : Bytes) (length bit : Nat) : Except MiniFsError Bool := do
  failIf (bit / 8 ≥ length) .bitmapRange
  return bitSet (payload (bit / 8)) (bit % 8)

/-! ## Agreement with the kernel -/

theorem blocksForBytes_eq {size unit : Nat} (hunit : 0 < unit) :
    blocksForBytes size unit = divideRoundUp size unit := by
  unfold blocksForBytes divideRoundUp
  split
  · next h => rw [h, Nat.zero_add, Nat.div_eq_of_lt (by omega)]
  · next h => rw [show size + unit - 1 = size - 1 + unit by omega, Nat.add_div_right _ hunit]

/-- One bit of the checksum. -/
theorem crcShift_eq (crc : UInt32) : crcShift crc = crcBit crc := by
  have hbit : crc &&& 1 = 0 ∨ crc &&& 1 = 1 := by
    have hnat : (crc &&& 1).toNat = crc.toNat % 2 := by
      rw [UInt32.toNat_and]
      exact Nat.and_one_is_mod _
    rcases Nat.mod_two_eq_zero_or_one crc.toNat with h | h
    · exact .inl (UInt32.toNat_inj.1 (hnat.trans h))
    · exact .inr (UInt32.toNat_inj.1 (hnat.trans h))
  unfold crcShift crcBit
  rcases hbit with h | h
  · rw [h]
    simp
  · rw [h, if_pos rfl]
    simp

/-- `superblock_crc32` is the CRC-32 of the block with the checksum field zero. -/
theorem zlibCrc32_eq (block : Block) :
    zlibCrc32 (blockBytes (block.copyBytes 52 (leByte 0) 4)) = superblockCrc32 block := by
  have hstep : crcShift = crcBit := funext crcShift_eq
  unfold zlibCrc32 superblockCrc32 blockBytes crcByte
  rw [List.foldl_map, hstep]
  refine congrArg _ (List.foldl_ext _ _ _ fun crc i hi => ?_)
  have hi : i < 4096 := List.mem_range.1 hi
  rw [Block.byte_copyBytes]
  by_cases hin : 52 ≤ i ∧ i < 56
  · rw [if_pos ⟨hin.1, hin.2, hi⟩, if_pos hin]
    simp [leByte]
  · rw [if_neg (by omega), if_neg hin]

/-- A block with the marks of a superblock: magic, version, block size, checksum and padding. -/
structure Headed (block : Block) : Prop where
  magic : readLe32 (block.ptr 0) = 0x3153464D
  version : readLe32 (block.ptr 4) = 1
  blockSize : readLe32 (block.ptr 8) = 4096
  checksum : readLe32 (block.ptr 52) = (superblockCrc32 block).toNat
  reserved : ∀ i, 56 ≤ i → i < 4096 → block.byte i = 0

variable {block : Block} {l : List UInt8} {values : List Nat}

theorem superblockReservedZero_iff :
    superblockReservedZero block = true ↔ ∀ i, 56 ≤ i → i < 4096 → block.byte i = 0 := by
  simp only [superblockReservedZero, List.all_eq_true, List.mem_range', beq_iff_eq]
  constructor
  · intro h i hi hi'
    exact h i ⟨i - 56, by omega, by omega⟩
  · rintro h i ⟨k, hk, rfl⟩
    exact h _ (by omega) (by omega)

/-- The host decodes what has the marks of a superblock. -/
theorem decodeSuperblock_eq_ok {value : Superblock} :
    decodeSuperblock block = .ok value ↔ Headed block ∧ Superblock.unpack block = value := by
  have hreserved : (¬ ∃ i ∈ List.range' 56 4040, block.byte i ≠ 0) ↔
      ∀ i, 56 ≤ i → i < 4096 → block.byte i = 0 := by
    rw [← superblockReservedZero_iff]
    simp [superblockReservedZero]
  unfold decodeSuperblock
  dsimp only
  simp only [failIf_bind_eq_ok, not_not, hreserved, zlibCrc32_eq, pure, Except.pure, Except.ok.injEq]
  constructor
  · rintro ⟨hmagic, hversion, hsize, hsum, hzero, rfl⟩
    exact ⟨⟨hmagic, hversion, hsize, hsum.symm, hzero⟩, rfl⟩
  · rintro ⟨h, rfl⟩
    exact ⟨h.magic, h.version, h.blockSize, h.checksum.symm, h.reserved, rfl⟩

/-- The kernel decodes what has the marks of a superblock and regions that fit the volume. -/
theorem kernel_decodeSuperblock_eq_some {volumeBlocks : Nat} {sb : MiniOrange.Superblock} :
    MiniOrange.decodeSuperblock volumeBlocks block = some sb ↔ Headed block ∧
      (Superblock.unpack block).toSuperblock = sb ∧ sb.totalBlocks = volumeBlocks ∧
      sb.totalInodes ≤ 0xFFFFFFFF / 64 ∧ sb.Geometry := by
  have hblocks := readLe32_lt (block.ptr 12)
  have hinodes := readLe32_lt (block.ptr 16)
  constructor
  · intro h
    obtain ⟨hgeo, htotal⟩ := decodeSuperblock_geometry h
    unfold MiniOrange.decodeSuperblock at h
    split at h
    · cases h
    next hhead =>
    dsimp only at h
    split at h
    · cases h
    next hcount =>
    split at h
    · cases h
    split at h
    · cases h
    split at h
    · cases h
    next hregions =>
    simp only [not_or, not_not, ne_eq, not_le, not_lt] at hhead hregions hcount
    obtain ⟨hmagic, hversion, hsize, hsum, hzero⟩ := hhead
    obtain ⟨-, -, h5, h6, h7, h8, h9, h10, h11, -⟩ := hregions
    obtain rfl := Option.some.inj h
    refine ⟨⟨hmagic, hversion, hsize, hsum, superblockReservedZero_iff.1 hzero⟩, ?_, htotal,
      hcount.2.2, hgeo⟩
    simp only [Superblock.unpack, h5, h6, h7, h8, h9, h10, h11]
  · rintro ⟨hhead, rfl, rfl, hcount, hgeo⟩
    have hpos : (Superblock.unpack block).totalInodes ≠ 0 := Nat.ne_of_gt (Nat.zero_lt_of_lt hgeo.rootInode_lt)
    have h1 : readLe32 (block.ptr 20) = 1 := hgeo.blockBitmapStart
    have h2 : readLe32 (block.ptr 24) = divideRoundUp (readLe32 (block.ptr 12)) 32768 :=
      hgeo.blockBitmapBlocks
    have h3 : readLe32 (block.ptr 28) = 1 + readLe32 (block.ptr 24) := hgeo.inodeBitmapStart
    have h4 : readLe32 (block.ptr 32) = divideRoundUp (readLe32 (block.ptr 16)) 32768 :=
      hgeo.inodeBitmapBlocks
    have h5 : readLe32 (block.ptr 36) = readLe32 (block.ptr 28) + readLe32 (block.ptr 32) :=
      hgeo.inodeTableStart
    have h6 : readLe32 (block.ptr 40) = divideRoundUp (readLe32 (block.ptr 16) * 64) 4096 :=
      hgeo.inodeTableBlocks
    have h7 : readLe32 (block.ptr 44) = readLe32 (block.ptr 36) + readLe32 (block.ptr 40) :=
      hgeo.dataStart
    have h8 : readLe32 (block.ptr 44) < readLe32 (block.ptr 12) := hgeo.dataStart_lt
    have h9 : readLe32 (block.ptr 48) < readLe32 (block.ptr 16) := hgeo.rootInode_lt
    have hcount : readLe32 (block.ptr 16) ≤ 0xFFFFFFFF / 64 := hcount
    have hpos : readLe32 (block.ptr 16) ≠ 0 := hpos
    unfold MiniOrange.decodeSuperblock
    -- no sum wraps, since the regions lie below the number of blocks
    rw [if_neg (by
      simp only [not_or, not_not, ne_eq]
      exact ⟨hhead.magic, hhead.version, hhead.blockSize, hhead.checksum,
        superblockReservedZero_iff.2 hhead.reserved⟩)]
    dsimp only
    rw [if_neg (by simp only [Superblock.unpack]; omega), ← h2, ← h4, ← h6]
    rw [Nat.mod_eq_of_lt (show 1 + readLe32 (block.ptr 24) < 2 ^ 32 by omega), ← h3]
    rw [if_neg (by omega), Nat.mod_eq_of_lt (show readLe32 (block.ptr 28) + readLe32 (block.ptr 32) <
      2 ^ 32 by omega), ← h5, if_neg (by omega), Nat.mod_eq_of_lt (show readLe32 (block.ptr 36) +
      readLe32 (block.ptr 40) < 2 ^ 32 by omega), ← h7, if_neg (by omega)]
    simp only [Superblock.unpack, h1]

/-! ## What is packed reads back -/

theorem pack_eq_ok {width value : Nat} :
    pack width value = .ok l ↔ value < 2 ^ (8 * width) ∧ l = (List.range width).map (leByte value) := by
  unfold pack
  rw [failIf_bind_eq_ok, not_le]
  exact and_congr_right fun _ => ⟨fun h => (Except.ok.inj h).symm, fun h => by rw [h]; rfl⟩

/-- Packed fields stand one after the other. -/
theorem packAll_eq_ok {width : Nat} :
    ∀ {l : List UInt8}, packAll width values = .ok l → l.length = width * values.length ∧
      ∀ k < values.length, values.getD k 0 < 2 ^ (8 * width) ∧
        ∀ i < width, l.getD (width * k + i) 0 = leByte (values.getD k 0) i := by
  induction values with
  | nil =>
    intro l h
    cases h
    exact ⟨rfl, fun k hk => absurd hk (Nat.not_lt_zero k)⟩
  | cons value rest ih =>
    intro l h
    rw [packAll, bind_eq_ok] at h
    obtain ⟨bytes, hbytes, h⟩ := h
    rw [bind_eq_ok] at h
    obtain ⟨tail, htail, h⟩ := h
    obtain ⟨hvalue, rfl⟩ := pack_eq_ok.1 hbytes
    obtain ⟨hlength, hfields⟩ := ih htail
    obtain rfl := Except.ok.inj h
    refine ⟨by simp [hlength, Nat.mul_succ, Nat.add_comm], fun k hk => ?_⟩
    cases k with
    | zero =>
      refine ⟨hvalue, fun i hi => ?_⟩
      rw [Nat.mul_zero, Nat.zero_add, List.getD_append _ _ _ _ (by simpa using hi)]
      simp [List.getD, hi]
    | succ k =>
      obtain ⟨hlt, hbyte⟩ := hfields k (by simpa using hk)
      refine ⟨hlt, fun i hi => ?_⟩
      rw [List.getD_append_right _ _ _ _ (by simp [Nat.mul_succ]; omega)]
      rw [List.length_map, List.length_range, Nat.mul_succ,
        show width * k + width + i - width = width * k + i by omega]
      exact hbyte i hi

/-- A packed word reads back. -/
theorem readLe32_packAll (h : packAll 4 values = .ok l) {k : Nat}
    (hk : k < values.length) {p : Bytes} (hp : ∀ i < 4, p i = bytesOf l (4 * k + i)) :
    readLe32 p = values.getD k 0 := by
  obtain ⟨hlt, hbyte⟩ := (packAll_eq_ok h).2 k hk
  rw [readLe32_leByte fun i hi => (hp i hi).trans (hbyte i hi), Nat.mod_eq_of_lt hlt]

/-- The record the host writes for an inode reads back. -/
theorem ofBytes_encodeInode {value : Inode} (h : encodeInode value = .ok l) :
    l.length = 64 ∧ Inode.ofBytes (bytesOf l) = value := by
  unfold encodeInode at h
  rw [bind_eq_ok] at h
  obtain ⟨short, hshort, h⟩ := h
  rw [bind_eq_ok] at h
  obtain ⟨long, hlong, h⟩ := h
  obtain rfl := Except.ok.inj h
  have hlength : short.length = 4 := (packAll_eq_ok hshort).1
  have hlength' : long.length = 60 := (packAll_eq_ok hlong).1
  -- the long fields begin behind the two short ones
  have hword : ∀ k offset, k < 15 → offset = 4 + 4 * k →
      readLe32 (fun i => bytesOf (short ++ long) (offset + i)) =
        ([value.size] ++ (List.finRange 10).map value.direct ++
          [value.indirect, value.createdTick, value.modifiedTick, value.reserved]).getD k 0 := by
    rintro k offset hk rfl
    refine readLe32_packAll hlong (by simpa using hk) fun i hi => ?_
    rw [bytesOf, bytesOf, List.getD_append_right _ _ _ _ (by omega), hlength]
    exact congrArg₂ _ (by omega) rfl
  have hhalf : ∀ k offset, k < 2 → offset = 2 * k →
      readLe16 (fun i => bytesOf (short ++ long) (offset + i)) =
        [value.mode, value.linkCount].getD k 0 := by
    rintro k offset hk rfl
    obtain ⟨hlt, hbyte⟩ := (packAll_eq_ok hshort).2 k hk
    rw [readLe16_leByte fun i hi => ?_, Nat.mod_eq_of_lt hlt]
    rw [bytesOf, List.getD_append _ _ _ _ (by omega)]
    exact hbyte i hi
  refine ⟨by rw [List.length_append, hlength, hlength'], ?_⟩
  ext k
  · have hmode := hhalf 0 0 (by decide) rfl
    simp only [Nat.zero_add] at hmode
    exact hmode
  · exact hhalf 1 2 (by decide) rfl
  · exact hword 0 4 (by decide) rfl
  · have hk := k.isLt
    refine (hword (k.val + 1) (8 + 4 * k.val) (by omega) (by omega)).trans ?_
    rw [List.append_assoc, List.getD_append_right _ _ _ _ (by simp), List.getD_append _ _ _ _ (by simp)]
    simp [List.getD]
  · exact hword 11 48 (by decide) rfl
  · exact hword 12 52 (by decide) rfl
  · exact hword 13 56 (by decide) rfl
  · exact hword 14 60 (by decide) rfl

/-- The entry the host writes reads back, and its name is one the kernel accepts. -/
theorem ofBytes_encodeDirectoryEntry {inode entryType : Nat} {name : List UInt8}
    (h : encodeDirectoryEntry inode entryType name = .ok l) :
    l.length = 64 ∧ Entry.ofBytes (bytesOf l) = Entry.of inode entryType name ∧
      Entry.GoodLabel name ∧ (entryType = 1 ∨ entryType = 2) := by
  unfold encodeDirectoryEntry at h
  rw [failIf_bind_eq_ok, failIf_bind_eq_ok, bind_eq_ok] at h
  obtain ⟨hascii, hvalid, number, hnumber, h⟩ := h
  rw [bind_eq_ok] at h
  obtain ⟨kind, hkind, h⟩ := h
  obtain ⟨hinode, rfl⟩ := pack_eq_ok.1 hnumber
  obtain ⟨-, rfl⟩ := pack_eq_ok.1 hkind
  obtain rfl := Except.ok.inj h
  simp only [not_or, not_and_or, not_not, not_lt] at hvalid
  obtain ⟨hne, hlength, hslash, hnul, htype⟩ := hvalid
  have hgood : Entry.GoodLabel name := by
    refine ⟨hne, hlength, fun x hx => ⟨fun h0 => hnul (h0 ▸ hx), ?_, fun hs => hslash (hs ▸ hx)⟩⟩
    have hle : ¬ x > 0x7F := fun hbig => hascii ⟨x, hx, hbig⟩
    exact UInt8.not_lt.1 hle
  refine ⟨by simp; omega, ?_, hgood, htype⟩
  ext1
  · refine Eq.trans (b := inode % 2 ^ 32) (readLe32_leByte fun i hi => ?_) (Nat.mod_eq_of_lt hinode)
    simp [bytesOf, List.getD, hi, List.getElem?_append]
  · have htype' : entryType < 256 := by omega
    simp [Entry.ofBytes, bytesOf, leByte, Entry.of, List.getD, List.getElem?_append, Nat.mod_eq_of_lt htype']
  · refine List.ext_getElem (by simp [Entry.ofBytes, Entry.of]; omega) fun i h1 h2 => ?_
    have hi : i < 59 := by simpa [Entry.ofBytes] using h1
    rw [← List.getD_eq_getElem _ 0 h1, ← List.getD_eq_getElem _ 0 h2, Entry.name_getD hi, bytesOf,
      List.getD_append_right _ _ _ _ (by simp), Entry.of]
    exact congrArg₂ _ (by simp) rfl

end Tools

end MiniOrange
