import MiniOrange.Tools.Image

/-!
# The codecs of the kernel and of the host tools

`kernel/fs/minifs.c` and `tools/minifs.py` write the same volumes with codecs of their own: the C code
places each field by hand, the tools pack them with `struct` formats, and the checksum and the regions
of the superblock are computed by different formulas. Both are compared through the records: a
superblock with its marks (`Headed`), an inode record and a directory entry each determine their bytes,
so two codecs that read the same record back have written the same bytes.
-/

namespace MiniOrange

namespace Tools

open Check

/-! ## The superblock -/

/-- `MINIFS_VOLUME_BLOCK_COUNT`: the sectors of the component `minifs` of `config/image-layout.json`, in
blocks of eight sectors. -/
def minifsVolumeBlockCount : Nat := 129024 / 8

/-- The fields of a superblock determine the whole block: the checksum is that of the other bytes. -/
theorem Headed.ext {block block' : Block} (h : Headed block) (h' : Headed block')
    (hfields : (Superblock.unpack block).toSuperblock = (Superblock.unpack block').toSuperblock) :
    block = block' := by
  have hf := fun f : MiniOrange.Superblock → Nat => congrArg f hfields
  have hword : ∀ k < 13, readLe32 (block.ptr (4 * k)) = readLe32 (block'.ptr (4 * k)) := by
    intro k hk
    interval_cases k
    exacts [h.magic.trans h'.magic.symm, h.version.trans h'.version.symm, h.blockSize.trans h'.blockSize.symm,
      hf (·.totalBlocks), hf (·.totalInodes), hf (·.blockBitmapStart), hf (·.blockBitmapBlocks),
      hf (·.inodeBitmapStart), hf (·.inodeBitmapBlocks), hf (·.inodeTableStart), hf (·.inodeTableBlocks),
      hf (·.dataStart), hf (·.rootInode)]
  have hheader : ∀ i < 52, block.byte i = block'.byte i := by
    intro i hi
    have := readLe32_inj.1 (hword (i / 4) (by omega)) (i % 4) (by omega)
    rwa [Block.ptr_apply, Block.ptr_apply, Nat.div_add_mod] at this
  have hout : ∀ i < 4096, ¬ (52 ≤ i ∧ i < 56) → block.byte i = block'.byte i := by
    intro i hi hin
    by_cases hlow : i < 52
    · exact hheader i hlow
    · rw [h.reserved i (by omega) hi, h'.reserved i (by omega) hi]
  have hcopy : block.copyBytes 52 (leByte 0) 4 = block'.copyBytes 52 (leByte 0) 4 := by
    refine Block.ext fun i hi => ?_
    rw [Block.byte_copyBytes, Block.byte_copyBytes]
    split
    · rfl
    · exact hout i hi (by omega)
  have hsum : readLe32 (block.ptr 52) = readLe32 (block'.ptr 52) := by
    rw [h.checksum, h'.checksum, ← zlibCrc32_eq, ← zlibCrc32_eq, hcopy]
  refine Block.ext fun i hi => ?_
  by_cases hin : 52 ≤ i ∧ i < 56
  · have := readLe32_inj.1 hsum (i - 52) (by omega)
    rwa [Block.ptr_apply, Block.ptr_apply, Nat.add_sub_cancel' hin.1] at this
  · exact hout i hi hin

/-- The superblock of a volume of up to a million blocks is one the kernel accepts. -/
theorem makeSuperblock_geometry {totalBlocks totalInodes : Nat} {value : Superblock}
    (h : makeSuperblock totalBlocks totalInodes = .ok value) (hblocks : totalBlocks ≤ 2 ^ 20) :
    value.toSuperblock.Geometry ∧ value.totalInodes ≤ 0xFFFFFFFF / 64 := by
  obtain ⟨rfl, rfl⟩ := makeSuperblock_totals h
  -- the table of inodes lies before the data
  have hinodes : value.totalInodes ≤ 0xFFFFFFFF / 64 := by
    have h' := h
    unfold makeSuperblock at h'
    obtain ⟨-, h'⟩ := failIf_bind_eq_ok.1 h'
    obtain ⟨hdata, -⟩ := failIf_bind_eq_ok.1 h'
    unfold blocksForBytes at hdata
    omega
  exact ⟨((geometry_iff (by omega) (by omega)).1 ⟨value, h, rfl⟩).1, hinodes⟩

/-- The kernel and the host tools agree on superblocks: the two checksums are one, the kernel reads
from what the tools write the regions that were written, and it accepts with root inode 0 only what the
tools write. -/
theorem superblock_codecs_agree :
    (∀ block, superblockCrc32 block = zlibCrc32 (blockBytes (block.copyBytes 52 (leByte 0) 4))) ∧
    (∀ totalInodes value, makeSuperblock minifsVolumeBlockCount totalInodes = .ok value →
      ∃ block, encodeSuperblock value = .ok block ∧
        MiniOrange.decodeSuperblock minifsVolumeBlockCount block = some value.toSuperblock) ∧
    ∀ block sb, MiniOrange.decodeSuperblock minifsVolumeBlockCount block = some sb → sb.rootInode = 0 →
      ∃ value, makeSuperblock minifsVolumeBlockCount sb.totalInodes = .ok value ∧
        encodeSuperblock value = .ok block := by
  have hwritten : ∀ totalInodes value, makeSuperblock minifsVolumeBlockCount totalInodes = .ok value →
      value.toSuperblock.Geometry ∧ value.totalInodes ≤ 0xFFFFFFFF / 64 ∧
        ∃ block, encodeSuperblock value = .ok block ∧ Headed block ∧
          (Superblock.unpack block).toSuperblock = value.toSuperblock := by
    intro totalInodes value h
    obtain ⟨hmagic, hversion, hsize⟩ := makeSuperblock_marks h
    obtain ⟨hgeo, hcount⟩ := makeSuperblock_geometry h (by decide)
    obtain ⟨block, hblock⟩ := exists_encodeSuperblock hgeo hmagic hversion hsize
    obtain ⟨hhead, hfields, -⟩ := encodeSuperblock_eq_ok hblock hmagic hversion hsize
    exact ⟨hgeo, hcount, block, hblock, hhead, hfields⟩
  refine ⟨fun block => (zlibCrc32_eq block).symm, fun totalInodes value h => ?_, fun block sb h hroot => ?_⟩
  · obtain ⟨hgeo, hcount, block, hblock, hhead, hfields⟩ := hwritten totalInodes value h
    exact ⟨block, hblock, kernel_decodeSuperblock_eq_some.2 ⟨hhead, hfields, (makeSuperblock_totals h).1, hcount, hgeo⟩⟩
  · obtain ⟨hhead, rfl, htotal, -, hgeo⟩ := kernel_decodeSuperblock_eq_some.1 h
    obtain ⟨value, hvalue, hregions⟩ := (geometry_iff hgeo.totalBlocks_lt hgeo.totalInodes_lt).2 ⟨hgeo, hroot⟩
    rw [htotal] at hvalue
    obtain ⟨-, -, block', hblock', hhead', hfields'⟩ := hwritten _ value hvalue
    refine ⟨value, hvalue, ?_⟩
    rw [hblock', hhead.ext hhead' ?_]
    obtain ⟨hblocks, hinodes⟩ := makeSuperblock_totals hvalue
    simp only [Checker.geometryOf, List.cons.injEq, and_true] at hregions
    obtain ⟨h1, h2, h3, h4, h5, h6, h7, h8⟩ := hregions
    rw [hfields']
    cases hu : (Superblock.unpack block).toSuperblock
    cases hv : value.toSuperblock
    simp_all

/-- The superblock of a volume with 1024 inodes, there and back. -/
theorem superblock_codecs_agree_1024 : ∃ value block,
    makeSuperblock minifsVolumeBlockCount 1024 = .ok value ∧ encodeSuperblock value = .ok block ∧
      MiniOrange.decodeSuperblock minifsVolumeBlockCount block = some value.toSuperblock ∧
      value.rootInode = 0 ∧ ∃ value', makeSuperblock minifsVolumeBlockCount value.totalInodes = .ok value' ∧
        encodeSuperblock value' = .ok block := by
  have hmake : makeSuperblock minifsVolumeBlockCount 1024 = .ok _ := rfl
  obtain ⟨block, hblock, hdecode⟩ := superblock_codecs_agree.2.1 1024 _ hmake
  exact ⟨_, block, hmake, hblock, hdecode, rfl, superblock_codecs_agree.2.2 block _ hdecode rfl⟩

/-! ## Inodes and directory entries -/

/-- A record the kernel can write: the fields of a `struct minifs_inode` that `decode_inode` lets pass. -/
structure Writable (inode : Inode) : Prop where
  fits : inode.Fits
  mode : inode.mode = 1 ∨ inode.mode = 2
  linkCount : 1 ≤ inode.linkCount
  size_le : inode.size ≤ 1034 * 4096
  directory : inode.mode = 2 → 0 < inode.size ∧ inode.size % 64 = 0

variable {inode : Inode} {source : Bytes} {b : Block} {off : Nat}

theorem decodeInode_eq_some : MiniOrange.decodeInode source = some inode ↔
    Inode.ofBytes source = inode ∧ Writable inode := by
  unfold MiniOrange.decodeInode
  rw [Option.ite_none_right_eq_some, Option.some.injEq, and_comm]
  refine and_congr_right fun h => ?_
  subst h
  rw [Inode.valid_iff]
  constructor
  · rintro ⟨hmode, hlinks, hsize, hreserved, hdir⟩
    exact ⟨Inode.fits_ofBytes hreserved, hmode, Nat.pos_of_ne_zero hlinks, hsize,
      fun h => ⟨Nat.pos_of_ne_zero (hdir h).1, (hdir h).2⟩⟩
  · rintro ⟨hfits, hmode, hlinks, hsize, hdir⟩
    exact ⟨hmode, Nat.ne_of_gt hlinks, hsize, hfits.reserved, fun h => ⟨Nat.ne_of_gt (hdir h).1, (hdir h).2⟩⟩

/-- A record read from 64 bytes is encoded as these bytes, by the kernel and by the tools. -/
theorem encodeInode_of_ofBytes (h : Inode.ofBytes source = inode) (hfits : inode.Fits) (hoff : off + 64 ≤ 4096) :
    (∀ i < 64, (MiniOrange.encodeInode b off inode).byte (off + i) = source i) ∧
      ∃ l, encodeInode inode = .ok l ∧ l.length = 64 ∧ ∀ i < 64, l.getD i 0 = source i := by
  obtain ⟨l, hl⟩ := exists_encodeInode hfits
  obtain ⟨hlength, hread⟩ := ofBytes_encodeInode hl
  exact ⟨Inode.ofBytes_inj.1 ((MiniOrange.ofBytes_encodeInode hfits hoff).trans h.symm), l, hl, hlength,
    Inode.ofBytes_inj.1 (hread.trans h.symm)⟩

/-- The entry of a good name, by the kernel and by the tools. -/
theorem encodeDirectoryEntry_agree {child type : Nat} {name : List UInt8} (hchild : child < 2 ^ 32)
    (htype : type = 1 ∨ type = 2) (hname : Entry.GoodLabel name) :
    ∃ l, encodeDirectoryEntry child type name = .ok l ∧ l.length = 64 ∧
      ∀ i < 64, MiniOrange.encodeDirectoryEntry child type name i = l.getD i 0 := by
  obtain ⟨l, hl⟩ := exists_encodeDirectoryEntry hname htype hchild
  obtain ⟨hlength, hread, -⟩ := ofBytes_encodeDirectoryEntry hl
  have hkernel := Entry.ofBytes_encodeDirectoryEntry hchild (show type < 256 by omega)
    (Nat.le_succ_of_le hname.length_le)
  exact ⟨l, hl, hlength, Entry.ofBytes_inj.1 (hkernel.trans hread.symm)⟩

/-- The kernel and the host tools agree on inode records and on directory entries, and the kernel's
checks of a name field accept the written name and no other. -/
theorem record_codecs_agree :
    (∀ inode b off, Writable inode → off + 64 ≤ 4096 →
      MiniOrange.decodeInode ((MiniOrange.encodeInode b off inode).ptr off) = some inode ∧
      ∃ l, encodeInode inode = .ok l ∧ l.length = 64 ∧ decodeInode (bytesOf l) = inode ∧
        ∀ i < 64, (MiniOrange.encodeInode b off inode).byte (off + i) = l.getD i 0) ∧
    (∀ source inode b off, MiniOrange.decodeInode source = some inode → off + 64 ≤ 4096 →
      Writable inode ∧ decodeInode source = inode ∧
      (∀ i < 64, (MiniOrange.encodeInode b off inode).byte (off + i) = source i) ∧
      ∃ l, encodeInode inode = .ok l ∧ l.length = 64 ∧ ∀ i < 64, l.getD i 0 = source i) ∧
    ∀ child type name, child < 2 ^ 32 → (type = 1 ∨ type = 2) → Entry.GoodLabel name →
      let field : Bytes := fun i => MiniOrange.encodeDirectoryEntry child type name (5 + i)
      (∃ l, encodeDirectoryEntry child type name = .ok l ∧ l.length = 64 ∧
        ∀ i < 64, MiniOrange.encodeDirectoryEntry child type name i = l.getD i 0) ∧
      directoryNameValid field = true ∧
      ∀ component : List UInt8, (∀ x ∈ component, x ≠ 0) →
        (directoryNameEqual field component = true ↔ component = name) := by
  refine ⟨fun inode b off h hoff => ?_, fun source inode b off h hoff => ?_,
    fun child type name hchild htype hname => ?_⟩
  · have hread := MiniOrange.ofBytes_encodeInode (b := b) h.fits hoff
    obtain ⟨-, l, hl, hlength, hbytes⟩ := encodeInode_of_ofBytes (b := b) hread h.fits hoff
    exact ⟨decodeInode_eq_some.2 ⟨hread, h⟩, l, hl, hlength, (ofBytes_encodeInode hl).2, fun i hi => (hbytes i hi).symm⟩
  · obtain ⟨hread, hw⟩ := decodeInode_eq_some.1 h
    exact ⟨hw, hread, encodeInode_of_ofBytes hread hw.fits hoff⟩
  · have hfield : ∀ i < 59, MiniOrange.encodeDirectoryEntry child type name (5 + i) = name.getD i 0 := by
      intro i _
      rw [MiniOrange.encodeDirectoryEntry, if_neg (by omega), if_neg (by omega), Nat.add_sub_cancel_left]
    exact ⟨encodeDirectoryEntry_agree hchild htype hname, directoryNameValid_iff.2 ⟨name, hname, hfield⟩,
      fun component hc => directoryNameEqual_iff hname hfield hc⟩

/-- An empty file at the start of a block, its record read back, and the entry of the name `a`. -/
theorem record_codecs_agree_a :
    MiniOrange.decodeInode ((MiniOrange.encodeInode Block.zero 0 Inode.clear).ptr 0) = some Inode.clear ∧
    (∀ i < 64, (MiniOrange.encodeInode Block.zero 64 Inode.clear).byte (64 + i) =
      (MiniOrange.encodeInode Block.zero 0 Inode.clear).ptr 0 i) ∧
    directoryNameEqual (fun i => MiniOrange.encodeDirectoryEntry 2 1 [0x61] (5 + i)) [0x61] = true := by
  have hw : Writable Inode.clear :=
    ⟨⟨by decide, by decide, by decide, by decide, by decide, by decide, by decide, rfl⟩, .inl rfl, by decide,
      by decide, nofun⟩
  have hname : Entry.GoodLabel [0x61] := by decide
  have hdecode := (record_codecs_agree.1 Inode.clear Block.zero 0 hw (by decide)).1
  exact ⟨hdecode, (record_codecs_agree.2.1 _ _ Block.zero 64 hdecode (by decide)).2.2.1,
    ((record_codecs_agree.2.2 2 1 [0x61] (by decide) (.inl rfl) hname).2.2 [0x61] (by simp)).2 rfl⟩

end Tools

end MiniOrange
