import MiniOrange.Fs.Machine

/-!
# The volume as bitmaps, inodes and data blocks

`Vol.ofDisk` reads a disk as the four regions a mounted superblock describes: the bits of the two
bitmaps, the inode records and the data blocks. Each is total, with a fixed value outside its region,
so that two disks that agree on every region are one volume. A write of one bit, one record or one
data block is then exactly an update of one of the four functions (`ofDisk_writeBlockBit`,
`ofDisk_writeInodeBit`, `ofDisk_writeInode`, `ofDisk_writeData`), because no block lies in two
regions.
-/

namespace MiniOrange

/-- Set or clear one bit of a bitmap block. -/
def Block.withBit (b : Block) (withinBlock : Nat) (value : Bool) : Block :=
  b.copyBytes (withinBlock / 8)
    (fun _ => MiniOrange.withBit (b.byte (withinBlock / 8)) (withinBlock % 8) value) 1

/-- Bit `k` of a bitmap block. -/
def Block.bit (b : Block) (k : Nat) : Bool := bitSet (b.byte (k / 8)) (k % 8)

variable {k : Nat} {value : Bool}

/-- Setting a bit of a block changes that bit only. -/
theorem Block.bit_withBit {b : Block} {j : Nat} (hk : k < 32768) :
    (b.withBit k value).bit j = if j = k then value else b.bit j := by
  unfold Block.bit Block.withBit
  rw [Block.byte_copyBytes]
  by_cases hbyte : j / 8 = k / 8
  · rw [if_pos (by omega), bitSet_withBit (by omega) (by omega), hbyte]
    by_cases hjk : j = k
    · rw [if_pos (by rw [hjk]), if_pos hjk]
    · rw [if_neg (by omega), if_neg hjk]
  · rw [if_neg (by omega), if_neg (by rintro rfl; exact hbyte rfl)]

/-- Bit `k` of the bitmap whose blocks start at `start`. -/
def regionBit (d : Disk) (start k : Nat) : Bool := (d (start + k / 32768)).bit (k % 32768)

/-- Bit `k` of a bitmap of `count` blocks, and none behind it. -/
theorem regionBit_congr {d d' : Disk} {start count : Nat} (h : ∀ k < count, d' (start + k) = d (start + k)) :
    (fun k => decide (k < count * 32768) && regionBit d' start k) =
      fun k => decide (k < count * 32768) && regionBit d start k := by
  funext k
  rcases Nat.lt_or_ge k (count * 32768) with hk | hk
  · simp only [regionBit, h (k / 32768) (by omega)]
  · simp only [decide_eq_false (Nat.not_lt.2 hk), Bool.false_and]

/-- Bit `k` of the bitmap at `start` gets a value, and no other bit of the disk changes. -/
def SetsBit (d d' : Disk) (start k : Nat) (value : Bool) : Prop :=
  ∀ b j, j < 32768 → (d' b).bit j = if b = start + k / 32768 ∧ j = k % 32768 then value else (d b).bit j

/-- A write of a block with one bit changed. -/
theorem setsBit_update (d : Disk) (start k : Nat) (value : Bool) : SetsBit d (Function.update d (start + k / 32768)
    ((d (start + k / 32768)).withBit (k % 32768) value)) start k value := by
  intro b j _
  by_cases hb : b = start + k / 32768
  · rw [hb, Function.update_self, Block.bit_withBit (Nat.mod_lt _ (by decide))]
    simp only [true_and]
  · rw [Function.update_of_ne hb, if_neg fun h => hb h.1]

theorem SetsBit.regionBit {d d' : Disk} {start : Nat} (h : SetsBit d d' start k value) (j : Nat) :
    regionBit d' start j = if j = k then value else regionBit d start j :=
  (h _ _ (Nat.mod_lt _ (by decide))).trans (if_congr (by omega) rfl rfl)

theorem regionBits_update {d : Disk} {start count : Nat} (hk : k < count * 32768) :
    (fun j => decide (j < count * 32768) && regionBit (Function.update d (start + k / 32768)
      ((d (start + k / 32768)).withBit (k % 32768) value)) start j) =
      Function.update (fun j => decide (j < count * 32768) && regionBit d start j) k value := by
  funext j
  rw [(setsBit_update d start k value).regionBit, Function.update_apply]
  split
  · next heq => rw [heq, decide_eq_true hk, Bool.true_and]
  · rfl

/-- A volume: what its regions hold. -/
@[ext] structure Vol where
  bmap : Nat → Bool
  imap : Nat → Bool
  ino : Nat → Inode
  data : Nat → Block

namespace Vol

/-- The volume with one bit of the block bitmap changed. -/
def setB (v : Vol) (k : Nat) (value : Bool) : Vol := { v with bmap := Function.update v.bmap k value }

/-- The volume with one bit of the inode bitmap changed. -/
def setI (v : Vol) (k : Nat) (value : Bool) : Vol := { v with imap := Function.update v.imap k value }

/-- The volume with one inode record changed. -/
def setIno (v : Vol) (n : Nat) (inode : Inode) : Vol :=
  { v with ino := Function.update v.ino n inode }

/-- The volume with one data block changed. -/
def setData (v : Vol) (b : Nat) (block : Block) : Vol :=
  { v with data := Function.update v.data b block }

/-- The volume on a disk, by the regions of the superblock. -/
def ofDisk (sb : Superblock) (d : Disk) : Vol where
  bmap k := k < sb.blockBitmapBlocks * 32768 && (d (sb.blockBitmapStart + k / 32768)).bit (k % 32768)
  imap k := k < sb.inodeBitmapBlocks * 32768 && (d (sb.inodeBitmapStart + k / 32768)).bit (k % 32768)
  ino n := if n < sb.inodeTableBlocks * 64 then
    Inode.ofBytes ((d (sb.inodeTableStart + n / 64)).ptr (n % 64 * 64)) else .zero
  data b := if sb.dataStart ≤ b ∧ b < sb.totalBlocks then d b else .zero

/-! ## Agreement by region -/

section
variable {sb : Superblock} {d d' : Disk}

/-- The block bitmap depends on its own blocks. -/
theorem bmap_congr (h : ∀ k < sb.blockBitmapBlocks,
    d' (sb.blockBitmapStart + k) = d (sb.blockBitmapStart + k)) :
    (ofDisk sb d').bmap = (ofDisk sb d).bmap := regionBit_congr h

/-- The inode bitmap depends on its own blocks. -/
theorem imap_congr (h : ∀ k < sb.inodeBitmapBlocks,
    d' (sb.inodeBitmapStart + k) = d (sb.inodeBitmapStart + k)) :
    (ofDisk sb d').imap = (ofDisk sb d).imap := regionBit_congr h

/-- The inode records depend on the inode table. -/
theorem ino_congr (h : ∀ k < sb.inodeTableBlocks,
    d' (sb.inodeTableStart + k) = d (sb.inodeTableStart + k)) :
    (ofDisk sb d').ino = (ofDisk sb d).ino := by
  funext n
  rcases Nat.lt_or_ge n (sb.inodeTableBlocks * 64) with hn | hn
  · simp only [ofDisk, h (n / 64) (by omega)]
  · simp only [ofDisk, if_neg (Nat.not_lt.2 hn)]

/-- The data depends on the data blocks. -/
theorem data_congr (h : ∀ b, sb.dataStart ≤ b → b < sb.totalBlocks → d' b = d b) :
    (ofDisk sb d').data = (ofDisk sb d).data := by
  funext b
  by_cases hb : sb.dataStart ≤ b ∧ b < sb.totalBlocks
  · simp only [ofDisk, h b hb.1 hb.2]
  · simp only [ofDisk, if_neg hb]

/-! ## One write is one update -/

/-- Writing one bit of the block bitmap. -/
theorem ofDisk_writeBlockBit (hg : sb.Geometry) (hk : k < sb.blockBitmapBlocks * 32768) :
    ofDisk sb (Function.update d (sb.blockBitmapStart + k / 32768)
      ((d (sb.blockBitmapStart + k / 32768)).withBit (k % 32768) value)) =
      (ofDisk sb d).setB k value := by
  obtain ⟨h1, h2, h3, h4, -⟩ := hg
  have hq : k / 32768 < sb.blockBitmapBlocks := by omega
  -- the written block is in no other region
  exact Vol.ext (regionBits_update hk) (imap_congr fun j hj => Function.update_of_ne (by omega) _ _)
    (ino_congr fun j hj => Function.update_of_ne (by omega) _ _)
    (data_congr fun b hb _ => Function.update_of_ne (by omega) _ _)

/-- Writing one bit of the inode bitmap. -/
theorem ofDisk_writeInodeBit (hg : sb.Geometry) (hk : k < sb.inodeBitmapBlocks * 32768) :
    ofDisk sb (Function.update d (sb.inodeBitmapStart + k / 32768)
      ((d (sb.inodeBitmapStart + k / 32768)).withBit (k % 32768) value)) =
      (ofDisk sb d).setI k value := by
  obtain ⟨h1, h2, h3, h4, -⟩ := hg
  have hq : k / 32768 < sb.inodeBitmapBlocks := by omega
  exact Vol.ext (bmap_congr fun j hj => Function.update_of_ne (by omega) _ _) (regionBits_update hk)
    (ino_congr fun j hj => Function.update_of_ne (by omega) _ _)
    (data_congr fun b hb _ => Function.update_of_ne (by omega) _ _)

variable {b n : Nat} {inode : Inode} {block : Block}

/-- Overwriting the record of inode `n` by bytes that read as `inode` and leave the rest of the
block. -/
theorem ofDisk_writeRecord (hg : sb.Geometry) (hn : n < sb.inodeTableBlocks * 64)
    (hin : Inode.ofBytes (block.ptr (n % 64 * 64)) = inode)
    (hout : ∀ i, i < n % 64 * 64 ∨ n % 64 * 64 + 64 ≤ i →
      block.byte i = (d (sb.inodeTableStart + n / 64)).byte i) :
    ofDisk sb (Function.update d (sb.inodeTableStart + n / 64) block) =
      (ofDisk sb d).setIno n inode := by
  obtain ⟨h1, h2, h3, h4, -⟩ := hg
  have hq : n / 64 < sb.inodeTableBlocks := by omega
  refine Vol.ext (bmap_congr fun j hj => Function.update_of_ne (by omega) _ _)
    (imap_congr fun j hj => Function.update_of_ne (by omega) _ _) ?_
    (data_congr fun b hb _ => Function.update_of_ne (by omega) _ _)
  funext m
  simp only [ofDisk, setIno, Function.update_apply]
  by_cases hmn : m = n
  · subst hmn
    rw [if_pos hn, if_pos rfl, if_pos rfl, hin]
  · rw [if_neg hmn]
    by_cases hblock : m / 64 = n / 64
    · have hsame : sb.inodeTableStart + m / 64 = sb.inodeTableStart + n / 64 := by rw [hblock]
      -- the two records are apart in the block
      have hrecord : Inode.ofBytes (block.ptr (m % 64 * 64)) =
          Inode.ofBytes ((d (sb.inodeTableStart + n / 64)).ptr (m % 64 * 64)) :=
        Inode.ofBytes_congr fun i hi => hout (m % 64 * 64 + i) (by omega)
      rw [if_pos hsame, hsame, hrecord]
    · have hother : sb.inodeTableStart + m / 64 ≠ sb.inodeTableStart + n / 64 := by omega
      rw [if_neg hother]

/-- Writing one inode record. -/
theorem ofDisk_writeInode (hg : sb.Geometry) (hn : n < sb.inodeTableBlocks * 64) (hfits : inode.Fits) :
    ofDisk sb (Function.update d (sb.inodeTableStart + n / 64)
      (encodeInode (d (sb.inodeTableStart + n / 64)) (n % 64 * 64) inode)) =
      (ofDisk sb d).setIno n inode :=
  ofDisk_writeRecord hg hn (ofBytes_encodeInode hfits (by omega)) fun _ hi => byte_encodeInode hi

/-- Clearing one inode record. -/
theorem ofDisk_clearInode (hg : sb.Geometry) (hn : n < sb.inodeTableBlocks * 64) :
    ofDisk sb (Function.update d (sb.inodeTableStart + n / 64)
      ((d (sb.inodeTableStart + n / 64)).clearBytes (n % 64 * 64) 64)) =
      (ofDisk sb d).setIno n .zero := by
  refine ofDisk_writeRecord hg hn (Inode.ofBytes_eq_zero.2 fun i hi => ?_) fun i hi => ?_
  · rw [Block.ptr_apply, Block.clearBytes,
      Block.byte_copyBytes_of_mem (by omega) (by omega) (by omega)]
  · rw [Block.clearBytes, Block.byte_copyBytes_of_not_mem hi]

/-- Writing one data block. -/
theorem ofDisk_writeData (hg : sb.Geometry) (hb : sb.dataStart ≤ b) (hb' : b < sb.totalBlocks) :
    ofDisk sb (Function.update d b block) = (ofDisk sb d).setData b block := by
  obtain ⟨h1, h2, h3, h4, -⟩ := hg
  refine Vol.ext (bmap_congr fun j hj => Function.update_of_ne (by omega) _ _)
    (imap_congr fun j hj => Function.update_of_ne (by omega) _ _)
    (ino_congr fun j hj => Function.update_of_ne (by omega) _ _) ?_
  funext c
  simp only [ofDisk, setData, Function.update_apply]
  by_cases hcb : c = b
  · rw [if_pos hcb, if_pos hcb, if_pos (by omega)]
  · rw [if_neg hcb, if_neg hcb]

/-- A data block as the volume has it. -/
theorem data_ofDisk (hb : sb.dataStart ≤ b) (hb' : b < sb.totalBlocks) :
    (ofDisk sb d).data b = d b := if_pos ⟨hb, hb'⟩

end

end Vol

end MiniOrange
