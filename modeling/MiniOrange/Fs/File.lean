import MiniOrange.Fs.Lookup

/-!
# Files: the blocks an inode owns and the bytes it holds

An inode reaches its blocks through slots: one for each block of the file, and one for the indirect
block. `Vol.Owns` says of a set of inodes that each is allocated and well formed, that every slot
its size needs holds an allocated data block, and that no block is in two slots. On such inodes
`inode_block_at` succeeds and returns the block of the slot (`Owns.inodeBlockAt`).
-/

namespace MiniOrange

/-- Where an inode keeps a block. -/
inductive Slot where
  | data (k : Nat)
  | indirect
  deriving DecidableEq

/-- The slots an inode needs for its size. -/
def Inode.Needs (i : Inode) : Slot → Prop
  | .data k => k < blocksOf i.size
  | .indirect => 10 < blocksOf i.size

namespace Vol

/-- Block `k` of a file. -/
def fileBlock (v : Vol) (n k : Nat) : Nat :=
  if k < 10 then (v.ino n).directAt k else (v.data (v.ino n).indirect).pointer (k - 10)

/-- The block in a slot of an inode. -/
def slotBlock (v : Vol) (n : Nat) : Slot → Nat
  | .data k => v.fileBlock n k
  | .indirect => (v.ino n).indirect

/-- Byte `offset` of a file. -/
def byteAt (v : Vol) (n offset : Nat) : UInt8 :=
  (v.data (v.fileBlock n (offset / 4096))).byte (offset % 4096)

/-- The bytes of a file. -/
def content (v : Vol) (n : Nat) : List UInt8 := (List.range (v.ino n).size).map (v.byteAt n)

/-- The inodes of `L` are allocated and well formed, and own their blocks. -/
structure Owns (v : Vol) (sb : Superblock) (L : Finset Nat) : Prop where
  inode_lt : ∀ n ∈ L, n < sb.totalInodes
  allocated : ∀ n ∈ L, v.imap n = true
  ok : ∀ n ∈ L, (v.ino n).Ok
  block : ∀ n ∈ L, ∀ t, (v.ino n).Needs t → v.blockAllocated sb (v.slotBlock n t) = true
  exclusive : ∀ n ∈ L, ∀ m ∈ L, ∀ t u, (v.ino n).Needs t → (v.ino m).Needs u →
    v.slotBlock n t = v.slotBlock m u → n = m ∧ t = u

variable {v : Vol} {sb : Superblock} {L : Finset Nat} {n k : Nat}

namespace Owns

theorem empty (v : Vol) (sb : Superblock) : v.Owns sb ∅ := by
  constructor
  all_goals exact fun n hn => absurd hn (Finset.notMem_empty n)

variable (h : v.Owns sb L)
include h

/-- An owned inode is read back. -/
theorem readInode (hn : n ∈ L) : v.readInode sb n = .ok (v.ino n) :=
  readInode_eq_ok.2 ⟨h.inode_lt n hn, h.allocated n hn, h.ok n hn, rfl⟩

/-- A file has at most 1034 blocks. -/
theorem blocks_le (hn : n ∈ L) : blocksOf (v.ino n).size ≤ 1034 :=
  blocksOf_le.2 (h.ok n hn).size_le

/-- The block in a needed slot is a data block. -/
theorem slot_valid (hn : n ∈ L) {t : Slot} (ht : (v.ino n).Needs t) :
    sb.dataStart ≤ v.slotBlock n t ∧ v.slotBlock n t < sb.totalBlocks :=
  dataBlockValid_iff.1 (Bool.and_eq_true _ _ ▸ h.block n hn t ht).1

/-- The block in a needed slot is marked. -/
theorem slot_marked (hn : n ∈ L) {t : Slot} (ht : (v.ino n).Needs t) :
    v.bmap (v.slotBlock n t) = true := (Bool.and_eq_true _ _ ▸ h.block n hn t ht).2

/-- `inode_block_at` returns the block of the slot. -/
theorem inodeBlockAt (hn : n ∈ L) (hk : k < blocksOf (v.ino n).size) :
    v.inodeBlockAt sb (v.ino n) k = .ok (v.fileBlock n k) := by
  have hle := h.blocks_le hn
  have hdata := h.block n hn (.data k) hk
  unfold Vol.inodeBlockAt
  rw [if_neg (Nat.not_le.2 hk)]
  simp only [slotBlock, fileBlock] at hdata ⊢
  rcases Nat.lt_or_ge k 10 with hdirect | hindirect
  · rw [if_pos hdirect] at hdata ⊢
    rw [if_pos hdirect, if_pos hdata]
  · rw [if_neg (Nat.not_lt.2 hindirect)] at hdata ⊢
    have hptr := h.block n hn .indirect (show 10 < blocksOf (v.ino n).size by omega)
    simp only [slotBlock] at hptr
    rw [if_neg (Nat.not_lt.2 hindirect), hptr, if_neg (by simp), if_neg (by omega), if_pos hdata]

/-- Fewer inodes own their blocks too. -/
theorem mono {L' : Finset Nat} (hL : L' ⊆ L) : v.Owns sb L' where
  inode_lt n hn := h.inode_lt n (hL hn)
  allocated n hn := h.allocated n (hL hn)
  ok n hn := h.ok n (hL hn)
  block n hn := h.block n (hL hn)
  exclusive n hn m hm := h.exclusive n (hL hn) m (hL hm)

end Owns

/-! ## What a file depends on -/

/-- Two volumes have the same file `n`: the same allocated record, and the same pointers in the
needed slots, to marked blocks. -/
structure SameFile (v v' : Vol) (n : Nat) : Prop where
  imap : v'.imap n = v.imap n
  ino : v'.ino n = v.ino n
  slot : ∀ t, (v.ino n).Needs t → v'.slotBlock n t = v.slotBlock n t
  marked : ∀ t, (v.ino n).Needs t → v'.bmap (v.slotBlock n t) = v.bmap (v.slotBlock n t)

/-- Ownership depends only on the files of the set. -/
theorem Owns.congr {v' : Vol} (h : v.Owns sb L) (hsame : ∀ n ∈ L, SameFile v v' n) :
    v'.Owns sb L where
  inode_lt := h.inode_lt
  allocated n hn := by rw [(hsame n hn).imap]; exact h.allocated n hn
  ok n hn := by rw [(hsame n hn).ino]; exact h.ok n hn
  block n hn t ht := by
    rw [(hsame n hn).ino] at ht
    have hblock := h.block n hn t ht
    rw [(hsame n hn).slot t ht]
    unfold Vol.blockAllocated at hblock ⊢
    rw [(hsame n hn).marked t ht]
    exact hblock
  exclusive n hn m hm t u ht hu heq := by
    rw [(hsame n hn).ino] at ht
    rw [(hsame m hm).ino] at hu
    rw [(hsame n hn).slot t ht, (hsame m hm).slot u hu] at heq
    exact h.exclusive n hn m hm t u ht hu heq

end Vol

end MiniOrange
