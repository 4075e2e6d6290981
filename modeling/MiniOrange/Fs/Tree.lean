import MiniOrange.Fs.File

/-!
# The directory tree

A directory is a file of entries. `Vol.Tree` says of a set of inodes that its directories form a
tree below the root: every entry is blank or names an inode of the set with its type, names in a
directory differ, `.` and `..` name the directory and its parent, a directory has one name, and a
child directory lies deeper than its parent. `Vol.Consistent` adds what makes a volume free
of leaks: the bitmaps mark exactly what is used, free records are zero, pointers past the size are
zero, every inode is named, and a link count is the number of entries that name the inode.
-/

namespace MiniOrange

namespace Vol

/-- Entry `j` of a directory. -/
def entry (v : Vol) (d j : Nat) : Entry :=
  Entry.ofBytes ((v.data (v.fileBlock d (j / 64))).ptr (j % 64 * 64))

/-- The number of entries of a directory. -/
def entryCount (v : Vol) (d : Nat) : Nat := (v.ino d).size / 64

/-- The inode is a directory of the set. -/
def IsDir (v : Vol) (L : Finset Nat) (d : Nat) : Prop := d ∈ L ∧ (v.ino d).mode = 2

/-- The inode is a regular file of the set. -/
def IsFile (v : Vol) (L : Finset Nat) (n : Nat) : Prop := n ∈ L ∧ (v.ino n).mode = 1

/-- Entry `j` of directory `d` is in use and names inode `c` by `l`. -/
def Names (v : Vol) (d j : Nat) (l : List UInt8) (c : Nat) : Prop :=
  j < v.entryCount d ∧ (v.entry d j).Used ∧ (v.entry d j).label = l ∧ (v.entry d j).inode = c

/-- A name other than `.` and `..`. -/
def Proper (l : List UInt8) : Prop := l ≠ [0x2E] ∧ l ≠ [0x2E, 0x2E]

/-- How many entries of a directory name an inode. -/
def refsIn (v : Vol) (d c : Nat) : Nat :=
  if (v.ino d).mode = 2 then
    ((List.range (v.entryCount d)).filter fun j =>
      (v.entry d j).type ≠ 0 ∧ (v.entry d j).inode = c).length
  else 0

/-- How many entries of the set's directories name an inode. -/
def refs (v : Vol) (L : Finset Nat) (c : Nat) : Nat := ∑ d ∈ L, v.refsIn d c

/-- The directories of `L` form a tree, by a parent and a depth. -/
structure Tree (v : Vol) (sb : Superblock) (L : Finset Nat) (parent depth : Nat → Nat) : Prop where
  root : v.IsDir L sb.rootInode
  parent_root : parent sb.rootInode = sb.rootInode
  entry : ∀ d, v.IsDir L d → ∀ j < v.entryCount d, v.entry d j = .blank ∨
    ((v.entry d j).Used ∧ (v.entry d j).inode ∈ L ∧
      (v.entry d j).type = (v.ino (v.entry d j).inode).mode)
  unique : ∀ d, v.IsDir L d → ∀ j j' l c c', v.Names d j l c → v.Names d j' l c' → j = j'
  dot : ∀ d, v.IsDir L d → ∃ j, v.Names d j [0x2E] d
  dotdot : ∀ d, v.IsDir L d → ∃ j, v.Names d j [0x2E, 0x2E] (parent d)
  child : ∀ d, v.IsDir L d → ∀ j l c, v.Names d j l c → Proper l → v.IsDir L c →
    c ≠ sb.rootInode ∧ parent c = d ∧ depth d < depth c
  one_name : ∀ d, v.IsDir L d → ∀ j j' l l' c, v.Names d j l c → v.Names d j' l' c → Proper l →
    Proper l' → v.IsDir L c → j = j'

/-- The allocated inodes. -/
def alloc (v : Vol) (sb : Superblock) : Finset Nat :=
  (Finset.range sb.totalInodes).filter fun n => v.imap n = true

/-- The pointers of a file end with it: those past its size are zero. -/
def PointersEnd (v : Vol) (n : Nat) : Prop :=
  10 < blocksOf (v.ino n).size → ∀ k < 1024, blocksOf (v.ino n).size ≤ k + 10 →
    (v.data (v.ino n).indirect).pointer k = 0

/-- Some file of `L` has block `b`. -/
def Uses (v : Vol) (L : Finset Nat) (b : Nat) : Prop :=
  ∃ n ∈ L, ∃ t, (v.ino n).Needs t ∧ v.slotBlock n t = b

/-- The metadata and the blocks of the files of `L` are marked, and no other block. -/
def Marks (v : Vol) (sb : Superblock) (L : Finset Nat) : Prop :=
  ∀ b < sb.totalBlocks, v.bmap b = true ↔ b < sb.dataStart ∨ v.Uses L b

/-- A volume without damage or leaks. -/
structure Consistent (v : Vol) (sb : Superblock) : Prop where
  owns : v.Owns sb (v.alloc sb)
  tree : ∃ parent depth, v.Tree sb (v.alloc sb) parent depth
  named : ∀ n ∈ v.alloc sb, n ≠ sb.rootInode →
    ∃ d j l, v.IsDir (v.alloc sb) d ∧ v.Names d j l n ∧ Proper l
  links : ∀ n ∈ v.alloc sb, (v.ino n).linkCount = v.refs (v.alloc sb) n
  marked : v.Marks sb (v.alloc sb)
  block_tail : ∀ b, sb.totalBlocks ≤ b → b < sb.blockBitmapBlocks * 32768 → v.bmap b = true
  inode_tail : ∀ n, sb.totalInodes ≤ n → n < sb.inodeBitmapBlocks * 32768 → v.imap n = true
  free_zero : ∀ n < sb.totalInodes, v.imap n = false → v.ino n = .zero
  pointer_zero : ∀ n ∈ v.alloc sb, v.PointersEnd n

variable {v : Vol} {sb : Superblock} {L : Finset Nat} {parent depth : Nat → Nat}

theorem mem_alloc {n : Nat} : n ∈ v.alloc sb ↔ n < sb.totalInodes ∧ v.imap n = true := by
  rw [alloc, Finset.mem_filter, Finset.mem_range]

namespace Tree

/-- A name in a directory leads to one inode. -/
theorem name_unique (h : v.Tree sb L parent depth) {d j j' c c' : Nat} {l : List UInt8}
    (hd : v.IsDir L d) (hj : v.Names d j l c) (hj' : v.Names d j' l c') : c = c' := by
  obtain rfl := h.unique d hd j j' l c c' hj hj'
  exact hj.2.2.2.symm.trans hj'.2.2.2

/-- A named inode is in the set. -/
theorem names_mem (h : v.Tree sb L parent depth) {d j c : Nat} {l : List UInt8}
    (hd : v.IsDir L d) (hj : v.Names d j l c) : c ∈ L := by
  obtain ⟨hlt, hused, -, hc⟩ := hj
  rcases h.entry d hd j hlt with hblank | ⟨-, hmem, -⟩
  · have htype := hused.type
    rw [hblank] at htype
    rcases htype with htype | htype <;> cases htype
  · exact hc ▸ hmem

/-- A directory has one proper name in the whole tree. -/
theorem dir_named_once (h : v.Tree sb L parent depth) {d d' j j' c : Nat} {l l' : List UInt8}
    (hd : v.IsDir L d) (hd' : v.IsDir L d') (hc : v.IsDir L c) (hj : v.Names d j l c)
    (hj' : v.Names d' j' l' c) (hl : Proper l) (hl' : Proper l') : d = d' ∧ j = j' := by
  obtain ⟨-, hp, -⟩ := h.child d hd j l c hj hl hc
  obtain ⟨-, hp', -⟩ := h.child d' hd' j' l' c hj' hl' hc
  obtain rfl : d = d' := hp.symm.trans hp'
  exact ⟨rfl, h.one_name d hd j j' l l' c hj hj' hl hl' hc⟩

end Tree

end Vol

end MiniOrange
