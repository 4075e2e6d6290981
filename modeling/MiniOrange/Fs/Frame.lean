import MiniOrange.Fs.Tree

/-!
# What an update leaves alone

`Kept v v' n` says that file `n` reads the same on both volumes: its record, its slots, their marks
and the bytes within its size. Each of the four updates keeps every file that does not own what it
changes. Kept files have the same content and entries. `SameNames` says as much of directories as
the tree depends on, and `Same` of a volume as its consistency depends on.
-/

namespace MiniOrange

namespace Vol

/-! ## The updates, field by field -/

section
variable (v : Vol) (b n k : Nat) (value : Bool) (inode : Inode) (block : Block)

@[simp] theorem setB_imap : (v.setB b value).imap = v.imap := rfl
@[simp] theorem setB_ino : (v.setB b value).ino = v.ino := rfl
@[simp] theorem setB_data : (v.setB b value).data = v.data := rfl
@[simp] theorem setI_bmap : (v.setI n value).bmap = v.bmap := rfl
@[simp] theorem setI_ino : (v.setI n value).ino = v.ino := rfl
@[simp] theorem setI_data : (v.setI n value).data = v.data := rfl
@[simp] theorem setIno_bmap : (v.setIno n inode).bmap = v.bmap := rfl
@[simp] theorem setIno_imap : (v.setIno n inode).imap = v.imap := rfl
@[simp] theorem setIno_data : (v.setIno n inode).data = v.data := rfl
@[simp] theorem setData_bmap : (v.setData b block).bmap = v.bmap := rfl
@[simp] theorem setData_imap : (v.setData b block).imap = v.imap := rfl
@[simp] theorem setData_ino : (v.setData b block).ino = v.ino := rfl

@[simp] theorem setIno_self : (v.setIno n inode).ino n = inode := Function.update_self ..
@[simp] theorem setData_self : (v.setData b block).data b = block := Function.update_self ..
@[simp] theorem setB_self : (v.setB b value).bmap b = value := Function.update_self ..
@[simp] theorem setI_self : (v.setI n value).imap n = value := Function.update_self ..

end

variable {v v' v'' : Vol} {n m b : Nat} {value : Bool} {inode : Inode} {block : Block}

theorem setIno_of_ne (h : m ≠ n) : (v.setIno n inode).ino m = v.ino m := Function.update_of_ne h ..
theorem setData_of_ne (h : m ≠ b) : (v.setData b block).data m = v.data m :=
  Function.update_of_ne h ..
theorem setB_of_ne (h : m ≠ b) : (v.setB b value).bmap m = v.bmap m := Function.update_of_ne h ..
theorem setI_of_ne (h : m ≠ n) : (v.setI n value).imap m = v.imap m := Function.update_of_ne h ..

theorem setIno_eq_self (v : Vol) (n : Nat) : v.setIno n (v.ino n) = v := by
  unfold setIno
  rw [Function.update_eq_self]

/-- The pointers of a file end as before when its record and its indirect block are the same. -/
theorem PointersEnd.congr (h : v.PointersEnd n) (hino : v'.ino n = v.ino n)
    (hdata : (v.ino n).Needs .indirect → v'.data (v.ino n).indirect = v.data (v.ino n).indirect) :
    v'.PointersEnd n := by
  intro hmany k hk hpast
  rw [hino] at hmany hpast ⊢
  rw [hdata hmany]
  exact h hmany k hk hpast

/-! ## Kept files -/

/-- File `n` reads the same on both volumes. -/
structure Kept (v v' : Vol) (n : Nat) : Prop extends SameFile v v' n where
  data : ∀ o < (v.ino n).size, (v'.data (v.fileBlock n (o / 4096))).byte (o % 4096) = v.byteAt n o

/-- A byte of a file is in a block of it. -/
theorem div_lt_blocksOf {o size : Nat} (ho : o < size) : o / 4096 < blocksOf size :=
  lt_blocksOf.2 (by omega)

/-- The slots of a file depend on its record and its indirect block. -/
theorem slotBlock_congr (hino : v'.ino n = v.ino n)
    (hdata : v'.data (v.ino n).indirect = v.data (v.ino n).indirect) (t : Slot) :
    v'.slotBlock n t = v.slotBlock n t := by
  cases t with
  | data k => simp only [slotBlock, fileBlock, hino, hdata]
  | indirect => simp only [slotBlock, hino]

/-- The blocks of the files depend on their slots. -/
theorem uses_congr {L : Finset Nat}
    (hneeds : ∀ n ∈ L, ∀ t, (v'.ino n).Needs t ↔ (v.ino n).Needs t)
    (hslot : ∀ n ∈ L, ∀ t, (v.ino n).Needs t → v'.slotBlock n t = v.slotBlock n t) :
    v'.Uses L b ↔ v.Uses L b := by
  refine exists_congr fun n => and_congr_right fun hn => exists_congr fun t => ?_
  rw [hneeds n hn t]
  exact and_congr_right fun ht => by rw [hslot n hn t ht]

namespace Kept

theorem refl (v : Vol) (n : Nat) : Kept v v n :=
  ⟨⟨rfl, rfl, fun _ _ => rfl, fun _ _ => rfl⟩, fun _ _ => rfl⟩

/-- A file kept twice is kept. -/
theorem trans (h : Kept v v' n) (h' : Kept v' v'' n) : Kept v v'' n := by
  have hslot : ∀ t, (v.ino n).Needs t → v''.slotBlock n t = v.slotBlock n t := fun t ht => by
    rw [h'.slot t (by rwa [h.ino]), h.slot t ht]
  refine ⟨⟨h'.imap.trans h.imap, h'.ino.trans h.ino, hslot, fun t ht => ?_⟩, fun o ho => ?_⟩
  · have hmarked := h'.marked t (by rwa [h.ino])
    rw [h.slot t ht] at hmarked
    rw [hmarked, h.marked t ht]
  · have hfile : v'.fileBlock n (o / 4096) = v.fileBlock n (o / 4096) :=
      h.slot (.data _) (div_lt_blocksOf ho)
    have hdata := h'.data o (by rwa [h.ino])
    rw [Vol.byteAt, hfile] at hdata
    rw [hdata, h.data o ho]

/-- A mark of a block outside the file's slots. -/
theorem setB (h : ∀ t, (v.ino n).Needs t → v.slotBlock n t ≠ b) : Kept v (v.setB b value) n where
  imap := rfl
  ino := rfl
  slot t _ := slotBlock_congr rfl rfl t
  marked t ht := setB_of_ne (h t ht)
  data _ _ := rfl

/-- A mark of another inode. -/
theorem setI (h : n ≠ m) : Kept v (v.setI m value) n where
  imap := setI_of_ne h
  ino := rfl
  slot t _ := slotBlock_congr rfl rfl t
  marked _ _ := rfl
  data _ _ := rfl

/-- The record of another inode. -/
theorem setIno (h : n ≠ m) : Kept v (v.setIno m inode) n where
  imap := rfl
  ino := setIno_of_ne h
  slot t _ := slotBlock_congr (setIno_of_ne h) rfl t
  marked _ _ := rfl
  data _ _ := rfl

/-- A block outside the file's slots. -/
theorem setData (h : ∀ t, (v.ino n).Needs t → v.slotBlock n t ≠ b) :
    Kept v (v.setData b block) n where
  imap := rfl
  ino := rfl
  slot t ht := by
    cases t with
    | indirect => rfl
    | data k =>
      simp only [slotBlock, fileBlock, setData_ino]
      rcases Nat.lt_or_ge k 10 with hk | hk
      · rw [if_pos hk, if_pos hk]
      · -- a block past the direct ones is found through the indirect block, which is kept
        have hneeds : (v.ino n).Needs .indirect := Nat.lt_of_le_of_lt hk ht
        have hne : (v.ino n).indirect ≠ b := h .indirect hneeds
        rw [if_neg (Nat.not_lt.2 hk), if_neg (Nat.not_lt.2 hk), setData_of_ne hne]
  marked _ _ := rfl
  data o ho := by
    have hne : v.fileBlock n (o / 4096) ≠ b := h (.data _) (div_lt_blocksOf ho)
    rw [setData_of_ne hne, byteAt]

/-- A file in marked blocks, where marked blocks stay marked and keep their data. -/
theorem of_marked (hmarked : ∀ t, (v.ino n).Needs t → v.bmap (v.slotBlock n t) = true)
    (himap : v'.imap n = v.imap n) (hino : v'.ino n = v.ino n)
    (hmark : ∀ b, v.bmap b = true → v'.bmap b = true)
    (hdata : ∀ b, v.bmap b = true → v'.data b = v.data b) : Kept v v' n where
  imap := himap
  ino := hino
  slot t ht := by
    cases t with
    | indirect => simp only [slotBlock, hino]
    | data k =>
      simp only [slotBlock, fileBlock, hino]
      rcases Nat.lt_or_ge k 10 with hk | hk
      · rw [if_pos hk, if_pos hk]
      · -- a block past the direct ones is found through the indirect block, which is marked
        have hneeds : (v.ino n).Needs .indirect := Nat.lt_of_le_of_lt hk ht
        have hsame : v'.data (v.ino n).indirect = v.data (v.ino n).indirect :=
          hdata _ (hmarked .indirect hneeds)
        rw [if_neg (Nat.not_lt.2 hk), if_neg (Nat.not_lt.2 hk), hsame]
  marked t ht := by rw [hmarked t ht, hmark _ (hmarked t ht)]
  data o ho := by
    have hmark : v.bmap (v.fileBlock n (o / 4096)) = true :=
      hmarked (.data _) (div_lt_blocksOf ho)
    rw [hdata _ hmark, byteAt]

/-! ### What is read of a kept file -/

/-- The bytes of a kept file. -/
theorem byteAt (h : Kept v v' n) {offset : Nat} (ho : offset < (v.ino n).size) :
    v'.byteAt n offset = v.byteAt n offset := by
  have hfile : v'.fileBlock n (offset / 4096) = v.fileBlock n (offset / 4096) :=
    h.slot (.data _) (div_lt_blocksOf ho)
  rw [Vol.byteAt, hfile, h.data offset ho]

/-- The content of a kept file. -/
theorem content (h : Kept v v' n) : v'.content n = v.content n := by
  unfold Vol.content
  rw [h.ino]
  exact List.map_congr_left fun offset ho => h.byteAt (List.mem_range.1 ho)

/-- The entries of a kept directory. -/
theorem entry (h : Kept v v' n) {j : Nat} (hj : j < v.entryCount n) :
    v'.entry n j = v.entry n j := by
  unfold Vol.entryCount at hj
  have hfile : v'.fileBlock n (j / 64) = v.fileBlock n (j / 64) :=
    h.slot (.data _) (lt_blocksOf.2 (by omega))
  rw [Vol.entry, Vol.entry, hfile]
  -- the 64 bytes of the entry are within the size
  refine Entry.ofBytes_congr fun i hi => ?_
  have hbyte := h.data (j * 64 + i) (by omega)
  rw [Vol.byteAt, show (j * 64 + i) / 4096 = j / 64 by omega,
    show (j * 64 + i) % 4096 = j % 64 * 64 + i by omega] at hbyte
  exact hbyte

theorem entryCount (h : Kept v v' n) : v'.entryCount n = v.entryCount n := by
  rw [Vol.entryCount, Vol.entryCount, h.ino]

/-- Kept files have the same blocks. -/
theorem uses {L : Finset Nat} (h : ∀ n ∈ L, Kept v v' n) : v'.Uses L b ↔ v.Uses L b :=
  uses_congr (fun n hn _ => by rw [(h n hn).ino]) fun n hn => (h n hn).slot

end Kept

/-! ## The same names -/

/-- The inodes of `L` have the same modes on both volumes, and its directories the same entries. -/
structure SameNames (v v' : Vol) (L : Finset Nat) : Prop where
  mode : ∀ n ∈ L, (v'.ino n).mode = (v.ino n).mode
  count : ∀ d, v.IsDir L d → v'.entryCount d = v.entryCount d
  entry : ∀ d, v.IsDir L d → ∀ j < v.entryCount d, v'.entry d j = v.entry d j

namespace SameNames

variable {L : Finset Nat} {d : Nat}

/-- Kept files have the same names. -/
theorem of_kept (h : ∀ n ∈ L, Kept v v' n) : SameNames v v' L where
  mode n hn := by rw [(h n hn).ino]
  count d hd := (h d hd.1).entryCount
  entry d hd _ hj := (h d hd.1).entry hj

variable (h : SameNames v v' L)
include h

theorem isDir : v'.IsDir L d ↔ v.IsDir L d :=
  and_congr_right fun hd => by rw [h.mode d hd]

theorem names (hd : v.IsDir L d) {j c : Nat} {l : List UInt8} :
    v'.Names d j l c ↔ v.Names d j l c := by
  unfold Names
  rw [h.count d hd]
  exact and_congr_right fun hj => by rw [h.entry d hd j hj]

/-- Directories with the same names form the same tree. -/
theorem tree {sb : Superblock} {parent depth : Nat → Nat}
    (htree : v.Tree sb L parent depth) : v'.Tree sb L parent depth := by
  constructor
  · exact h.isDir.2 htree.root
  · exact htree.parent_root
  · intro d hd j hj
    have hd := h.isDir.1 hd
    rw [h.count d hd] at hj
    rw [h.entry d hd j hj]
    rcases htree.entry d hd j hj with hblank | ⟨hused, hmem, htype⟩
    · exact .inl hblank
    · exact .inr ⟨hused, hmem, by rw [h.mode _ hmem]; exact htype⟩
  · intro d hd j j' l c c' hj hj'
    have hd := h.isDir.1 hd
    exact htree.unique d hd j j' l c c' ((h.names hd).1 hj) ((h.names hd).1 hj')
  · intro d hd
    have hd := h.isDir.1 hd
    obtain ⟨j, hj⟩ := htree.dot d hd
    exact ⟨j, (h.names hd).2 hj⟩
  · intro d hd
    have hd := h.isDir.1 hd
    obtain ⟨j, hj⟩ := htree.dotdot d hd
    exact ⟨j, (h.names hd).2 hj⟩
  · intro d hd j l c hj hl hc
    have hd := h.isDir.1 hd
    exact htree.child d hd j l c ((h.names hd).1 hj) hl (h.isDir.1 hc)
  · intro d hd j j' l l' c hj hj' hl hl' hc
    have hd := h.isDir.1 hd
    exact htree.one_name d hd j j' l l' c ((h.names hd).1 hj) ((h.names hd).1 hj') hl hl'
      (h.isDir.1 hc)

/-- Directories with the same entries refer to an inode equally often. -/
theorem refsIn (hd : d ∈ L) (c : Nat) : v'.refsIn d c = v.refsIn d c := by
  unfold Vol.refsIn
  rw [h.mode d hd]
  split
  · next hmode =>
    have hdir : v.IsDir L d := ⟨hd, hmode⟩
    rw [h.count d hdir]
    refine congrArg _ (List.filter_congr fun j hj => ?_)
    rw [h.entry d hdir j (List.mem_range.1 hj)]
  · rfl

theorem refs (c : Nat) : v'.refs L c = v.refs L c :=
  Finset.sum_congr rfl fun _ hd => h.refsIn hd c

end SameNames

/-! ## Changes in free blocks

Every undo of `minifs.c` gives back what it took; what is left of it is data in blocks that are not
marked. -/

/-- The volumes differ at most in the data of unmarked blocks. -/
structure Loose (v v' : Vol) : Prop where
  bmap : v'.bmap = v.bmap
  imap : v'.imap = v.imap
  ino : v'.ino = v.ino
  data : ∀ b, v.bmap b = true → v'.data b = v.data b

namespace Loose

theorem refl (v : Vol) : Loose v v := ⟨rfl, rfl, rfl, fun _ _ => rfl⟩

/-- A file in marked blocks is kept. -/
theorem kept (h : Loose v v') (hmarked : ∀ t, (v.ino n).Needs t → v.bmap (v.slotBlock n t) = true) :
    Kept v v' n :=
  .of_marked hmarked (congrFun h.imap n) (congrFun h.ino n) (fun b hb => by rwa [h.bmap]) h.data

end Loose

/-! ## Changes that no check sees -/

/-- The volumes have the same bitmaps and records, and the files of `L` are kept. -/
structure Same (v v' : Vol) (L : Finset Nat) : Prop where
  bmap : v'.bmap = v.bmap
  imap : v'.imap = v.imap
  ino : v'.ino = v.ino
  kept : ∀ n ∈ L, Kept v v' n
  ends : ∀ n ∈ L, v.PointersEnd n → v'.PointersEnd n

theorem Same.refl (v : Vol) (L : Finset Nat) : Same v v L :=
  ⟨rfl, rfl, rfl, fun n _ => .refl v n, fun _ _ h => h⟩

/-- Consistency does not look at free blocks, nor at the bytes behind the size of a file. -/
theorem Consistent.same {sb : Superblock} (h : v.Consistent sb) (hsame : Same v v' (v.alloc sb)) :
    v'.Consistent sb := by
  have halloc : v'.alloc sb = v.alloc sb := by unfold alloc; rw [hsame.imap]
  have hnames : SameNames v v' (v.alloc sb) := .of_kept hsame.kept
  obtain ⟨parent, depth, htree⟩ := h.tree
  constructor
  · rw [halloc]
    exact h.owns.congr fun n hn => (hsame.kept n hn).toSameFile
  · rw [halloc]
    exact ⟨parent, depth, hnames.tree htree⟩
  · rw [halloc]
    intro n hn hroot
    obtain ⟨d, j, l, hd, hj, hl⟩ := h.named n hn hroot
    exact ⟨d, j, l, hnames.isDir.2 hd, (hnames.names hd).2 hj, hl⟩
  · rw [halloc]
    intro n hn
    rw [hsame.ino, hnames.refs]
    exact h.links n hn
  · rw [halloc]
    intro b hb
    rw [hsame.bmap, h.marked b hb, Kept.uses hsame.kept]
  · rw [hsame.bmap]
    exact h.block_tail
  · rw [hsame.imap]
    exact h.inode_tail
  · rw [hsame.imap, hsame.ino]
    exact h.free_zero
  · rw [halloc]
    exact fun n hn => hsame.ends n hn (h.pointer_zero n hn)

end Vol

end MiniOrange
