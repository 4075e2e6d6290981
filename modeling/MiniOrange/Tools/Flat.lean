import MiniOrange.Tools.Imports

/-!
# Volumes with one directory

`fsck.py` accepts more than `mkfs.py` makes and the kernel leaves: any number of inodes, and regular files
with several names. A flat volume has the root directory and empty files that are named in it, each as
often as its link count says. There is one for every such list of names that fits (`exists_flat`), and
`fsck.py` accepts it (`Flat.consistent`).
-/

namespace MiniOrange

namespace Tools

open Check

variable {b b' : Builder} {sb : Superblock} {v w : Vol} {c d j n next count : Nat}
  {names : List (Nat × List UInt8)} {l : List UInt8}

/-- The record of an empty file. -/
def emptyRecord (linkCount : Nat) : Inode := ⟨1, linkCount, 0, fun _ => 0, 0, 0, 0, 0⟩

/-- The entries of the root: its own two, and one for each name. -/
def flatEntries (names : List (Nat × List UInt8)) : List (Nat × Nat × List UInt8) :=
  [(0, 2, [0x2E]), (0, 2, [0x2E, 0x2E])] ++ names.map fun item => (item.1, 1, item.2)

/-- How many names a file has. -/
def linksOf (names : List (Nat × List UInt8)) (n : Nat) : Nat := (names.map Prod.fst).count n

/-- Names for the files 1 to `count` that fit one directory block. -/
structure FlatNames (names : List (Nat × List UInt8)) (count : Nat) : Prop where
  named : ∀ item ∈ names, Entry.GoodLabel item.2 ∧ Vol.Proper item.2
  distinct : (names.map Prod.snd).Nodup
  files : ∀ n, n ∈ names.map Prod.fst ↔ 1 ≤ n ∧ n ≤ count
  length_le : names.length ≤ 62

theorem FlatNames.links_pos (h : FlatNames names count) (h1 : 1 ≤ n) (hn : n ≤ count) : 0 < linksOf names n :=
  List.count_pos_iff.2 ((h.files n).2 ⟨h1, hn⟩)

theorem FlatNames.links_le (h : FlatNames names count) : linksOf names n ≤ 62 :=
  List.count_le_length.trans (by rw [List.length_map]; exact h.length_le)

theorem FlatNames.fst_pos (h : FlatNames names count) {item : Nat × List UInt8} (hitem : item ∈ names) :
    1 ≤ item.1 ∧ item.1 ≤ count := (h.files item.1).1 (List.mem_map_of_mem hitem)

/-- What is on a flat volume. -/
structure Flat (v : Vol) (sb : MiniOrange.Superblock) (names : List (Nat × List UInt8)) (count : Nat) : Prop where
  solid : v.Solid sb (Finset.range (count + 1))
  entries : HasEntries v 0 (flatEntries names)
  mode : (v.ino 0).mode = 2
  linkCount : (v.ino 0).linkCount = 2
  file : ∀ n, 1 ≤ n → n ≤ count → v.ino n = emptyRecord (linksOf names n)

/-! ## Building one -/

/-- An empty file takes its record and no block. -/
theorem Building.writeEmpty {L : Finset Nat} (hgeo : sb.toSuperblock.Geometry) (h : Building b sb L next v)
    (hc : c ∉ L) (hlt : c < sb.totalInodes) {linkCount : Nat} (hlinks : 0 < linkCount) (hlinks' : linkCount < 2 ^ 16) :
    ∃ b' w, b.writeInode c (emptyRecord linkCount) = .ok b' ∧ Building b' sb (insert c L) next w ∧
      (∀ m ∈ L, Vol.Kept v w m) ∧ w.ino c = emptyRecord linkCount := by
  have hino : ((v.setIno c (emptyRecord linkCount)).setI c true).ino c = emptyRecord linkCount :=
    Vol.setIno_self ..
  have hsize : blocksOf (emptyRecord linkCount).size = 0 := rfl
  have hok : (emptyRecord linkCount).Ok :=
    { mode := .inl rfl
      linkCount := hlinks.ne'
      size_le := Nat.zero_le _
      reserved := rfl
      dir_size := nofun
      direct := fun k => iff_of_false (fun h => h rfl) (Nat.not_lt_zero _)
      indirect := iff_of_false (fun h => h rfl) (Nat.not_lt_zero _) }
  have hfits : (emptyRecord linkCount).Fits :=
    { mode := show 1 < 2 ^ 16 by decide
      linkCount := hlinks'
      size := show 0 < 2 ^ 32 by decide
      direct := fun _ => show 0 < 2 ^ 32 by decide
      indirect := show 0 < 2 ^ 32 by decide
      createdTick := show 0 < 2 ^ 32 by decide
      modifiedTick := show 0 < 2 ^ 32 by decide
      reserved := rfl }
  have hcomplete : ((v.setIno c (emptyRecord linkCount)).setI c true).Complete c
      (Finset.Ico next (next + 0)) := by
    refine complete_of_consecutive (Vol.setI_self ..) ?_ ?_ ?_ ?_ ?_
    · rw [hino]
      exact hok
    · rw [Vol.PointersEnd, hino, hsize]
      exact fun hbig => absurd hbig (by decide)
    · rw [hino, hsize]
      exact fun k hk => absurd hk (Nat.not_lt_zero k)
    · rw [hino, hsize]
      exact fun hbig => absurd hbig (by decide)
    · rw [hino, hsize]
      rfl
  obtain ⟨b', hwrite, hbuild, hkept⟩ := (h.writing c).close hgeo h.solid h.start hc hlt hfits hcomplete
  exact ⟨b', _, hwrite, hbuild, hkept, hino⟩

/-- The files, one after the other. -/
theorem Building.writeEmpties (hgeo : sb.toSuperblock.Geometry) (hnames : FlatNames names count)
    (h : Building b sb (Finset.range 1) next v) {m : Nat} (hm : m ≤ count) (hlt : count < sb.totalInodes) :
    ∃ b' w, Building b' sb (Finset.range (m + 1)) next w ∧ Vol.Kept v w 0 ∧
      ∀ n, 1 ≤ n → n ≤ m → w.ino n = emptyRecord (linksOf names n) := by
  induction m with
  | zero => exact ⟨b, v, h, .refl v 0, fun n h1 hn => absurd hn (by omega)⟩
  | succ m ih =>
    obtain ⟨b₁, w₁, h₁, hkept₁, hfile₁⟩ := ih (by omega)
    have hlinks := hnames.links_le (n := m + 1)
    obtain ⟨b', w, -, hb', hkept, hino⟩ := h₁.writeEmpty hgeo (c := m + 1) (by simp) (by omega)
      (hnames.links_pos (by omega) hm) (by omega)
    rw [← Finset.range_add_one] at hb'
    refine ⟨b', w, hb', hkept₁.trans (hkept 0 (Finset.mem_range.2 (by omega))), fun n h1 hn => ?_⟩
    rcases Nat.eq_or_lt_of_le hn with rfl | hold
    · exact hino
    · rw [(hkept n (Finset.mem_range.2 (by omega))).ino, hfile₁ n h1 (by omega)]

theorem good_flatEntries (hnames : FlatNames names count) (hlt : count < 2 ^ 32) :
    ∀ item ∈ flatEntries names, Entry.GoodLabel item.2.2 ∧ (item.2.1 = 1 ∨ item.2.1 = 2) ∧ item.1 < 2 ^ 32 := by
  refine good_dots (by decide) (by decide) fun item hitem => ?_
  obtain ⟨item, hmem, rfl⟩ := List.mem_map.1 hitem
  have hfst := hnames.fst_pos hmem
  exact ⟨(hnames.named item hmem).1, .inl rfl, by dsimp only; omega⟩

/-- There is a flat volume with given names, of every size that holds its metadata and the root. -/
theorem exists_flat {blocks inodes : Nat} (hsb : makeSuperblock blocks inodes = .ok sb) (hblocks : blocks < 2 ^ 32)
    (hinodes : inodes < 2 ^ 32) (hnames : FlatNames names count) (hcount : count < inodes) :
    ∃ volume, Formatted blocks volume sb.toSuperblock ∧
      Flat (Vol.ofDisk sb.toSuperblock volume) sb.toSuperblock names count := by
  obtain ⟨htotal, htotal'⟩ := makeSuperblock_totals hsb
  obtain ⟨hmagic, hversion, hsize⟩ := makeSuperblock_marks hsb
  obtain ⟨hgeo, hrootInode⟩ : sb.toSuperblock.Geometry ∧ sb.rootInode = 0 :=
    (geometry_iff (by omega) (by omega)).1 ⟨sb, by rw [htotal, htotal']; exact hsb, rfl⟩
  have hlength : (flatEntries names).length ≤ 64 := by
    have := hnames.length_le
    simp only [flatEntries, List.length_append, List.length_map, List.length_cons, List.length_nil]
    omega
  obtain ⟨content, hcontent⟩ := exists_encodeEntries (good_flatEntries hnames (by omega))
  obtain ⟨b₀, v₀, -, h₀⟩ := init_building hsb hgeo
  have hwrite : Yields (b₀.writeDirectory 0 2 (flatEntries names)) _ _ := h₀.writeDirectory hgeo
    (Finset.notMem_empty 0) (by omega) (by simp [flatEntries]) (by decide) (by decide)
  obtain ⟨b₁, hrun⟩ := hwrite.1.2 ⟨⟨content, hcontent⟩, hlength, hgeo.dataStart_lt⟩
  obtain ⟨v₁, h₁, -, hmode, hlinks, hentries, hentry⟩ := hwrite.2 b₁ hrun
  have hroot : HasEntries v₁ 0 (flatEntries names) := ⟨hentries, hentry, (encodeEntries_eq_ok hcontent).2.2⟩
  obtain ⟨b₂, v₂, h₂, hkept, hfile⟩ := h₁.writeEmpties hgeo hnames (Nat.le_refl count) (by omega)
  obtain ⟨block, hblock⟩ := exists_encodeSuperblock hgeo hmagic hversion hsize
  obtain ⟨hhead, hunpack, -⟩ := encodeSuperblock_eq_ok hblock hmagic hversion hsize
  refine ⟨Function.update b₂.payload 0 block, ⟨?_, ?_, htotal, hgeo, hrootInode⟩, ?_⟩
  · rw [Function.update_self]
    exact hhead
  · rw [Function.update_self, hunpack]
  · rw [ofDisk_update_zero hgeo, h₂.holds.payload]
    exact ⟨h₂.solid, hroot.kept hkept, by rw [hkept.ino, hmode], by rw [hkept.ino, hlinks], hfile⟩

/-! ## The names on it -/

namespace Flat

variable {sb : MiniOrange.Superblock} (h : Flat v sb names count) (hnames : FlatNames names count)
include h

theorem names_root : v.Names 0 j l c ↔
    (j = 0 ∧ l = [0x2E] ∧ c = 0) ∨ (j = 1 ∧ l = [0x2E, 0x2E] ∧ c = 0) ∨
      ∃ i, ∃ hi : i < names.length, j = i + 2 ∧ l = (names.get ⟨i, hi⟩).2 ∧ c = (names.get ⟨i, hi⟩).1 := by
  rw [h.entries.names_dots]
  simp

/-- The root is the only directory. -/
theorem isDir : v.IsDir (Finset.range (count + 1)) d ↔ d = 0 := by
  unfold Vol.IsDir
  rw [Finset.mem_range]
  constructor
  · rintro ⟨hlt, hmode⟩
    by_contra hne
    rw [h.file d (by omega) (by omega)] at hmode
    cases hmode
  · rintro rfl
    exact ⟨by omega, h.mode⟩

include hnames

theorem unique {j' c' : Nat} (hj : v.Names 0 j l c) (hj' : v.Names 0 j' l c') : j = j' := by
  refine h.entries.unique (nodup_dots (fun item hitem => ?_) ?_) hj hj'
  · obtain ⟨item, hmem, rfl⟩ := List.mem_map.1 hitem
    exact (hnames.named item hmem).2
  · simpa [Function.comp_def] using hnames.distinct

theorem tree (hroot : sb.rootInode = 0) : v.Tree sb (Finset.range (count + 1)) (fun _ => 0) id where
  root := hroot ▸ h.isDir.2 rfl
  parent_root := hroot.symm
  entry d hd j hj := by
    obtain rfl := h.isDir.1 hd
    refine .inr (h.entries.entry_used (List.forall_mem_cons.2 ⟨?_, List.forall_mem_cons.2 ⟨?_, fun item hitem => ?_⟩⟩) hj)
    · exact ⟨Finset.mem_range.2 (by omega), h.mode.symm⟩
    · exact ⟨Finset.mem_range.2 (by omega), h.mode.symm⟩
    · obtain ⟨item, hmem, rfl⟩ := List.mem_map.1 hitem
      obtain ⟨h1, hle⟩ := hnames.fst_pos hmem
      exact ⟨Finset.mem_range.2 (by dsimp only; omega), by rw [h.file item.1 h1 hle]; rfl⟩
  unique d hd j j' l c c' hj hj' := by
    obtain rfl := h.isDir.1 hd
    exact h.unique hnames hj hj'
  dot d hd := by
    obtain rfl := h.isDir.1 hd
    exact ⟨0, h.names_root.2 (.inl ⟨rfl, rfl, rfl⟩)⟩
  dotdot d hd := by
    obtain rfl := h.isDir.1 hd
    exact ⟨1, h.names_root.2 (.inr (.inl ⟨rfl, rfl, rfl⟩))⟩
  child d hd j l c hj hl hc := by
    obtain rfl := h.isDir.1 hd
    obtain rfl := h.isDir.1 hc
    obtain ⟨-, rfl, -⟩ | ⟨-, rfl, -⟩ | ⟨i, hi, -, -, hzero⟩ := h.names_root.1 hj
    · exact absurd rfl hl.1
    · exact absurd rfl hl.2
    · have := hnames.fst_pos (List.get_mem names ⟨i, hi⟩)
      omega
  one_name d hd j j' l l' c hj hj' hl hl' hc := by
    obtain rfl := h.isDir.1 hd
    obtain rfl := h.isDir.1 hc
    obtain ⟨-, rfl, -⟩ | ⟨-, rfl, -⟩ | ⟨i, hi, -, -, hzero⟩ := h.names_root.1 hj
    · exact absurd rfl hl.1
    · exact absurd rfl hl.2
    · have := hnames.fst_pos (List.get_mem names ⟨i, hi⟩)
      omega

theorem links (hn : n < count + 1) : (v.ino n).linkCount = v.refs (Finset.range (count + 1)) n := by
  have hfiles : ∀ i ∈ Finset.range count, v.refsIn (i + 1) n = 0 := fun i hi => by
    refine Vol.refsIn_file ?_
    rw [h.file (i + 1) (by omega) (Finset.mem_range.1 hi)]
    exact show 1 ≠ 2 by decide
  have hcount : (flatEntries names).countP (fun item => item.1 = n) = [0, 0].count n + linksOf names n := by
    rw [flatEntries, List.countP_append, linksOf, List.count_eq_countP, List.count_eq_countP, List.countP_map,
      List.countP_map]
    rfl
  rw [Vol.refs, Finset.sum_range_succ', Finset.sum_eq_zero hfiles, h.entries.refsIn h.mode, hcount]
  cases n with
  | zero =>
    have hzero : linksOf names 0 = 0 := List.count_eq_zero.2 fun hmem => by
      have := ((hnames.files 0).1 hmem).1
      omega
    rw [hzero, h.linkCount]
    rfl
  | succ i =>
    rw [h.file (i + 1) (by omega) (by omega), List.count_eq_zero.2 (by simp), Nat.zero_add, Nat.zero_add]
    rfl

/-- A flat volume is consistent. -/
theorem consistent (hroot : sb.rootInode = 0) : v.Consistent sb := by
  refine h.solid.consistent ⟨⟨_, _, h.tree hnames hroot⟩, fun n hn hne => ?_, fun n hn => ?_⟩
  · have hlt := Finset.mem_range.1 hn
    obtain ⟨item, hitem, rfl⟩ := List.mem_map.1 ((hnames.files n).2 ⟨by omega, by omega⟩)
    obtain ⟨i, rfl⟩ := List.get_of_mem hitem
    exact ⟨0, i + 2, _, h.isDir.2 rfl, h.names_root.2 (.inr (.inr ⟨i, i.2, rfl, rfl, rfl⟩)),
      (hnames.named _ hitem).2⟩
  · exact h.links hnames (Finset.mem_range.1 hn)

end Flat

end Tools

end MiniOrange
