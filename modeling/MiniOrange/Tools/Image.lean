import MiniOrange.Tools.Built
import MiniOrange.Tools.FsckWalk
import MiniOrange.Fs.Run

/-!
# The volume `mkfs.py` builds

`Built` says what is on a volume from `_build_volume`: inode 0 is the root directory with `.`, `..` and
`bin`, inode 1 is `/bin` with `.`, `..` and the imported files, and inode `i + 2` is the `i`-th of them.
With names that differ and are not `.` or `..` such a volume is clean (`Built.clean`); with an import
named `.` or `..` it is not, since `/bin` then has that name twice (`Built.consistent_iff`).
-/

namespace MiniOrange

namespace Tools

open Check

variable {b b' : Builder} {sb : Superblock} {v w : Vol} {L : Finset Nat} {c d j k n next : Nat}
  {imports : List ImportedFile} {es : List (Nat × Nat × List UInt8)} {l : List UInt8}

/-! ## The numbers of the files -/

variable {name : List UInt8} {blocks : Nat}

/-- A name that is not among the imports leaves the number. -/
theorem foldl_number_of_notMem {start number : Nat} :
    name ∉ imports.map (·.name) →
      (imports.zipIdx start).foldl (fun number item => if item.1.name = name then item.2 + 2 else number) number =
        number := by
  induction imports generalizing start number with
  | nil => exact fun _ => rfl
  | cons file imports ih =>
    intro h
    rw [List.map_cons, List.mem_cons, not_or] at h
    rw [List.zipIdx_cons, List.foldl_cons, if_neg fun heq => h.1 heq.symm]
    exact ih h.2

/-- With distinct names the files are numbered one after the other. -/
theorem foldl_number {start number : Nat} : (imports.map (·.name)).Nodup → ∀ i (hi : i < imports.length),
    (imports.zipIdx start).foldl (fun number item =>
      if item.1.name = (imports.get ⟨i, hi⟩).name then item.2 + 2 else number) number = start + i + 2 := by
  induction imports generalizing start number with
  | nil => exact fun _ i hi => absurd hi (Nat.not_lt_zero i)
  | cons file imports ih =>
    intro hnodup i hi
    obtain ⟨hnew, hnodup⟩ := List.nodup_cons.1 hnodup
    rw [List.zipIdx_cons, List.foldl_cons]
    cases i with
    | zero =>
      have hself : (file, start).1.name = ((file :: imports).get ⟨0, hi⟩).name := rfl
      rw [if_pos hself]
      exact foldl_number_of_notMem hnew
    | succ i =>
      refine (ih hnodup i (Nat.lt_of_succ_lt_succ hi)).trans ?_
      omega

/-- With distinct names `file_numbers` counts the files from 2 on. -/
theorem fileNumber_get (hnodup : (imports.map (·.name)).Nodup) {i : Nat} (hi : i < imports.length) :
    fileNumber imports (imports.get ⟨i, hi⟩).name = i + 2 :=
  (foldl_number hnodup i hi).trans (by omega)

/-! ## The files -/

/-- The blocks that files take. -/
def blocksFor (files : List ImportedFile) : Nat := (files.map fun file => blocksTaken file.payload.length).sum

/-- The loop of `_build_volume` over the files, from file `i` on. -/
theorem writeFiles (hgeo : sb.toSuperblock.Geometry) {number : List UInt8 → Nat} {files : List ImportedFile} :
    ∀ {i b v next}, Building b sb (Finset.range (i + 2)) next v → next ≤ sb.totalBlocks →
      i + files.length + 2 ≤ sb.totalInodes →
      (∀ j (hj : j < files.length), number (files.get ⟨j, hj⟩).name = i + j + 2) →
      Yields (files.foldlM (fun b item => b.writeFile (number item.name) item.payload) b)
        ((∀ file ∈ files, blocksOf file.payload.length ≤ 1034) ∧ next + blocksFor files ≤ sb.totalBlocks)
        fun b' => ∃ w, Building b' sb (Finset.range (i + files.length + 2)) (next + blocksFor files) w ∧
          (∀ m < i + 2, Vol.Kept v w m) ∧
          ∀ j (hj : j < files.length), (w.ino (i + j + 2)).mode = 1 ∧ (w.ino (i + j + 2)).linkCount = 1 ∧
            w.content (i + j + 2) = (files.get ⟨j, hj⟩).payload := by
  induction files with
  | nil =>
    intro i b v next h hle _ _
    exact .of_eq_ok rfl ⟨by simp, hle⟩ ⟨v, h, fun m _ => .refl v m, fun j hj => absurd hj (Nat.not_lt_zero j)⟩
  | cons file files ih =>
    intro i b v next h hle hinodes hnumber
    rw [List.length_cons] at hinodes
    have hfirst : number file.name = i + 2 := hnumber 0 (Nat.succ_pos _)
    have hnew : i + 2 ∉ Finset.range (i + 2) := fun hmem => Nat.lt_irrefl _ (Finset.mem_range.1 hmem)
    have hrange : insert (i + 2) (Finset.range (i + 2)) = Finset.range (i + 1 + 2) := by
      ext m
      rw [Finset.mem_insert, Finset.mem_range, Finset.mem_range]
      omega
    have hsum : blocksFor (file :: files) = blocksTaken file.payload.length + blocksFor files := by
      simp [blocksFor]
    have hrest : ∀ j (hj : j < files.length), number (files.get ⟨j, hj⟩).name = i + 1 + j + 2 := fun j hj =>
      (hnumber (j + 1) (Nat.succ_lt_succ hj)).trans (by omega)
    have hfile : Yields (b.writeFile (i + 2) file.payload) _ _ := h.writeFile hgeo hnew (by omega) hle
    rw [hrange] at hfile
    rw [List.forall_mem_cons, hsum, List.foldlM_cons, hfirst]
    refine hfile.bind (fun hok => ⟨hok.1.1, by omega⟩) fun b₁ hfits hb₁ => ?_
    obtain ⟨w₁, hb₁, hkept₁, hmode, hlinks, hcontent⟩ := hb₁
    refine ((ih hb₁ hfits.2 (by omega) hrest).congr ?_).mono fun b' _ hb' => ?_
    · exact ⟨fun hok => ⟨⟨hfits.1, hok.1⟩, by omega⟩, fun hok => ⟨hok.1.2, by omega⟩⟩
    obtain ⟨w, hbuild, hkept, hfiles⟩ := hb'
    have hkept₂ := hkept (i + 2) (by omega)
    refine ⟨w, ?_, fun m hm => (hkept₁ m (Finset.mem_range.2 hm)).trans (hkept m (by omega)), fun j hj => ?_⟩
    · rw [List.length_cons, show i + (files.length + 1) + 2 = i + 1 + files.length + 2 by omega, ← Nat.add_assoc]
      exact hbuild
    · cases j with
      | zero => exact ⟨by rw [Nat.add_zero, hkept₂.ino, hmode], by rw [Nat.add_zero, hkept₂.ino, hlinks],
          by rw [Nat.add_zero, hkept₂.content, hcontent]; rfl⟩
      | succ j =>
        rw [show i + (j + 1) + 2 = i + 1 + j + 2 by omega]
        exact hfiles j (Nat.lt_of_succ_lt_succ hj)

/-! ## The superblock -/

/-- The superblock that is written reads back. -/
theorem encodeSuperblock_eq_ok {block : Block} (h : encodeSuperblock sb = .ok block) (hmagic : sb.magic = 0x3153464D)
    (hversion : sb.version = 1) (hsize : sb.blockSize = 4096) :
    Headed block ∧ (Superblock.unpack block).toSuperblock = sb.toSuperblock ∧ sb.totalBlocks < 2 ^ 32 ∧
      sb.totalInodes < 2 ^ 32 := by
  unfold encodeSuperblock at h
  obtain ⟨header, hheader, h⟩ := bind_eq_ok.1 h
  obtain ⟨hlength, hfields⟩ := packAll_eq_ok hheader
  obtain rfl := Except.ok.inj h
  have hcount : { sb with checksum := 0 }.fields.length = 14 := rfl
  generalize hblank : Block.zero.copyBytes 0 (bytesOf header) 56 = blank
  have hbyte : ∀ i < 56, blank.byte i = bytesOf header i := fun i hi => by
    rw [← hblank, Block.byte_copyBytes_of_mem (by omega) (by omega) (by omega), Nat.sub_zero]
  generalize hsum : (zlibCrc32 (blockBytes blank)).toNat = checksum
  -- the words before the checksum are those of the header
  have hword : ∀ i, i < 13 → readLe32 ((blank.copyBytes 52 (leByte checksum) 4).ptr (4 * i)) =
      { sb with checksum := 0 }.fields.getD i 0 := by
    intro i hi
    refine readLe32_packAll hheader (by omega) fun m hm => ?_
    rw [Block.ptr_apply, Block.byte_copyBytes_of_not_mem (by omega), hbyte _ (by omega)]
  -- without its checksum the block is the one the checksum was taken of
  have hcopy : (blank.copyBytes 52 (leByte checksum) 4).copyBytes 52 (leByte 0) 4 = blank := by
    ext i hi
    by_cases hin : 52 ≤ i ∧ i < 56
    · have hzero := (hfields 13 (by omega)).2 (i - 52) (by omega)
      rw [Block.byte_copyBytes_of_mem hin.1 (by omega) hi, hbyte i (by omega), bytesOf,
        show i = 4 * 13 + (i - 52) by omega, hzero, show 4 * 13 + (i - 52) - 52 = i - 52 by omega]
      rfl
    · rw [Block.byte_copyBytes_of_not_mem (by omega), Block.byte_copyBytes_of_not_mem (by omega)]
  refine ⟨⟨?_, ?_, ?_, ?_, fun i hi hi' => ?_⟩, ?_, (hfields 3 (by omega)).1, (hfields 4 (by omega)).1⟩
  · exact (hword 0 (by decide)).trans hmagic
  · exact (hword 1 (by decide)).trans hversion
  · exact (hword 2 (by decide)).trans hsize
  · rw [← zlibCrc32_eq, hcopy, hsum]
    have hlt : checksum < 2 ^ 32 := hsum ▸ UInt32.toNat_lt _
    refine (readLe32_leByte fun i hi => ?_).trans (Nat.mod_eq_of_lt hlt)
    rw [Block.ptr_apply, Block.byte_copyBytes_of_mem (by omega) (by omega) (by omega), Nat.add_sub_cancel_left]
  · rw [Block.byte_copyBytes_of_not_mem (by omega), ← hblank, Block.byte_copyBytes_of_not_mem (by omega),
      Block.byte_zero]
  · generalize blank.copyBytes 52 (leByte checksum) 4 = block at hword
    have h3 : readLe32 (block.ptr 12) = sb.totalBlocks := hword 3 (by decide)
    have h4 : readLe32 (block.ptr 16) = sb.totalInodes := hword 4 (by decide)
    have h5 : readLe32 (block.ptr 20) = sb.blockBitmapStart := hword 5 (by decide)
    have h6 : readLe32 (block.ptr 24) = sb.blockBitmapBlocks := hword 6 (by decide)
    have h7 : readLe32 (block.ptr 28) = sb.inodeBitmapStart := hword 7 (by decide)
    have h8 : readLe32 (block.ptr 32) = sb.inodeBitmapBlocks := hword 8 (by decide)
    have h9 : readLe32 (block.ptr 36) = sb.inodeTableStart := hword 9 (by decide)
    have h10 : readLe32 (block.ptr 40) = sb.inodeTableBlocks := hword 10 (by decide)
    have h11 : readLe32 (block.ptr 44) = sb.dataStart := hword 11 (by decide)
    have h12 : readLe32 (block.ptr 48) = sb.rootInode := hword 12 (by decide)
    simp only [Superblock.unpack, h3, h4, h5, h6, h7, h8, h9, h10, h11, h12]

/-- A superblock with the regions of a volume is encoded. -/
theorem exists_encodeSuperblock (hgeo : sb.toSuperblock.Geometry) (hmagic : sb.magic = 0x3153464D)
    (hversion : sb.version = 1) (hsize : sb.blockSize = 4096) : ∃ block, encodeSuperblock sb = .ok block := by
  have h1 := hgeo.blockBitmapStart
  have h2 := hgeo.inodeBitmapStart
  have h3 := hgeo.inodeTableStart
  have h4 := hgeo.dataStart
  have h5 := hgeo.dataStart_lt
  have h6 := hgeo.totalBlocks_lt
  have h7 := hgeo.rootInode_lt
  have h8 := hgeo.totalInodes_lt
  obtain ⟨header, hheader⟩ : ∃ l, packAll 4 { sb with checksum := 0 }.fields = .ok l :=
    exists_packAll fun x hx => by
      simp only [Superblock.fields, List.mem_cons, List.not_mem_nil, or_false] at hx
      omega
  exact ⟨_, bind_eq_ok.2 ⟨header, hheader, rfl⟩⟩

/-! ## Directories with given entries -/

/-- A directory has the entries of `es`. -/
structure HasEntries (v : Vol) (d : Nat) (es : List (Nat × Nat × List UInt8)) : Prop where
  count : v.entryCount d = es.length
  entry : ∀ j (hj : j < es.length), v.entry d j = entryOf (es.get ⟨j, hj⟩)
  good : ∀ item ∈ es, Entry.GoodLabel item.2.2 ∧ (item.2.1 = 1 ∨ item.2.1 = 2)

theorem HasEntries.kept (h : HasEntries v d es) (hkept : Vol.Kept v w d) : HasEntries w d es where
  count := by rw [Vol.entryCount, hkept.ino, ← h.count, Vol.entryCount]
  entry j hj := by rw [hkept.entry (by rw [h.count]; exact hj), h.entry j hj]
  good := h.good

/-- The names of such a directory. -/
theorem HasEntries.names_iff (h : HasEntries v d es) :
    v.Names d j l c ↔ ∃ hj : j < es.length, (es.get ⟨j, hj⟩).2.2 = l ∧ (es.get ⟨j, hj⟩).1 = c := by
  have hused : ∀ hj : j < es.length, (v.entry d j).Used ∧ (v.entry d j).label = (es.get ⟨j, hj⟩).2.2 ∧
      (v.entry d j).inode = (es.get ⟨j, hj⟩).1 := by
    intro hj
    obtain ⟨hgood, htype⟩ := h.good _ (List.get_mem es ⟨j, hj⟩)
    rw [h.entry j hj]
    exact ⟨.of htype hgood, Entry.label_of fun x hx => (hgood.good x hx).1, rfl⟩
  constructor
  · rintro ⟨hlt, -, hl, hc⟩
    have hj : j < es.length := h.count ▸ hlt
    obtain ⟨-, hlabel, hinode⟩ := hused hj
    exact ⟨hj, hlabel.symm.trans hl, hinode.symm.trans hc⟩
  · rintro ⟨hj, hl, hc⟩
    obtain ⟨hu, hlabel, hinode⟩ := hused hj
    exact ⟨by rw [h.count]; exact hj, hu, hlabel.trans hl, hinode.trans hc⟩

/-- How often such a directory refers to an inode. -/
theorem HasEntries.refsIn (h : HasEntries v d es) (hmode : (v.ino d).mode = 2) :
    v.refsIn d n = es.countP fun item => item.1 = n := by
  rw [Vol.refsIn, if_pos hmode, h.count]
  have hget : es = (List.range es.length).map fun j => es.getD j (0, 0, []) := by
    refine List.ext_getElem (by simp) fun j hj _ => ?_
    simp [List.getD, hj]
  conv_rhs => rw [hget]
  rw [List.countP_map, List.countP_eq_length_filter]
  refine congrArg List.length (List.filter_congr fun j hj => ?_)
  have hj := List.mem_range.1 hj
  obtain ⟨-, htype⟩ := h.good _ (List.get_mem es ⟨j, hj⟩)
  have hnz : (es.get ⟨j, hj⟩).2.1 ≠ 0 := by omega
  rw [h.entry j hj]
  have hd : es.getD j (0, 0, []) = es.get ⟨j, hj⟩ := by simp [List.getD, hj]
  simp only [Function.comp_apply, hd, entryOf, Entry.of]
  exact decide_eq_decide.2 (and_iff_right hnz)

/-! ## The volume as a whole -/

/-- The entries of the root directory. -/
def rootEntries : List (Nat × Nat × List UInt8) := [(0, 2, [0x2E]), (0, 2, [0x2E, 0x2E]), (1, 2, binName)]

/-- The entries of `/bin`. -/
def binEntries (imports : List ImportedFile) : List (Nat × Nat × List UInt8) :=
  [(1, 2, [0x2E]), (0, 2, [0x2E, 0x2E])] ++ imports.zipIdx.map fun item => (item.2 + 2, 1, item.1.name)

/-- With distinct names the entries of `/bin` are numbered one after the other. -/
theorem binEntries_eq (hnodup : (imports.map (·.name)).Nodup) :
    [(1, 2, [0x2E]), (0, 2, [0x2E, 0x2E])] ++
      imports.map (fun item => (fileNumber imports item.name, 1, item.name)) = binEntries imports := by
  have hmap : imports.map (fun item => (fileNumber imports item.name, 1, item.name)) =
      imports.zipIdx.map fun item => (item.2 + 2, 1, item.1.name) := by
    refine List.ext_getElem (by simp) fun i hi hi' => ?_
    have hlt : i < imports.length := by simpa using hi
    have hnumber := fileNumber_get hnodup hlt
    rw [List.get_eq_getElem] at hnumber
    simp [hnumber]
  rw [hmap, binEntries]

section
variable {number linkCount : Nat} {inode : Inode} {payload : List UInt8}

/-! The builder keeps its superblock. -/

theorem markBlock_superblock (h : b.markBlock k = .ok b') : b'.superblock = b.superblock := by
  obtain ⟨_, _, h⟩ := bind_eq_ok.1 h
  obtain rfl := Except.ok.inj h
  rfl

theorem markInode_superblock (h : b.markInode k = .ok b') : b'.superblock = b.superblock := by
  obtain ⟨_, _, h⟩ := bind_eq_ok.1 h
  obtain rfl := Except.ok.inj h
  rfl

theorem allocateBlock_superblock {r : Builder × Nat} (h : b.allocateBlock = .ok r) :
    r.1.superblock = b.superblock := by
  obtain ⟨_, h⟩ := failIf_bind_eq_ok.1 h
  obtain ⟨b₁, hmark, h⟩ := bind_eq_ok.1 h
  obtain rfl := Except.ok.inj h
  have := markBlock_superblock hmark
  exact this

theorem writeInode_superblock (h : b.writeInode number inode = .ok b') : b'.superblock = b.superblock := by
  obtain ⟨_, h⟩ := failIf_bind_eq_ok.1 h
  obtain ⟨_, _, h⟩ := bind_eq_ok.1 h
  have := markInode_superblock h
  exact this

theorem writeDirectory_superblock (h : b.writeDirectory number linkCount es = .ok b') :
    b'.superblock = b.superblock := by
  obtain ⟨_, _, h⟩ := bind_eq_ok.1 h
  obtain ⟨_, h⟩ := failIf_bind_eq_ok.1 h
  obtain ⟨r, halloc, h⟩ := bind_eq_ok.1 h
  exact (writeInode_superblock h).trans (allocateBlock_superblock halloc)

theorem writeChunks_superblock {chunks : List Nat} : ∀ {b blocks r},
    Builder.writeChunks payload chunks b blocks = .ok r → r.1.superblock = b.superblock := by
  induction chunks with
  | nil =>
    intro b blocks r h
    obtain rfl := Except.ok.inj h
    rfl
  | cons index chunks ih =>
    intro b blocks r h
    obtain ⟨r', halloc, h⟩ := bind_eq_ok.1 h
    exact (ih h).trans (allocateBlock_superblock halloc)

theorem writePointers_superblock {indirect : Nat} {blocks : List Nat} : ∀ {index b b'},
    Builder.writePointers indirect blocks index b = .ok b' → b'.superblock = b.superblock := by
  induction blocks with
  | nil =>
    intro index b b' h
    obtain rfl := Except.ok.inj h
    rfl
  | cons block blocks ih =>
    intro index b b' h
    obtain ⟨_, _, h⟩ := bind_eq_ok.1 h
    have := ih h
    exact this

theorem writeFile_superblock (h : b.writeFile number payload = .ok b') : b'.superblock = b.superblock := by
  obtain ⟨_, h⟩ := failIf_bind_eq_ok.1 h
  obtain ⟨r, hchunks, h⟩ := bind_eq_ok.1 h
  have hsame := writeChunks_superblock hchunks
  dsimp only at h
  split at h
  · obtain ⟨r', halloc, h⟩ := bind_eq_ok.1 h
    obtain ⟨b₁, hpointers, h⟩ := bind_eq_ok.1 h
    rw [writeInode_superblock h, writePointers_superblock hpointers, allocateBlock_superblock halloc, hsame]
  · rw [writeInode_superblock h, hsame]

theorem init_superblock {totalBlocks totalInodes : Nat} (h : Builder.init totalBlocks totalInodes = .ok b) :
    makeSuperblock totalBlocks totalInodes = .ok b.superblock := by
  obtain ⟨sb, hsb, h⟩ := bind_eq_ok.1 h
  obtain ⟨b₁, hrun₁, h⟩ := bind_eq_ok.1 h
  obtain ⟨b₂, hrun₂, h⟩ := bind_eq_ok.1 h
  have h₁ : b₁.superblock = sb := foldlM_invariant (P := fun b => b.superblock = sb) hrun₁ rfl
    fun k _ t t' ht hstep => (markBlock_superblock hstep).trans ht
  have h₂ : b₂.superblock = sb := foldlM_invariant (P := fun b => b.superblock = sb) hrun₂ h₁
    fun k _ t t' ht hstep => (markBlock_superblock hstep).trans ht
  have h₃ : b.superblock = sb := foldlM_invariant (P := fun b => b.superblock = sb) h h₂
    fun k _ t t' ht hstep => (markInode_superblock hstep).trans ht
  rw [h₃, hsb]

end

theorem makeSuperblock_marks {totalBlocks totalInodes : Nat}
    (h : makeSuperblock totalBlocks totalInodes = .ok sb) :
    sb.magic = 0x3153464D ∧ sb.version = 1 ∧ sb.blockSize = 4096 := by
  obtain ⟨-, h⟩ := failIf_bind_eq_ok.1 h
  obtain ⟨-, h⟩ := failIf_bind_eq_ok.1 h
  obtain rfl := Except.ok.inj h
  exact ⟨rfl, rfl, rfl⟩

/-- The superblock is in no region of the volume. -/
theorem ofDisk_update_zero {sb : MiniOrange.Superblock} (hgeo : sb.Geometry) (payload : Disk) (block : Block) :
    Vol.ofDisk sb (Function.update payload 0 block) = Vol.ofDisk sb payload := by
  have h1 := hgeo.blockBitmapStart
  have h2 := hgeo.inodeBitmapStart
  have h3 := hgeo.inodeTableStart
  have h4 := hgeo.dataStart
  exact Vol.ext (Vol.bmap_congr fun j _ => Function.update_of_ne (by omega) _ _)
    (Vol.imap_congr fun j _ => Function.update_of_ne (by omega) _ _)
    (Vol.ino_congr fun j _ => Function.update_of_ne (by omega) _ _)
    (Vol.data_congr fun b hb _ => Function.update_of_ne (by omega) _ _)

/-- The root directory as the builder writes it. -/
structure RootWritten (v : Vol) : Prop where
  entries : HasEntries v 0 rootEntries
  mode : (v.ino 0).mode = 2
  linkCount : (v.ino 0).linkCount = 3

theorem RootWritten.kept (h : RootWritten v) (hkept : Vol.Kept v w 0) : RootWritten w :=
  ⟨h.entries.kept hkept, by rw [hkept.ino, h.mode], by rw [hkept.ino, h.linkCount]⟩

/-- The directory `/bin` as the builder writes it. -/
structure BinWritten (v : Vol) (imports : List ImportedFile) : Prop where
  entries : HasEntries v 1 (binEntries imports)
  mode : (v.ino 1).mode = 2
  linkCount : (v.ino 1).linkCount = 2

theorem BinWritten.kept (h : BinWritten v imports) (hkept : Vol.Kept v w 1) : BinWritten w imports :=
  ⟨h.entries.kept hkept, by rw [hkept.ino, h.mode], by rw [hkept.ino, h.linkCount]⟩

/-- The root directory is written. -/
theorem build_root (hsb : makeSuperblock blocks 1024 = .ok sb) (hgeo : sb.toSuperblock.Geometry) :
    ∃ b₀, Builder.init blocks 1024 = .ok b₀ ∧ Yields (b₀.writeDirectory 0 3 rootEntries) True fun b =>
      ∃ v, Building b sb {0} (sb.dataStart + 1) v ∧ RootWritten v := by
  obtain ⟨-, hinodes⟩ := makeSuperblock_totals hsb
  obtain ⟨b₀, v₀, hinit, h₀⟩ := init_building hsb hgeo
  obtain ⟨content, hcontent⟩ : ∃ content, Builder.encodeEntries rootEntries = .ok content := ⟨_, rfl⟩
  have hwrite : Yields (b₀.writeDirectory 0 3 rootEntries) _ _ := h₀.writeDirectory hgeo
    (Finset.notMem_empty 0) (by omega) (by simp [rootEntries]) (by decide) (by decide)
  refine ⟨b₀, hinit, (hwrite.congr (iff_true_intro ⟨⟨content, hcontent⟩, by decide, hgeo.dataStart_lt⟩)).mono ?_⟩
  rintro b - ⟨v, h, -, hmode, hlinks, hcount, hentry⟩
  exact ⟨v, h, ⟨hcount, hentry, (encodeEntries_eq_ok hcontent).2.2⟩, hmode, hlinks⟩

/-- The directory `/bin` is written. -/
theorem build_bin (hgeo : sb.toSuperblock.Geometry) (hinodes : sb.totalInodes = 1024)
    (h : Building b sb {0} next v) (hroot : RootWritten v) :
    Yields (b.writeDirectory 1 2 (binEntries imports))
      ((∃ content, Builder.encodeEntries (binEntries imports) = .ok content) ∧
        (binEntries imports).length ≤ 64 ∧ next < sb.totalBlocks)
      fun b' => ∃ w, Building b' sb (Finset.range (0 + 2)) (next + 1) w ∧ RootWritten w ∧ BinWritten w imports := by
  have hrange : insert 1 {0} = Finset.range (0 + 2) := by decide
  have hwrite : Yields (b.writeDirectory 1 2 (binEntries imports)) _ _ := h.writeDirectory hgeo (by decide)
    (by omega) (by simp [binEntries]) (by decide) (by decide)
  rw [hrange] at hwrite
  refine hwrite.mono ?_
  rintro b' ⟨⟨content, hcontent⟩, -⟩ ⟨w, hb', hkept, hmode, hlinks, hcount, hentry⟩
  exact ⟨w, hb', hroot.kept (hkept 0 (Finset.mem_singleton_self 0)),
    ⟨hcount, hentry, (encodeEntries_eq_ok hcontent).2.2⟩, hmode, hlinks⟩

/-- What `_build_volume` puts on a volume. -/
structure Built (v : Vol) (sb : MiniOrange.Superblock) (imports : List ImportedFile) : Prop where
  solid : v.Solid sb (Finset.range (imports.length + 2))
  root : RootWritten v
  bin : BinWritten v imports
  file : ∀ i (hi : i < imports.length), (v.ino (i + 2)).mode = 1 ∧ (v.ino (i + 2)).linkCount = 1 ∧
    v.content (i + 2) = (imports.get ⟨i, hi⟩).payload

/-- The conditions under which `_build_volume` returns a volume. -/
structure Buildable (blocks : Nat) (imports : List ImportedFile) : Prop where
  distinct : (imports.map (·.name)).Nodup
  named : ∀ file ∈ imports, Entry.GoodLabel file.name
  count : imports.length ≤ 62
  size : ∀ file ∈ imports, blocksOf file.payload.length ≤ 1034
  blocks_lt : blocks < 2 ^ 32
  room : ∃ sb, makeSuperblock blocks 1024 = .ok sb ∧ sb.dataStart + 2 + blocksFor imports ≤ blocks

/-- The loop over the files, behind the two directories. -/
theorem build_files (hnodup : (imports.map (·.name)).Nodup) (hgeo : sb.toSuperblock.Geometry)
    (hinodes : sb.totalInodes = 1024) (hcount : imports.length ≤ 62)
    (h : Building b sb (Finset.range (0 + 2)) next v) (hle : next ≤ sb.totalBlocks) :
    Yields (imports.foldlM (fun b item => b.writeFile (fileNumber imports item.name) item.payload) b)
      ((∀ file ∈ imports, blocksOf file.payload.length ≤ 1034) ∧ next + blocksFor imports ≤ sb.totalBlocks)
      fun b' => ∃ w, Building b' sb (Finset.range (imports.length + 2)) (next + blocksFor imports) w ∧
        (∀ m < 2, Vol.Kept v w m) ∧
        ∀ i (hi : i < imports.length), (w.ino (i + 2)).mode = 1 ∧ (w.ino (i + 2)).linkCount = 1 ∧
          w.content (i + 2) = (imports.get ⟨i, hi⟩).payload := by
  have hnumber : ∀ j (hj : j < imports.length), fileNumber imports (imports.get ⟨j, hj⟩).name = 0 + j + 2 :=
    fun j hj => by rw [fileNumber_get hnodup hj, Nat.zero_add]
  have hmain := writeFiles hgeo h hle (by omega) hnumber
  simp only [Nat.zero_add] at hmain
  exact hmain

theorem length_binEntries : (binEntries imports).length = imports.length + 2 := by
  rw [binEntries, List.length_append, List.length_map, List.length_zipIdx, Nat.add_comm]
  rfl

/-- `_build_volume` with a superblock that can be written. -/
theorem buildVolume_yields (hnodup : (imports.map (·.name)).Nodup)
    (hsb : makeSuperblock blocks 1024 = .ok sb) (hblocks : blocks < 2 ^ 32) :
    Yields (buildVolume blocks imports)
      ((∃ content, Builder.encodeEntries (binEntries imports) = .ok content) ∧ imports.length ≤ 62 ∧
        (∀ file ∈ imports, blocksOf file.payload.length ≤ 1034) ∧ sb.dataStart + 2 + blocksFor imports ≤ blocks)
      fun volume => Formatted blocks volume sb.toSuperblock ∧ sb.totalInodes = 1024 ∧
        Built (Vol.ofDisk sb.toSuperblock volume) sb.toSuperblock imports := by
  obtain ⟨htotal, hinodes⟩ := makeSuperblock_totals hsb
  obtain ⟨hmagic, hversion, hsize⟩ := makeSuperblock_marks hsb
  obtain ⟨hgeo, hrootInode⟩ : sb.toSuperblock.Geometry ∧ sb.rootInode = 0 :=
    (geometry_iff (by omega) (by omega)).1 ⟨sb, by rw [htotal, hinodes]; exact hsb, rfl⟩
  obtain ⟨b₀, hinit, hroot⟩ := build_root hsb hgeo
  obtain ⟨block, hblock⟩ := exists_encodeSuperblock hgeo hmagic hversion hsize
  obtain ⟨hhead, hunpack, -⟩ := encodeSuperblock_eq_ok hblock hmagic hversion hsize
  unfold buildVolume
  rw [binEntries_eq hnodup]
  refine Yields.congr (Yields.failIf fun _ => ?_) (and_iff_right_of_imp fun h => by omega)
  refine Yields.bind (.of_eq_ok hinit trivial rfl : Yields _ True (· = b₀)) (fun _ => trivial) ?_
  rintro _ - rfl
  refine hroot.bind (fun _ => trivial) ?_
  rintro b₁ - ⟨v₁, h₁, hroot₁⟩
  refine (build_bin hgeo hinodes h₁ hroot₁).bind (fun h => ⟨h.1, by rw [length_binEntries]; omega, by omega⟩) ?_
  rintro b₂ ⟨hcontent, hlength, hroom⟩ ⟨v₂, h₂, hroot₂, hbin₂⟩
  rw [length_binEntries] at hlength
  refine (build_files hnodup hgeo hinodes (by omega) h₂ hroom).bind (fun h => ⟨h.2.2.1, by omega⟩) ?_
  rintro b₃ ⟨hsizes, hroom'⟩ ⟨w, h₃, hkept, hfile⟩
  have hencoded : encodeSuperblock b₃.superblock = .ok block := h₃.holds.superblock ▸ hblock
  refine .of_eq_ok (bind_eq_ok.2 ⟨block, hencoded, rfl⟩) ⟨hcontent, by omega, hsizes, by omega⟩
    ⟨⟨?_, ?_, htotal, hgeo, hrootInode⟩, hinodes, ?_⟩
  · rw [Function.update_self]
    exact hhead
  · rw [Function.update_self, hunpack]
  · rw [ofDisk_update_zero hgeo, h₃.holds.payload]
    exact ⟨h₃.solid, hroot₂.kept (hkept 0 (by decide)), hbin₂.kept (hkept 1 (by decide)), hfile⟩

/-- **What `_build_volume` returns**, for imports with distinct names. -/
theorem buildVolume_built {volume : Disk} (hnodup : (imports.map (·.name)).Nodup)
    (h : buildVolume blocks imports = .ok volume) :
    ∃ sb : MiniOrange.Superblock, Formatted blocks volume sb ∧ sb.totalInodes = 1024 ∧
      Built (Vol.ofDisk sb volume) sb imports := by
  have hbuild := h
  unfold buildVolume at h
  obtain ⟨-, h⟩ := failIf_bind_eq_ok.1 h
  obtain ⟨b₀, hinit, h⟩ := bind_eq_ok.1 h
  obtain ⟨b₁, hroot, h⟩ := bind_eq_ok.1 h
  obtain ⟨b₂, hbin, h⟩ := bind_eq_ok.1 h
  obtain ⟨b₃, hfiles, h⟩ := bind_eq_ok.1 h
  obtain ⟨block, hblock, -⟩ := bind_eq_ok.1 h
  have hsb := init_superblock hinit
  -- all of the builder's steps keep the superblock, which the last one has encoded
  have hsame : b₃.superblock = b₀.superblock := by
    refine foldlM_invariant (P := fun b => b.superblock = b₀.superblock) hfiles ?_ fun _ _ t t' ht hstep =>
      (writeFile_superblock hstep).trans ht
    rw [writeDirectory_superblock hbin, writeDirectory_superblock hroot]
  rw [hsame] at hblock
  obtain ⟨hmagic, hversion, hsize⟩ := makeSuperblock_marks hsb
  obtain ⟨-, -, hfits, -⟩ := encodeSuperblock_eq_ok hblock hmagic hversion hsize
  rw [(makeSuperblock_totals hsb).1] at hfits
  exact ⟨_, (buildVolume_yields hnodup hsb hfits).2 volume hbuild⟩

/-- An entry with a good name is encoded. -/
theorem exists_encodeDirectoryEntry {inode type : Nat} (hname : Entry.GoodLabel name)
    (htype : type = 1 ∨ type = 2) (hinode : inode < 2 ^ 32) :
    ∃ entry, encodeDirectoryEntry inode type name = .ok entry := by
  have hascii : ¬ ∃ x ∈ name, x > 0x7F := by
    rintro ⟨x, hx, hbig⟩
    exact UInt8.not_lt.2 (hname.good x hx).2.1 hbig
  have hvalid : ¬ (name = [] ∨ name.length > 58 ∨ 0x2F ∈ name ∨ 0 ∈ name ∨ (type ≠ 1 ∧ type ≠ 2)) := by
    rintro (hnil | hlong | hslash | hnul | htypes)
    · exact hname.pos hnil
    · exact Nat.not_lt.2 hname.length_le hlong
    · exact (hname.good _ hslash).2.2 rfl
    · exact (hname.good _ hnul).1 rfl
    · omega
  exact ⟨_, failIf_bind_eq_ok.2 ⟨hascii, failIf_bind_eq_ok.2 ⟨hvalid, bind_eq_ok.2 ⟨_, pack_eq_ok.2 ⟨hinode, rfl⟩,
    bind_eq_ok.2 ⟨_, pack_eq_ok.2 ⟨by omega, rfl⟩, rfl⟩⟩⟩⟩⟩

/-- Entries with good names are encoded. -/
theorem exists_encodeEntries (h : ∀ item ∈ es, Entry.GoodLabel item.2.2 ∧ (item.2.1 = 1 ∨ item.2.1 = 2) ∧
    item.1 < 2 ^ 32) : ∃ content, Builder.encodeEntries es = .ok content := by
  induction es with
  | nil => exact ⟨_, rfl⟩
  | cons item es ih =>
    obtain ⟨⟨hname, htype, hinode⟩, hes⟩ := List.forall_mem_cons.1 h
    obtain ⟨entry, hentry⟩ := exists_encodeDirectoryEntry hname htype hinode
    obtain ⟨content, hcontent⟩ := ih hes
    exact ⟨_, bind_eq_ok.2 ⟨entry, hentry, bind_eq_ok.2 ⟨content, hcontent, rfl⟩⟩⟩

/-- A directory's own two entries are good. -/
theorem good_dots {self up : Nat} (hself : self < 2 ^ 32) (hup : up < 2 ^ 32)
    (h : ∀ item ∈ es, Entry.GoodLabel item.2.2 ∧ (item.2.1 = 1 ∨ item.2.1 = 2) ∧ item.1 < 2 ^ 32) :
    ∀ item ∈ (self, 2, [0x2E]) :: (up, 2, [0x2E, 0x2E]) :: es,
      Entry.GoodLabel item.2.2 ∧ (item.2.1 = 1 ∨ item.2.1 = 2) ∧ item.1 < 2 ^ 32 :=
  List.forall_mem_cons.2 ⟨⟨Vol.goodLabel_dots.1, .inr rfl, hself⟩,
    List.forall_mem_cons.2 ⟨⟨Vol.goodLabel_dots.2, .inr rfl, hup⟩, h⟩⟩

theorem good_binEntries (hnamed : ∀ file ∈ imports, Entry.GoodLabel file.name) (hcount : imports.length ≤ 62) :
    ∀ item ∈ binEntries imports, Entry.GoodLabel item.2.2 ∧ (item.2.1 = 1 ∨ item.2.1 = 2) ∧ item.1 < 2 ^ 32 := by
  refine good_dots (by decide) (by decide) fun item hitem => ?_
  obtain ⟨⟨file, i⟩, hmem, rfl⟩ := List.mem_map.1 hitem
  have hi := List.snd_lt_of_mem_zipIdx hmem
  exact ⟨hnamed file (List.fst_mem_of_mem_zipIdx hmem), .inl rfl, by omega⟩

/-- `_build_volume` returns a volume when it has room for the files and their names are good. -/
theorem Buildable.exists_volume (h : Buildable blocks imports) :
    ∃ volume, buildVolume blocks imports = .ok volume := by
  obtain ⟨sb, hsb, hroom⟩ := h.room
  exact (buildVolume_yields h.distinct hsb h.blocks_lt).1.2
    ⟨exists_encodeEntries (good_binEntries h.named h.count), h.count, h.size, hroom⟩

/-! ## The names on the volume -/

/-- The entries of a directory name inodes of `L` by their modes, if they were written so. -/
theorem HasEntries.entry_used (h : HasEntries v d es)
    (hmode : ∀ item ∈ es, item.1 ∈ L ∧ item.2.1 = (v.ino item.1).mode) (hj : j < v.entryCount d) :
    (v.entry d j).Used ∧ (v.entry d j).inode ∈ L ∧ (v.entry d j).type = (v.ino (v.entry d j).inode).mode := by
  have hlt : j < es.length := h.count ▸ hj
  have hmem := List.get_mem es ⟨j, hlt⟩
  obtain ⟨hgood, htype⟩ := h.good _ hmem
  rw [h.entry j hlt]
  exact ⟨.of htype hgood, hmode _ hmem⟩

/-- The names of a directory differ, if those that were written do. -/
theorem HasEntries.unique (h : HasEntries v d es) (hnodup : (es.map (·.2.2)).Nodup) {j' c' : Nat}
    (hj : v.Names d j l c) (hj' : v.Names d j' l c') : j = j' := by
  obtain ⟨hlt, hname, -⟩ := h.names_iff.1 hj
  obtain ⟨hlt', hname', -⟩ := h.names_iff.1 hj'
  rw [← List.length_map (·.2.2)] at hlt hlt'
  have hget := (hnodup.get_inj_iff (i := ⟨j, hlt⟩) (j := ⟨j', hlt'⟩)).1 (by simpa using hname.trans hname'.symm)
  exact Fin.mk.inj hget

/-- A directory with its own two entries and others behind them. -/
theorem HasEntries.names_dots {self up : Nat} (h : HasEntries v d ((self, 2, [0x2E]) :: (up, 2, [0x2E, 0x2E]) :: es)) :
    v.Names d j l c ↔ (j = 0 ∧ l = [0x2E] ∧ c = self) ∨ (j = 1 ∧ l = [0x2E, 0x2E] ∧ c = up) ∨
      ∃ i, ∃ hi : i < es.length, j = i + 2 ∧ l = (es.get ⟨i, hi⟩).2.2 ∧ c = (es.get ⟨i, hi⟩).1 := by
  rw [h.names_iff]
  constructor
  · rintro ⟨hj, rfl, rfl⟩
    obtain _ | _ | i := j
    · exact .inl ⟨rfl, rfl, rfl⟩
    · exact .inr (.inl ⟨rfl, rfl, rfl⟩)
    · exact .inr (.inr ⟨i, Nat.lt_of_succ_lt_succ (Nat.lt_of_succ_lt_succ hj), rfl, rfl, rfl⟩)
  · rintro (⟨rfl, rfl, rfl⟩ | ⟨rfl, rfl, rfl⟩ | ⟨i, hi, rfl, rfl, rfl⟩)
    · exact ⟨Nat.zero_lt_succ _, rfl, rfl⟩
    · exact ⟨Nat.succ_lt_succ (Nat.zero_lt_succ _), rfl, rfl⟩
    · exact ⟨Nat.succ_lt_succ (Nat.succ_lt_succ hi), rfl, rfl⟩

/-- The names behind the own two are distinct from them if they are proper. -/
theorem nodup_dots {self up : Nat} (hproper : ∀ item ∈ es, Vol.Proper item.2.2) (hnodup : (es.map (·.2.2)).Nodup) :
    (((self, 2, [0x2E]) :: (up, 2, [0x2E, 0x2E]) :: es).map (·.2.2)).Nodup := by
  rw [List.map_cons, List.map_cons, List.nodup_cons, List.nodup_cons, List.mem_cons, not_or]
  refine ⟨⟨by simp, fun hin => ?_⟩, fun hin => ?_, hnodup⟩
  · obtain ⟨item, hitem, hname⟩ := List.mem_map.1 hin
    exact (hproper item hitem).1 hname
  · obtain ⟨item, hitem, hname⟩ := List.mem_map.1 hin
    exact (hproper item hitem).2 hname

namespace Built

variable {sb : MiniOrange.Superblock} (h : Built v sb imports)
include h

theorem names_root : v.Names 0 j l c ↔
    (j = 0 ∧ l = [0x2E] ∧ c = 0) ∨ (j = 1 ∧ l = [0x2E, 0x2E] ∧ c = 0) ∨ (j = 2 ∧ l = binName ∧ c = 1) := by
  rw [h.root.entries.names_dots]
  simp

theorem names_bin : v.Names 1 j l c ↔
    (j = 0 ∧ l = [0x2E] ∧ c = 1) ∨ (j = 1 ∧ l = [0x2E, 0x2E] ∧ c = 0) ∨
      ∃ i, ∃ hi : i < imports.length, j = i + 2 ∧ l = (imports.get ⟨i, hi⟩).name ∧ c = i + 2 := by
  rw [h.bin.entries.names_dots]
  simp

theorem mode_file (hn : n < imports.length + 2) (h0 : n ≠ 0) (h1 : n ≠ 1) : (v.ino n).mode = 1 := by
  obtain ⟨i, rfl⟩ : ∃ i, n = i + 2 := ⟨n - 2, by omega⟩
  exact (h.file i (by omega)).1

/-- The directories are the root and `/bin`. -/
theorem isDir : v.IsDir (Finset.range (imports.length + 2)) d ↔ d = 0 ∨ d = 1 := by
  unfold Vol.IsDir
  rw [Finset.mem_range]
  constructor
  · rintro ⟨hlt, hmode⟩
    by_contra hnot
    rw [not_or] at hnot
    rw [h.mode_file hlt hnot.1 hnot.2] at hmode
    cases hmode
  · rintro (rfl | rfl)
    · exact ⟨by omega, h.root.mode⟩
    · exact ⟨by omega, h.bin.mode⟩

/-- The entries name files of the volume by their modes. -/
theorem entry_used (hd : v.IsDir (Finset.range (imports.length + 2)) d) (hj : j < v.entryCount d) :
    (v.entry d j).Used ∧ (v.entry d j).inode ∈ Finset.range (imports.length + 2) ∧
      (v.entry d j).type = (v.ino (v.entry d j).inode).mode := by
  have hmem : ∀ {n}, n < 2 → n ∈ Finset.range (imports.length + 2) := fun hn => Finset.mem_range.2 (by omega)
  obtain rfl | rfl := h.isDir.1 hd
  · refine h.root.entries.entry_used (List.forall_mem_cons.2 ⟨?_, List.forall_mem_cons.2 ⟨?_, ?_⟩⟩) hj
    · exact ⟨hmem (by decide), h.root.mode.symm⟩
    · exact ⟨hmem (by decide), h.root.mode.symm⟩
    · exact List.forall_mem_singleton.2 ⟨hmem (by decide), h.bin.mode.symm⟩
  · refine h.bin.entries.entry_used (List.forall_mem_cons.2 ⟨?_, List.forall_mem_cons.2 ⟨?_, fun item hitem => ?_⟩⟩) hj
    · exact ⟨hmem (by decide), h.bin.mode.symm⟩
    · exact ⟨hmem (by decide), h.root.mode.symm⟩
    · obtain ⟨⟨file, i⟩, hin, rfl⟩ := List.mem_map.1 hitem
      have hi : i < imports.length := by simpa using List.snd_lt_of_mem_zipIdx hin
      exact ⟨Finset.mem_range.2 (by omega), (h.file i hi).1.symm⟩

/-- The names in a directory differ, if those of the imports do and are proper. -/
theorem unique (hnodup : (imports.map (·.name)).Nodup) (hproper : ∀ file ∈ imports, Vol.Proper file.name)
    (hd : v.IsDir (Finset.range (imports.length + 2)) d) {j' c' : Nat} (hj : v.Names d j l c)
    (hj' : v.Names d j' l c') : j = j' := by
  obtain rfl | rfl := h.isDir.1 hd
  · exact h.root.entries.unique (by decide) hj hj'
  · refine h.bin.entries.unique (nodup_dots (fun item hitem => ?_) ?_) hj hj'
    · obtain ⟨⟨file, i⟩, hin, rfl⟩ := List.mem_map.1 hitem
      exact hproper file (List.fst_mem_of_mem_zipIdx hin)
    · convert hnodup using 1
      exact List.ext_getElem (by simp) fun i hi hi' => by simp

/-- A proper name leads from the root to `/bin`, or from there to a file. -/
theorem names_proper (hd : v.IsDir (Finset.range (imports.length + 2)) d) (hj : v.Names d j l c)
    (hl : Vol.Proper l) : (d = 0 ∧ j = 2 ∧ c = 1) ∨
      (d = 1 ∧ ∃ i, ∃ hi : i < imports.length, j = i + 2 ∧ l = (imports.get ⟨i, hi⟩).name ∧ c = i + 2) := by
  obtain rfl | rfl := h.isDir.1 hd
  · obtain ⟨-, rfl, -⟩ | ⟨-, rfl, -⟩ | ⟨rfl, -, rfl⟩ := h.names_root.1 hj
    · exact absurd rfl hl.1
    · exact absurd rfl hl.2
    · exact .inl ⟨rfl, rfl, rfl⟩
  · obtain ⟨-, rfl, -⟩ | ⟨-, rfl, -⟩ | hfile := h.names_bin.1 hj
    · exact absurd rfl hl.1
    · exact absurd rfl hl.2
    · exact .inr ⟨rfl, hfile⟩

/-- The two directories form a tree. -/
theorem tree (hroot : sb.rootInode = 0) (hnodup : (imports.map (·.name)).Nodup)
    (hproper : ∀ file ∈ imports, Vol.Proper file.name) :
    v.Tree sb (Finset.range (imports.length + 2)) (fun _ => 0) id where
  root := hroot ▸ h.isDir.2 (.inl rfl)
  parent_root := hroot.symm
  entry d hd j hj := .inr (h.entry_used hd hj)
  unique d hd j j' l c c' hj hj' := h.unique hnodup hproper hd hj hj'
  dot d hd := by
    obtain rfl | rfl := h.isDir.1 hd
    · exact ⟨0, h.names_root.2 (.inl ⟨rfl, rfl, rfl⟩)⟩
    · exact ⟨0, h.names_bin.2 (.inl ⟨rfl, rfl, rfl⟩)⟩
  dotdot d hd := by
    obtain rfl | rfl := h.isDir.1 hd
    · exact ⟨1, h.names_root.2 (.inr (.inl ⟨rfl, rfl, rfl⟩))⟩
    · exact ⟨1, h.names_bin.2 (.inr (.inl ⟨rfl, rfl, rfl⟩))⟩
  child d hd j l c hj hl hc := by
    rw [hroot]
    obtain ⟨rfl, -, rfl⟩ | ⟨-, i, -, -, -, rfl⟩ := h.names_proper hd hj hl
    · exact ⟨by decide, rfl, Nat.one_pos⟩
    · have := h.isDir.1 hc
      omega
  one_name d hd j j' l l' c hj hj' hl hl' _ := by
    obtain ⟨rfl, rfl, rfl⟩ | ⟨rfl, i, _, rfl, -, rfl⟩ := h.names_proper hd hj hl
    · obtain ⟨-, rfl, -⟩ | ⟨hd, -⟩ := h.names_proper hd hj' hl'
      · rfl
      · cases hd
    · obtain ⟨hd, -⟩ | ⟨-, i', _, rfl, -, hc⟩ := h.names_proper hd hj' hl'
      · cases hd
      · exact hc

/-- The link counts are the numbers of the entries. -/
theorem links (hn : n < imports.length + 2) :
    (v.ino n).linkCount = v.refs (Finset.range (imports.length + 2)) n := by
  have hfiles : ∀ i ∈ Finset.range imports.length, v.refsIn (i + 1 + 1) n = 0 := fun i hi => by
    refine Vol.refsIn_file ?_
    rw [h.mode_file (by have := Finset.mem_range.1 hi; omega) (by omega) (by omega)]
    decide
  have hcount : (binEntries imports).countP (fun item => item.1 = n) =
      [1, 0].count n + ((List.range imports.length).map (· + 2)).count n := by
    rw [List.range_eq_range', ← List.zipIdx_map_snd 0 imports, List.map_map, ← List.count_append, List.count,
      show [1, 0] = [(1, 2, [0x2E]), ((0, 2, [0x2E, 0x2E]) : Nat × Nat × List UInt8)].map Prod.fst from rfl]
    rw [binEntries, List.countP_append, List.countP_append, List.countP_map, List.countP_map, List.countP_map]
    rfl
  rw [Vol.refs, Finset.sum_range_succ', Finset.sum_range_succ', Finset.sum_eq_zero hfiles,
    h.root.entries.refsIn h.root.mode, h.bin.entries.refsIn h.bin.mode, hcount]
  have hsmall : n < 2 → ((List.range imports.length).map (· + 2)).count n = 0 := fun hlt =>
    List.count_eq_zero.2 fun hmem => by
      obtain ⟨i, -, rfl⟩ := List.mem_map.1 hmem
      omega
  obtain _ | _ | i := n
  · rw [hsmall (by decide), h.root.linkCount]
    rfl
  · rw [hsmall (by decide), h.bin.linkCount]
    rfl
  · have hi : i < imports.length := by omega
    have hone : ((List.range imports.length).map (· + 2)).count (i + 2) = 1 :=
      List.count_eq_one_of_mem (List.nodup_range.map (add_left_injective 2))
        (List.mem_map.2 ⟨i, List.mem_range.2 hi, rfl⟩)
    rw [hone, (h.file i hi).2.1]
    rfl

/-- Every file but the root has a name. -/
theorem named (hproper : ∀ file ∈ imports, Vol.Proper file.name) (hn : n < imports.length + 2) (h0 : n ≠ 0) :
    ∃ d j l, v.IsDir (Finset.range (imports.length + 2)) d ∧ v.Names d j l n ∧ Vol.Proper l := by
  match n, h0 with
  | 1, _ => exact ⟨0, 2, binName, h.isDir.2 (.inl rfl), h.names_root.2 (.inr (.inr ⟨rfl, rfl, rfl⟩)),
      by decide, by decide⟩
  | i + 2, _ =>
    have hi : i < imports.length := by omega
    exact ⟨1, i + 2, _, h.isDir.2 (.inr rfl), h.names_bin.2 (.inr (.inr ⟨i, hi, rfl, rfl, rfl⟩)),
      hproper _ (List.get_mem imports ⟨i, hi⟩)⟩

/-- A volume with proper, distinct imports is clean. -/
theorem clean (hroot : sb.rootInode = 0) (hnodup : (imports.map (·.name)).Nodup)
    (hproper : ∀ file ∈ imports, Vol.Proper file.name) : v.Clean sb := by
  refine ⟨h.solid.consistent ⟨⟨_, _, h.tree hroot hnodup hproper⟩, fun n hn hne => ?_, fun n hn => ?_⟩,
    fun n hn hmode => ?_⟩
  · exact h.named hproper (Finset.mem_range.1 hn) (hroot ▸ hne)
  · exact h.links (Finset.mem_range.1 hn)
  · rw [h.solid.alloc_eq] at hn
    have hlt := Finset.mem_range.1 hn
    have hdir : ¬ v.IsDir (Finset.range (imports.length + 2)) n := fun hdir => by
      rw [hdir.2] at hmode
      cases hmode
    rw [h.isDir, not_or] at hdir
    obtain ⟨i, rfl⟩ : ∃ i, n = i + 2 := ⟨n - 2, by omega⟩
    exact (h.file i (by omega)).2.1

/-- With distinct imports the volume is consistent exactly when they are proper: `/bin` has the names
`.` and `..` already. -/
theorem consistent_iff (hroot : sb.rootInode = 0) (hnodup : (imports.map (·.name)).Nodup) :
    v.Consistent sb ↔ ∀ file ∈ imports, Vol.Proper file.name := by
  refine ⟨fun hv file hfile => ?_, fun hproper => (h.clean hroot hnodup hproper).consistent⟩
  obtain ⟨parent, depth, htree⟩ := hv.tree
  rw [h.solid.alloc_eq] at htree
  obtain ⟨i, rfl⟩ := List.get_of_mem hfile
  have hfile := h.names_bin.2 (.inr (.inr ⟨i, i.2, rfl, rfl, rfl⟩))
  have hdir := h.isDir.2 (.inr rfl)
  refine ⟨fun hname => ?_, fun hname => ?_⟩
  · have hdot := h.names_bin.2 (.inl ⟨rfl, rfl, rfl⟩)
    have := htree.unique 1 hdir _ _ _ _ _ hfile (hname ▸ hdot)
    omega
  · have hdotdot := h.names_bin.2 (.inr (.inl ⟨rfl, rfl, rfl⟩))
    have := htree.unique 1 hdir _ _ _ _ _ hfile (hname ▸ hdotdot)
    omega

end Built

end Tools

end MiniOrange
