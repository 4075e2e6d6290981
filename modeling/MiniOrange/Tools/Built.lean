import MiniOrange.Tools.Mkfs
import MiniOrange.Fs.Solid

/-!
# What the builder writes

The builder places one file after the other into blank storage. `Building` says what it holds between
two files: the storage of the files so far, and nothing past the next block. Within a file, `Writing`
says that the blocks taken since then are the file's, and the rest is as before. A file's record closes
it (`Writing.close`); what is left is a volume with one file more, whose content is what was written
(`writeFile_building`, `writeDirectory_building`).
-/

namespace MiniOrange

namespace Tools

open Check

variable {b b' : Builder} {sb : Superblock} {v w : Vol} {L : Finset Nat}
  {c first count n next k off : Nat} {payload : Disk} {value : List UInt8}

/-! ## Slices of the payload -/

/-- A slice of block `k`. -/
theorem assign_eq (hoff : off < 4096) : assign payload (k * 4096 + off) value =
    Function.update payload k ((payload k).copyBytes off (bytesOf value) value.length) := by
  unfold assign
  rw [show (k * 4096 + off) / 4096 = k by omega, show (k * 4096 + off) % 4096 = off by omega]

/-- Setting a bit of a bitmap of whole blocks. -/
theorem bitmapSet_eq {length start bit : Nat} (hlt : start * 4096 + bit / 8 < length) :
    bitmapSet payload length (start * 4096) bit =
      .ok (Function.update payload (start + bit / 32768)
        ((payload (start + bit / 32768)).withBit (bit % 32768) true)) := by
  have hposition : start * 4096 + bit / 8 = (start + bit / 32768) * 4096 + bit % 32768 / 8 := by omega
  unfold bitmapSet
  refine failIf_bind_eq_ok.2 ⟨Nat.not_le.2 hlt, ?_⟩
  rw [hposition, assign_eq (by omega), show ((start + bit / 32768) * 4096 + bit % 32768 / 8) / 4096 =
    start + bit / 32768 by omega, show ((start + bit / 32768) * 4096 + bit % 32768 / 8) % 4096 =
    bit % 32768 / 8 by omega]
  refine congrArg (fun block => Except.ok (Function.update payload _ block)) ?_
  rw [Block.withBit]
  ext i hi
  rw [Block.byte_copyBytes, Block.byte_copyBytes]
  by_cases hin : bit % 32768 / 8 ≤ i ∧ i < bit % 32768 / 8 + 1
  · have hzero : i - bit % 32768 / 8 = 0 := by omega
    rw [if_pos ⟨hin.1, hin.2, hi⟩, if_pos ⟨hin.1, hin.2, hi⟩, hzero,
      show bit % 32768 % 8 = bit % 8 by omega]
    rfl
  · rw [if_neg fun h => hin ⟨h.1, h.2.1⟩, if_neg fun h => hin ⟨h.1, h.2.1⟩]

/-! ## The builder's payload as a volume -/

/-- The builder holds the volume `v`, and `next` is the next block to be taken. -/
structure Holds (b : Builder) (sb : Superblock) (next : Nat) (v : Vol) : Prop where
  superblock : b.superblock = sb
  payload : Vol.ofDisk sb.toSuperblock b.payload = v
  next : b.nextBlock = next

variable {inode : Inode} {l : List Nat} {m : Nat} {entries : List (Nat × Nat × List UInt8)}

section
variable (hgeo : sb.toSuperblock.Geometry)
include hgeo

/-- `_mark_block`. -/
theorem Holds.markBlock (h : Holds b sb next v) (hk : k < sb.blockBitmapBlocks * 32768) :
    ∃ b', b.markBlock k = .ok b' ∧ Holds b' sb next (v.setB k true) := by
  have h1 := hgeo.blockBitmapStart
  have h2 := hgeo.inodeBitmapStart
  have h3 := hgeo.inodeTableStart
  have h4 := hgeo.dataStart
  have h5 := hgeo.dataStart_lt
  have hset : bitmapSet b.payload b.length (b.superblock.blockBitmapStart * 4096) k = _ :=
    bitmapSet_eq (by rw [Builder.length, h.superblock]; omega)
  refine ⟨_, bind_eq_ok.2 ⟨_, hset, rfl⟩, h.superblock, ?_, h.next⟩
  rw [h.superblock, Vol.ofDisk_writeBlockBit hgeo hk, h.payload]

/-- `_mark_inode`. -/
theorem Holds.markInode (h : Holds b sb next v) (hk : k < sb.inodeBitmapBlocks * 32768) :
    ∃ b', b.markInode k = .ok b' ∧ Holds b' sb next (v.setI k true) := by
  have h2 := hgeo.inodeBitmapStart
  have h3 := hgeo.inodeTableStart
  have h4 := hgeo.dataStart
  have h5 := hgeo.dataStart_lt
  have hset : bitmapSet b.payload b.length (b.superblock.inodeBitmapStart * 4096) k = _ :=
    bitmapSet_eq (by rw [Builder.length, h.superblock]; omega)
  refine ⟨_, bind_eq_ok.2 ⟨_, hset, rfl⟩, h.superblock, ?_, h.next⟩
  rw [h.superblock, Vol.ofDisk_writeInodeBit hgeo hk, h.payload]

/-- A slice of a data block. -/
theorem Holds.assign (h : Holds b sb next v) (hk : sb.dataStart ≤ k ∧ k < sb.totalBlocks)
    (hoff : off < 4096) :
    Holds { b with payload := Tools.assign b.payload (k * 4096 + off) value } sb next
      (v.setData k ((v.data k).copyBytes off (bytesOf value) value.length)) := by
  refine ⟨h.superblock, ?_, h.next⟩
  rw [assign_eq hoff, Vol.ofDisk_writeData hgeo hk.1 hk.2, h.payload, ← h.payload,
    Vol.data_ofDisk hk.1 hk.2]

/-- `write_inode`: the record and its mark. -/
theorem Holds.writeInode (h : Holds b sb next v) (hn : n < sb.totalInodes)
    {record : List UInt8} (hrecord : encodeInode inode = .ok record) :
    ∃ b', b.writeInode n inode = .ok b' ∧ Holds b' sb next ((v.setIno n inode).setI n true) := by
  obtain ⟨hlength, hread⟩ := ofBytes_encodeInode hrecord
  have hoffset : sb.inodeTableStart * 4096 + n * 64 =
      (sb.inodeTableStart + n / 64) * 4096 + n % 64 * 64 := by omega
  have hholds : Holds ⟨b.superblock, Tools.assign b.payload (b.superblock.inodeTableStart * 4096 + n * 64) record,
      b.nextBlock⟩ sb next (v.setIno n inode) := by
    refine ⟨h.superblock, ?_, h.next⟩
    rw [h.superblock, hoffset, assign_eq (by omega), Vol.ofDisk_writeRecord hgeo (hgeo.record_lt hn) ?_ ?_,
      h.payload]
    · rw [← hread]
      refine Inode.ofBytes_congr fun i hi => ?_
      rw [Block.ptr_apply, Block.byte_copyBytes_of_mem (by omega) (by omega) (by omega),
        Nat.add_sub_cancel_left]
    · exact fun i hi => Block.byte_copyBytes_of_not_mem (by omega)
  obtain ⟨b', hmark, hb'⟩ := hholds.markInode hgeo (hgeo.inode_lt hn)
  refine ⟨b', failIf_bind_eq_ok.2 ⟨?_, bind_eq_ok.2 ⟨record, hrecord, hmark⟩⟩, hb'⟩
  rw [h.superblock]
  exact Nat.not_le.2 hn

omit hgeo in
/-- The loops of `Builder.__init__` over the bitmaps: what is in `l` is marked. -/
theorem Holds.marks {mark : Builder → Nat → Except MiniFsError Builder} {limit : Nat} (shape : (Nat → Bool) → Vol)
    (hmark : ∀ {b m k}, Holds b sb next (shape m) → k < limit →
      ∃ b', mark b k = .ok b' ∧ Holds b' sb next (shape (Function.update m k true))) :
    ∀ {b m}, Holds b sb next (shape m) → (∀ k ∈ l, k < limit) →
      ∃ b', l.foldlM mark b = .ok b' ∧ Holds b' sb next (shape fun k => m k || decide (k ∈ l)) := by
  induction l with
  | nil => exact fun {b m} h _ => ⟨b, rfl, by simpa using h⟩
  | cons a l ih =>
    intro b m h hl
    obtain ⟨ha, hl⟩ := List.forall_mem_cons.1 hl
    obtain ⟨b₁, hb₁, h₁⟩ := hmark h ha
    obtain ⟨b', hloop, h'⟩ := ih h₁ hl
    refine ⟨b', by rwa [List.foldlM_cons, hb₁], ?_⟩
    convert h' using 3 with k
    by_cases hk : k = a
    · simp [hk]
    · simp [hk]

end

/-! ## Between two files -/

/-- The blocks from `next` on are free and zero. -/
def Fresh (v : Vol) (sb : MiniOrange.Superblock) (next : Nat) : Prop :=
  ∀ k, next ≤ k → k < sb.totalBlocks → v.bmap k = false ∧ v.data k = .zero

/-- The builder holds the files of `L`, in the blocks before `next`. -/
structure Building (b : Builder) (sb : Superblock) (L : Finset Nat) (next : Nat) (v : Vol) : Prop where
  holds : Holds b sb next v
  solid : v.Solid sb.toSuperblock L
  start : sb.dataStart ≤ next
  fresh : Fresh v sb.toSuperblock next

/-- The volume of a payload of zeros. -/
theorem ofDisk_zero (sb : MiniOrange.Superblock) :
    Vol.ofDisk sb (fun _ => .zero) = ⟨fun _ => false, fun _ => false, fun _ => .zero, fun _ => .zero⟩ := by
  have hbit : ∀ k, Block.zero.bit k = false := fun k => by simp [Block.bit, bitSet]
  have hino : ∀ off, Inode.ofBytes (Block.zero.ptr off) = .zero := fun off =>
    Inode.ofBytes_eq_zero.2 fun i _ => by simp
  unfold Vol.ofDisk
  simp [hbit, hino]

theorem makeSuperblock_totals {totalBlocks totalInodes : Nat}
    (h : makeSuperblock totalBlocks totalInodes = .ok sb) :
    sb.totalBlocks = totalBlocks ∧ sb.totalInodes = totalInodes := by
  unfold makeSuperblock at h
  obtain ⟨-, h⟩ := failIf_bind_eq_ok.1 h
  obtain ⟨-, h⟩ := failIf_bind_eq_ok.1 h
  obtain rfl := Except.ok.inj h
  exact ⟨rfl, rfl⟩

/-- The builder starts with no file. -/
theorem init_building {totalBlocks totalInodes : Nat} (hsb : makeSuperblock totalBlocks totalInodes = .ok sb)
    (hgeo : sb.toSuperblock.Geometry) :
    ∃ b v, Builder.init totalBlocks totalInodes = .ok b ∧ Building b sb ∅ sb.dataStart v := by
  obtain ⟨rfl, rfl⟩ := makeSuperblock_totals hsb
  have hdata := hgeo.dataStart_lt
  have hzero : Holds ⟨sb, fun _ => .zero, sb.dataStart⟩ sb sb.dataStart
      ⟨fun _ => false, fun _ => false, fun _ => .zero, fun _ => .zero⟩ := ⟨rfl, ofDisk_zero _, rfl⟩
  obtain ⟨b₁, hrun₁, h₁⟩ := hzero.marks (⟨·, fun _ => false, fun _ => .zero, fun _ => .zero⟩)
    (fun h => h.markBlock hgeo) (l := List.range sb.dataStart) fun k hk =>
      hgeo.block_lt (Nat.lt_trans (List.mem_range.1 hk) hdata)
  obtain ⟨b₂, hrun₂, h₂⟩ := h₁.marks (⟨·, fun _ => false, fun _ => .zero, fun _ => .zero⟩) (fun h => h.markBlock hgeo)
    (l := List.range' sb.totalBlocks (sb.blockBitmapBlocks * 4096 * 8 - sb.totalBlocks)) fun k hk => by
      have := List.mem_range'_1.1 hk
      omega
  obtain ⟨b₃, hrun₃, h₃⟩ := h₂.marks (⟨_, ·, fun _ => .zero, fun _ => .zero⟩) (fun h => h.markInode hgeo)
    (l := List.range' sb.totalInodes (sb.inodeBitmapBlocks * 4096 * 8 - sb.totalInodes)) fun k hk => by
      have := List.mem_range'_1.1 hk
      omega
  generalize hv₃ : (⟨_, _, fun _ => .zero, fun _ => .zero⟩ : Vol) = v₃ at h₃
  have hbmap : ∀ k, v₃.bmap k = true ↔ k < sb.dataStart ∨ (sb.totalBlocks ≤ k ∧ k < sb.blockBitmapBlocks * 32768) := by
    intro k
    simp only [← hv₃, Bool.false_or, Bool.or_eq_true, decide_eq_true_eq, List.mem_range, List.mem_range'_1]
    exact or_congr_right (by omega)
  have himap : ∀ k, v₃.imap k = true ↔ sb.totalInodes ≤ k ∧ k < sb.inodeBitmapBlocks * 32768 := by
    intro k
    simp only [← hv₃, Bool.false_or, decide_eq_true_eq, List.mem_range'_1]
    omega
  refine ⟨b₃, v₃, bind_eq_ok.2 ⟨sb, hsb, bind_eq_ok.2 ⟨b₁, hrun₁, bind_eq_ok.2 ⟨b₂, hrun₂, hrun₃⟩⟩⟩, h₃, ?_,
    le_rfl, fun k hk hk' => ⟨?_, by rw [← hv₃]⟩⟩
  · have hnone : ∀ n, n ∉ (∅ : Finset Nat) := Finset.notMem_empty
    refine ⟨.empty _ _, fun k hk => ?_, ?_, fun n hn _ => ⟨?_, by rw [← hv₃]⟩, ?_, ?_⟩
    · rw [hbmap]
      refine or_congr_right (iff_of_false (by omega) ?_)
      rintro ⟨n, hn, -⟩
      exact hnone n hn
    · exact fun n hn => absurd hn (hnone n)
    · exact Bool.eq_false_iff.2 fun h => absurd ((himap n).1 h).1 (Nat.not_le.2 hn)
    · exact fun k hk hk' => (hbmap k).2 (.inr ⟨hk, hk'⟩)
    · exact fun k hk hk' => (himap k).2 ⟨hk, hk'⟩
  · refine Bool.eq_false_iff.2 fun h => ?_
    have := (hbmap k).1 h
    omega

/-! ## Within a file -/

/-- The builder is writing file `c`, which has taken the `count` blocks from `first` on. -/
structure Writing (b : Builder) (sb : Superblock) (v w : Vol) (L : Finset Nat) (c first count : Nat) :
    Prop where
  holds : Holds b sb (first + count) w
  beside : Vol.Beside v w sb.toSuperblock L c (Finset.Ico first (first + count))
  imap : w.imap = v.imap
  ino : w.ino = v.ino
  fresh : Fresh w sb.toSuperblock (first + count)

/-- A file begins. -/
theorem Building.writing (h : Building b sb L next v) (c : Nat) : Writing b sb v v L c next 0 :=
  ⟨h.holds, by simpa using .refl v sb.toSuperblock L c, rfl, rfl, h.fresh⟩

section
variable (hgeo : sb.toSuperblock.Geometry) (hown : v.Owns sb.toSuperblock L) (hstart : sb.dataStart ≤ first)
include hgeo hown hstart

/-- `allocate_block` takes the next block, if there is one left. -/
theorem Writing.allocateBlock (h : Writing b sb v w L c first count) :
    Yields b.allocateBlock (first + count < sb.totalBlocks) fun r =>
      r.2 = first + count ∧ Writing r.1 sb v (w.setB (first + count) true) L c first (count + 1) := by
  have hnext : Holds ⟨sb, b.payload, first + count + 1⟩ sb (first + (count + 1)) w :=
    ⟨rfl, h.holds.payload, rfl⟩
  rw [Builder.allocateBlock, h.holds.next, h.holds.superblock]
  refine Yields.congr (Yields.failIf fun hlt => ?_) (by rw [and_true, not_le])
  rw [not_le] at hlt
  obtain ⟨b', hmark, hb'⟩ := hnext.markBlock hgeo (hgeo.block_lt hlt)
  dsimp only
  rw [hmark]
  refine Yields.ok ⟨rfl, hb', ?_, h.imap, h.ino, fun k hk hk' => ?_⟩
  · have hblocks : Finset.Ico first (first + (count + 1)) =
        insert (first + count) (Finset.Ico first (first + count)) := by
      ext k
      simp only [Finset.mem_Ico, Finset.mem_insert]
      omega
    rw [hblocks]
    exact h.beside.setB hown ⟨by omega, hlt⟩ (h.fresh (first + count) le_rfl hlt).1
  · rw [Vol.setB_of_ne (by omega)]
    exact h.fresh k (by omega) hk'

theorem Writing.assign (h : Writing b sb v w L c first count) (value : List UInt8) (hk : k < count)
    (hlt : first + count ≤ sb.totalBlocks) (hoff : off < 4096) :
    Writing { b with payload := Tools.assign b.payload ((first + k) * 4096 + off) value } sb v
      (w.setData (first + k) ((w.data (first + k)).copyBytes off (bytesOf value) value.length)) L c first
      count := by
  refine ⟨h.holds.assign hgeo ⟨by omega, by omega⟩ hoff,
    h.beside.setData hown (Finset.mem_Ico.2 ⟨by omega, by omega⟩), h.imap, h.ino, fun i hi hi' => ?_⟩
  rw [Vol.setData_of_ne (by omega)]
  exact h.fresh i hi hi'

/-- The bytes of a block that was taken and is blank. -/
theorem Writing.assignBlank (h : Writing b sb v w L c first count) (value : List UInt8) (hk : k < count)
    (hlt : first + count ≤ sb.totalBlocks) (hblank : w.data (first + k) = .zero) :
    Writing { b with payload := Tools.assign b.payload ((first + k) * 4096) value } sb v
      (w.setData (first + k) (Block.zero.copyBytes 0 (bytesOf value) value.length)) L c first count := by
  have hslice : Writing { b with payload := Tools.assign b.payload ((first + k) * 4096 + 0) value } sb v
      (w.setData (first + k) ((w.data (first + k)).copyBytes 0 (bytesOf value) value.length)) L c first
      count := h.assign hgeo hown hstart value hk hlt (by decide)
  rwa [Nat.add_zero, hblank] at hslice

end

/-! ## The blocks of a file -/

/-- Block `index` of a file with the bytes `payload`, zeros behind its end. -/
def chunkBlock (payload : List UInt8) (index : Nat) : Block := fun i => payload.getD (index * 4096 + i.val) 0

theorem byte_chunkBlock {payload : List UInt8} {index i : Nat} (hi : i < 4096) :
    (chunkBlock payload index).byte i = payload.getD (index * 4096 + i) 0 := dif_pos hi

/-- A chunk written into a blank block. -/
theorem copyBytes_chunk (payload : List UInt8) (index : Nat) :
    Block.zero.copyBytes 0 (bytesOf ((payload.drop (index * 4096)).take 4096))
      ((payload.drop (index * 4096)).take 4096).length = chunkBlock payload index := by
  ext i hi
  rw [byte_chunkBlock hi, Block.byte_copyBytes, Block.byte_zero]
  have hlength : ((payload.drop (index * 4096)).take 4096).length = min 4096 (payload.length - index * 4096) := by
    simp
  by_cases hin : index * 4096 + i < payload.length
  · rw [if_pos (by omega), bytesOf, Nat.sub_zero, List.getD_eq_getElem?_getD, List.getElem?_take_of_lt hi,
      List.getElem?_drop, List.getD_eq_getElem?_getD]
  · rw [if_neg (by omega), List.getD_eq_default _ _ (by omega)]

/-- A packed word written into a block. -/
theorem copyBytes_pack (block : Block) (x : Nat) :
    block.copyBytes off (bytesOf ((List.range 4).map (leByte x))) ((List.range 4).map (leByte x)).length =
      block.writeLe32 off x := by
  ext i hi
  rw [Block.writeLe32, Block.byte_copyBytes, Block.byte_copyBytes, List.length_map, List.length_range]
  by_cases hin : off ≤ i ∧ i < off + 4 ∧ i < 4096
  · have hlt : i - off < 4 := by omega
    rw [if_pos hin, if_pos hin]
    simp [bytesOf, List.getD, hlt]
  · rw [if_neg hin, if_neg hin]

section
variable (hgeo : sb.toSuperblock.Geometry) (hown : v.Owns sb.toSuperblock L) (hstart : sb.dataStart ≤ first)
include hgeo hown hstart

/-- The loop over the blocks of a file, from block `count` on. -/
theorem Writing.writeChunks {payload : List UInt8} : ∀ {count b w}, Writing b sb v w L c first count →
    first + count ≤ sb.totalBlocks → (∀ k < count, w.data (first + k) = chunkBlock payload k) →
    Yields (Builder.writeChunks payload (List.range' count m) b ((List.range count).map (first + ·)))
      (first + count + m ≤ sb.totalBlocks) fun r => r.2 = (List.range (count + m)).map (first + ·) ∧
        ∃ w', Writing r.1 sb v w' L c first (count + m) ∧
          ∀ k < count + m, w'.data (first + k) = chunkBlock payload k := by
  induction m with
  | zero => exact fun {count b w} h hle hdata => .of_eq_ok rfl hle ⟨rfl, w, h, hdata⟩
  | succ m ih =>
    intro count b w h hle hdata
    rw [List.range'_succ, Builder.writeChunks]
    refine (h.allocateBlock hgeo hown hstart).bind (by omega) fun r hlt hr => ?_
    obtain ⟨b₁, block⟩ := r
    obtain ⟨rfl, h₁⟩ := hr
    have h₂ := h₁.assignBlank hgeo hown hstart ((payload.drop (count * 4096)).take 4096)
      (Nat.lt_succ_self count) (by omega) (h.fresh (first + count) le_rfl hlt).2
    rw [copyBytes_chunk] at h₂
    have hrest := ih h₂ (by omega) fun k hk => by
      rcases Nat.lt_succ_iff_lt_or_eq.1 hk with hlt | rfl
      · rw [Vol.setData_of_ne (by omega)]
        exact hdata k hlt
      · exact Vol.setData_self ..
    rw [show first + (count + 1) + m = first + count + (m + 1) by omega,
      show count + 1 + m = count + (m + 1) by omega, List.range_succ, List.map_append] at hrest
    exact hrest

/-- The loop over the pointers in the indirect block, from pointer `index` on. -/
theorem Writing.writePointers : ∀ (index : Nat) {b w}, Writing b sb v w L c first count →
    first + count ≤ sb.totalBlocks → k < count → (∀ x ∈ l, x < 2 ^ 32) → index + l.length ≤ 1024 →
    ∃ b' block, Builder.writePointers (first + k) l index b = .ok b' ∧
      Writing b' sb v (w.setData (first + k) block) L c first count ∧
      ∀ j, block.pointer j = if index ≤ j ∧ j < index + l.length then l.getD (j - index) 0
        else (w.data (first + k)).pointer j := by
  induction l with
  | nil =>
    intro index b w h _ _ _ _
    refine ⟨b, w.data (first + k), rfl, ?_, fun j => ?_⟩
    · have hself : w.setData (first + k) (w.data (first + k)) = w := by
        unfold Vol.setData
        rw [Function.update_eq_self]
      rwa [hself]
    · rw [if_neg (by simp)]
  | cons x l ih =>
    intro index b w h hle hk hl hindex
    obtain ⟨hx, hl⟩ := List.forall_mem_cons.1 hl
    rw [List.length_cons] at hindex
    have hpack : pack 4 x = .ok ((List.range 4).map (leByte x)) := pack_eq_ok.2 ⟨hx, rfl⟩
    have h₁ := h.assign hgeo hown hstart ((List.range 4).map (leByte x)) hk hle
      (show index * 4 < 4096 by omega)
    rw [copyBytes_pack] at h₁
    obtain ⟨b', block, hrun, hb', hptr⟩ := ih (index + 1) h₁ hle hk hl (by omega)
    refine ⟨b', block, ?_, ?_, fun j => ?_⟩
    · rw [Builder.writePointers, hpack]
      exact hrun
    · have hset : (w.setData (first + k) ((w.data (first + k)).writeLe32 (index * 4) x)).setData (first + k)
          block = w.setData (first + k) block := by
        unfold Vol.setData
        rw [Function.update_idem]
      rwa [hset] at hb'
    · rw [hptr j, Vol.setData_self, Block.pointer_writeLe32 (by omega) hx, List.length_cons]
      rcases Nat.lt_trichotomy j index with hlt | rfl | hgt
      · rw [if_neg (by omega), if_neg (by omega), if_neg (by omega)]
      · rw [if_neg (by omega), if_pos rfl, if_pos (by omega), Nat.sub_self]
        rfl
      · rw [if_neg (show ¬ j = index by omega), show j - index = (j - (index + 1)) + 1 by omega,
          List.getD_cons_succ]
        exact if_congr (by omega) rfl rfl

end

/-! ## The record of a file -/

/-- Fields that fit are packed. -/
theorem exists_packAll {width : Nat} {values : List Nat} (h : ∀ x ∈ values, x < 2 ^ (8 * width)) :
    ∃ l, packAll width values = .ok l := by
  induction values with
  | nil => exact ⟨_, rfl⟩
  | cons x values ih =>
    obtain ⟨hx, hvalues⟩ := List.forall_mem_cons.1 h
    obtain ⟨l, hl⟩ := ih hvalues
    exact ⟨_, bind_eq_ok.2 ⟨_, pack_eq_ok.2 ⟨hx, rfl⟩, bind_eq_ok.2 ⟨l, hl, rfl⟩⟩⟩

/-- A record whose fields fit is encoded. -/
theorem exists_encodeInode (h : inode.Fits) : ∃ l, encodeInode inode = .ok l := by
  obtain ⟨short, hshort⟩ : ∃ l, packAll 2 [inode.mode, inode.linkCount] = .ok l :=
    exists_packAll fun x hx => by
      rcases List.mem_pair.1 hx with rfl | rfl
      · exact h.mode
      · exact h.linkCount
  obtain ⟨long, hlong⟩ : ∃ l, packAll 4 ([inode.size] ++ (List.finRange 10).map inode.direct ++
      [inode.indirect, inode.createdTick, inode.modifiedTick, inode.reserved]) = .ok l :=
    exists_packAll fun x hx => by
      simp only [List.mem_append, List.mem_map, List.mem_cons, List.not_mem_nil, or_false] at hx
      rcases hx with (rfl | ⟨k, -, rfl⟩) | rfl | rfl | rfl | rfl
      · exact h.size
      · exact h.direct k
      · exact h.indirect
      · exact h.createdTick
      · exact h.modifiedTick
      · rw [h.reserved]
        decide
  exact ⟨_, bind_eq_ok.2 ⟨short, hshort, bind_eq_ok.2 ⟨long, hlong, rfl⟩⟩⟩

/-- A file in consecutive blocks, the indirect block behind those of the file, is complete. -/
theorem complete_of_consecutive (himap : w.imap c = true) (hok : (w.ino c).Ok)
    (hends : w.PointersEnd c) (hdata : ∀ k < blocksOf (w.ino c).size, w.fileBlock c k = first + k)
    (hindirect : 10 < blocksOf (w.ino c).size → (w.ino c).indirect = first + blocksOf (w.ino c).size)
    (hcount : count = if 10 < blocksOf (w.ino c).size then blocksOf (w.ino c).size + 1
      else blocksOf (w.ino c).size) : w.Complete c (Finset.Ico first (first + count)) := by
  refine ⟨himap, hok, fun b => ?_, fun t u ht hu heq => ?_, hends⟩
  · rw [Finset.mem_Ico]
    constructor
    · rintro ⟨hge, hlt⟩
      by_cases hdirect : b < first + blocksOf (w.ino c).size
      · exact ⟨.data (b - first), show _ < _ by omega, (hdata _ (by omega)).trans (by omega)⟩
      · have hmany : 10 < blocksOf (w.ino c).size := by
          by_contra hfew
          rw [if_neg hfew] at hcount
          omega
        rw [if_pos hmany] at hcount
        exact ⟨.indirect, hmany, (hindirect hmany).trans (by omega)⟩
    · rintro ⟨t, ht, rfl⟩
      cases t with
      | data k =>
        have hk : k < blocksOf (w.ino c).size := ht
        rw [Vol.slotBlock, hdata k hk]
        split at hcount <;> omega
      | indirect =>
        have hmany : 10 < blocksOf (w.ino c).size := ht
        rw [Vol.slotBlock, hindirect hmany]
        rw [if_pos hmany] at hcount
        omega
  · cases t with
    | data k =>
      have hk : k < blocksOf (w.ino c).size := ht
      cases u with
      | data j =>
        have hj : j < blocksOf (w.ino c).size := hu
        rw [Vol.slotBlock, Vol.slotBlock, hdata k hk, hdata j hj] at heq
        rw [Nat.add_left_cancel heq]
      | indirect =>
        rw [Vol.slotBlock, Vol.slotBlock, hdata k hk, hindirect hu] at heq
        omega
    | indirect =>
      cases u with
      | data j =>
        have hj : j < blocksOf (w.ino c).size := hu
        rw [Vol.slotBlock, Vol.slotBlock, hdata j hj, hindirect ht] at heq
        omega
      | indirect => rfl

/-- The record of a file ends it: the builder holds one file more, and the others are as before. -/
theorem Writing.close (hgeo : sb.toSuperblock.Geometry) (h : Writing b sb v w L c first count)
    (hbuild : v.Solid sb.toSuperblock L) (hstart : sb.dataStart ≤ first) (hc : c ∉ L)
    (hlt : c < sb.totalInodes) (hfits : inode.Fits)
    (hcomplete : ((w.setIno c inode).setI c true).Complete c (Finset.Ico first (first + count))) :
    ∃ b', b.writeInode c inode = .ok b' ∧
      Building b' sb (insert c L) (first + count) ((w.setIno c inode).setI c true) ∧
      ∀ m ∈ L, Vol.Kept v ((w.setIno c inode).setI c true) m := by
  obtain ⟨record, hrecord⟩ := exists_encodeInode hfits
  obtain ⟨b', hrun, hb'⟩ := h.holds.writeInode hgeo hlt hrecord
  have hbeside : Vol.Beside v ((w.setIno c inode).setI c true) sb.toSuperblock L c _ :=
    (h.beside.setIno hc).setI hc
  exact ⟨b', hrun, ⟨hb', hbeside.solid hcomplete hbuild hlt, by omega, h.fresh⟩, hbeside.kept⟩

/-! ## `write_file` -/

/-- The number of blocks a file of `size` bytes takes, its indirect block included. -/
def blocksTaken (size : Nat) : Nat := if 10 < blocksOf size then blocksOf size + 1 else blocksOf size

/-- The bytes of a file in consecutive blocks. -/
theorem content_of_chunks {payload : List UInt8} (hsize : (w.ino c).size = payload.length)
    (hblock : ∀ k < blocksOf payload.length, w.fileBlock c k = first + k)
    (hdata : ∀ k < blocksOf payload.length, w.data (first + k) = chunkBlock payload k) :
    w.content c = payload := by
  refine List.ext_getElem (by simp [Vol.content, hsize]) fun o ho ho' => ?_
  have hlt : o / 4096 < blocksOf payload.length := Vol.div_lt_blocksOf ho'
  simp only [Vol.content, List.getElem_map, List.getElem_range, Vol.byteAt]
  rw [hblock _ hlt, hdata _ hlt, byte_chunkBlock (Nat.mod_lt _ (by decide)),
    show o / 4096 * 4096 + o % 4096 = o by omega, List.getD_eq_getElem]

/-- The pointers to the blocks of a file, by its list of blocks. -/
theorem getD_blocks : ((List.range m).map (first + ·)).getD k 0 = if k < m then first + k else 0 := by
  split
  · next h => simp [List.getD, h]
  · next h => rw [List.getD_eq_default _ _ (by simpa using h)]

/-- The record of a file in consecutive blocks. -/
def fileRecord (first size indirect : Nat) : Inode :=
  ⟨1, 1, size, fun k => ((List.range (blocksOf size)).map (first + ·)).getD k.val 0, indirect, 0, 0, 0⟩

section
variable {size indirect : Nat}

theorem directAt_fileRecord (hk : k < 10) (hlt : k < blocksOf size) :
    (fileRecord first size indirect).directAt k = first + k := by
  rw [Inode.directAt, dif_pos hk]
  exact getD_blocks.trans (if_pos hlt)

theorem ok_fileRecord (hpos : 0 < first) (hsize : blocksOf size ≤ 1034)
    (hindirect : indirect ≠ 0 ↔ 10 < blocksOf size) : (fileRecord first size indirect).Ok where
  mode := .inl rfl
  linkCount := Nat.one_ne_zero
  size_le := blocksOf_le.1 hsize
  reserved := rfl
  dir_size := nofun
  direct k := by
    show ((List.range (blocksOf size)).map (first + ·)).getD k.val 0 ≠ 0 ↔ k.val < blocksOf size
    rw [getD_blocks]
    split
    · next h => exact iff_of_true (by omega) h
    · next h => exact iff_of_false (by simp) h
  indirect := hindirect

theorem fits_fileRecord (hsize : blocksOf size ≤ 1034) (hfirst : first + blocksOf size ≤ 2 ^ 32)
    (hindirect : indirect < 2 ^ 32) : (fileRecord first size indirect).Fits where
  mode := show 1 < 2 ^ 16 by decide
  linkCount := show 1 < 2 ^ 16 by decide
  size := by
    have hsize := blocksOf_le.1 hsize
    show size < 2 ^ 32
    omega
  direct k := by
    show ((List.range (blocksOf size)).map (first + ·)).getD k.val 0 < 2 ^ 32
    rw [getD_blocks]
    split <;> omega
  indirect := hindirect
  createdTick := show 0 < 2 ^ 32 by decide
  modifiedTick := show 0 < 2 ^ 32 by decide
  reserved := rfl

end

/-- With its record and its pointers a file in consecutive blocks is complete. -/
theorem complete_file {size indirect : Nat} (hino : w.ino c = fileRecord first size indirect)
    (himap : w.imap c = true) (hpos : 0 < first) (hsize : blocksOf size ≤ 1034)
    (hindirect : indirect = if 10 < blocksOf size then first + blocksOf size else 0)
    (hpointer : 10 < blocksOf size → ∀ j < 1024,
      (w.data indirect).pointer j = if j < blocksOf size - 10 then first + (j + 10) else 0) :
    w.Complete c (Finset.Ico first (first + blocksTaken size)) ∧
      ∀ k < blocksOf size, w.fileBlock c k = first + k := by
  have hblock : ∀ k < blocksOf size, w.fileBlock c k = first + k := by
    intro k hk
    rw [Vol.fileBlock, hino]
    rcases Nat.lt_or_ge k 10 with hten | hten
    · rw [if_pos hten, directAt_fileRecord hten hk]
    · rw [if_neg (Nat.not_lt.2 hten)]
      show (w.data indirect).pointer (k - 10) = first + k
      rw [hpointer (by omega) _ (by omega), if_pos (by omega), show k - 10 + 10 = k by omega]
  have hmany : indirect ≠ 0 ↔ 10 < blocksOf size := by
    rw [hindirect]
    split
    · next h => exact iff_of_true (by omega) h
    · next h => exact iff_of_false (by simp) h
  refine ⟨complete_of_consecutive himap ?_ ?_ ?_ ?_ ?_, hblock⟩
  · rw [hino]
    exact ok_fileRecord hpos hsize hmany
  · intro hbig j hj hend
    rw [hino] at hbig hend ⊢
    show (w.data indirect).pointer j = 0
    rw [hpointer hbig j hj]
    exact if_neg fun hlt => by
      have : blocksOf size ≤ j + 10 := hend
      omega
  · rw [hino]
    exact hblock
  · rw [hino]
    intro hbig
    exact hindirect.trans (if_pos hbig)
  · rw [hino]
    rfl

/-- `write_file` writes the file into the next blocks, if there are enough. -/
theorem Building.writeFile (hgeo : sb.toSuperblock.Geometry) (h : Building b sb L next v) (hc : c ∉ L)
    (hlt : c < sb.totalInodes) (hle : next ≤ sb.totalBlocks) {payload : List UInt8} :
    Yields (b.writeFile c payload)
      (blocksOf payload.length ≤ 1034 ∧ next + blocksTaken payload.length ≤ sb.totalBlocks) fun b' =>
      ∃ w, Building b' sb (insert c L) (next + blocksTaken payload.length) w ∧ (∀ m ∈ L, Vol.Kept v w m) ∧
        (w.ino c).mode = 1 ∧ (w.ino c).linkCount = 1 ∧ w.content c = payload := by
  have hown := h.solid.owns
  have htotal := hgeo.totalBlocks_lt
  have hpos : 0 < next := Nat.lt_of_lt_of_le hgeo.dataStart_pos h.start
  have hchunks := (h.writing c).writeChunks (m := blocksOf payload.length) hgeo hown h.start hle
    (fun k (hk : k < 0) => absurd hk (Nat.not_lt_zero k) : ∀ k < 0, v.data (next + k) = chunkBlock payload k)
  rw [← List.range_eq_range', Nat.zero_add, Nat.add_zero] at hchunks
  rw [Builder.writeFile, blocksForBytes_eq (by decide), ← not_lt]
  refine Yields.failIf fun hsize => hchunks.bind (fun hroom => ?_) fun r hroom hr => ?_
  · unfold blocksTaken at hroom
    split at hroom <;> omega
  obtain ⟨b₁, blocks⟩ := r
  obtain ⟨rfl, w₁, h₁, hdata₁⟩ := hr
  replace hsize : blocksOf payload.length ≤ 1034 := not_lt.1 hsize
  dsimp only at h₁ ⊢
  by_cases hmany : 10 < blocksOf payload.length
  · have htaken : blocksTaken payload.length = blocksOf payload.length + 1 := if_pos hmany
    rw [if_pos hmany]
    refine (h₁.allocateBlock hgeo hown h.start).bind (by omega) fun r hnext hr => ?_
    obtain ⟨b₂, indirect⟩ := r
    obtain ⟨rfl, h₂⟩ := hr
    have hlength : (((List.range (blocksOf payload.length)).map (next + ·)).drop 10).length =
        blocksOf payload.length - 10 := by simp
    have hsmall : ∀ x ∈ ((List.range (blocksOf payload.length)).map (next + ·)).drop 10, x < 2 ^ 32 := by
      intro x hx
      obtain ⟨k, hk, rfl⟩ := List.mem_map.1 (List.mem_of_mem_drop hx)
      have := List.mem_range.1 hk
      omega
    obtain ⟨b₃, block, hpointers, h₃, hptr⟩ := h₂.writePointers hgeo hown h.start 0 (by omega)
      (Nat.lt_succ_self _) hsmall (by omega)
    have hblank : (w₁.setB (next + blocksOf payload.length) true).data (next + blocksOf payload.length) = .zero :=
      (h₁.fresh _ le_rfl (by omega)).2
    generalize hw₃ : (w₁.setB (next + blocksOf payload.length) true).setData (next + blocksOf payload.length)
      block = w₃ at h₃
    have hino : ((w₃.setIno c (fileRecord next payload.length (next + blocksOf payload.length))).setI c true).ino c =
        fileRecord next payload.length (next + blocksOf payload.length) := Vol.setIno_self ..
    obtain ⟨hcomplete, hblock⟩ := complete_file hino (Vol.setI_self ..) hpos hsize (if_pos hmany).symm
      fun _ j hj => by
        show (w₃.data (next + blocksOf payload.length)).pointer j = _
        rw [← hw₃, Vol.setData_self, hptr j, hlength, hblank, Block.pointer_zero]
        by_cases hlt : j < blocksOf payload.length - 10
        · rw [if_pos (by omega), if_pos hlt, List.getD_eq_getElem?_getD, List.getElem?_drop,
            ← List.getD_eq_getElem?_getD, getD_blocks, if_pos (by omega)]
          omega
        · rw [if_neg (by omega), if_neg hlt]
    rw [htaken] at hcomplete ⊢
    obtain ⟨b', hwrite, hbuild, hkept⟩ := h₃.close hgeo h.solid h.start hc hlt
      (fits_fileRecord hsize (by omega) (by omega)) hcomplete
    refine .of_eq_ok (bind_eq_ok.2 ⟨b₃, hpointers, hwrite⟩) (by omega) ⟨_, hbuild, hkept, by rw [hino]; rfl, by rw [hino]; rfl,
      content_of_chunks (by rw [hino]; rfl) hblock fun k hk => ?_⟩
    show w₃.data (next + k) = _
    rw [← hw₃, Vol.setData_of_ne (by omega)]
    exact hdata₁ k hk
  · have htaken : blocksTaken payload.length = blocksOf payload.length := if_neg hmany
    have hino : ((w₁.setIno c (fileRecord next payload.length 0)).setI c true).ino c =
        fileRecord next payload.length 0 := Vol.setIno_self ..
    obtain ⟨hcomplete, hblock⟩ := complete_file hino (Vol.setI_self ..) hpos hsize (if_neg hmany).symm
      fun hbig => absurd hbig hmany
    rw [htaken] at hcomplete ⊢
    obtain ⟨b', hwrite, hbuild, hkept⟩ := h₁.close hgeo h.solid h.start hc hlt
      (fits_fileRecord hsize (by omega) (by decide)) hcomplete
    rw [if_neg hmany]
    exact .of_eq_ok hwrite hroom ⟨_, hbuild, hkept, by rw [hino]; rfl, by rw [hino]; rfl,
      content_of_chunks (by rw [hino]; rfl) hblock hdata₁⟩

/-! ## `write_directory` -/

/-- An entry of a directory as it is written. -/
def entryOf (item : Nat × Nat × List UInt8) : Entry := .of item.1 item.2.1 item.2.2

/-- The entries of a directory read back, and each has a name and a type the kernel accepts. -/
theorem encodeEntries_eq_ok : ∀ {content : List UInt8},
    Builder.encodeEntries entries = .ok content → content.length = entries.length * 64 ∧
      (∀ j (hj : j < entries.length),
        Entry.ofBytes (fun i => bytesOf content (j * 64 + i)) = entryOf (entries.get ⟨j, hj⟩)) ∧
      ∀ item ∈ entries, Entry.GoodLabel item.2.2 ∧ (item.2.1 = 1 ∨ item.2.1 = 2) := by
  induction entries with
  | nil =>
    intro content h
    obtain rfl := Except.ok.inj h
    exact ⟨rfl, fun j hj => absurd hj (Nat.not_lt_zero j), fun item hitem => absurd hitem List.not_mem_nil⟩
  | cons item entries ih =>
    intro content h
    obtain ⟨inode, type, name⟩ := item
    obtain ⟨entry, hentry, h⟩ := bind_eq_ok.1 h
    obtain ⟨rest, hrest, h⟩ := bind_eq_ok.1 h
    obtain rfl := Except.ok.inj h
    obtain ⟨hlength, hread, hgood, htype⟩ := ofBytes_encodeDirectoryEntry hentry
    obtain ⟨hlength', hread', hgood'⟩ := ih hrest
    refine ⟨by rw [List.length_append, hlength, hlength', List.length_cons]; omega, fun j hj => ?_,
      List.forall_mem_cons.2 ⟨⟨hgood, htype⟩, hgood'⟩⟩
    cases j with
    | zero =>
      refine Eq.trans (Entry.ofBytes_congr fun i hi => ?_) hread
      rw [bytesOf, bytesOf, List.getD_append _ _ _ _ (by omega), Nat.zero_mul, Nat.zero_add]
    | succ j =>
      refine Eq.trans (Entry.ofBytes_congr fun i hi => ?_) (hread' j (Nat.lt_of_succ_lt_succ hj))
      rw [bytesOf, bytesOf, List.getD_append_right _ _ _ _ (by omega)]
      exact congrArg₂ _ (by omega) rfl

/-- The record of a directory of one block. -/
def directoryRecord (block linkCount size : Nat) : Inode :=
  ⟨2, linkCount, size, fun k => if k = 0 then block else 0, 0, 0, 0, 0⟩

section
variable {linkCount size : Nat}

/-- A directory of one block. -/
theorem blocksOf_one (hpos : 0 < size) (hsize : size ≤ 4096) : blocksOf size = 1 := by
  have hle : blocksOf size ≤ 1 := blocksOf_le.2 (by omega)
  have hlt : 0 < blocksOf size := lt_blocksOf.2 (by omega)
  omega

theorem ok_directoryRecord (hblock : 0 < first) (hlinks : 0 < linkCount) (hpos : 0 < size) (hsize : size ≤ 4096)
    (hentries : size % 64 = 0) : (directoryRecord first linkCount size).Ok where
  mode := .inr rfl
  linkCount := Nat.ne_of_gt hlinks
  size_le := show size ≤ 1034 * 4096 by omega
  reserved := rfl
  dir_size _ := ⟨Nat.ne_of_gt hpos, hentries⟩
  direct k := by
    show (if k = 0 then first else 0) ≠ 0 ↔ k.val < blocksOf size
    rw [blocksOf_one hpos hsize, Nat.lt_one_iff, Fin.val_eq_zero_iff]
    split
    · next h => exact iff_of_true (by omega) h
    · next h => exact iff_of_false (by simp) h
  indirect := by
    show 0 ≠ 0 ↔ 10 < blocksOf size
    rw [blocksOf_one hpos hsize]
    decide

theorem fits_directoryRecord (hblock : first < 2 ^ 32) (hlinks : linkCount < 2 ^ 16) (hsize : size ≤ 4096) :
    (directoryRecord first linkCount size).Fits where
  mode := show 2 < 2 ^ 16 by decide
  linkCount := hlinks
  size := show size < 2 ^ 32 by omega
  direct k := by
    show (if k = 0 then first else 0) < 2 ^ 32
    split <;> omega
  indirect := show 0 < 2 ^ 32 by decide
  createdTick := show 0 < 2 ^ 32 by decide
  modifiedTick := show 0 < 2 ^ 32 by decide
  reserved := rfl

end

/-- `write_directory` writes the entries into the next block, if there is one and they fit in it. -/
theorem Building.writeDirectory (hgeo : sb.toSuperblock.Geometry) (h : Building b sb L next v) (hc : c ∉ L)
    (hlt : c < sb.totalInodes) {linkCount : Nat} (hne : entries ≠ [])
    (hlinks : 0 < linkCount) (hlinks' : linkCount < 2 ^ 16) :
    Yields (b.writeDirectory c linkCount entries)
      ((∃ content, Builder.encodeEntries entries = .ok content) ∧ entries.length ≤ 64 ∧ next < sb.totalBlocks)
      fun b' => ∃ w, Building b' sb (insert c L) (next + 1) w ∧ (∀ m ∈ L, Vol.Kept v w m) ∧
        (w.ino c).mode = 2 ∧ (w.ino c).linkCount = linkCount ∧ w.entryCount c = entries.length ∧
        ∀ j (hj : j < entries.length), w.entry c j = entryOf (entries.get ⟨j, hj⟩) := by
  have hown := h.solid.owns
  have htotal := hgeo.totalBlocks_lt
  have hpos : 0 < next := Nat.lt_of_lt_of_le hgeo.dataStart_pos h.start
  have hentries := List.length_pos_iff.2 hne
  rw [Builder.writeDirectory]
  cases hcontent : Builder.encodeEntries entries with
  | error e => exact Yields.error.congr (by simp)
  | ok content =>
  obtain ⟨hsize, hread, -⟩ := encodeEntries_eq_ok hcontent
  show Yields (failIf _ _ >>= fun _ => _) _ _
  refine Yields.congr (Yields.failIf fun hfits => (h.writing c).allocateBlock hgeo hown h.start |>.bind id
    fun r hroom hr => ?_) ⟨fun hok => ⟨⟨content, rfl⟩, by omega, hok.2⟩, fun hok => ⟨by omega, hok.2.2⟩⟩
  obtain ⟨b₁, block⟩ := r
  obtain ⟨hnext, h₁⟩ := hr
  obtain rfl : next = block := hnext.symm
  have h₂ := h₁.assignBlank hgeo hown h.start content Nat.zero_lt_one (by omega)
    (h.fresh (next + 0) le_rfl hroom).2
  generalize hw₂ : (v.setB (next + 0) true).setData (next + 0)
    (Block.zero.copyBytes 0 (bytesOf content) content.length) = w₂ at h₂
  have hino : ((w₂.setIno c (directoryRecord next linkCount content.length)).setI c true).ino c =
      directoryRecord next linkCount content.length := Vol.setIno_self ..
  have hone : blocksOf content.length = 1 := blocksOf_one (by omega) (by omega)
  have hblock : ((w₂.setIno c (directoryRecord next linkCount content.length)).setI c true).fileBlock c 0 = next := by
    rw [Vol.fileBlock, if_pos (by decide), hino, Inode.directAt, dif_pos (by decide)]
    rfl
  have hcomplete : ((w₂.setIno c (directoryRecord next linkCount content.length)).setI c true).Complete c
      (Finset.Ico next (next + (0 + 1))) := by
    have hfew : ¬ 10 < blocksOf content.length := by omega
    refine complete_of_consecutive (Vol.setI_self ..) ?_ ?_ ?_ ?_ ?_
    · rw [hino]
      exact ok_directoryRecord hpos hlinks (by omega) (by omega) (by omega)
    · rw [Vol.PointersEnd, hino]
      exact fun hbig => absurd hbig hfew
    · rw [hino]
      intro k hk
      obtain rfl : k = 0 := Nat.lt_one_iff.1 (hone ▸ hk)
      exact hblock
    · rw [hino]
      exact fun hbig => absurd hbig hfew
    · rw [hino]
      exact ((if_neg hfew).trans hone).symm
  obtain ⟨b', hwrite, hbuild, hkept⟩ := h₂.close hgeo h.solid h.start hc hlt
    (fits_directoryRecord (by omega) hlinks' (by omega)) hcomplete
  refine .of_eq_ok hwrite hroom ⟨_, hbuild, hkept, by rw [hino]; rfl, by rw [hino]; rfl, ?_, fun j hj => ?_⟩
  · rw [Vol.entryCount, hino]
    show content.length / 64 = _
    omega
  · rw [← hread j hj, Vol.entry, show j / 64 = 0 by omega, hblock]
    refine Entry.ofBytes_congr fun i hi => ?_
    show (w₂.data next).byte (j % 64 * 64 + i) = _
    rw [← hw₂, Nat.add_zero, Vol.setData_self, Block.byte_copyBytes_of_mem (by omega) (by omega) (by omega)]
    exact congrArg _ (by omega)

end Tools

end MiniOrange
