import MiniOrange.Tools.Fsck
import MiniOrange.Fs.Solid

/-!
# What the checker accepts of the storage

`_load_inodes` and `_check_bitmap_coverage` accept a volume exactly when its storage is that of its
allocated inodes (`Vol.Solid`), apart from the root directory. The loop over the inodes is described
by what is loaded after `k` rounds (`Loaded`): the records and the blocks of the inodes below `k`, and
as claimed blocks the metadata and the blocks of these inodes.
-/

namespace MiniOrange

namespace Tools

open Check

variable {c c' : Checker} {sb : MiniOrange.Superblock} {v : Vol} {b n k : Nat} {bs bs' : List Nat}

/-! ## The regions of the volume -/

/-- The checker looks at the volume `v` by the superblock `sb`. -/
structure Views (c : Checker) (sb : MiniOrange.Superblock) (v : Vol) : Prop where
  superblock : c.superblock.toSuperblock = sb
  volume : Vol.ofDisk sb c.volume = v
  geometry : sb.Geometry

variable {volume : Disk} {i bit required : Nat} {value : Bool} {t : Slot}

/-- A byte of a block. -/
theorem byteOf_block {block : Nat} (hi : i < 4096) :
    byteOf volume (block * 4096 + i) = (volume block).byte i := by
  unfold byteOf
  rw [show (block * 4096 + i) / 4096 = block by omega, show (block * 4096 + i) % 4096 = i by omega]

/-- A bit of a bitmap of whole blocks. -/
theorem bitmapGet_eq_ok {start blocks : Nat} :
    bitmapGet (sliceOf volume (start * 4096)) (blocks * 4096) bit = .ok value ↔
      bit < blocks * 32768 ∧ (volume (start + bit / 32768)).bit (bit % 32768) = value := by
  unfold bitmapGet
  rw [failIf_bind_eq_ok]
  have hbyte : sliceOf volume (start * 4096) (bit / 8) =
      (volume (start + bit / 32768)).byte (bit % 32768 / 8) := by
    unfold sliceOf
    rw [show start * 4096 + bit / 8 = (start + bit / 32768) * 4096 + bit % 32768 / 8 by omega]
    exact byteOf_block (by omega)
  refine and_congr (by omega) ?_
  rw [hbyte, Block.bit, show bit % 32768 % 8 = bit % 8 by omega]
  exact ⟨fun h => Except.ok.inj h, fun h => congrArg _ h⟩

namespace Views

variable (h : Views c sb v)
include h

theorem blockBit :
    c.blockBit bit = .ok value ↔ bit < sb.blockBitmapBlocks * 32768 ∧ v.bmap bit = value := by
  unfold Checker.blockBit
  rw [h.superblock, bitmapGet_eq_ok, ← h.volume]
  refine and_congr_right fun hbit => ?_
  simp only [Vol.ofDisk, hbit, decide_true, Bool.true_and]

theorem inodeBit :
    c.inodeBit bit = .ok value ↔ bit < sb.inodeBitmapBlocks * 32768 ∧ v.imap bit = value := by
  unfold Checker.inodeBit
  rw [h.superblock, bitmapGet_eq_ok, ← h.volume]
  refine and_congr_right fun hbit => ?_
  simp only [Vol.ofDisk, hbit, decide_true, Bool.true_and]

/-- The bytes of an inode's record. -/
theorem inodeRaw (hi : i < 64) :
    c.inodeRaw n i = (c.volume (sb.inodeTableStart + n / 64)).ptr (n % 64 * 64) i := by
  unfold Checker.inodeRaw sliceOf
  rw [h.superblock, show sb.inodeTableStart * 4096 + n * 64 + i =
    (sb.inodeTableStart + n / 64) * 4096 + (n % 64 * 64 + i) by omega]
  exact byteOf_block (by omega)

/-- The record of an inode. -/
theorem decodeInode (hn : n < sb.totalInodes) : decodeInode (c.inodeRaw n) = v.ino n := by
  have hrec := h.geometry.record_lt hn
  rw [← h.volume]
  simp only [Vol.ofDisk, if_pos hrec]
  exact Inode.ofBytes_congr fun i hi => h.inodeRaw hi

/-- A record of zeros. -/
theorem freeRecord (hn : n < sb.totalInodes) :
    (¬ ∃ i ∈ List.range 64, c.inodeRaw n i ≠ 0) ↔ v.ino n = .zero := by
  rw [← h.decodeInode hn]
  show _ ↔ Inode.ofBytes (c.inodeRaw n) = .zero
  rw [Inode.ofBytes_eq_zero]
  simp

/-- A word of a data block. -/
theorem pointer {index : Nat} (hb : sb.dataStart ≤ b) (hb' : b < sb.totalBlocks) (hi : index < 1024) :
    readLe32 (sliceOf c.volume (b * 4096 + 4 * index)) = (v.data b).pointer index := by
  rw [← h.volume, Vol.data_ofDisk hb hb', Block.pointer]
  refine readLe32_congr fun i hi' => ?_
  unfold sliceOf
  rw [Nat.add_assoc, byteOf_block (by omega), Block.ptr, show 4 * index + i = index * 4 + i by omega]

end Views

/-! ## Claims -/

/-- The blocks of `bs` can be claimed: they are marked data blocks, each is named once, and none is
claimed. -/
structure Claimable (c : Checker) (sb : MiniOrange.Superblock) (v : Vol) (bs : List Nat) : Prop where
  nodup : bs.Nodup
  valid : ∀ b ∈ bs, v.blockAllocated sb b = true
  unclaimed : ∀ b ∈ bs, c.claimedBlocks b = none

theorem Claimable.nil : Claimable c sb v [] := ⟨List.nodup_nil, by simp, by simp⟩

/-- The first of the blocks can be claimed. -/
theorem Claimable.left (h : Claimable c sb v (bs ++ bs')) : Claimable c sb v bs :=
  ⟨(List.nodup_append'.1 h.nodup).1, fun b hb => h.valid b (List.mem_append_left _ hb),
    fun b hb => h.unclaimed b (List.mem_append_left _ hb)⟩

/-- `c'` is `c` with the blocks of `bs` claimed. -/
structure Claims (c c' : Checker) (bs : List Nat) : Prop where
  same : c' = { c with claimedBlocks := c'.claimedBlocks }
  claimed : ∀ b, c'.claimedBlocks b = none ↔ c.claimedBlocks b = none ∧ b ∉ bs

theorem Claims.nil (c : Checker) : Claims c c [] := ⟨rfl, fun b => by simp⟩

theorem Claims.append {c'' : Checker} (h : Claims c c' bs) (h' : Claims c' c'' bs') :
    Claims c c'' (bs ++ bs') := by
  refine ⟨h'.same.trans ?_, fun b => ?_⟩
  · rw [h.same]
  · rw [h'.claimed, h.claimed, List.mem_append, not_or, and_assoc]

theorem Claims.views (h : Claims c c' bs) (hview : Views c sb v) : Views c' sb v := by
  rw [h.same]
  exact ⟨hview.superblock, hview.volume, hview.geometry⟩

/-- What can be claimed after claims. -/
theorem Claims.claimable_iff (h : Claims c c' bs) (hfirst : Claimable c sb v bs) :
    Claimable c' sb v bs' ↔ Claimable c sb v (bs ++ bs') := by
  constructor
  · rintro ⟨hnodup, hvalid, hun⟩
    refine ⟨List.nodup_append'.2 ⟨hfirst.nodup, hnodup, fun b hb hb' => ?_⟩, fun b hb => ?_, fun b hb => ?_⟩
    · exact ((h.claimed b).1 (hun b hb')).2 hb
    · exact (List.mem_append.1 hb).elim (hfirst.valid b) (hvalid b)
    · exact (List.mem_append.1 hb).elim (hfirst.unclaimed b) fun hb => ((h.claimed b).1 (hun b hb)).1
  · rintro ⟨hnodup, hvalid, hun⟩
    obtain ⟨-, hnodup', hdisjoint⟩ := List.nodup_append'.1 hnodup
    refine ⟨hnodup', fun b hb => hvalid b (List.mem_append_right _ hb), fun b hb => ?_⟩
    exact (h.claimed b).2 ⟨hun b (List.mem_append_right _ hb), fun hb' => hdisjoint hb' hb⟩

/-- `_claim_data_block` accepts a block that can be claimed, and claims it and nothing else. -/
theorem claimDataBlock_yields (hview : Views c sb v) {owner : Owner} :
    Yields (c.claimDataBlock b owner) (Claimable c sb v [b]) (Claims c · [b]) := by
  have hiff : Claimable c sb v [b] ↔ ¬ (b < sb.dataStart ∨ b ≥ sb.totalBlocks) ∧
      c.claimedBlocks b = none ∧ ¬ v.bmap b = false := by
    rw [not_or, not_lt, not_le, ← dataBlockValid_iff, Bool.not_eq_false]
    constructor
    · rintro ⟨-, hvalid, hun⟩
      have hvalid := hvalid b (List.mem_singleton_self b)
      rw [Vol.blockAllocated, Bool.and_eq_true] at hvalid
      exact ⟨hvalid.1, hun b (List.mem_singleton_self b), hvalid.2⟩
    · rintro ⟨hvalid, hun, hbit⟩
      refine ⟨List.nodup_singleton b, ?_, by simpa using hun⟩
      simp [Vol.blockAllocated, hvalid, hbit]
  unfold Checker.claimDataBlock
  rw [hview.superblock]
  refine (Yields.failIf fun hrange => ?_).congr hiff.symm
  cases hclaimed : c.claimedBlocks b with
  | some previous => exact Yields.error.congr (by simp)
  | none =>
    have hmarked : c.blockBit b = .ok (v.bmap b) :=
      hview.blockBit.2 ⟨hview.geometry.block_lt (by omega), rfl⟩
    rw [hmarked]
    refine Yields.congr (Yields.failIf fun _ => Yields.ok ⟨rfl, fun a => ?_⟩) (by simp)
    by_cases hab : a = b
    · simp [hab]
    · simp [hab]

section
variable {reports : Checker.PointerReports} {pointer pointer' : Nat → Nat} {required : Nat}

/-- The loop over the pointers accepts those that are set below `required`, and only there, to blocks
that can be claimed, and claims them. -/
theorem claimPointers_yields : ∀ {l c blocks}, Views c sb v →
    Yields (Checker.claimPointers reports pointer required l c blocks)
      ((∀ i ∈ l, pointer i ≠ 0 ↔ i < required) ∧
        Claimable c sb v ((l.filter (· < required)).map pointer))
      fun r => Claims c r.1 ((l.filter (· < required)).map pointer) ∧
        r.2 = blocks ++ (l.filter (· < required)).map pointer := by
  intro l
  induction l with
  | nil =>
    intro c blocks _
    exact .of_eq_ok rfl ⟨by simp, .nil⟩ ⟨.nil c, by simp⟩
  | cons index rest ih =>
    intro c blocks hview
    rw [Checker.claimPointers, List.forall_mem_cons, and_assoc]
    split
    · next hlt =>
      rw [List.filter_cons_of_pos (by simpa using hlt), List.map_cons]
      simp only [hlt, iff_true]
      refine Yields.failIf fun _ => (claimDataBlock_yields hview).bind (fun h => h.2.left)
        fun c₁ hfirst hclaims => ?_
      refine ((ih (hclaims.views hview)).congr (and_congr_right fun _ => hclaims.claimable_iff hfirst)).mono
        fun r _ hr => ⟨hclaims.append hr.1, ?_⟩
      rw [hr.2, List.append_assoc]
      rfl
    · next hge =>
      rw [List.filter_cons_of_neg (by simpa using hge)]
      simp only [hge, iff_false]
      exact Yields.failIf fun _ => ih hview

end

/-! ## The blocks of an inode -/

/-- The slots behind the direct ones. -/
def overflowSlots (i : Inode) : List Slot :=
  if 10 < blocksOf i.size then
    .indirect :: (List.range (blocksOf i.size - 10)).map fun k => .data (k + 10)
  else []

/-- The slots an inode needs, in the order in which they are claimed. -/
def slots (i : Inode) : List Slot :=
  (List.range (min (blocksOf i.size) 10)).map .data ++ overflowSlots i

theorem mem_overflowSlots {i : Inode} :
    t ∈ overflowSlots i ↔ i.Needs t ∧ ∀ k < 10, t ≠ .data k := by
  unfold overflowSlots
  split
  · next h =>
    cases t with
    | indirect => simp [Inode.Needs, h]
    | data k =>
      simp only [List.mem_cons, reduceCtorEq, List.mem_map, List.mem_range, Slot.data.injEq, false_or,
        Inode.Needs]
      constructor
      · rintro ⟨a, ha, rfl⟩
        refine ⟨by omega, fun k hk heq => ?_⟩
        have := Slot.data.inj heq
        omega
      · rintro ⟨hk, hne⟩
        have hge : 10 ≤ k := Nat.not_lt.1 fun hlt => hne k hlt rfl
        exact ⟨k - 10, by omega, by omega⟩
  · next h =>
    refine iff_of_false List.not_mem_nil ?_
    rintro ⟨hneeds, hne⟩
    cases t with
    | indirect => exact h hneeds
    | data k =>
      have hk : k < blocksOf i.size := hneeds
      exact hne k (by omega) rfl

theorem mem_slots {i : Inode} : t ∈ slots i ↔ i.Needs t := by
  simp only [slots, List.mem_append, List.mem_map, List.mem_range, mem_overflowSlots]
  constructor
  · rintro (⟨k, hk, rfl⟩ | ⟨h, -⟩)
    · exact show k < blocksOf i.size by omega
    · exact h
  · intro h
    cases t with
    | indirect => exact .inr ⟨h, fun k _ => nofun⟩
    | data k =>
      have hk : k < blocksOf i.size := h
      by_cases hlt : k < 10
      · exact .inl ⟨k, by omega, rfl⟩
      · exact .inr ⟨h, fun j hj heq => hlt (Slot.data.inj heq ▸ hj)⟩

theorem nodup_slots (i : Inode) : (slots i).Nodup := by
  refine List.nodup_append'.2 ⟨?_, ?_, fun t ht ht' => ?_⟩
  · exact List.nodup_range.map fun a b hab => Slot.data.inj hab
  · unfold overflowSlots
    split
    · refine List.nodup_cons.2 ⟨by simp, List.nodup_range.map fun a b hab => ?_⟩
      have := Slot.data.inj hab
      omega
    · exact List.nodup_nil
  · obtain ⟨k, hk, rfl⟩ := List.mem_map.1 ht
    exact (mem_overflowSlots.1 ht').2 k (by have := List.mem_range.1 hk; omega) rfl

/-- The blocks in the slots of an inode. -/
def slotBlocks (v : Vol) (n : Nat) (l : List Slot) : List Nat := l.map (v.slotBlock n)

/-- The pointers of an inode are set as far as its size needs them, and no further. -/
structure Shaped (v : Vol) (n : Nat) : Prop where
  direct : ∀ k < 10, (v.ino n).directAt k ≠ 0 ↔ k < min (blocksOf (v.ino n).size) 10
  indirect : (v.ino n).indirect ≠ 0 ↔ 10 < blocksOf (v.ino n).size
  pointers : 10 < blocksOf (v.ino n).size → ∀ i < 1024,
    (v.data (v.ino n).indirect).pointer i ≠ 0 ↔ i < blocksOf (v.ino n).size - 10

/-- The first numbers below a bound. -/
theorem filter_range {m k : Nat} (hk : k ≤ m) : (List.range m).filter (· < k) = List.range k := by
  induction m with
  | zero => simp_all
  | succ m ih =>
    rw [List.range_succ, List.filter_append]
    rcases Nat.eq_or_lt_of_le hk with rfl | hlt
    · rw [List.range_succ, List.filter_eq_self.2 fun a ha => by
        have := List.mem_range.1 ha
        simp only [decide_eq_true_eq]
        omega]
      simp
    · rw [ih (by omega)]
      simp
      omega

theorem fileBlock_indirect :
    v.fileBlock n (i + 10) = (v.data (v.ino n).indirect).pointer i := by
  rw [Vol.fileBlock, if_neg (by omega), Nat.add_sub_cancel]

/-- The loop looks only at the pointers it is given. -/
theorem claimPointers_congr {reports : Checker.PointerReports} {pointer pointer' : Nat → Nat}
    : ∀ {l c blocks}, (∀ i ∈ l, pointer i = pointer' i) →
      Checker.claimPointers reports pointer required l c blocks =
        Checker.claimPointers reports pointer' required l c blocks := by
  intro l
  induction l with
  | nil => exact fun _ => rfl
  | cons index rest ih =>
    intro c blocks h
    obtain ⟨hfirst, hrest⟩ := List.forall_mem_cons.1 h
    simp only [Checker.claimPointers, hfirst, ih hrest]

section
variable (hview : Views c sb v) (hsize : blocksOf (v.ino n).size ≤ 1034)

theorem slotBlocks_direct : slotBlocks v n ((List.range (min (blocksOf (v.ino n).size) 10)).map .data) =
    ((List.range 10).filter (· < min (blocksOf (v.ino n).size) 10)).map (v.ino n).directAt := by
  rw [filter_range (by omega), slotBlocks, List.map_map]
  refine List.map_congr_left fun k hk => ?_
  have := List.mem_range.1 hk
  exact if_pos (show k < 10 by omega)

include hsize in
theorem slotBlocks_overflow (hmany : 10 < blocksOf (v.ino n).size) :
    slotBlocks v n (overflowSlots (v.ino n)) = [(v.ino n).indirect] ++
      ((List.range 1024).filter (· < blocksOf (v.ino n).size - 10)).map
        (v.data (v.ino n).indirect).pointer := by
  rw [filter_range (by omega), slotBlocks, overflowSlots, if_pos hmany, List.map_cons, List.map_map]
  refine congrArg (_ :: ·) (List.map_congr_left fun k _ => ?_)
  exact fileBlock_indirect

variable {blocks : List Nat}

/-- The words the checker reads in an indirect block are its pointers. -/
theorem claimIndirect_eq (hview : Views c sb v) (hvalid : v.blockAllocated sb b = true)
    :
    Checker.claimIndirect n (fun index => readLe32 (sliceOf c.volume (b * 4096 + 4 * index))) required c
        blocks =
      Checker.claimIndirect n (v.data b).pointer required c blocks := by
  rw [Vol.blockAllocated, Bool.and_eq_true, dataBlockValid_iff] at hvalid
  exact claimPointers_congr fun i hi => hview.pointer hvalid.1.1 hvalid.1.2 (List.mem_range.1 hi)

include hview hsize in
/-- The indirect block and what is behind it: they are claimed, and the blocks behind it are
returned. -/
theorem claimIndirectBlock_yields :
    Yields (c.claimIndirectBlock n (v.ino n)
        (blocksOf (v.ino n).size - min (blocksOf (v.ino n).size) 10) blocks)
      (((v.ino n).indirect ≠ 0 ↔ 10 < blocksOf (v.ino n).size) ∧
        (10 < blocksOf (v.ino n).size → ∀ i < 1024,
          (v.data (v.ino n).indirect).pointer i ≠ 0 ↔ i < blocksOf (v.ino n).size - 10) ∧
        Claimable c sb v (slotBlocks v n (overflowSlots (v.ino n))))
      fun r => Claims c r.1 (slotBlocks v n (overflowSlots (v.ino n))) ∧ r.2 = blocks ++
        (List.range (blocksOf (v.ino n).size - 10)).map fun k => v.fileBlock n (k + 10) := by
  unfold Checker.claimIndirectBlock
  by_cases hmany : 10 < blocksOf (v.ino n).size
  · rw [slotBlocks_overflow hsize hmany, if_pos (by omega), show blocksOf (v.ino n).size -
      min (blocksOf (v.ino n).size) 10 = blocksOf (v.ino n).size - 10 by omega]
    simp only [hmany, iff_true, true_implies]
    refine Yields.failIf fun _ => (claimDataBlock_yields hview).bind (fun h => h.2.left)
      fun c₁ hfirst hclaims => ?_
    rw [← hclaims.claimable_iff hfirst,
      claimIndirect_eq (hclaims.views hview) (hfirst.valid _ (List.mem_singleton_self _))]
    have hrest : Yields (Checker.claimIndirect n (v.data (v.ino n).indirect).pointer
      (blocksOf (v.ino n).size - 10) c₁ blocks) _ _ := claimPointers_yields (hclaims.views hview)
    simp only [List.mem_range] at hrest
    refine hrest.mono fun r _ hr => ⟨hclaims.append hr.1, ?_⟩
    rw [hr.2, filter_range (by omega)]
    exact congrArg (blocks ++ ·) (List.map_congr_left fun k _ => fileBlock_indirect.symm)
  · rw [if_neg (by omega), overflowSlots, if_neg hmany, show blocksOf (v.ino n).size - 10 = 0 by omega]
    refine Yields.congr (Yields.failIf fun _ => Yields.ok ⟨.nil c, by simp⟩) ?_
    simp only [hmany, iff_false, false_implies, true_and]
    exact and_congr_right fun _ => iff_of_true trivial .nil

/-- The blocks of a file: the direct ones, and those behind the indirect block. -/
theorem map_fileBlock_split (m : Nat) :
    (List.range m).map (v.fileBlock n) = (List.range (min m 10)).map (v.fileBlock n) ++
      (List.range (m - 10)).map fun k => v.fileBlock n (k + 10) := by
  conv_lhs => rw [show m = min m 10 + (m - 10) by omega, List.range_add, List.map_append, List.map_map]
  refine congrArg (_ ++ ·) (List.map_congr_left fun k hk => ?_)
  have := List.mem_range.1 hk
  rw [Function.comp_apply, show min m 10 + k = k + 10 by omega]

include hview hsize in
/-- An inode's blocks are accepted when its pointers have the shape of its size and its blocks can be
claimed. The blocks of its slots are claimed, and those of the file are returned. -/
theorem claimBlocks_yields : Yields (c.claimBlocks n (v.ino n))
    (Shaped v n ∧ Claimable c sb v (slotBlocks v n (slots (v.ino n))))
    fun r => Claims c r.1 (slotBlocks v n (slots (v.ino n))) ∧
      r.2 = (List.range (blocksOf (v.ino n).size)).map (v.fileBlock n) := by
  unfold Checker.claimBlocks
  rw [blocksForBytes_eq (by decide), slots, slotBlocks, List.map_append]
  have hdirect : Yields (Checker.claimDirect n (v.ino n) (min (blocksOf (v.ino n).size) 10) c) _ _ :=
    claimPointers_yields hview
  simp only [← slotBlocks_direct, List.mem_range] at hdirect
  refine hdirect.bind (fun h => ⟨h.1.direct, h.2.left⟩) fun r hfirst hr => ?_
  have happend : Claimable r.1 sb v (slotBlocks v n (overflowSlots (v.ino n))) ↔ _ :=
    hr.1.claimable_iff hfirst.2
  refine ((claimIndirectBlock_yields (hr.1.views hview) hsize).congr ⟨?_, ?_⟩).mono
    fun r' _ hr' => ⟨hr.1.append hr'.1, ?_⟩
  · rintro ⟨hind, hptr, hrest⟩
    exact ⟨⟨hfirst.1, hind, hptr⟩, happend.1 hrest⟩
  · exact fun h => ⟨h.1.indirect, h.1.pointers, happend.2 h.2⟩
  · rw [hr'.2, hr.2, map_fileBlock_split, slotBlocks, List.map_map, List.nil_append]
    rfl

end

/-! ## The loop over the inodes -/

/-- The allocated inodes below `k`. -/
def allocBelow (v : Vol) (k : Nat) : Finset Nat := (Finset.range k).filter fun n => v.imap n = true

theorem mem_allocBelow : n ∈ allocBelow v k ↔ n < k ∧ v.imap n = true := by
  rw [allocBelow, Finset.mem_filter, Finset.mem_range]

theorem mem_allocBelow_succ :
    n ∈ allocBelow v (k + 1) ↔ n ∈ allocBelow v k ∨ (n = k ∧ v.imap k = true) := by
  rw [mem_allocBelow, mem_allocBelow, Nat.lt_succ_iff_lt_or_eq]
  constructor
  · rintro ⟨hlt | rfl, himap⟩
    · exact .inl ⟨hlt, himap⟩
    · exact .inr ⟨rfl, himap⟩
  · rintro (⟨hlt, himap⟩ | ⟨rfl, himap⟩)
    · exact ⟨.inl hlt, himap⟩
    · exact ⟨.inr rfl, himap⟩

/-- The inodes below `k` are loaded. -/
structure Loaded (c : Checker) (sb : MiniOrange.Superblock) (v : Vol) (k : Nat) : Prop where
  views : Views c sb v
  inodes : ∀ n, c.inodes n = if n ∈ allocBelow v k then some (v.ino n) else none
  fileBlocks : ∀ n ∈ allocBelow v k,
    c.fileBlocks n = (List.range (blocksOf (v.ino n).size)).map (v.fileBlock n)
  claimed : ∀ b, c.claimedBlocks b = none ↔ sb.dataStart ≤ b ∧ ¬ v.Uses (allocBelow v k) b

/-- The inodes below `k` are what the checker asks for. -/
structure Fine (v : Vol) (sb : MiniOrange.Superblock) (k : Nat) : Prop where
  owns : v.Owns sb (allocBelow v k)
  ends : ∀ n ∈ allocBelow v k, v.PointersEnd n
  free : ∀ n < k, v.imap n = false → v.ino n = .zero

/-- What the checks on a record ask for. -/
def RecordOk (i : Inode) : Prop :=
  (i.mode = 1 ∨ i.mode = 2) ∧ (i.linkCount ≠ 0 ∧ i.reserved = 0) ∧ i.size ≤ 1034 * 4096 ∧
    (i.mode = 2 → i.size ≠ 0 ∧ i.size % 64 = 0)

theorem checkRecord_yields {i : Inode} :
    Yields (Checker.checkRecord n i) (RecordOk i) fun _ => True := by
  refine ⟨?_, fun _ _ => trivial⟩
  unfold Checker.checkRecord RecordOk
  simp only [failIf_bind_eq_ok, failIf_eq_ok, exists_const]
  omega

/-- The checks on a record and on the shape of its pointers, given that its blocks can be claimed. -/
theorem record_shaped_iff (hpos : 0 < sb.dataStart)
    (hclaimable : Claimable c sb v (slotBlocks v n (slots (v.ino n)))) :
    (RecordOk (v.ino n) ∧ Shaped v n) ↔ (v.ino n).Ok ∧ v.PointersEnd n := by
  have hdirectAt : ∀ k (hk : k < 10), (v.ino n).directAt k = (v.ino n).direct ⟨k, hk⟩ :=
    fun k hk => dif_pos hk
  constructor
  · rintro ⟨⟨hmode, ⟨hlinks, hreserved⟩, hsize, hdir⟩, hshape⟩
    refine ⟨⟨hmode, hlinks, hsize, hreserved, hdir, fun k => ?_, hshape.indirect⟩, fun hmany k hk hend => ?_⟩
    · rw [← hdirectAt k.1 k.2, hshape.direct k.1 k.2]
      omega
    · by_contra hne
      have := (hshape.pointers hmany k hk).1 hne
      omega
  · rintro ⟨hok, hends⟩
    refine ⟨⟨hok.mode, ⟨hok.linkCount, hok.reserved⟩, hok.size_le, hok.dir_size⟩, fun k hk => ?_,
      hok.indirect, fun hmany i hi => ⟨fun hne => ?_, fun hlt => ?_⟩⟩
    · rw [hdirectAt k hk, hok.direct ⟨k, hk⟩]
      dsimp only
      omega
    · by_contra hge
      exact hne (hends hmany i hi (by omega))
    · -- a block that can be claimed is a data block, which block 0 is not
      have hneeds : (v.ino n).Needs (.data (i + 10)) := show i + 10 < blocksOf (v.ino n).size by omega
      have hvalid := hclaimable.valid _ (List.mem_map.2 ⟨_, mem_slots.2 hneeds, rfl⟩)
      rw [Vol.blockAllocated, Bool.and_eq_true, dataBlockValid_iff] at hvalid
      have hge : sb.dataStart ≤ v.fileBlock n (i + 10) := hvalid.1.1
      rw [fileBlock_indirect] at hge
      omega

/-- The blocks of the next inode can be claimed when it owns them beside the loaded inodes. -/
theorem claimable_slots_iff (hload : Loaded c sb v k) :
    Claimable c sb v (slotBlocks v k (slots (v.ino k))) ↔
      (∀ t, (v.ino k).Needs t → v.blockAllocated sb (v.slotBlock k t) = true) ∧
      (∀ t u, (v.ino k).Needs t → (v.ino k).Needs u → v.slotBlock k t = v.slotBlock k u → t = u) ∧
      ∀ n ∈ allocBelow v k, ∀ t u, (v.ino n).Needs t → (v.ino k).Needs u →
        v.slotBlock n t ≠ v.slotBlock k u := by
  constructor
  · rintro ⟨hnodup, hvalid, hun⟩
    refine ⟨fun t ht => hvalid _ (List.mem_map.2 ⟨t, mem_slots.2 ht, rfl⟩), fun t u ht hu heq => ?_,
      fun n hn t u ht hu heq => ?_⟩
    · exact (List.nodup_map_iff_inj_on (nodup_slots _)).1 hnodup t (mem_slots.2 ht) u (mem_slots.2 hu) heq
    · have hnone := hun _ (List.mem_map.2 ⟨u, mem_slots.2 hu, rfl⟩)
      exact ((hload.claimed _).1 hnone).2 ⟨n, hn, t, ht, heq⟩
  · rintro ⟨hvalid, hinj, hother⟩
    refine ⟨(List.nodup_map_iff_inj_on (nodup_slots _)).2 fun t ht u hu heq => ?_, fun b hb => ?_,
      fun b hb => ?_⟩
    · exact hinj t u (mem_slots.1 ht) (mem_slots.1 hu) heq
    · obtain ⟨t, ht, rfl⟩ := List.mem_map.1 hb
      exact hvalid t (mem_slots.1 ht)
    · obtain ⟨t, ht, rfl⟩ := List.mem_map.1 hb
      have hblock := hvalid t (mem_slots.1 ht)
      rw [Vol.blockAllocated, Bool.and_eq_true, dataBlockValid_iff] at hblock
      refine (hload.claimed _).2 ⟨hblock.1.1, ?_⟩
      rintro ⟨n, hn, u, hu, heq⟩
      exact hother n hn u t hu (mem_slots.1 ht) heq

/-- What the checker asks of the next inode. -/
def NextFine (c : Checker) (sb : MiniOrange.Superblock) (v : Vol) (k : Nat) : Prop :=
  (v.imap k = false → v.ino k = .zero) ∧
    (v.imap k = true → ((v.ino k).Ok ∧ v.PointersEnd k) ∧
      Claimable c sb v (slotBlocks v k (slots (v.ino k))))

theorem Fine.down (h : Fine v sb (k + 1)) : Fine v sb k := by
  have hsub : allocBelow v k ⊆ allocBelow v (k + 1) := fun n hn => mem_allocBelow_succ.2 (.inl hn)
  exact ⟨h.owns.mono hsub, fun n hn => h.ends n (hsub hn), fun n hn => h.free n (by omega)⟩

/-- One more inode is fine. -/
theorem fine_succ_iff (hload : Loaded c sb v k) (hk : k < sb.totalInodes) (hfine : Fine v sb k) :
    Fine v sb (k + 1) ↔ NextFine c sb v k := by
  constructor
  · intro h
    refine ⟨h.free k (by omega), fun himap => ?_⟩
    have hmem : k ∈ allocBelow v (k + 1) := mem_allocBelow.2 ⟨by omega, himap⟩
    refine ⟨⟨h.owns.ok k hmem, h.ends k hmem⟩, (claimable_slots_iff hload).2
      ⟨h.owns.block k hmem, fun t u ht hu heq => (h.owns.exclusive k hmem k hmem t u ht hu heq).2,
        fun n hn t u ht hu heq => ?_⟩⟩
    have heqk := (h.owns.exclusive n (mem_allocBelow_succ.2 (.inl hn)) k hmem t u ht hu heq).1
    have := (mem_allocBelow.1 hn).1
    omega
  · rintro ⟨hzero, hnext⟩
    refine ⟨⟨fun n hn => ?_, fun n hn => (mem_allocBelow.1 hn).2, fun n hn => ?_, fun n hn => ?_,
      fun n hn m hm t u ht hu heq => ?_⟩, fun n hn => ?_, fun n hn himap => ?_⟩
    · have := (mem_allocBelow.1 hn).1
      omega
    · rcases mem_allocBelow_succ.1 hn with hn | ⟨rfl, himap⟩
      · exact hfine.owns.ok n hn
      · exact (hnext himap).1.1
    · rcases mem_allocBelow_succ.1 hn with hn | ⟨rfl, himap⟩
      · exact hfine.owns.block n hn
      · exact ((claimable_slots_iff hload).1 (hnext himap).2).1
    · rcases mem_allocBelow_succ.1 hn with hn | ⟨rfl, himap⟩
      · rcases mem_allocBelow_succ.1 hm with hm | ⟨rfl, himap⟩
        · exact hfine.owns.exclusive n hn m hm t u ht hu heq
        · exact absurd heq (((claimable_slots_iff hload).1 (hnext himap).2).2.2 n hn t u ht hu)
      · rcases mem_allocBelow_succ.1 hm with hm | ⟨rfl, himap⟩
        · exact absurd heq.symm (((claimable_slots_iff hload).1 (hnext himap).2).2.2 m hm u t hu ht)
        · exact ⟨rfl, ((claimable_slots_iff hload).1 (hnext himap).2).2.1 t u ht hu heq⟩
    · rcases mem_allocBelow_succ.1 hn with hn | ⟨rfl, himap⟩
      · exact hfine.ends n hn
      · exact (hnext himap).1.2
    · rcases Nat.lt_succ_iff_lt_or_eq.1 hn with hn | rfl
      · exact hfine.free n hn himap
      · exact hzero himap

/-- What is loaded once the blocks of the next inode are claimed. -/
theorem Loaded.used (hload : Loaded c sb v k) (himap : v.imap k = true)
    (hclaims : Claims c c' (slotBlocks v k (slots (v.ino k)))) :
    Loaded { c' with
      inodes := Function.update c'.inodes k (some (v.ino k))
      fileBlocks := Function.update c'.fileBlocks k
        ((List.range (blocksOf (v.ino k).size)).map (v.fileBlock k)) } sb v (k + 1) := by
  have hview := hclaims.views hload.views
  have hself : k ∉ allocBelow v k := fun hmem => Nat.lt_irrefl k (mem_allocBelow.1 hmem).1
  refine ⟨⟨hview.superblock, hview.volume, hview.geometry⟩, fun n => ?_, fun n hn => ?_, fun b => ?_⟩
  · have hold : c'.inodes = c.inodes := by rw [hclaims.same]
    simp only [hold, Function.update_apply, hload.inodes n, mem_allocBelow_succ, himap, and_true]
    by_cases hnk : n = k
    · simp [hnk]
    · simp [hnk]
  · have hold : c'.fileBlocks = c.fileBlocks := by rw [hclaims.same]
    simp only [hold, Function.update_apply]
    rcases mem_allocBelow_succ.1 hn with hn | ⟨rfl, -⟩
    · rw [if_neg (by rintro rfl; exact hself hn), hload.fileBlocks n hn]
    · rw [if_pos rfl]
  · show c'.claimedBlocks b = none ↔ _
    rw [hclaims.claimed, hload.claimed, and_assoc]
    refine and_congr_right fun _ => ?_
    rw [← not_or, not_iff_not]
    constructor
    · rintro (⟨n, hn, t, ht, rfl⟩ | hmem)
      · exact ⟨n, mem_allocBelow_succ.2 (.inl hn), t, ht, rfl⟩
      · obtain ⟨t, ht, rfl⟩ := List.mem_map.1 hmem
        exact ⟨k, mem_allocBelow_succ.2 (.inr ⟨rfl, himap⟩), t, mem_slots.1 ht, rfl⟩
    · rintro ⟨n, hn, t, ht, rfl⟩
      rcases mem_allocBelow_succ.1 hn with hn | ⟨rfl, -⟩
      · exact .inl ⟨n, hn, t, ht, rfl⟩
      · exact .inr (List.mem_map.2 ⟨t, mem_slots.2 ht, rfl⟩)

/-- One round of the loop accepts an inode that is fine, and loads it. -/
theorem loadInode_yields (hload : Loaded c sb v k) (hk : k < sb.totalInodes) :
    Yields (c.loadInode k) (NextFine c sb v k) (Loaded · sb v (k + 1)) := by
  have hbit : c.inodeBit k = .ok (v.imap k) :=
    hload.views.inodeBit.2 ⟨hload.views.geometry.inode_lt hk, rfl⟩
  unfold Checker.loadInode NextFine
  rw [hbit]
  cases himap : v.imap k with
  | false =>
    have hsame : allocBelow v (k + 1) = allocBelow v k := by
      ext n
      rw [mem_allocBelow_succ, himap]
      simp
    show Yields (failIf _ _ >>= fun _ => _) _ _
    refine Yields.congr (Yields.failIf fun _ => Yields.ok ⟨hload.views, ?_, ?_, ?_⟩) ?_
    · rw [hsame]
      exact hload.inodes
    · rw [hsame]
      exact hload.fileBlocks
    · rw [hsame]
      exact hload.claimed
    · rw [hload.views.freeRecord hk]
      simp
  | true =>
    have hpos := hload.views.geometry.dataStart_pos
    simp only [Bool.true_eq_false, false_implies, true_and, true_implies]
    show Yields (_ >>= fun _ => _) _ _
    rw [hload.views.decodeInode hk]
    refine (checkRecord_yields (n := k) (i := v.ino k)).bind
      (fun h => ((record_shaped_iff hpos h.2).2 h.1).1) fun _ hrecord _ => ?_
    have hblocks := (claimBlocks_yields hload.views (blocksOf_le.2 hrecord.2.2.1)).congr <|
      and_congr_left fun h => (and_iff_right hrecord).symm.trans (record_shaped_iff hpos h)
    refine hblocks.bind id fun r hfine hr => ?_
    obtain ⟨c₁, blocks⟩ := r
    obtain ⟨hclaims, rfl⟩ := hr
    exact .of_eq_ok rfl hfine (hload.used himap hclaims)

/-! ## The storage -/

/-- The loop of `_load_inodes` accepts inodes that are fine, and loads them. -/
theorem loadLoop (hload : Loaded c sb v 0) :
    Yields ((List.range sb.totalInodes).foldlM Checker.loadInode c) (Fine v sb sb.totalInodes)
      (Loaded · sb v sb.totalInodes) := by
  have hnone : allocBelow v 0 = ∅ :=
    Finset.eq_empty_of_forall_notMem fun n hn => Nat.not_lt_zero n (mem_allocBelow.1 hn).1
  refine foldlM_range (P := fun k c => Loaded c sb v k) hload ⟨?_, ?_, fun n hn => absurd hn (Nat.not_lt_zero n)⟩
    (fun k => Fine.down) fun k hk c hfine hload =>
      (loadInode_yields hload hk).congr (fine_succ_iff hload hk hfine).symm
  · rw [hnone]
    exact .empty _ _
  · rw [hnone]
    exact fun n hn => absurd hn (Finset.notMem_empty n)

/-- `_load_inodes` accepts inodes that are fine, with a root directory, and loads them. -/
theorem loadInodes_yields (hload : Loaded c sb v 0) :
    Yields c.loadInodes (Fine v sb sb.totalInodes ∧ v.IsDir (v.alloc sb) sb.rootInode)
      (Loaded · sb v sb.totalInodes) := by
  unfold Checker.loadInodes
  rw [hload.views.superblock]
  refine (loadLoop hload).bind And.left fun c₁ hfine hload₁ => ?_
  have hroot : c₁.inodes sb.rootInode =
      if sb.rootInode ∈ v.alloc sb then some (v.ino sb.rootInode) else none := hload₁.inodes _
  rw [hload₁.views.superblock, hroot, and_iff_right hfine]
  by_cases hmem : sb.rootInode ∈ v.alloc sb
  · rw [if_pos hmem]
    refine Yields.congr (Yields.failIf fun _ => Yields.ok hload₁) ?_
    rw [and_true, not_not]
    exact (and_iff_right hmem).symm
  · rw [if_neg hmem]
    exact Yields.error.congr (iff_of_false id fun h => hmem h.1)

/-- `_check_bitmap_coverage` accepts bitmaps that mark the metadata and the blocks of the files, and
whatever is past the volume. -/
theorem checkBitmapCoverage_ok_iff (hload : Loaded c sb v sb.totalInodes) {u : Unit} :
    c.checkBitmapCoverage = .ok u ↔ v.Marks sb (v.alloc sb) ∧
      (∀ b, sb.totalBlocks ≤ b → b < sb.blockBitmapBlocks * 32768 → v.bmap b = true) ∧
      ∀ n, sb.totalInodes ≤ n → n < sb.inodeBitmapBlocks * 32768 → v.imap n = true := by
  have hgeo := hload.views.geometry
  have hblock : ∀ b < sb.blockBitmapBlocks * 32768, c.blockBit b = .ok (v.bmap b) :=
    fun b hb => hload.views.blockBit.2 ⟨hb, rfl⟩
  have hinode : ∀ n < sb.inodeBitmapBlocks * 32768, c.inodeBit n = .ok (v.imap n) :=
    fun n hn => hload.views.inodeBit.2 ⟨hn, rfl⟩
  have hcover : (∀ b ∈ List.range sb.totalBlocks, ¬ v.bmap b ≠ (c.claimedBlocks b).isSome) ↔
      v.Marks sb (v.alloc sb) := by
    refine forall_congr' fun b => ?_
    have hsome : (c.claimedBlocks b).isSome = true ↔ b < sb.dataStart ∨ v.Uses (v.alloc sb) b := by
      rw [← not_iff_not, Bool.not_eq_true, Option.isSome_eq_false_iff, Option.isNone_iff_eq_none,
        hload.claimed, not_or, Nat.not_lt]
      rfl
    rw [List.mem_range, not_not, Bool.eq_iff_iff, hsome]
  unfold Checker.checkBitmapCoverage
  rw [hload.views.superblock]
  constructor
  · intro h
    obtain ⟨_, hmarks, h⟩ := bind_eq_ok.1 h
    obtain ⟨_, hblocks, hinodes⟩ := bind_eq_ok.1 h
    rw [forM_test_eq_ok fun b hb => hblock b (hgeo.block_lt (List.mem_range.1 hb))] at hmarks
    rw [forM_test_eq_ok fun b hb => hblock b (by have := List.mem_range'_1.1 hb; omega)] at hblocks
    rw [forM_test_eq_ok fun n hn => hinode n (by have := List.mem_range'_1.1 hn; omega)] at hinodes
    refine ⟨hcover.1 hmarks, fun b hb hb' => ?_, fun n hn hn' => ?_⟩
    · exact Bool.not_eq_false _ ▸ hblocks b (List.mem_range'_1.2 (by omega))
    · exact Bool.not_eq_false _ ▸ hinodes n (List.mem_range'_1.2 (by omega))
  · rintro ⟨hmarks, hblocks, hinodes⟩
    refine bind_eq_ok.2 ⟨(), ?_, bind_eq_ok.2 ⟨(), ?_, ?_⟩⟩
    · exact (forM_test_eq_ok fun b hb => hblock b (hgeo.block_lt (List.mem_range.1 hb))).2 (hcover.2 hmarks)
    · refine (forM_test_eq_ok fun b hb => hblock b (by have := List.mem_range'_1.1 hb; omega)).2 fun b hb => ?_
      have := List.mem_range'_1.1 hb
      rw [hblocks b (by omega) (by omega)]
      decide
    · refine (forM_test_eq_ok fun n hn => hinode n (by have := List.mem_range'_1.1 hn; omega)).2 fun n hn => ?_
      have := List.mem_range'_1.1 hn
      rw [hinodes n (by omega) (by omega)]
      decide

/-- The first two passes of the checker accept a volume exactly when its storage is that of its
allocated inodes and the root is a directory. -/
theorem storage_ok_iff (hload : Loaded c sb v 0) :
    (∃ c', c.loadInodes = .ok c' ∧ c'.checkBitmapCoverage = .ok ()) ↔
      v.Solid sb (v.alloc sb) ∧ v.IsDir (v.alloc sb) sb.rootInode := by
  constructor
  · rintro ⟨c', h, hcover⟩
    obtain ⟨hfine, hroot⟩ := (loadInodes_yields hload).1.1 ⟨c', h⟩
    obtain ⟨hmarked, hblocks, hinodes⟩ :=
      (checkBitmapCoverage_ok_iff ((loadInodes_yields hload).2 c' h)).1 hcover
    refine ⟨⟨hfine.owns, hmarked, hfine.ends, fun n hn hfree => ?_, hblocks, hinodes⟩, hroot⟩
    have himap : v.imap n = false :=
      Bool.eq_false_iff.2 fun himap => hfree (Vol.mem_alloc.2 ⟨hn, himap⟩)
    exact ⟨himap, hfine.free n hn himap⟩
  · rintro ⟨hsolid, hroot⟩
    have hfine : Fine v sb sb.totalInodes := by
      refine ⟨hsolid.owns, hsolid.ends, fun n hn himap => (hsolid.free n hn fun hmem => ?_).2⟩
      rw [(Vol.mem_alloc.1 hmem).2] at himap
      cases himap
    obtain ⟨c', h⟩ := (loadInodes_yields hload).1.2 ⟨hfine, hroot⟩
    exact ⟨c', h, (checkBitmapCoverage_ok_iff ((loadInodes_yields hload).2 c' h)).2
      ⟨hsolid.marked, hsolid.block_tail, hsolid.inode_tail⟩⟩

end Tools

end MiniOrange
