import MiniOrange.Fs.Names

/-!
# Storage that matches the files

`Vol.Solid` is the part of consistency below the directories: the files of `L` own their blocks, the
bitmaps mark these and the metadata and nothing else, free records are zero, and pointers end with
the file. Each of the changes the operations are made of takes a solid volume to a solid one, for the
set of files that is left.
-/

namespace MiniOrange

namespace Vol

variable {v v₁ w : Vol} {sb : Superblock} {L F : Finset Nat} {b c d j n size type links : Nat}

/-- The storage of a volume is that of the files of `L`, and no more. -/
structure Solid (v : Vol) (sb : Superblock) (L : Finset Nat) : Prop where
  owns : v.Owns sb L
  marked : v.Marks sb L
  ends : ∀ n ∈ L, v.PointersEnd n
  free : ∀ n < sb.totalInodes, n ∉ L → v.imap n = false ∧ v.ino n = .zero
  block_tail : ∀ b, sb.totalBlocks ≤ b → b < sb.blockBitmapBlocks * 32768 → v.bmap b = true
  inode_tail : ∀ n, sb.totalInodes ≤ n → n < sb.inodeBitmapBlocks * 32768 → v.imap n = true

/-- The files of a solid volume are the allocated inodes. -/
theorem Solid.alloc_eq (h : v.Solid sb L) : v.alloc sb = L := by
  ext n
  rw [mem_alloc]
  constructor
  · rintro ⟨hlt, himap⟩
    by_contra hn
    rw [(h.free n hlt hn).1] at himap
    cases himap
  · exact fun hn => ⟨h.owns.inode_lt n hn, h.owns.allocated n hn⟩

/-- The storage of a consistent volume is that of its allocated inodes. -/
theorem Consistent.solid (h : v.Consistent sb) : v.Solid sb (v.alloc sb) where
  owns := h.owns
  marked := h.marked
  ends := h.pointer_zero
  free n hlt hn := by
    have himap : v.imap n = false := Bool.eq_false_iff.2 fun himap => hn (mem_alloc.2 ⟨hlt, himap⟩)
    exact ⟨himap, h.free_zero n hlt himap⟩
  block_tail := h.block_tail
  inode_tail := h.inode_tail

/-! ## A file that grows -/

/-- What a settled file has taken is marked, and no more. -/
theorem Settled.marks (h : Settled v w sb n) (hown : v.Owns sb L) (hn : n ∈ L)
    (hmarked : v.Marks sb L) : w.Marks sb L := by
  intro b hb
  constructor
  · intro hbit
    rcases h.tight b hbit with hold | hnew
    · rcases (hmarked b hb).1 hold with hmeta | ⟨m, hm, t, ht, heq⟩
      · exact .inl hmeta
      by_cases hmn : m = n
      · subst hmn
        exact .inr ⟨m, hm, t, h.needs ht, (h.slot t ht).trans heq⟩
      · have hkept := h.toGrown.kept hown hn hm hmn
        exact .inr ⟨m, hm, t, by rwa [hkept.ino], (hkept.slot t ht).trans heq⟩
    · exact .inr ⟨n, hn, hnew⟩
  · rintro (hmeta | ⟨m, hm, t, ht, rfl⟩)
    · exact h.mark b ((hmarked b hb).2 (.inl hmeta))
    · exact (h.toGrown.owns hown hn).slot_marked hm ht

/-- A settled file leaves the volume solid. -/
theorem Solid.settled (h : v.Solid sb L) (hn : n ∈ L) (hset : Settled v w sb n) : w.Solid sb L where
  owns := hset.toGrown.owns h.owns hn
  marked := hset.marks h.owns hn h.marked
  ends m hm := by
    by_cases hmn : m = n
    · rw [hmn]
      exact hset.pointer_zero
    · exact hset.toGrown.pointersEnd h.owns hn hm hmn (h.ends m hm)
  free m hlt hm := by
    rw [hset.imap, hset.other m fun heq => hm (heq ▸ hn)]
    exact h.free m hlt hm
  block_tail b hb hb' := hset.mark b (h.block_tail b hb hb')
  inode_tail := by
    rw [hset.imap]
    exact h.inode_tail

/-! ## A file that shrinks -/

/-- A truncated file leaves the volume solid. -/
theorem Solid.truncated (h : v.Solid sb L) (hn : n ∈ L) (hfile : (v.ino n).mode ≠ 2)
    (hsize : size ≤ (v.ino n).size) : (v.truncated n size).Solid sb L := by
  have hok := h.owns.ok n hn
  have hshrunk := shrunk_truncated hok hsize
  have hown := hshrunk.owns h.owns hn hfile hsize
  have hvalid : ∀ b ∈ v.givenUp n (blocksOf size), sb.dataStart ≤ b ∧ b < sb.totalBlocks := by
    intro b hb
    obtain ⟨t, ht, -, rfl⟩ := mem_givenUp.1 hb
    exact h.owns.slot_valid hn ht
  have hbmap : ∀ b, b ∉ v.givenUp n (blocksOf size) → (v.truncated n size).bmap b = v.bmap b := by
    intro b hb
    rcases hshrunk.bmap b with hsame | ⟨-, hgone⟩
    · exact hsame
    · exact absurd (mem_givenUp.2 hgone) hb
  refine
    { owns := hown
      marked := fun b hb => ⟨fun hbit => ?_, ?_⟩
      ends := fun m hm => ?_
      free := fun m hlt hm => ?_
      block_tail := fun b hb hb' => ?_
      inode_tail := ?_ }
  · have hnot : b ∉ v.givenUp n (blocksOf size) := fun hmem => by
      obtain ⟨t, ht, hgone, rfl⟩ := mem_givenUp.1 hmem
      rw [truncated_free ht hgone] at hbit
      cases hbit
    rw [hbmap b hnot] at hbit
    refine ((h.marked b hb).1 hbit).imp id ?_
    rintro ⟨m, hm, t, ht, heq⟩
    by_cases hmn : m = n
    · subst hmn
      have hwithin : t.Within (blocksOf size) :=
        by_contra fun hgone => hnot (mem_givenUp.2 ⟨t, ht, hgone, heq⟩)
      exact ⟨m, hm, t, hshrunk.needs.2 hwithin, (hshrunk.slot t hwithin).trans heq⟩
    · have hkept := hshrunk.kept h.owns hn hm hmn
      exact ⟨m, hm, t, by rwa [hkept.ino], (hkept.slot t ht).trans heq⟩
  · rintro (hmeta | ⟨m, hm, t, ht, rfl⟩)
    · rw [hbmap b fun hmem => absurd (hvalid b hmem).1 (Nat.not_le.2 hmeta)]
      exact (h.marked b hb).2 (.inl hmeta)
    · exact hown.slot_marked hm ht
  · by_cases hmn : m = n
    · rw [hmn]
      exact truncated_pointersEnd hok (h.ends n hn) hsize
    · refine (h.ends m hm).congr (hshrunk.other m hmn) fun hneeds => hshrunk.data _ fun hi heq => ?_
      exact hmn (h.owns.exclusive n hn m hm .indirect .indirect hi hneeds heq).1.symm
  · rw [hshrunk.imap, hshrunk.other m fun heq => hm (heq ▸ hn)]
    exact h.free m hlt hm
  · rw [hbmap b fun hmem => absurd (hvalid b hmem).2 (Nat.not_lt.2 hb)]
    exact h.block_tail b hb hb'
  · rw [hshrunk.imap]
    exact h.inode_tail

/-! ## A new file -/

/-- Inode `c` is allocated and well formed, and the blocks of `F` are its own. -/
structure Complete (w : Vol) (c : Nat) (F : Finset Nat) : Prop where
  imap : w.imap c = true
  ok : (w.ino c).Ok
  mem_iff : ∀ b, b ∈ F ↔ ∃ t, (w.ino c).Needs t ∧ w.slotBlock c t = b
  inj : ∀ t u, (w.ino c).Needs t → (w.ino c).Needs u → w.slotBlock c t = w.slotBlock c u → t = u
  ends : w.PointersEnd c

/-- A complete inode owns its blocks beside the files there are. -/
theorem Beside.owns_insert (h : Beside v w sb L c F) (hnew : w.Complete c F) (hown : v.Owns sb L)
    (hlt : c < sb.totalInodes) : w.Owns sb (insert c L) := by
  have hold := h.owns hown
  -- a block of the new inode is in `F`, where no old file has one
  have hapart : ∀ {n t u}, n ∈ L → (w.ino c).Needs t → (w.ino n).Needs u →
      w.slotBlock c t ≠ w.slotBlock n u := by
    intro n t u hn ht hu heq
    exact h.slot_notMem hown hn hu ((hnew.mem_iff _).2 ⟨t, ht, heq⟩)
  constructor
  · intro n hn
    rcases Finset.mem_insert.1 hn with rfl | hn
    · exact hlt
    · exact hold.inode_lt n hn
  · intro n hn
    rcases Finset.mem_insert.1 hn with rfl | hn
    · exact hnew.imap
    · exact hold.allocated n hn
  · intro n hn
    rcases Finset.mem_insert.1 hn with rfl | hn
    · exact hnew.ok
    · exact hold.ok n hn
  · intro n hn t ht
    rcases Finset.mem_insert.1 hn with rfl | hn
    · have hmem := (hnew.mem_iff _).2 ⟨t, ht, rfl⟩
      rw [blockAllocated, dataBlockValid_iff.2 (h.valid _ hmem), Bool.true_and]
      exact (h.bmap _).2 (.inr hmem)
    · exact hold.block n hn t ht
  · intro n hn m hm t u ht hu heq
    rcases Finset.mem_insert.1 hn with rfl | hnL <;> rcases Finset.mem_insert.1 hm with rfl | hmL
    · exact ⟨rfl, hnew.inj t u ht hu heq⟩
    · exact absurd heq (hapart hmL ht hu)
    · exact absurd heq.symm (hapart hnL hu ht)
    · exact hold.exclusive n hnL m hmL t u ht hu heq

/-- A volume is solid with a complete inode more. -/
theorem Beside.solid (h : Beside v w sb L c F) (hnew : w.Complete c F) (hsolid : v.Solid sb L)
    (hlt : c < sb.totalInodes) : w.Solid sb (insert c L) := by
  refine
    { owns := h.owns_insert hnew hsolid.owns hlt
      marked := fun b hb => ?_
      ends := fun n hn => ?_
      free := fun n hlt hn => ?_
      block_tail := fun b hb hb' => (h.bmap b).2 (.inl (hsolid.block_tail b hb hb'))
      inode_tail := fun n hn hn' => ?_ }
  · have huses : w.Uses (insert c L) b ↔ b ∈ F ∨ w.Uses L b := by
      unfold Uses
      rw [Finset.exists_mem_insert, hnew.mem_iff]
    rw [h.bmap b, hsolid.marked b hb, huses, Kept.uses h.kept, or_assoc, or_comm (a := v.Uses L b)]
  · rcases Finset.mem_insert.1 hn with rfl | hn
    · exact hnew.ends
    · exact h.ends n hn (hsolid.ends n hn)
  · obtain ⟨hne, hn⟩ := not_or.1 (mt Finset.mem_insert.2 hn)
    rw [h.imap n hne, h.ino n hne]
    exact hsolid.free n hlt hn
  · rw [h.imap n fun heq => by omega]
    exact hsolid.inode_tail n hn hn'

namespace Prepared

variable (h : v.Prepared sb d c type F v₁)
include h

/-- The new inode is allocated. -/
theorem imap : v₁.imap c = true := by
  cases h with
  | file => simp [newFile]
  | directory => simp [newDirectory, take]

/-- The type is the mode of the new inode, and the number of names it will have. -/
theorem record :
    (v₁.ino c).mode = type ∧ (v₁.ino c).linkCount = type := by
  cases h with
  | file => simp [newFile, Inode.clear]
  | directory => simp [newDirectory]

/-- The new inode has at most one slot. -/
theorem slot_eq {t : Slot} (ht : (v₁.ino c).Needs t) :
    t = .data 0 := by
  have hblocks : blocksOf (v₁.ino c).size ≤ 1 := by
    cases h with
    | file =>
      simp only [newFile, setIno_self]
      decide
    | directory =>
      simp only [newDirectory, setIno_self, newDirectoryInode_size]
      decide
  cases t with
  | data k =>
    obtain rfl : k = 0 := Nat.lt_one_iff.1 (Nat.lt_of_lt_of_le ht hblocks)
    rfl
  | indirect =>
    have hten : 10 < 1 := Nat.lt_of_lt_of_le ht hblocks
    exact absurd hten (by decide)

/-- The blocks taken are those of the new inode. -/
theorem mem_iff :
    b ∈ F ↔ ∃ t, (v₁.ino c).Needs t ∧ v₁.slotBlock c t = b := by
  cases h with
  | file =>
    refine iff_of_false (Finset.notMem_empty b) ?_
    rintro ⟨t, ht, -⟩
    have hnone : ∀ t, ¬ Inode.clear.Needs t := by
      intro t
      have hblocks : blocksOf Inode.clear.size = 0 := by decide
      cases t with
      | data k =>
        show ¬ k < blocksOf Inode.clear.size
        omega
      | indirect =>
        show ¬ 10 < blocksOf Inode.clear.size
        omega
    rw [newFile, setIno_self] at ht
    exact hnone t ht
  | directory block hblock hblock' hfree =>
    have hino : (v.newDirectory c d block).ino c = newDirectoryInode block := setIno_self ..
    have hslot : (v.newDirectory c d block).slotBlock c (.data 0) = block := by
      simp only [slotBlock, fileBlock, hino]
      rw [if_pos (by decide), Inode.directAt, dif_pos (by decide)]
      exact newDirectoryInode_direct_zero
    rw [Finset.mem_singleton]
    constructor
    · rintro rfl
      refine ⟨.data 0, ?_, hslot⟩
      rw [hino]
      show 0 < blocksOf (newDirectoryInode b).size
      rw [newDirectoryInode_size]
      decide
    · rintro ⟨t, ht, rfl⟩
      rw [slot_eq (.directory block hblock hblock' hfree) ht, hslot]

/-- The record of the new inode is well formed. -/
theorem ok (hstart : 0 < sb.dataStart) : (v₁.ino c).Ok := by
  cases h with
  | file =>
    rw [newFile, setIno_self]
    exact Inode.ok_clear
  | directory block hblock =>
    rw [newDirectory, setIno_self]
    exact ok_newDirectoryInode (Nat.ne_of_gt (Nat.lt_of_lt_of_le hstart hblock))

/-- The new inode is complete. -/
theorem complete (hstart : 0 < sb.dataStart) : v₁.Complete c F where
  imap := h.imap
  ok := h.ok hstart
  mem_iff _ := h.mem_iff
  inj _ _ ht hu _ := (h.slot_eq ht).trans (h.slot_eq hu).symm
  ends hmany := by
    have hslot := h.slot_eq (t := .indirect) hmany
    cases hslot

/-- A prepared volume is solid with the new inode. -/
theorem solid (hstart : 0 < sb.dataStart) (hsolid : v.Solid sb L)
    (hc : c ∉ L) (hlt : c < sb.totalInodes) : v₁.Solid sb (insert c L) :=
  (h.beside hsolid.owns hc).solid (h.complete hstart) hsolid hlt

end Prepared

/-! ## Another link count -/

/-- The volume with another link count for an inode. -/
def relink (v : Vol) (d links : Nat) : Vol := v.setIno d { v.ino d with linkCount := links }

@[simp] theorem relink_bmap : (v.relink d links).bmap = v.bmap := rfl
@[simp] theorem relink_imap : (v.relink d links).imap = v.imap := rfl
@[simp] theorem relink_data : (v.relink d links).data = v.data := rfl

theorem relink_self : (v.relink d links).ino d = { v.ino d with linkCount := links } :=
  setIno_self ..

theorem relink_of_ne (h : n ≠ d) : (v.relink d links).ino n = v.ino n := setIno_of_ne h

/-- A record keeps everything but its link count. -/
theorem relink_ino : ((v.relink d links).ino n).mode = (v.ino n).mode ∧
    ((v.relink d links).ino n).size = (v.ino n).size ∧
    ((v.relink d links).ino n).direct = (v.ino n).direct ∧
    ((v.relink d links).ino n).indirect = (v.ino n).indirect := by
  by_cases hn : n = d
  · subst hn
    rw [relink_self]
    exact ⟨rfl, rfl, rfl, rfl⟩
  · rw [relink_of_ne hn]
    exact ⟨rfl, rfl, rfl, rfl⟩

theorem relink_fileBlock {k : Nat} : (v.relink d links).fileBlock n k = v.fileBlock n k := by
  have hdirect : ((v.relink d links).ino n).direct = (v.ino n).direct := relink_ino.2.2.1
  have hindirect : ((v.relink d links).ino n).indirect = (v.ino n).indirect := relink_ino.2.2.2
  simp only [fileBlock, Inode.directAt, hdirect, hindirect, relink_data]

theorem relink_slotBlock {t : Slot} : (v.relink d links).slotBlock n t = v.slotBlock n t := by
  cases t with
  | data k => exact relink_fileBlock
  | indirect => exact relink_ino.2.2.2

theorem relink_needs {t : Slot} : ((v.relink d links).ino n).Needs t ↔ (v.ino n).Needs t := by
  rw [Inode.needs_iff, Inode.needs_iff, relink_ino.2.1]

theorem relink_entry {i : Nat} : (v.relink d links).entry n i = v.entry n i := by
  rw [entry, entry, relink_fileBlock, relink_data]

theorem relink_entryCount : (v.relink d links).entryCount n = v.entryCount n := by
  rw [entryCount, entryCount, relink_ino.2.1]

/-- Another link count leaves the volume solid. -/
theorem Solid.relink (h : v.Solid sb L) (hd : d ∈ L) (hlinks : links ≠ 0) :
    (v.relink d links).Solid sb L where
  owns := by
    refine ⟨h.owns.inode_lt, h.owns.allocated, fun n hn => ?_, fun n hn t ht => ?_,
      fun n hn m hm t u ht hu heq => ?_⟩
    · by_cases hnd : n = d
      · subst hnd
        rw [relink_self]
        exact { h.owns.ok n hn with linkCount := hlinks }
      · rw [relink_of_ne hnd]
        exact h.owns.ok n hn
    · rw [relink_slotBlock]
      exact h.owns.block n hn t (relink_needs.1 ht)
    · rw [relink_slotBlock, relink_slotBlock] at heq
      exact h.owns.exclusive n hn m hm t u (relink_needs.1 ht) (relink_needs.1 hu) heq
  marked b hb := by
    rw [relink_bmap, h.marked b hb,
      uses_congr (fun _ _ _ => relink_needs) fun _ _ _ _ => relink_slotBlock]
  ends n hn := by
    intro hmany
    rw [relink_ino.2.1] at hmany ⊢
    rw [relink_ino.2.2.2]
    exact h.ends n hn hmany
  free n hlt hn := by
    have hne : n ≠ d := fun heq => hn (heq ▸ hd)
    rw [relink_imap, relink_of_ne hne]
    exact h.free n hlt hn
  block_tail := h.block_tail
  inode_tail := h.inode_tail

/-! ## A file released -/

/-- The released file is one on the way of releasing it. -/
theorem releasing_released : Releasing v (v.released c) c :=
  ((Releasing.release (Finset.Subset.refl _)).setIno).setI

/-- Releasing a file leaves the volume solid for the others. -/
theorem Solid.released (h : v.Solid sb L) (hc : c ∈ L) : (v.released c).Solid sb (L.erase c) := by
  have hrel : Releasing v (v.released c) c := releasing_released
  have hkept : ∀ n ∈ L.erase c, Kept v (v.released c) n := by
    intro n hn
    obtain ⟨hne, hn⟩ := Finset.mem_erase.1 hn
    exact hrel.kept h.owns hc hn hne
  have hbmap : ∀ b, (v.released c).bmap b = true ↔ v.bmap b = true ∧ b ∉ v.givenUp c 0 := by
    intro b
    simp [Vol.released, Vol.release]
  have hgiven : ∀ b, b ∈ v.givenUp c 0 ↔ ∃ t, (v.ino c).Needs t ∧ v.slotBlock c t = b := by
    intro b
    have hout : ∀ t : Slot, ¬ t.Within 0 := by
      intro t
      cases t with
      | data k => exact Nat.not_lt_zero k
      | indirect => exact Nat.not_lt_zero 10
    simp only [mem_givenUp, hout, not_false_eq_true, true_and]
  have hvalid : ∀ b ∈ v.givenUp c 0, sb.dataStart ≤ b ∧ b < sb.totalBlocks := by
    intro b hb
    obtain ⟨t, ht, rfl⟩ := (hgiven b).1 hb
    exact h.owns.slot_valid hc ht
  refine
    { owns := (h.owns.mono (Finset.erase_subset c L)).congr fun n hn => (hkept n hn).toSameFile
      marked := fun b hb => ?_
      ends := fun n hn => ?_
      free := fun n hlt hn => ?_
      block_tail := fun b hb hb' => ?_
      inode_tail := fun n hn hn' => ?_ }
  · rw [hbmap b, h.marked b hb, Kept.uses hkept]
    constructor
    · rintro ⟨hmeta | ⟨n, hn, t, ht, heq⟩, hnot⟩
      · exact .inl hmeta
      · refine .inr ⟨n, Finset.mem_erase.2 ⟨?_, hn⟩, t, ht, heq⟩
        rintro rfl
        exact hnot ((hgiven b).2 ⟨t, ht, heq⟩)
    · rintro (hmeta | ⟨n, hn, t, ht, heq⟩)
      · exact ⟨.inl hmeta, fun hmem => absurd (hvalid b hmem).1 (Nat.not_le.2 hmeta)⟩
      · obtain ⟨hne, hn⟩ := Finset.mem_erase.1 hn
        refine ⟨.inr ⟨n, hn, t, ht, heq⟩, fun hmem => ?_⟩
        obtain ⟨u, hu, heq'⟩ := (hgiven b).1 hmem
        exact hne (h.owns.exclusive n hn c hc t u ht hu (heq.trans heq'.symm)).1
  · obtain ⟨hne, hn⟩ := Finset.mem_erase.1 hn
    exact (h.ends n hn).congr (hrel.ino n hne) fun _ => by rw [hrel.data]
  · by_cases hnc : n = c
    · subst hnc
      exact ⟨setI_self .., setIno_self ..⟩
    · rw [hrel.imap n hnc, hrel.ino n hnc]
      exact h.free n hlt fun hmem => hn (Finset.mem_erase.2 ⟨hnc, hmem⟩)
  · exact (hbmap b).2 ⟨h.block_tail b hb hb', fun hmem => absurd (hvalid b hmem).2 (Nat.not_lt.2 hb)⟩
  · have hne : n ≠ c := fun heq => absurd (h.owns.inode_lt c hc) (by omega)
    rw [hrel.imap n hne]
    exact h.inode_tail n hn hn'

end Vol

end MiniOrange
