import MiniOrange.Fs.Data

/-!
# Giving up the blocks of a file

`truncate_locked` and `release_inode_locked` free the blocks of a file in the same three steps: the
direct blocks, the blocks in the indirect block, and the indirect block. The pointers are kept in
`compare_buffer`, which `free_block` does not touch. The blocks freed are those in the slots the file
gives up (`mem_givenUp`), so no other file loses one. What is left of the file on the way is
`Releasing`.
-/

namespace MiniOrange

/-- The slots of a file of so many blocks. -/
def Slot.Within (t : Slot) (blocks : Nat) : Prop :=
  match t with
  | .data k => k < blocks
  | .indirect => 10 < blocks

/-- The slots an inode needs are those of its blocks. -/
theorem Inode.needs_iff {i : Inode} {t : Slot} : i.Needs t ↔ t.Within (blocksOf i.size) := by
  cases t with
  | data k => exact Iff.rfl
  | indirect => exact Iff.rfl

namespace Vol

variable {v w : Vol} {sb : Superblock} {L F : Finset Nat} {n m b new : Nat}

/-- The volume with the blocks of `F` free. -/
def release (v : Vol) (F : Finset Nat) : Vol := { v with bmap := fun b => v.bmap b && decide (b ∉ F) }

@[simp] theorem release_imap : (v.release F).imap = v.imap := rfl
@[simp] theorem release_ino : (v.release F).ino = v.ino := rfl
@[simp] theorem release_data : (v.release F).data = v.data := rfl

@[simp] theorem release_empty : v.release ∅ = v := by
  simp [release]

/-- A released block is free. -/
theorem release_of_mem (h : b ∈ F) : (v.release F).bmap b = false := by
  simp [release, h]

/-- Other blocks keep their mark. -/
theorem release_of_notMem (h : b ∉ F) : (v.release F).bmap b = v.bmap b := by
  simp [release, h]

/-- One block more is released. -/
theorem release_setB : (v.release F).setB b false = v.release (insert b F) := by
  refine Vol.ext (funext fun c => ?_) rfl rfl rfl
  by_cases hcb : c = b
  · rw [hcb, setB_self, release_of_mem (Finset.mem_insert_self b F)]
  · rw [setB_of_ne hcb]
    simp [release, hcb]

/-- The blocks a file gives up when it keeps `new` of its blocks. -/
def givenUp (v : Vol) (n new : Nat) : Finset Nat :=
  (Finset.Ico new (blocksOf (v.ino n).size)).image (v.fileBlock n) ∪
    if 10 < blocksOf (v.ino n).size ∧ new ≤ 10 then {(v.ino n).indirect} else ∅

/-- Without the indirect block, they are data blocks. -/
theorem givenUp_eq (h : ¬ (10 < blocksOf (v.ino n).size ∧ new ≤ 10)) :
    v.givenUp n new = (Finset.Ico new (blocksOf (v.ino n).size)).image (v.fileBlock n) := by
  rw [givenUp, if_neg h, Finset.union_empty]

/-- They are the blocks in the slots it gives up. -/
theorem mem_givenUp : b ∈ v.givenUp n new ↔
    ∃ t, (v.ino n).Needs t ∧ ¬ t.Within new ∧ v.slotBlock n t = b := by
  unfold givenUp
  rw [Finset.mem_union, Finset.mem_image]
  constructor
  · rintro (⟨k, hk, heq⟩ | hi)
    · obtain ⟨hnew, hold⟩ := Finset.mem_Ico.1 hk
      exact ⟨.data k, hold, Nat.not_lt.2 hnew, heq⟩
    · split at hi
      · next hcond => exact ⟨.indirect, hcond.1, Nat.not_lt.2 hcond.2, (Finset.mem_singleton.1 hi).symm⟩
      · cases hi
  · rintro ⟨t, ht, hgone, heq⟩
    cases t with
    | data k => exact .inl ⟨k, Finset.mem_Ico.2 ⟨Nat.not_lt.1 hgone, ht⟩, heq⟩
    | indirect =>
      rw [if_pos ⟨ht, Nat.not_lt.1 hgone⟩]
      exact .inr (Finset.mem_singleton.2 heq.symm)

/-- On the way of releasing file `n`, and after it: only the record, the mark and the blocks of `n`
have changed. -/
structure Releasing (v w : Vol) (n : Nat) : Prop where
  imap : ∀ m, m ≠ n → w.imap m = v.imap m
  ino : ∀ m, m ≠ n → w.ino m = v.ino m
  data : w.data = v.data
  bmap : ∀ b, w.bmap b = v.bmap b ∨
    (w.bmap b = false ∧ ∃ t, (v.ino n).Needs t ∧ v.slotBlock n t = b)

namespace Releasing

theorem refl (v : Vol) (n : Nat) : Releasing v v n :=
  ⟨fun _ _ => rfl, fun _ _ => rfl, rfl, fun _ => .inl rfl⟩

/-- Some blocks of the file are free. -/
theorem release (hF : F ⊆ v.givenUp n 0) : Releasing v (v.release F) n where
  imap _ _ := rfl
  ino _ _ := rfl
  data := rfl
  bmap b := by
    by_cases hb : b ∈ F
    · obtain ⟨t, ht, -, heq⟩ := mem_givenUp.1 (hF hb)
      exact .inr ⟨release_of_mem hb, t, ht, heq⟩
    · exact .inl (release_of_notMem hb)

/-- The record is overwritten. -/
theorem setIno (h : Releasing v w n) {inode : Inode} : Releasing v (w.setIno n inode) n :=
  { h with ino := fun m hm => (setIno_of_ne hm).trans (h.ino m hm) }

/-- The inode's mark is changed. -/
theorem setI (h : Releasing v w n) {value : Bool} : Releasing v (w.setI n value) n :=
  { h with imap := fun m hm => (setI_of_ne hm).trans (h.imap m hm) }

/-- Another file of an owned set is kept. -/
theorem kept (h : Releasing v w n) (hown : v.Owns sb L) (hn : n ∈ L) (hm : m ∈ L) (hne : m ≠ n) :
    Kept v w m where
  imap := h.imap m hne
  ino := h.ino m hne
  slot t _ := slotBlock_congr (h.ino m hne) (by rw [h.data]) t
  marked t ht := by
    rcases h.bmap (v.slotBlock m t) with hsame | ⟨-, u, hu, heq⟩
    · exact hsame
    · exact absurd (hown.exclusive n hn m hm u t hu ht heq).1.symm hne
  data o _ := by rw [h.data, byteAt]

end Releasing

end Vol

variable {E : Env} {v : Vol} {aux cmp : Block} {s : Machine} {L F : Finset Nat} {n : Nat}

/-- A loop of `free_block` calls with no fault to come: the blocks are released. -/
theorem On.freeBlocksFrom (block : Machine → Nat → Nat) (f : Nat → Nat) (first last : Nat)
    (hblock : ∀ s : Machine, s.buffers.compareBuffer = cmp → ∀ k, first ≤ k → k < last →
      block s k = f k) :
    ∀ (count index : Nat) (F : Finset Nat) (s : Machine), first ≤ index → index + count ≤ last →
      On E .quiet (v.release F) aux cmp s →
      (∀ k, index ≤ k → k < index + count → E.sb.dataStart ≤ f k ∧ f k < E.sb.totalBlocks) →
      (∀ G, G ⊆ F ∪ (Finset.Ico index (index + count)).image f → E.safe (v.release G)) →
      wp (MiniOrange.freeBlocksFrom block count index) (fun r s' => r = .ok () ∧
        On E .quiet (v.release (F ∪ (Finset.Ico index (index + count)).image f)) aux cmp s') s := by
  intro count
  induction count with
  | zero =>
    intro index F s _ _ h _ _
    have hF : F ∪ (Finset.Ico index (index + 0)).image f = F := by simp
    rw [hF]
    exact ⟨rfl, h⟩
  | succ count ih =>
    intro index F s hfirst hlast h hvalid hsafe
    -- the set freed by the whole loop, first block first
    have hset : insert (f index) F ∪ (Finset.Ico (index + 1) (index + 1 + count)).image f =
        F ∪ (Finset.Ico index (index + (count + 1))).image f := by
      have hico : Finset.Ico index (index + (count + 1)) =
          insert index (Finset.Ico (index + 1) (index + 1 + count)) := by
        ext k
        simp only [Finset.mem_Ico, Finset.mem_insert]
        omega
      rw [hico, Finset.image_insert, Finset.union_insert, Finset.insert_union]
    obtain ⟨hb, hb'⟩ := hvalid index le_rfl (by omega)
    unfold MiniOrange.freeBlocksFrom
    rw [wp_bind, wp_get, hblock s h.compare index hfirst (by omega)]
    refine wp.bind (h.freeBlock nofun hb hb' ?_) ?_
    · rw [Vol.release_setB]
      refine hsafe _ (Finset.insert_subset ?_ Finset.subset_union_left)
      rw [← hset]
      exact Finset.mem_union_left _ (Finset.mem_insert_self _ _)
    · rintro r s₁ (⟨rfl, h₁⟩ | ⟨-, hs, -⟩)
      · rw [Vol.release_setB] at h₁
        rw [← hset]
        refine ih (index + 1) _ s₁ (by omega) (by omega) h₁ (fun k hk hk' => hvalid k (by omega) (by omega)) fun G hG => ?_
        rw [hset] at hG
        exact hsafe G hG
      · cases hs

/-- The pointers in `compare_buffer` are those of the file, past its direct blocks. -/
theorem comparePointer_eq {k : Nat} (s : Machine) (hcmp : s.buffers.compareBuffer = v.data (v.ino n).indirect)
    (hk : 10 ≤ k) : comparePointer s k = v.fileBlock n k := by
  rw [comparePointer, hcmp, Vol.fileBlock, if_neg (Nat.not_lt.2 hk)]

/-- `read_volume_block_into` `compare_buffer`, of a data block and with no fault to come. -/
theorem On.readCompare {b : Nat} (h : On E .quiet v aux cmp s) (hb : E.sb.dataStart ≤ b)
    (hb' : b < E.sb.totalBlocks) :
    wp (readVolumeBlockInto b .compareBuffer) (fun r s' =>
      r = .ok () ∧ On E .quiet v aux (v.data b) s') s := by
  have hdata : s.volume b = v.data b := by rw [← h.volume, Vol.data_ofDisk hb hb']
  refine (h.read hb').mono ?_
  rintro r s' (⟨rfl, ho, hs⟩ | ⟨-, hq, -⟩)
  · refine ⟨rfl, ?_⟩
    rw [hs]
    exact { h with auxiliary := h.auxiliary, compare := hdata, outcome := ho }
  · exact absurd rfl hq

section
variable {w : Vol} {new : Nat} (hown : v.Owns E.sb L) (hn : n ∈ L)
  (hsafe : ∀ G, G ⊆ v.givenUp n new → E.safe (w.release G))
include hown hn hsafe

/-- A loop over blocks a file gives up, after those before `mid`. -/
theorem On.freeStretch {block : Machine → Nat → Nat} {mid first last : Nat}
    (h : On E .quiet (w.release ((Finset.Ico new mid).image (v.fileBlock n))) aux cmp s)
    (hblock : ∀ s : Machine, s.buffers.compareBuffer = cmp → ∀ k, first ≤ k → k < last → block s k = v.fileBlock n k)
    (hlast : last ≤ blocksOf (v.ino n).size)
    (hjoin : ∀ k, new ≤ k ∧ k < mid ∨ first ≤ k ∧ k < last ↔ new ≤ k ∧ k < last) :
    wp (MiniOrange.freeBlocksFrom block (last - first) first) (fun r s' => r = .ok () ∧
      On E .quiet (w.release ((Finset.Ico new last).image (v.fileBlock n))) aux cmp s') s := by
  have hset : (Finset.Ico new mid).image (v.fileBlock n) ∪
      (Finset.Ico first (first + (last - first))).image (v.fileBlock n) =
      (Finset.Ico new last).image (v.fileBlock n) := by
    rw [← Finset.image_union]
    congr 1
    ext k
    simp only [Finset.mem_union, Finset.mem_Ico, ← hjoin k]
    omega
  have hrun := On.freeBlocksFrom block (v.fileBlock n) first (first + (last - first))
    (fun s' hs' k hk hlt => hblock s' hs' k hk (by omega)) (last - first) first _ s le_rfl le_rfl h
  rw [hset] at hrun
  refine hrun (fun k hk hlt => ?_) fun G hG => hsafe G (hG.trans fun b hb => ?_)
  · exact hown.slot_valid hn (t := .data k) (show k < blocksOf (v.ino n).size by omega)
  · obtain ⟨k, hk, rfl⟩ := Finset.mem_image.1 hb
    obtain ⟨hnew, hlt⟩ := Finset.mem_Ico.1 hk
    exact Vol.mem_givenUp.2 ⟨.data k, hlt.trans_le hlast, Nat.not_lt.2 hnew, rfl⟩

/-- The loop over the direct blocks a file gives up. -/
theorem On.freeDirect (h : On E .quiet w aux cmp s) :
    wp (MiniOrange.freeBlocksFrom (fun _ => (v.ino n).directAt)
      (min (blocksOf (v.ino n).size) 10 - new) new) (fun r s' => r = .ok () ∧
        On E .quiet (w.release ((Finset.Ico new (min (blocksOf (v.ino n).size) 10)).image
          (v.fileBlock n))) aux cmp s') s := by
  have hnone : On E .quiet (w.release ((Finset.Ico new new).image (v.fileBlock n))) aux cmp s := by simpa using h
  refine hnone.freeStretch hown hn hsafe (fun _ _ k _ hlt => ?_) (by omega) fun k => by omega
  exact (if_pos (show k < 10 by omega)).symm

/-- The loop over the blocks behind the indirect block, after the one over the direct blocks. -/
theorem On.freePointers {first : Nat} (hfirst : first = max new 10)
    (h : On E .quiet (w.release ((Finset.Ico new (min (blocksOf (v.ino n).size) 10)).image
      (v.fileBlock n))) aux cmp s)
    (hcmp : 10 < blocksOf (v.ino n).size → cmp = v.data (v.ino n).indirect) :
    wp (MiniOrange.freeBlocksFrom comparePointer (blocksOf (v.ino n).size - first) first)
      (fun r s' => r = .ok () ∧ On E .quiet (w.release
        ((Finset.Ico new (blocksOf (v.ino n).size)).image (v.fileBlock n))) aux cmp s') s := by
  refine h.freeStretch hown hn hsafe (fun s' hs' k hk hlt => ?_) le_rfl fun k => by omega
  exact comparePointer_eq s' (hs'.trans (hcmp (by omega))) (by omega)

/-- The indirect block goes with the blocks it pointed to. -/
theorem On.freeIndirectLast (hmany : 10 < blocksOf (v.ino n).size) (hnew : new ≤ 10)
    (h : On E .quiet (w.release ((Finset.Ico new (blocksOf (v.ino n).size)).image (v.fileBlock n))) aux cmp s) :
    wp (MiniOrange.freeBlock (v.ino n).indirect) (fun r s' => r = .ok () ∧
      On E .quiet (w.release (v.givenUp n new)) aux cmp s') s := by
  have hset : insert (v.ino n).indirect ((Finset.Ico new (blocksOf (v.ino n).size)).image (v.fileBlock n)) =
      v.givenUp n new := by
    rw [Vol.givenUp, if_pos ⟨hmany, hnew⟩, Finset.union_comm]
    rfl
  obtain ⟨hi, hi'⟩ := hown.slot_valid hn (t := .indirect) hmany
  refine (h.freeBlock nofun hi hi' ?_).mono ?_
  · rw [Vol.release_setB, Vol.slotBlock, hset]
    exact hsafe _ (Finset.Subset.refl _)
  · rintro r s' (⟨rfl, h'⟩ | ⟨-, hs, -⟩)
    · rw [Vol.release_setB, Vol.slotBlock, hset] at h'
      exact ⟨rfl, h'⟩
    · cases hs

end

/-- `release_inode_locked`: the blocks, the record and the number of the file are free. -/
theorem On.releaseInodeLocked (h : On E .quiet v aux cmp s) (hown : v.Owns E.sb L) (hn : n ∈ L)
    (hroot : n ≠ E.sb.rootInode) (hsafe : ∀ w, Vol.Releasing v w n → E.safe w) :
    wp (MiniOrange.releaseInodeLocked n (v.ino n)) (fun r s' => r = .ok () ∧ ∃ cmp',
      On E .quiet (((v.release (v.givenUp n 0)).setIno n .zero).setI n false) aux cmp' s') s := by
  have hlt := hown.inode_lt n hn
  have hindirect := (hown.ok n hn).indirect
  have hsafe' : ∀ G, G ⊆ v.givenUp n 0 → E.safe (v.release G) := fun G hG => hsafe _ (.release hG)
  unfold MiniOrange.releaseInodeLocked
  dsimp only
  -- the pointers are in `compare_buffer` if there are any
  have hload : wp (onlyIf (blocksOf (v.ino n).size > 10)
      (readVolumeBlockInto (v.ino n).indirect .compareBuffer)) (fun r s' => r = .ok () ∧ ∃ cmp',
        (10 < blocksOf (v.ino n).size → cmp' = v.data (v.ino n).indirect) ∧
        On E .quiet v aux cmp' s') s := by
    unfold onlyIf
    split
    · next hmany =>
      obtain ⟨hi, hi'⟩ := hown.slot_valid hn (t := .indirect) hmany
      refine (h.readCompare hi hi').mono ?_
      rintro r s' ⟨rfl, h'⟩
      exact ⟨rfl, _, fun _ => rfl, h'⟩
    · next hfew => exact ⟨rfl, cmp, fun hmany => absurd hmany hfew, h⟩
  refine wp.bind hload ?_
  rintro r s₁ ⟨rfl, cmp', hcmp, h₁⟩
  refine wp.bind (h₁.freeDirect hown hn hsafe') ?_
  rintro r s₂ ⟨rfl, h₂⟩
  refine wp.bind (On.freePointers hown hn hsafe' rfl h₂ hcmp) ?_
  rintro r s₃ ⟨rfl, h₃⟩
  unfold releaseInodeRecord
  -- the indirect block goes with the blocks it pointed to
  have hlast : wp (onlyIf ((v.ino n).indirect ≠ 0) (MiniOrange.freeBlock (v.ino n).indirect))
      (fun r s' => r = .ok () ∧ On E .quiet (v.release (v.givenUp n 0)) aux cmp' s') s₃ := by
    unfold onlyIf
    split
    · next hne =>
      exact h₃.freeIndirectLast hown hn hsafe' (hindirect.1 hne) (Nat.zero_le 10)
    · next hzero =>
      have hfew : ¬ 10 < blocksOf (v.ino n).size := fun hmany => hzero (hindirect.2 hmany)
      rw [← Vol.givenUp_eq fun hcond => hfew hcond.1] at h₃
      exact ⟨rfl, h₃⟩
  refine wp.bind hlast ?_
  rintro r s₄ ⟨rfl, h₄⟩
  have hrel : Vol.Releasing v (v.release (v.givenUp n 0)) n := .release (Finset.Subset.refl _)
  refine wp.bind (h₄.clearInodeRecord nofun hroot hlt (hsafe _ hrel.setIno)) ?_
  rintro r s₅ (⟨rfl, h₅⟩ | ⟨-, hs, -⟩)
  case inr => cases hs
  refine wp.bind (h₅.freeInode nofun hroot hlt (hsafe _ hrel.setIno.setI)) ?_
  rintro r s₆ (⟨rfl, h₆⟩ | ⟨-, hs, -⟩)
  case inr => cases hs
  exact ⟨rfl, cmp', h₆⟩

end MiniOrange
