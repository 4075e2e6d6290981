import MiniOrange.Fs.Release

/-!
# `truncate_locked`

A shrunk file keeps the slots of its new size and gives the others up. The kernel clears the pointers
past the new size if the indirect block stays, commits the inode, and then frees the blocks. Once the
inode is committed, every volume on the way is `Shrunk`; the file keeps its first bytes, every other
file is kept, and the blocks that are free belong to no file.
-/

namespace MiniOrange

/-- The pointers of an indirect block with a stretch of them cleared. -/
theorem Block.pointer_writeWords {b : Block} {first count k : Nat} (hk : k < 1024) :
    (b.writeWords 0 (fun _ => 0) (List.range' first count)).pointer k =
      if first ≤ k ∧ k < first + count then 0 else b.pointer k := by
  have hword : readLe32 ((b.writeWords 0 (fun _ => 0) (List.range' first count)).ptr (0 + 4 * k)) =
      if k ∈ List.range' first count then 0 % 2 ^ 32 else readLe32 (b.ptr (0 + 4 * k)) :=
    Block.readLe32_writeWords (by omega)
  rw [Nat.zero_add, Nat.mul_comm 4 k] at hword
  rw [Block.pointer, hword]
  simp only [List.mem_range'_1, Nat.zero_mod, Block.pointer]

namespace Vol

variable {v w : Vol} {sb : Superblock} {L F : Finset Nat} {n m size : Nat}

/-- The volume once `truncate_locked` has cleared the pointers past `new` blocks, if it does. -/
def cleared (v : Vol) (n new : Nat) : Vol :=
  if 10 < new then
    v.setData (v.ino n).indirect ((v.data (v.ino n).indirect).writeWords 0 (fun _ => 0)
      (List.range' (new - 10) (blocksOf (v.ino n).size - 10 - (new - 10))))
  else v

/-- The volume once `truncate_locked` has committed the inode. -/
def cut (v : Vol) (n size : Nat) : Vol :=
  (v.cleared n (blocksOf size)).setIno n
    (truncatedInode (v.ino n) size (blocksOf (v.ino n).size) (blocksOf size))

/-- File `n` has been cut to `size` bytes, and some of the blocks it gave up are free. -/
structure Shrunk (v w : Vol) (n size : Nat) : Prop where
  imap : w.imap = v.imap
  other : ∀ m, m ≠ n → w.ino m = v.ino m
  ino : w.ino n = truncatedInode (v.ino n) size (blocksOf (v.ino n).size) (blocksOf size)
  slot : ∀ t, t.Within (blocksOf size) → w.slotBlock n t = v.slotBlock n t
  data : ∀ b, ((v.ino n).Needs .indirect → (v.ino n).indirect ≠ b) → w.data b = v.data b
  bmap : ∀ b, w.bmap b = v.bmap b ∨ (w.bmap b = false ∧
    ∃ t, (v.ino n).Needs t ∧ ¬ t.Within (blocksOf size) ∧ v.slotBlock n t = b)

/-- Fewer blocks have fewer slots. -/
theorem within_mono {t : Slot} {a b : Nat} (hab : a ≤ b) (h : t.Within a) : t.Within b := by
  cases t with
  | data k => exact Nat.lt_of_lt_of_le h hab
  | indirect => exact Nat.lt_of_lt_of_le h hab

/-- A smaller file has at most as many blocks. -/
theorem blocksOf_mono {a b : Nat} (h : a ≤ b) : blocksOf a ≤ blocksOf b :=
  blocksOf_le.2 (h.trans (blocksOf_le.1 le_rfl))

/-- The shrunk record of a regular file is well formed. -/
theorem ok_truncatedInode {inode : Inode} (hok : inode.Ok) (hfile : inode.mode ≠ 2)
    (hsize : size ≤ inode.size) :
    (truncatedInode inode size (blocksOf inode.size) (blocksOf size)).Ok := by
  have hle := blocksOf_mono hsize
  refine ⟨hok.mode, hok.linkCount, hsize.trans hok.size_le, hok.reserved,
    fun hmode => absurd hmode hfile, fun k => ?_, ?_⟩
  · have hdirect := hok.direct k
    show (if blocksOf size ≤ k.val ∧ k.val < blocksOf inode.size then 0 else inode.direct k) ≠ 0 ↔
      k.val < blocksOf size
    split
    · next hgone => exact iff_of_false (fun h => h rfl) (Nat.not_lt.2 hgone.1)
    · next hkeep =>
      rw [hdirect]
      omega
  · have hindirect := hok.indirect
    show (if blocksOf size > 10 then inode.indirect else 0) ≠ 0 ↔ 10 < blocksOf size
    split
    · next hmany => exact iff_of_true (hindirect.2 (by omega)) hmany
    · next hfew => exact iff_of_false (fun h => h rfl) hfew

/-- Committing the inode leaves the file shrunk with all blocks marked. -/
theorem shrunk_cut (hok : (v.ino n).Ok) (hsize : size ≤ (v.ino n).size) :
    Shrunk v (v.cut n size) n size := by
  have hle := blocksOf_mono hsize
  have hmax : blocksOf (v.ino n).size ≤ 1034 := blocksOf_le.2 hok.size_le
  refine
    { imap := ?_
      other := fun m hm => ?_
      ino := setIno_self ..
      slot := fun t ht => ?_
      data := fun b hb => ?_
      bmap := fun b => .inl ?_ }
  · unfold cut cleared
    split <;> rfl
  · unfold cut cleared
    rw [setIno_of_ne hm]
    split <;> rfl
  · cases t with
    | indirect =>
      have hmany : 10 < blocksOf size := ht
      simp only [slotBlock, cut, setIno_self, truncatedInode, if_pos hmany]
    | data k =>
      have hk : k < blocksOf size := ht
      simp only [slotBlock, fileBlock, cut, setIno_self, setIno_data, truncatedInode]
      rcases Nat.lt_or_ge k 10 with hten | hten
      · simp only [if_pos hten, Inode.directAt, dif_pos hten]
        rw [if_neg (by omega)]
      · -- the pointer is below the cleared ones
        have hmany : 10 < blocksOf size := by omega
        rw [if_neg (Nat.not_lt.2 hten), if_neg (Nat.not_lt.2 hten), if_pos hmany, cleared,
          if_pos hmany, setData_self, Block.pointer_writeWords (by omega), if_neg (by omega)]
  · unfold cut cleared
    split
    · next hmany =>
      exact setData_of_ne fun heq => hb (show 10 < blocksOf (v.ino n).size by omega) heq.symm
    · rfl
  · unfold cut cleared
    split <;> rfl

namespace Shrunk

variable (h : Shrunk v w n size)
include h

/-- Freeing some of the blocks given up. -/
theorem release (hF : F ⊆ v.givenUp n (blocksOf size)) :
    Shrunk v (w.release F) n size where
  imap := h.imap
  other := h.other
  ino := h.ino
  slot := h.slot
  data := h.data
  bmap b := by
    by_cases hb : b ∈ F
    · exact .inr ⟨release_of_mem hb, mem_givenUp.1 (hF hb)⟩
    · rw [release_of_notMem hb]
      exact h.bmap b

/-- The slots of the shrunk file. -/
theorem needs {t : Slot} : (w.ino n).Needs t ↔ t.Within (blocksOf size) := by
  rw [Inode.needs_iff, h.ino]
  rfl

/-- Another file of an owned set is kept. -/
theorem kept (hown : v.Owns sb L) (hn : n ∈ L) (hm : m ∈ L) (hne : m ≠ n) :
    Kept v w m := by
  have hout : ∀ t, (v.ino m).Needs t → ∀ u, (v.ino n).Needs u → v.slotBlock n u ≠ v.slotBlock m t :=
    fun t ht u hu heq => hne (hown.exclusive n hn m hm u t hu ht heq).1.symm
  have hdata : ∀ t, (v.ino m).Needs t → w.data (v.slotBlock m t) = v.data (v.slotBlock m t) :=
    fun t ht => h.data _ fun hi => hout t ht .indirect hi
  refine .of_slots (congrFun h.imap m) (h.other m hne) (fun t ht => ?_) hdata
  rcases h.bmap (v.slotBlock m t) with hsame | ⟨-, u, hu, -, heq⟩
  · exact hsame
  · exact absurd heq (hout t ht u hu)

/-- Ownership survives. -/
theorem owns (hown : v.Owns sb L) (hn : n ∈ L) (hfile : (v.ino n).mode ≠ 2)
    (hsize : size ≤ (v.ino n).size) : w.Owns sb L := by
  -- the slots the file keeps hold what they held, and are still marked
  have hold : ∀ t, (w.ino n).Needs t → (v.ino n).Needs t ∧ w.slotBlock n t = v.slotBlock n t ∧
      w.bmap (v.slotBlock n t) = v.bmap (v.slotBlock n t) := by
    intro t ht
    have hwithin := h.needs.1 ht
    have hneeds : (v.ino n).Needs t := Inode.needs_iff.2 (within_mono (blocksOf_mono hsize) hwithin)
    refine ⟨hneeds, h.slot t hwithin, ?_⟩
    rcases h.bmap (v.slotBlock n t) with hsame | ⟨-, u, hu, hgone, heq⟩
    · exact hsame
    · obtain ⟨-, rfl⟩ := hown.exclusive n hn n hn u t hu hneeds heq
      exact absurd hwithin hgone
  -- so in every slot of the set there is the block that was there
  have hslot : ∀ m ∈ L, ∀ t, (w.ino m).Needs t → (v.ino m).Needs t ∧
      w.slotBlock m t = v.slotBlock m t ∧ w.bmap (v.slotBlock m t) = v.bmap (v.slotBlock m t) := by
    intro m hm t ht
    by_cases hmn : m = n
    · subst hmn
      exact hold t ht
    · have hkept := h.kept hown hn hm hmn
      rw [hkept.ino] at ht
      exact ⟨ht, hkept.slot t ht, hkept.marked t ht⟩
  refine ⟨hown.inode_lt, fun m hm => ?_, fun m hm => ?_, fun m hm t ht => ?_,
    fun m hm m' hm' t u ht hu heq => ?_⟩
  · rw [h.imap]
    exact hown.allocated m hm
  · by_cases hmn : m = n
    · rw [hmn, h.ino]
      exact ok_truncatedInode (hown.ok n hn) hfile hsize
    · rw [h.other m hmn]
      exact hown.ok m hm
  · obtain ⟨hneeds, hsame, hmark⟩ := hslot m hm t ht
    have hblock := hown.block m hm t hneeds
    rw [hsame]
    unfold blockAllocated at hblock ⊢
    rw [hmark]
    exact hblock
  · obtain ⟨hneeds, hsame, -⟩ := hslot m hm t ht
    obtain ⟨hneeds', hsame', -⟩ := hslot m' hm' u hu
    rw [hsame, hsame'] at heq
    exact hown.exclusive m hm m' hm' t u hneeds hneeds' heq

/-- The first bytes of the file stay. -/
theorem byteAt (hown : v.Owns sb L) (hn : n ∈ L)
    (hsize : size ≤ (v.ino n).size) {o : Nat} (ho : o < size) : w.byteAt n o = v.byteAt n o := by
  have hk : o / 4096 < blocksOf size := div_lt_blocksOf ho
  have hneeds : (v.ino n).Needs (.data (o / 4096)) := Nat.lt_of_lt_of_le hk (blocksOf_mono hsize)
  have hfile : w.fileBlock n (o / 4096) = v.fileBlock n (o / 4096) := h.slot (.data _) hk
  have hdata : w.data (v.fileBlock n (o / 4096)) = v.data (v.fileBlock n (o / 4096)) := by
    refine h.data _ fun hi heq => ?_
    have hslot := (hown.exclusive n hn n hn .indirect (.data _) hi hneeds heq).2
    cases hslot
  rw [Vol.byteAt, Vol.byteAt, hfile, hdata]

/-- The content of a shrunk file is the first part of the old one. -/
theorem content (hown : v.Owns sb L) (hn : n ∈ L)
    (hsize : size ≤ (v.ino n).size) : w.content n = (v.content n).take size := by
  have hsz : (w.ino n).size = size := by rw [h.ino]; rfl
  rw [content_take hsize, Vol.content, hsz]
  exact List.map_congr_left fun o ho => h.byteAt hown hn hsize (List.mem_range.1 ho)

end Shrunk

/-- The volume after a truncation. -/
def truncated (v : Vol) (n size : Nat) : Vol := (v.cut n size).release (v.givenUp n (blocksOf size))

/-- A truncated file is shrunk. -/
theorem shrunk_truncated (hok : (v.ino n).Ok) (hsize : size ≤ (v.ino n).size) :
    Shrunk v (v.truncated n size) n size := (shrunk_cut hok hsize).release (Finset.Subset.refl _)

/-- A truncated file leaves no block behind. -/
theorem truncated_free {t : Slot} (ht : (v.ino n).Needs t) (hgone : ¬ t.Within (blocksOf size)) :
    (v.truncated n size).bmap (v.slotBlock n t) = false :=
  release_of_mem (mem_givenUp.2 ⟨t, ht, hgone, rfl⟩)

/-- Nor a pointer past its size. -/
theorem truncated_pointersEnd (hok : (v.ino n).Ok) (hend : v.PointersEnd n)
    (hsize : size ≤ (v.ino n).size) : (v.truncated n size).PointersEnd n := by
  have hle := blocksOf_mono hsize
  have hmax : blocksOf (v.ino n).size ≤ 1034 := blocksOf_le.2 hok.size_le
  have hino := (shrunk_truncated hok hsize).ino
  intro hmany k hk hpast
  rw [hino] at hmany hpast ⊢
  have hmany : 10 < blocksOf size := hmany
  have hpast : blocksOf size ≤ k + 10 := hpast
  have hindirect : (truncatedInode (v.ino n) size (blocksOf (v.ino n).size) (blocksOf size)).indirect =
      (v.ino n).indirect := if_pos hmany
  rw [hindirect]
  show ((v.cleared n (blocksOf size)).data (v.ino n).indirect).pointer k = 0
  rw [cleared, if_pos hmany, setData_self, Block.pointer_writeWords hk]
  split
  · rfl
  · exact hend (by omega) k hk (by omega)

end Vol

variable {E : Env} {v : Vol} {aux cmp : Block} {s : Machine} {L : Finset Nat} {n size : Nat}

/-- `truncate_locked` on a file it shrinks, with no fault to come. -/
theorem On.truncateShrink (h : On E .quiet v aux cmp s) (hown : v.Owns E.sb L) (hn : n ∈ L)
    (hfile : (v.ino n).mode ≠ 2) (hsize : size ≤ (v.ino n).size)
    (hsafe : 10 < blocksOf size → E.safe (v.cleared n (blocksOf size)))
    (hsafe' : ∀ w, Vol.Shrunk v w n size → E.safe w) :
    wp (MiniOrange.truncateShrink n (v.ino n) size) (fun r s' => r = .ok () ∧ ∃ aux' cmp',
      On E .quiet (v.truncated n size) aux' cmp' s') s := by
  have hok := hown.ok n hn
  have hle := Vol.blocksOf_mono hsize
  have hmax := hown.blocks_le hn
  have hcut := Vol.shrunk_cut hok hsize
  unfold MiniOrange.truncateShrink
  dsimp only
  -- the pointers are in both buffers if there are any
  have hload : wp (onlyIf ((v.ino n).indirect ≠ 0) (loadIndirect (v.ino n))) (fun r s' =>
      r = .ok () ∧ ∃ aux' cmp', (10 < blocksOf (v.ino n).size →
        aux' = v.data (v.ino n).indirect ∧ cmp' = v.data (v.ino n).indirect) ∧
        On E .quiet v aux' cmp' s') s := by
    unfold onlyIf
    split
    · next hne =>
      obtain ⟨hi, hi'⟩ := hown.slot_valid hn (t := .indirect) (hok.indirect.1 hne)
      unfold loadIndirect
      refine wp.bind (h.readAuxiliary hi hi') ?_
      rintro r s₁ (⟨rfl, h₁⟩ | ⟨-, hq, -⟩)
      case inr => exact absurd rfl hq
      have haux : s₁.buffers.get .auxiliaryBlock = v.data (v.ino n).indirect := h₁.auxiliary
      dsimp only
      rw [wp_bind, wp_getBuffer, wp_bind, wp_setBuffer, haux]
      exact ⟨rfl, _, _, fun _ => ⟨rfl, rfl⟩, h₁.setCompare _⟩
    · next hzero =>
      exact ⟨rfl, aux, cmp, fun hmany => absurd (hok.indirect.2 hmany) hzero, h⟩
  refine wp.bind hload ?_
  rintro r s₁ ⟨rfl, aux₁, cmp₁, hbuf, h₁⟩
  dsimp only
  -- the pointers past the new size are cleared if the indirect block stays
  have hclear : wp (onlyIf (blocksOf size > 10)
      (clearIndirect (v.ino n) (blocksOf (v.ino n).size) (blocksOf size))) (fun r s' =>
        r = .ok () ∧ ∃ aux', On E .quiet (v.cleared n (blocksOf size)) aux' cmp₁ s') s₁ := by
    unfold onlyIf Vol.cleared
    split
    · next hmany =>
      have hmany' : 10 < blocksOf (v.ino n).size := by omega
      obtain ⟨hi, hi'⟩ := hown.slot_valid hn (t := .indirect) hmany'
      have haux : s₁.buffers.get .auxiliaryBlock = v.data (v.ino n).indirect :=
        h₁.auxiliary.trans (hbuf hmany').1
      unfold clearIndirect
      dsimp only
      rw [wp_bind, wp_getBuffer, wp_bind, wp_setBuffer, haux]
      have hsafe := hsafe hmany
      rw [Vol.cleared, if_pos hmany] at hsafe
      refine ((h₁.setAuxiliary _).writeData .auxiliaryBlock nofun hi hi' hsafe).mono ?_
      rintro r s₂ ⟨⟨rfl, h₂⟩ | ⟨-, hs, -⟩, -⟩
      · exact ⟨rfl, _, h₂⟩
      · cases hs
    · exact ⟨rfl, aux₁, h₁⟩
  refine wp.bind hclear ?_
  rintro r s₂ ⟨rfl, aux₂, h₂⟩
  dsimp only
  have hnew := Vol.ok_truncatedInode hok hfile hsize
  have hfits : (truncatedInode (v.ino n) size (blocksOf (v.ino n).size) (blocksOf size)).Fits := by
    have hold := h.fits (n := n) hok.reserved
    refine { hold with size := Nat.lt_of_le_of_lt hsize hold.size, direct := fun k => ?_, indirect := ?_ }
    · show (if _ then 0 else (v.ino n).direct k) < 2 ^ 32
      split
      · exact Nat.two_pow_pos 32
      · exact hold.direct k
    · show (if _ then (v.ino n).indirect else 0) < 2 ^ 32
      split
      · exact hold.indirect
      · exact Nat.two_pow_pos 32
  refine wp.bind (h₂.writeInode nofun (hown.inode_lt n hn) (Inode.ok_iff.1 hnew).2 hfits
    (hsafe' _ hcut)) ?_
  rintro r s₃ (⟨rfl, h₃⟩ | ⟨-, hs, -⟩)
  case inr => cases hs
  -- the blocks are freed, from those that lost their direct pointer to the indirect block
  have hsafeR : ∀ G, G ⊆ v.givenUp n (blocksOf size) → E.safe ((v.cut n size).release G) :=
    fun G hG => hsafe' _ (hcut.release hG)
  unfold truncateFree
  refine wp.bind (On.freeDirect hown hn hsafeR h₃) ?_
  rintro r s₄ ⟨rfl, h₄⟩
  dsimp only
  by_cases hmany : blocksOf (v.ino n).size > 10
  · rw [if_pos hmany]
    have hfirst : (if blocksOf size < 10 then 10 else blocksOf size) = max (blocksOf size) 10 := by
      split <;> omega
    refine wp.bind (On.freePointers hown hn hsafeR hfirst h₄ fun hmany => (hbuf hmany).2) ?_
    rintro r s₅ ⟨rfl, h₅⟩
    dsimp only
    by_cases hfew : blocksOf size ≤ 10
    · rw [if_pos hfew]
      refine wp.bind (On.freeIndirectLast hown hn hsafeR hmany hfew h₅) ?_
      rintro r s₆ ⟨rfl, h₆⟩
      exact ⟨rfl, _, _, h₆⟩
    · rw [if_neg hfew]
      rw [← Vol.givenUp_eq fun hcond => hfew hcond.2] at h₅
      exact ⟨rfl, _, _, h₅⟩
  · rw [if_neg hmany]
    rw [Nat.min_eq_left (Nat.not_lt.1 hmany), ← Vol.givenUp_eq fun hcond => hmany hcond.1] at h₄
    exact ⟨rfl, _, _, h₄⟩

end MiniOrange
