import MiniOrange.Fs.Frame

/-!
# A file that grows

`Grown v v' sb n` is what every volume between the writes of `write_chunk_locked` has in common with
the one it started on: file `n` has kept its slots and may have more of them, each holding a block
that was free; marked blocks stay marked; and data changes only in blocks of `n` and in blocks that
were free. It is reflexive and transitive and survives each kind of write the function makes, so the
same relation describes a finished write, one that was undone and one that was cut off. Other files
are kept (`Grown.kept`), and ownership with them (`Grown.owns`).

`Settled` adds that nothing is left behind: the blocks marked since are in slots of `n`, and the
pointers past its size are zero. `Spliced` says which bytes of the file were replaced.
-/

namespace MiniOrange

namespace Vol

/-- File `n` has grown from `v` to `v'`, or stayed as it was. -/
structure Grown (v v' : Vol) (sb : Superblock) (n : Nat) : Prop where
  imap : v'.imap = v.imap
  other : ∀ m, m ≠ n → v'.ino m = v.ino m
  ok : (v'.ino n).Ok
  mode : (v'.ino n).mode = (v.ino n).mode
  size : (v.ino n).size ≤ (v'.ino n).size
  slot : ∀ t, (v.ino n).Needs t → v'.slotBlock n t = v.slotBlock n t
  fresh : ∀ t, (v'.ino n).Needs t → ¬ (v.ino n).Needs t → v.bmap (v'.slotBlock n t) = false
  block : ∀ t, (v'.ino n).Needs t → v'.blockAllocated sb (v'.slotBlock n t) = true
  apart : ∀ t u, (v'.ino n).Needs t → (v'.ino n).Needs u →
    v'.slotBlock n t = v'.slotBlock n u → t = u
  mark : ∀ b, v.bmap b = true → v'.bmap b = true
  data : ∀ b, v.bmap b = true → (∀ t, (v.ino n).Needs t → v.slotBlock n t ≠ b) →
    v'.data b = v.data b

variable {v v' v'' : Vol} {sb : Superblock} {n b : Nat} {L : Finset Nat} {block : Block}

variable {t : Slot} {k : Nat}

/-- A larger file needs the slots of a smaller one. -/
theorem needs_mono {i j : Inode} (h : i.size ≤ j.size) (ht : i.Needs t) : j.Needs t := by
  have hblocks : blocksOf i.size ≤ blocksOf j.size :=
    blocksOf_le.2 (h.trans (blocksOf_le.1 le_rfl))
  cases t with
  | data k => exact Nat.lt_of_lt_of_le ht hblocks
  | indirect => exact Nat.lt_of_lt_of_le ht hblocks

/-- A data slot past the direct ones comes with the indirect slot. -/
theorem needs_indirect {i : Inode} (h : i.Needs (.data k)) (hk : 10 ≤ k) :
    i.Needs .indirect := Nat.lt_of_le_of_lt hk h

/-- The slots of a file under new data, where its indirect block keeps the pointers in use. -/
theorem slotBlock_setData (h : (v.ino n).Needs .indirect → (v.ino n).indirect = b →
      ∀ k, k + 10 < blocksOf (v.ino n).size → block.pointer k = (v.data b).pointer k)
    (ht : (v.ino n).Needs t) : (v.setData b block).slotBlock n t = v.slotBlock n t := by
  cases t with
  | indirect => rfl
  | data k =>
    simp only [slotBlock, fileBlock, setData_ino]
    rcases Nat.lt_or_ge k 10 with hk | hk
    · rw [if_pos hk, if_pos hk]
    · rw [if_neg (Nat.not_lt.2 hk), if_neg (Nat.not_lt.2 hk)]
      by_cases hb : (v.ino n).indirect = b
      · rw [hb, setData_self]
        have hlt : k < blocksOf (v.ino n).size := ht
        exact h (needs_indirect ht hk) hb (k - 10) (by omega)
      · rw [setData_of_ne hb]

/-- Slots other than the indirect block's do not hold pointers. -/
theorem slotBlock_setData_of_ne (h : (v.ino n).Needs .indirect → (v.ino n).indirect ≠ b)
    (ht : (v.ino n).Needs t) : (v.setData b block).slotBlock n t = v.slotBlock n t :=
  slotBlock_setData (fun hi hb => absurd hb (h hi)) ht

/-- No byte has changed. -/
def SameBytes (v v' : Vol) (n : Nat) : Prop :=
  v'.ino n = v.ino n ∧ ∀ o < (v.ino n).size, v'.byteAt n o = v.byteAt n o

/-- A file is kept whose record and blocks are kept. -/
theorem Kept.of_slots (himap : v'.imap n = v.imap n) (hino : v'.ino n = v.ino n)
    (hmarked : ∀ t, (v.ino n).Needs t → v'.bmap (v.slotBlock n t) = v.bmap (v.slotBlock n t))
    (hdata : ∀ t, (v.ino n).Needs t → v'.data (v.slotBlock n t) = v.data (v.slotBlock n t)) : Kept v v' n := by
  refine ⟨⟨himap, hino, fun t ht => ?_, hmarked⟩, fun o ho => ?_⟩
  · cases t with
    | indirect => simp only [slotBlock, hino]
    | data k =>
      simp only [slotBlock, fileBlock, hino]
      rcases Nat.lt_or_ge k 10 with hk | hk
      · rw [if_pos hk, if_pos hk]
      · have hsame : v'.data (v.ino n).indirect = v.data (v.ino n).indirect :=
          hdata .indirect (needs_indirect ht hk)
        rw [if_neg (Nat.not_lt.2 hk), if_neg (Nat.not_lt.2 hk), hsame]
  · have hsame : v'.data (v.fileBlock n (o / 4096)) = v.data (v.fileBlock n (o / 4096)) :=
      hdata (.data _) (div_lt_blocksOf ho)
    rw [hsame, Vol.byteAt]

namespace Grown

/-- An owned file has grown by nothing. -/
theorem refl (h : v.Owns sb L) (hn : n ∈ L) : Grown v v sb n where
  imap := rfl
  other _ _ := rfl
  ok := h.ok n hn
  mode := rfl
  size := le_rfl
  slot _ _ := rfl
  fresh _ ht hnot := absurd ht hnot
  block := h.block n hn
  apart t u ht hu heq := (h.exclusive n hn n hn t u ht hu heq).2
  mark _ hb := hb
  data _ _ _ := rfl

variable (h : Grown v v' sb n)
include h

/-- A needed slot stays needed. -/
theorem needs (ht : (v.ino n).Needs t) : (v'.ino n).Needs t :=
  needs_mono h.size ht

/-- A slot with a block that was marked is an old one. -/
theorem needs_of_marked (ht : (v'.ino n).Needs t) (hb : v.bmap (v'.slotBlock n t) = true) : (v.ino n).Needs t := by
  by_contra hnot
  rw [h.fresh t ht hnot] at hb
  cases hb

/-- A file that has grown twice has grown. -/
theorem trans (h' : Grown v' v'' sb n) : Grown v v'' sb n where
  imap := h'.imap.trans h.imap
  other m hm := (h'.other m hm).trans (h.other m hm)
  ok := h'.ok
  mode := h'.mode.trans h.mode
  size := h.size.trans h'.size
  slot t ht := (h'.slot t (h.needs ht)).trans (h.slot t ht)
  fresh t ht hnot := by
    by_cases hmid : (v'.ino n).Needs t
    · rw [h'.slot t hmid]
      exact h.fresh t hmid hnot
    · -- a block that is free after the first growth was free before it
      have hfree := h'.fresh t ht hmid
      by_contra hmarked
      rw [h.mark _ (Bool.eq_true_of_not_eq_false hmarked)] at hfree
      cases hfree
  block := h'.block
  apart := h'.apart
  mark b hb := h'.mark b (h.mark b hb)
  data b hb hout := by
    refine (h'.data b (h.mark b hb) fun t ht heq => ?_).trans (h.data b hb hout)
    have hold : (v.ino n).Needs t := h.needs_of_marked ht (by rwa [heq])
    exact hout t hold (by rw [← h.slot t hold, heq])

/-- New data in a block that leaves the slots of the file alone, and was free or one of its own. -/
theorem setData_of_slots
    (hslots : ∀ t, (v'.ino n).Needs t → (v'.setData b block).slotBlock n t = v'.slotBlock n t)
    (hb : v.bmap b = true → ∃ t, (v.ino n).Needs t ∧ v.slotBlock n t = b) :
    Grown v (v'.setData b block) sb n where
  imap := h.imap
  other := h.other
  ok := h.ok
  mode := h.mode
  size := h.size
  slot t ht := (hslots t (h.needs ht)).trans (h.slot t ht)
  fresh t ht hnot := by
    rw [hslots t ht]
    exact h.fresh t ht hnot
  block t ht := by
    rw [hslots t ht]
    exact h.block t ht
  apart t u ht hu heq := by
    rw [hslots t ht, hslots u hu] at heq
    exact h.apart t u ht hu heq
  mark := h.mark
  data c hc hout := by
    have hcb : c ≠ b := by
      rintro rfl
      obtain ⟨t, ht, heq⟩ := hb hc
      exact hout t ht heq
    rw [setData_of_ne hcb]
    exact h.data c hc hout

/-- New data in a block that was free and is in no slot yet. -/
theorem setData_free (hfree : v.bmap b = false)
    (hout : ∀ t, (v'.ino n).Needs t → v'.slotBlock n t ≠ b) :
    Grown v (v'.setData b block) sb n := by
  refine h.setData_of_slots (fun t ht => slotBlock_setData_of_ne (hout .indirect) ht) fun hb => ?_
  rw [hfree] at hb
  cases hb

/-- The block of a needed slot was free, or is in that slot of the file it grew from. -/
theorem slot_of_marked (ht : (v'.ino n).Needs t) (heq : v'.slotBlock n t = b) (hb : v.bmap b = true) :
    ∃ t, (v.ino n).Needs t ∧ v.slotBlock n t = b := by
  have hold : (v.ino n).Needs t := h.needs_of_marked ht (by rwa [heq])
  exact ⟨t, hold, by rw [← h.slot t hold, heq]⟩

/-- New data in a block of the file. -/
theorem setData_block (hk : k < blocksOf (v'.ino n).size) :
    Grown v (v'.setData (v'.fileBlock n k) block) sb n := by
  have hneeds : (v'.ino n).Needs (.data k) := hk
  refine h.setData_of_slots (fun t ht => slotBlock_setData_of_ne (fun hi heq => ?_) ht)
    (h.slot_of_marked hneeds rfl)
  -- the indirect block is not a data block of the file
  have hslot := h.apart .indirect (.data k) hi hneeds heq
  cases hslot

/-- New pointers in the indirect block, where those in use stay. -/
theorem setData_indirect (hi : (v'.ino n).Needs .indirect)
    (hptr : ∀ k, k + 10 < blocksOf (v'.ino n).size →
      block.pointer k = (v'.data (v'.ino n).indirect).pointer k) :
    Grown v (v'.setData (v'.ino n).indirect block) sb n :=
  h.setData_of_slots (fun _ ht => slotBlock_setData (fun _ _ => hptr) ht)
    (h.slot_of_marked (t := .indirect) hi rfl)

/-- The record is replaced by one with the same slots and new ones, whose blocks were free. -/
theorem setIno {inode : Inode} (hok : inode.Ok)
    (hmode : inode.mode = (v'.ino n).mode) (hsize : (v'.ino n).size ≤ inode.size)
    (hold : ∀ t, (v'.ino n).Needs t → (v'.setIno n inode).slotBlock n t = v'.slotBlock n t)
    (hnew : ∀ t, inode.Needs t → ¬ (v'.ino n).Needs t →
      v.bmap ((v'.setIno n inode).slotBlock n t) = false ∧
      v'.blockAllocated sb ((v'.setIno n inode).slotBlock n t) = true ∧
      ∀ u, inode.Needs u →
        (v'.setIno n inode).slotBlock n u = (v'.setIno n inode).slotBlock n t → u = t) :
    Grown v (v'.setIno n inode) sb n where
  imap := h.imap
  other m hm := by
    rw [setIno_of_ne hm]
    exact h.other m hm
  ok := by rwa [setIno_self]
  mode := by rw [setIno_self, hmode, h.mode]
  size := by
    rw [setIno_self]
    exact h.size.trans hsize
  slot t ht := (hold t (h.needs ht)).trans (h.slot t ht)
  fresh t ht hnot := by
    rw [setIno_self] at ht
    by_cases hmid : (v'.ino n).Needs t
    · rw [hold t hmid]
      exact h.fresh t hmid hnot
    · exact (hnew t ht hmid).1
  block t ht := by
    rw [setIno_self] at ht
    by_cases hmid : (v'.ino n).Needs t
    · rw [hold t hmid]
      exact h.block t hmid
    · exact (hnew t ht hmid).2.1
  apart t u ht hu heq := by
    rw [setIno_self] at ht hu
    by_cases hmid : (v'.ino n).Needs t
    · by_cases hmid' : (v'.ino n).Needs u
      · rw [hold t hmid, hold u hmid'] at heq
        exact h.apart t u hmid hmid' heq
      · exact (hnew u hu hmid').2.2 t ht heq
    · exact ((hnew t ht hmid).2.2 u hu heq.symm).symm
  mark := h.mark
  data := h.data

/-! ### What else is on the volume -/

variable {m : Nat}

/-- Another file of an owned set is kept. -/
theorem kept (hown : v.Owns sb L) (hn : n ∈ L) (hm : m ∈ L) (hne : m ≠ n) : Kept v v' m := by
  -- no slot of `m` holds a block of `n`
  have hout : ∀ t, (v.ino m).Needs t → ∀ u, (v.ino n).Needs u → v.slotBlock n u ≠ v.slotBlock m t :=
    fun t ht u hu heq => hne (hown.exclusive n hn m hm u t hu ht heq).1.symm
  have hdata : ∀ t, (v.ino m).Needs t → v'.data (v.slotBlock m t) = v.data (v.slotBlock m t) :=
    fun t ht => h.data _ (hown.slot_marked hm ht) (hout t ht)
  refine .of_slots (congrFun h.imap m) (h.other m hne) (fun t ht => ?_) hdata
  rw [hown.slot_marked hm ht, h.mark _ (hown.slot_marked hm ht)]

/-- Ownership survives the growth of a file. -/
theorem owns (hown : v.Owns sb L) (hn : n ∈ L) : v'.Owns sb L where
  inode_lt := hown.inode_lt
  allocated m hm := by
    rw [h.imap]
    exact hown.allocated m hm
  ok m hm := by
    by_cases hmn : m = n
    · rw [hmn]
      exact h.ok
    · rw [h.other m hmn]
      exact hown.ok m hm
  block m hm t ht := by
    by_cases hmn : m = n
    · subst hmn
      exact h.block t ht
    · have hkept := h.kept hown hn hm hmn
      rw [hkept.ino] at ht
      have hblock := hown.block m hm t ht
      rw [hkept.slot t ht]
      unfold blockAllocated at hblock ⊢
      rw [hkept.marked t ht]
      exact hblock
  exclusive m hm m' hm' t u ht hu heq := by
    -- a slot of another file holds a marked block, and a new slot of `n` one that was free
    have hcross : ∀ {m t u}, m ∈ L → m ≠ n → (v'.ino m).Needs t → (v'.ino n).Needs u →
        v'.slotBlock m t ≠ v'.slotBlock n u := by
      intro m t u hm hmn ht hu heq
      have hkept := h.kept hown hn hm hmn
      rw [hkept.ino] at ht
      rw [hkept.slot t ht] at heq
      obtain ⟨u', hu', heq'⟩ := h.slot_of_marked hu heq.symm (hown.slot_marked hm ht)
      exact hmn (hown.exclusive n hn m hm u' t hu' ht heq').1.symm
    by_cases hmn : m = n
    · by_cases hmn' : m' = n
      · subst hmn
        subst hmn'
        exact ⟨rfl, h.apart t u ht hu heq⟩
      · subst hmn
        exact absurd heq.symm (hcross hm' hmn' hu ht)
    · by_cases hmn' : m' = n
      · subst hmn'
        exact absurd heq (hcross hm hmn ht hu)
      · have hkept := h.kept hown hn hm hmn
        have hkept' := h.kept hown hn hm' hmn'
        rw [hkept.ino] at ht
        rw [hkept'.ino] at hu
        rw [hkept.slot t ht, hkept'.slot u hu] at heq
        exact hown.exclusive m hm m' hm' t u ht hu heq

/-- A file that has grown but has the same bytes is kept. -/
theorem kept_self (hown : v.Owns sb L) (hn : n ∈ L)
    (hsame : SameBytes v v' n) : Kept v v' n where
  imap := congrFun h.imap n
  ino := hsame.1
  slot := h.slot
  marked t ht := by
    have hmarked := hown.slot_marked hn ht
    rw [hmarked, h.mark _ hmarked]
  data o ho := by
    have hbyte := hsame.2 o ho
    have hfile : v'.fileBlock n (o / 4096) = v.fileBlock n (o / 4096) :=
      h.slot (.data _) (div_lt_blocksOf ho)
    rwa [Vol.byteAt, hfile] at hbyte

/-- The pointers of another file end as before. -/
theorem pointersEnd (hown : v.Owns sb L) (hn : n ∈ L) (hm : m ∈ L)
    (hne : m ≠ n) (hend : v.PointersEnd m) : v'.PointersEnd m := by
  refine hend.congr (h.other m hne) fun hneeds => ?_
  refine h.data _ (hown.slot_marked hm (t := .indirect) hneeds) fun u hu heq => ?_
  exact hne (hown.exclusive n hn m hm u .indirect hu hneeds heq).1.symm

end Grown

/-! ## Nothing left behind -/

/-- File `n` has grown, the blocks taken for it are in its slots, and its pointers end with it. -/
structure Settled (v v' : Vol) (sb : Superblock) (n : Nat) : Prop extends Grown v v' sb n where
  tight : ∀ b, v'.bmap b = true → v.bmap b = true ∨ ∃ t, (v'.ino n).Needs t ∧ v'.slotBlock n t = b
  pointer_zero : 10 < blocksOf (v'.ino n).size → ∀ k < 1024, blocksOf (v'.ino n).size ≤ k + 10 →
    (v'.data (v'.ino n).indirect).pointer k = 0

namespace Settled

/-- An owned file with no stray pointer is settled. -/
theorem refl (h : v.Owns sb L) (hn : n ∈ L)
    (hzero : 10 < blocksOf (v.ino n).size → ∀ k < 1024, blocksOf (v.ino n).size ≤ k + 10 →
      (v.data (v.ino n).indirect).pointer k = 0) : Settled v v sb n :=
  { Grown.refl h hn with
    tight := fun _ hb => .inl hb
    pointer_zero := hzero }

theorem trans (h : Settled v v' sb n) (h' : Settled v' v'' sb n) : Settled v v'' sb n where
  toGrown := h.toGrown.trans h'.toGrown
  tight b hb := by
    rcases h'.tight b hb with hmid | hnew
    · rcases h.tight b hmid with hold | ⟨t, ht, heq⟩
      · exact .inl hold
      · exact .inr ⟨t, h'.needs ht, by rw [h'.slot t ht, heq]⟩
    · exact .inr hnew
  pointer_zero := h'.pointer_zero

end Settled

/-! ## Replaced bytes -/

/-- The bytes of file `n` are those of `v`, with `length` of them replaced from `offset` on. -/
def Spliced (v v' : Vol) (n offset : Nat) (source : Bytes) (length : Nat) : Prop :=
  ∀ o < (v'.ino n).size, v'.byteAt n o =
    if offset ≤ o ∧ o < offset + length then source (o - offset) else v.byteAt n o

/-- A kept file has the same bytes. -/
theorem Kept.sameBytes (h : Kept v v' n) : SameBytes v v' n := ⟨h.ino, fun _ ho => h.byteAt ho⟩

end Vol

end MiniOrange
