import MiniOrange.Fs.WriteChunk

/-!
# The loops of `minifs_write` and `minifs_read`

`minifs_write` cuts the buffer at block boundaries and writes it chunk by chunk. After each chunk the
file is what it was with the bytes written so far spliced in (`Vol.Overwritten`), and the loop ends
at the end of the buffer or at the first chunk that fails. As lists, the content is the old one with
a stretch of it replaced (`Overwritten.content`). `minifs_read` collects a stretch of the content
(`readFrom_content`).
-/

namespace MiniOrange

/-- `old` with `new` put in its place from `offset` on. -/
def splice (old : List UInt8) (offset : Nat) (new : List UInt8) : List UInt8 :=
  old.take offset ++ new ++ old.drop (offset + new.length)

namespace Vol

variable {v v' v'' : Vol} {sb : Superblock} {L : Finset Nat} {n offset done length : Nat}
  {source : Bytes}

/-- Two adjacent splices are one. -/
theorem Spliced.append (h : Spliced v v' n offset source done)
    (h' : Spliced v' v'' n (offset + done) (fun i => source (done + i)) length)
    (hend : offset + done ≤ (v'.ino n).size)
    (hsize : (v''.ino n).size = max (v'.ino n).size (offset + done + length)) :
    Spliced v v'' n offset source (done + length) := by
  intro o ho
  rw [h' o ho]
  by_cases hin : offset + done ≤ o ∧ o < offset + done + length
  · rw [if_pos hin, if_pos (by omega)]
    dsimp only
    rw [show done + (o - (offset + done)) = o - offset by omega]
  · rw [if_neg hin, h o (by omega)]
    by_cases hfirst : offset ≤ o ∧ o < offset + done
    · rw [if_pos hfirst, if_pos (by omega)]
    · rw [if_neg hfirst, if_neg (by omega)]

variable {m : Nat}

/-- The first bytes of a file. -/
theorem content_take (hm : m ≤ (v.ino n).size) : (v.content n).take m = (List.range m).map (v.byteAt n) := by
  rw [content, ← List.map_take, List.take_range, Nat.min_eq_left hm]

/-- The bytes of a file from one on. -/
theorem content_drop :
    (v.content n).drop m = (List.range ((v.ino n).size - m)).map fun k => v.byteAt n (m + k) := by
  refine List.ext_getElem ?_ fun o _ _ => ?_
  · simp [content]
  · simp [content]

/-- File `n` after `done` bytes of a write at `offset`. -/
structure Overwritten (v v' : Vol) (sb : Superblock) (n offset : Nat) (source : Bytes) (done : Nat) :
    Prop extends Settled v v' sb n where
  bytes : Spliced v v' n offset source done
  length : (v'.ino n).size = max (v.ino n).size (offset + done)
  links : (v'.ino n).linkCount = (v.ino n).linkCount

namespace Overwritten

/-- Before the first chunk. -/
theorem refl (hown : v.Owns sb L) (hn : n ∈ L) (hend : v.PointersEnd n)
    (hoffset : offset ≤ (v.ino n).size) : Overwritten v v sb n offset source 0 where
  toSettled := .refl hown hn hend
  bytes := by
    intro o _
    rw [if_neg (by omega)]
  length := by omega
  links := rfl

variable (h : Overwritten v v' sb n offset source done)
include h

/-- One chunk more. -/
theorem step (hsettled : Settled v' v'' sb n)
    (hbytes : Spliced v' v'' n (offset + done) (fun i => source (done + i)) length)
    (hsize : (v''.ino n).size = max (v'.ino n).size (offset + done + length))
    (hlinks : (v''.ino n).linkCount = (v'.ino n).linkCount) :
    Overwritten v v'' sb n offset source (done + length) where
  toSettled := h.toSettled.trans hsettled
  bytes := h.bytes.append hbytes (by rw [h.length]; omega) hsize
  length := by rw [hsize, h.length]; omega
  links := hlinks.trans h.links

/-- A change in free blocks counts as no bytes. -/
theorem loose (hown : v'.Owns sb L) (hn : n ∈ L)
    (hloose : Loose v' v'') : Overwritten v v'' sb n offset source done := by
  have hkept : Kept v' v'' n := hloose.kept fun t ht => hown.slot_marked hn ht
  refine
    { toSettled := h.toSettled.trans (hloose.settled hown hn h.pointer_zero)
      bytes := fun o ho => ?_
      length := by rw [hloose.ino, h.length]
      links := by rw [hloose.ino, h.links] }
  rw [hkept.ino] at ho
  rw [hkept.byteAt ho, h.bytes o ho]

/-- Only the bytes that are written count. -/
theorem congr {source' : Bytes} (hsame : ∀ i < done, source i = source' i) :
    Overwritten v v' sb n offset source' done where
  toSettled := h.toSettled
  bytes o ho := by
    rw [h.bytes o ho]
    split
    · exact hsame _ (by omega)
    · rfl
  length := h.length
  links := h.links

/-- The content after a write is the old one with the written bytes in their place. -/
theorem content (hoffset : offset ≤ (v.ino n).size) :
    v'.content n = splice (v.content n) offset ((List.range done).map source) := by
  have hlen := h.length
  have hsize : (v'.ino n).size = offset + done + ((v.ino n).size - (offset + done)) := by omega
  -- before, inside and after the written bytes
  have hbefore : ∀ o ∈ List.range offset, v'.byteAt n o = v.byteAt n o := by
    intro o ho
    have ho := List.mem_range.1 ho
    rw [h.bytes o (by omega), if_neg (by omega)]
  have hinside : ∀ k ∈ List.range done, v'.byteAt n (offset + k) = source k := by
    intro k hk
    have hk := List.mem_range.1 hk
    rw [h.bytes _ (by omega), if_pos (by omega), Nat.add_sub_cancel_left]
  have hafter : ∀ k ∈ List.range ((v.ino n).size - (offset + done)),
      v'.byteAt n (offset + done + k) = v.byteAt n (offset + done + k) := by
    intro k hk
    have hk := List.mem_range.1 hk
    rw [h.bytes _ (by omega), if_neg (by omega)]
  rw [splice, content_take hoffset, content_drop, List.length_map, List.length_range, Vol.content,
    hsize, List.range_add, List.range_add, List.map_append, List.map_append, List.map_map,
    List.map_map]
  exact congrArg₂ _ (congrArg₂ _ (List.map_congr_left hbefore) (List.map_congr_left hinside))
    (List.map_congr_left hafter)

end Overwritten

/-! ## Reading -/

/-- The block that holds a byte of the file. -/
theorem byteAt_block {o index : Nat} (hindex : o % 4096 + index < 4096) :
    v.byteAt n (o + index) = (v.data (v.fileBlock n (o / 4096))).byte (o % 4096 + index) := by
  rw [byteAt, show (o + index) / 4096 = o / 4096 by omega,
    show (o + index) % 4096 = o % 4096 + index by omega]

/-- The loop of `minifs_read` collects the bytes of the file. -/
theorem readFrom_bytes (hown : v.Owns sb L) (hn : n ∈ L) (hend : offset + length ≤ (v.ino n).size) :
    ∀ fuel done, done ≤ length → length - done ≤ fuel →
      v.readFrom sb (v.ino n) offset length fuel ((List.range done).map fun k => v.byteAt n (offset + k)) =
        .ok ((List.range length).map fun k => v.byteAt n (offset + k)) := by
  intro fuel
  induction fuel with
  | zero =>
    intro done hle hfuel
    obtain rfl : done = length := by omega
    rfl
  | succ fuel ih =>
    intro done hle hfuel
    rw [readFrom]
    simp only [List.length_map, List.length_range]
    rcases Nat.lt_or_ge done length with hlt | hge
    case inr =>
      obtain rfl : done = length := by omega
      rw [if_pos hge]
    rw [if_neg (Nat.not_le.2 hlt)]
    have hk : (offset + done) / 4096 < blocksOf (v.ino n).size := div_lt_blocksOf (by omega)
    rw [hown.inodeBlockAt hn hk]
    dsimp only
    generalize hchunk : min (4096 - (offset + done) % 4096) (length - done) = chunk
    -- the bytes of this chunk are the next ones of the file
    have hbytes : (List.range chunk).map (fun index =>
        (v.data (v.fileBlock n ((offset + done) / 4096))).byte ((offset + done) % 4096 + index)) =
        (List.range chunk).map fun index => v.byteAt n (offset + (done + index)) := by
      refine List.map_congr_left fun index hindex => ?_
      have hlt := List.mem_range.1 hindex
      rw [← Nat.add_assoc, byteAt_block (by omega)]
    have hjoin : (List.range done).map (fun k => v.byteAt n (offset + k)) ++
        (List.range chunk).map (fun index => v.byteAt n (offset + (done + index))) =
        (List.range (done + chunk)).map fun k => v.byteAt n (offset + k) := by
      rw [List.range_add, List.map_append, List.map_map]
      rfl
    rw [hbytes, hjoin]
    exact ih (done + chunk) (by omega) (by omega)

/-- A stretch of the content, byte by byte. -/
theorem content_slice (hend : offset + length ≤ (v.ino n).size) :
    ((v.content n).drop offset).take length =
      (List.range length).map fun k => v.byteAt n (offset + k) := by
  rw [content_drop, ← List.map_take, List.take_range, Nat.min_eq_left (by omega)]

end Vol

/-! ## Writing -/

variable {E : Env} {ℓ : Level} {v : Vol} {aux cmp : Block} {s : Machine} {L : Finset Nat}
  {n offset : Nat} {source : List UInt8}

/-- The buffer of a write, as the pointer the kernel is given. -/
def bufferOf (source : List UInt8) : Bytes := fun i => source.getD i 0

/-- The end of `minifs_write` on a file it may write: so many bytes are written, or none for lack of
space. After a fault the file is settled; a fault in the undo of a chunk that found no space can
lose blocks. -/
def WriteEnd (E : Env) (ℓ : Level) (v : Vol) (n offset : Nat) (source : List UInt8) (cmp : Block)
    (r : Except Errno Nat) (s : Machine) : Prop :=
  (∃ v' aux' done, (r = .ok done ∧ done ≤ source.length ∨ r = .error .enospc ∧ done = 0) ∧
    Vol.Overwritten v v' E.sb n offset (bufferOf source) done ∧ On E ℓ v' aux' cmp s) ∨
  (ℓ = .single ∧ ∃ v' aux', On E .quiet v' aux' cmp s ∧
    ((Vol.Settled v v' E.sb n ∧ (v'.ino n).linkCount = (v.ino n).linkCount) ∨
      ((r = .error .enospc ∨ ∃ c, r = .ok c ∧ c < source.length) ∧
        ∃ w done F, Vol.Overwritten v w E.sb n offset (bufferOf source) done ∧
          Vol.Taken w v' E.sb F)))

variable {v₁ : Vol} {done : Nat}

/-- The next chunk of the loop of `minifs_write` is one that `write_chunk_locked` takes. -/
theorem Vol.Overwritten.writeAt {chunk : Nat} (hv₁ : Vol.Overwritten v v₁ E.sb n offset (bufferOf source) done)
    (h : On E ℓ v₁ aux cmp s) (hown : v.Owns E.sb L) (hn : n ∈ L) (hfile : (v.ino n).mode ≠ 2)
    (hmax : offset + source.length ≤ 1034 * 4096) (hlt : done < source.length)
    (hchunk : min (4096 - (offset + done) % 4096) (source.length - done) = chunk) :
    v₁.WriteAt E.sb L n (offset + done) chunk (v₁.ino n).linkCount := by
  have hown₁ : v₁.Owns E.sb L := hv₁.toGrown.owns hown hn
  have hok := hown₁.ok n hn
  have hsize := hv₁.length
  exact
    { own := hown₁
      mem := hn
      ends := hv₁.pointer_zero
      links_ne := hok.linkCount
      links_lt := (h.fits hok.reserved).linkCount
      offset_le := by omega
      pos := by omega
      within := by omega
      max := by omega
      dir := fun hmode => absurd (hv₁.mode.symm.trans hmode) hfile }

/-- The states between the writes of a chunk are between those of the whole write. -/
theorem Vol.Overwritten.between_safe {chunk : Nat} {part : Bytes}
    (hv₁ : Vol.Overwritten v v₁ E.sb n offset (bufferOf source) done)
    (hsafe : ∀ v', Vol.Grown v v' E.sb n → (v'.ino n).linkCount = (v.ino n).linkCount → E.safe v') :
    ∀ v', Vol.Grown v₁ v' E.sb n → v₁.Between v' n (offset + done) part chunk (v₁.ino n).linkCount → E.safe v' := by
  intro v' hgrown hbetween
  refine hsafe v' (hv₁.toGrown.trans hgrown) ?_
  rcases hbetween with ⟨hino, -⟩ | ⟨hino, -⟩ | ⟨-, -, hlinks, -⟩
  · rw [hino, hv₁.links]
  · rw [hino, hv₁.links]
  · rw [hlinks, hv₁.links]

/-- What a write that stops after `done` bytes returns. -/
def countOf (source : List UInt8) (done : Nat) : Except Errno Nat :=
  if done = 0 ∧ source ≠ [] then .error .enospc else .ok done

theorem countOf_pos {source : List UInt8} (h : 0 < done) : countOf source done = .ok done :=
  if_neg fun hzero => h.ne' hzero.1

theorem countOf_length (source : List UInt8) : countOf source source.length = .ok source.length :=
  if_neg fun hzero => hzero.2 (List.length_eq_zero_iff.1 hzero.1)

theorem countOf_ok {source : List UInt8} {count : Nat} (h : .ok count = countOf source done) : count = done := by
  unfold countOf at h
  split at h
  · cases h
  · cases h
    rfl

theorem countOf_error {source : List UInt8} {e : Errno} (h : .error e = countOf source done) : 0 = done := by
  unfold countOf at h
  split at h
  · next hzero => exact hzero.1.symm
  · cases h

/-- What is written fits the budget. -/
theorem Vol.Overwritten.fits {sb : Superblock} {data : Bytes}
    (hv₁ : Vol.Overwritten v v₁ sb n offset data done) (hown : v.Owns sb L) (hn : n ∈ L) :
    needs (blocksOf (offset + done)) ≤ v.budget sb n := by
  rw [← hv₁.toSettled.budget_eq hown hn]
  refine (needs_le (Reach.blocksOf_mono ?_)).trans (Nat.le_add_right _ _)
  rw [hv₁.length]
  exact Nat.le_max_right _ _

/-- The loop of `minifs_write`. It gets as far as the budget when no transfer fails. -/
theorem On.minifsWriteFrom (hℓ : ℓ ≠ .any) (hown : v.Owns E.sb L) (hn : n ∈ L)
    (hfile : (v.ino n).mode ≠ 2) (hmax : offset + source.length ≤ 1034 * 4096)
    (hsafe : ∀ v', Vol.Grown v v' E.sb n → (v'.ino n).linkCount = (v.ino n).linkCount → E.safe v') :
    ∀ fuel done v₁ aux s, Vol.Overwritten v v₁ E.sb n offset (bufferOf source) done →
      done ≤ source.length → source.length - done ≤ fuel → On E ℓ v₁ aux cmp s →
      wp (MiniOrange.minifsWriteFrom n offset source fuel (v₁.ino n) done)
        (fun r s' => WriteEnd E ℓ v n offset source cmp r s' ∧
          (ℓ = .quiet → ∃ k, r = countOf source k ∧ Reach (v.budget E.sb n) offset source.length k)) s := by
  intro fuel
  -- all bytes are written
  have hdone : ∀ {v₁ aux s}, Vol.Overwritten v v₁ E.sb n offset (bufferOf source) source.length → On E ℓ v₁ aux cmp s →
      WriteEnd E ℓ v n offset source cmp (.ok source.length) s ∧ (ℓ = .quiet → ∃ k, .ok source.length = countOf source k ∧
        Reach (v.budget E.sb n) offset source.length k) := fun {v₁ aux s} hv₁ h =>
    ⟨.inl ⟨v₁, aux, _, .inl ⟨rfl, le_rfl⟩, hv₁, h⟩, fun _ => ⟨_, (countOf_length source).symm, le_rfl, hv₁.fits hown hn,
      fun hlt => absurd hlt (Nat.lt_irrefl _)⟩⟩
  induction fuel with
  | zero =>
    intro done v₁ aux s hv₁ hle hfuel h
    obtain rfl : done = source.length := by omega
    exact hdone hv₁ h
  | succ fuel ih =>
    intro done v₁ aux s hv₁ hle hfuel h
    unfold MiniOrange.minifsWriteFrom
    rcases Nat.lt_or_ge done source.length with hlt | hge
    case inr =>
      obtain rfl : done = source.length := by omega
      rw [if_pos hge]
      exact hdone hv₁ h
    rw [if_neg (Nat.not_le.2 hlt)]
    dsimp only
    generalize hchunk : min (4096 - (offset + done) % 4096) (source.length - done) = chunk
    have hown₁ : v₁.Owns E.sb L := hv₁.toGrown.owns hown hn
    have hc := hv₁.writeAt h hown hn hfile hmax hlt hchunk
    refine wp.bind (h.writeChunkLocked hℓ hc (hv₁.between_safe hsafe)) ?_
    rintro r s₁ ⟨⟨v₂, aux', rfl, hsettled, hbytes, hsize₂, hgrew, hsame, h₁⟩ |
      ⟨rfl, -, ⟨v₂, aux', hloose, h₁⟩ | ⟨rfl, v₂, aux', F, htaken, h₁⟩⟩ |
      ⟨rfl, rfl, v₂, aux', hsettled, hino, -, h₁⟩, hspent⟩
    · -- the chunk is written
      have hlinks : (v₂.ino n).linkCount = (v₁.ino n).linkCount := by
        rcases Nat.lt_or_ge (v₁.ino n).size (offset + done + chunk) with hgrow | hfits
        · exact hgrew hgrow
        · rw [hsame hfits]
      rw [← hlinks]
      exact ih (done + chunk) v₂ aux' s₁ (hv₁.step hsettled hbytes hsize₂ hlinks) (by omega)
        (by omega) h₁
    · -- no block for the chunk, and nothing left behind
      have hreach : Reach (v.budget E.sb n) offset source.length done :=
        ⟨hle, hv₁.fits hown hn, fun _ => hv₁.toSettled.budget_eq hown hn ▸ hspent rfl⟩
      dsimp only
      rcases Nat.eq_zero_or_pos done with rfl | hpos
      · rw [if_neg (Nat.lt_irrefl 0)]
        exact ⟨.inl ⟨v₂, aux', 0, .inr ⟨rfl, rfl⟩, hv₁.loose hown₁ hn hloose, h₁⟩,
          fun _ => ⟨0, (if_pos ⟨rfl, List.ne_nil_of_length_pos hlt⟩).symm, hreach⟩⟩
      · rw [if_pos hpos]
        exact ⟨.inl ⟨v₂, aux', done, .inl ⟨rfl, hle⟩, hv₁.loose hown₁ hn hloose, h₁⟩,
          fun _ => ⟨done, (countOf_pos hpos).symm, hreach⟩⟩
    · -- no block for the chunk, and a fault in the undo
      refine ⟨.inr ⟨rfl, v₂, aux', h₁, .inr ⟨?_, v₁, done, F, hv₁, htaken⟩⟩, nofun⟩
      dsimp only
      rcases Nat.eq_zero_or_pos done with rfl | hpos
      · rw [if_neg (Nat.lt_irrefl 0)]
        exact .inl rfl
      · rw [if_pos hpos]
        exact .inr ⟨done, rfl, hlt⟩
    · -- a failed transfer
      refine ⟨.inr ⟨rfl, v₂, aux', h₁, .inl ⟨hv₁.toSettled.trans hsettled, ?_⟩⟩, nofun⟩
      rw [hino, hv₁.links]

end MiniOrange
