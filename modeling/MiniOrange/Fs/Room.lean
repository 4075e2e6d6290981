import MiniOrange.Fs.Serving

/-!
# How far a write gets

`minifs_write` gets as far as the budget of the file goes (`Serving.write_count`), so that two writes, one behind the other, leave
what one write of all their bytes leaves (`Wrote.append`, `Wrote.extend`).
-/

namespace MiniOrange

variable {v : Vol} {s : Machine} {n offset : Nat}

/-- The first `done` bytes of `source` are in the file, and there was no room for more. -/
structure Vol.Wrote (v v' : Vol) (sb : Superblock) (n offset : Nat) (source : List UInt8) (done : Nat) : Prop extends
    Vol.Overwritten v v' sb n offset (bufferOf source) done where
  reach : Reach (v.budget sb n) offset source.length done

/-- `minifs_write` writes as much as the budget allows, and returns how much. -/
theorem Serving.write_count {sb : Superblock} {source : List UInt8} (h : Serving sb v s) (hv : v.Consistent sb)
    (hfile : v.IsFile (v.alloc sb) n) (hoffset : offset ≤ (v.ino n).size) (hmax : offset + source.length ≤ 1034 * 4096) :
    wp (minifsWrite n offset source) (fun r s' =>
      ∃ v' done, r = countOf source done ∧ v.Wrote v' sb n offset source done ∧ Serving sb v' s') s := by
  have hown := hv.sound.owns
  have hmode : (v.ino n).mode ≠ 2 := by rw [hfile.2]; decide
  have hstart : Vol.Overwritten v v sb n offset (bufferOf source) 0 :=
    .refl hown hfile.1 (hv.sound.ends n hfile.1) hoffset
  have hcount : wp (minifsWrite n offset source) (fun r _ => ∃ k, r = countOf source k ∧
      Reach (v.budget sb n) offset source.length k) s := by
    unfold minifsWrite
    rw [wp_bind, wp_get, if_neg (by rw [h.mounted]; simp; omega)]
    refine h.on.locked_ready h.ready fun s₁ h₁ => ?_
    refine h₁.bind_reads (Reads.readInode n) fun s₂ h₂ => ?_
    rw [show v.readInode h.env.sb n = .ok (v.ino n) from hown.readInode hfile.1]
    dsimp only
    rw [if_neg hmode, if_neg (Nat.not_lt.2 hoffset)]
    have hquiet : Level.quiet ≠ .any := nofun
    exact (On.minifsWriteFrom (E := h.env) hquiet hown hfile.1 hmode hmax (fun _ _ _ => trivial) source.length 0 v _ s₂ hstart
      (Nat.zero_le _) le_rfl h₂).mono fun _ _ hend => hend.2 rfl
  refine (hcount.and (h.write hv n offset source)).mono ?_
  rintro r s' ⟨⟨k, hr, hreach⟩, v', heffect, h'⟩
  cases heffect with
  | refused e =>
    exact ⟨v, k, hr, ⟨countOf_error hr ▸ hstart, hreach⟩, h'⟩
  | wrote done v' hfile hoffset hdone hover =>
    exact ⟨v', k, hr, ⟨countOf_ok hr ▸ hover, hreach⟩, h'⟩
  | full v' hfile hoffset hover =>
    exact ⟨v', k, hr, ⟨countOf_error hr ▸ hover, hreach⟩, h'⟩
  | undone r v' hℓ => cases hℓ
  | leaked r w done v' F hℓ => cases hℓ

namespace Vol.Wrote

variable {v' v'' : Vol} {sb : Superblock} {source part : List UInt8} {done done' : Nat}

section
variable (h : v.Wrote v' sb n offset source done)
include h

theorem isFile (hfile : v.IsFile (v.alloc sb) n) : v'.IsFile (v'.alloc sb) n :=
  ⟨alloc_congr h.imap ▸ hfile.1, h.mode.trans hfile.2⟩

theorem consistent (hv : v.Consistent sb) (hfile : v.IsFile (v.alloc sb) n) :
    v'.Consistent sb :=
  hv.settled hfile.1 (by rw [hfile.2]; decide) h.toSettled h.links

theorem end_le : offset + done ≤ (v'.ino n).size := by
  rw [h.length]
  exact Nat.le_max_right _ _

/-- Two writes of the same bytes leave the same file. -/
theorem unique (h' : v.Wrote v'' sb n offset source done')
    (hoffset : offset ≤ (v.ino n).size) : done = done' ∧ v'.content n = v''.content n ∧ (v'.ino n).size = (v''.ino n).size := by
  obtain rfl := h.reach.unique h'.reach
  exact ⟨rfl, (h.content hoffset).trans (h'.content hoffset).symm, h.length.trans h'.length.symm⟩

end

/-- The file before the first byte. -/
theorem nil (hv : v.Consistent sb) (hfile : v.IsFile (v.alloc sb) n) (hoffset : offset ≤ (v.ino n).size) :
    v.Wrote v sb n offset [] 0 where
  toOverwritten := .refl hv.sound.owns hfile.1 (hv.sound.ends n hfile.1) hoffset
  reach :=
    { le := le_rfl
      fits := (needs_le (Reach.blocksOf_mono hoffset)).trans (Nat.le_add_right _ _)
      ends := nofun }

/-- A write behind one that has written all of its bytes. -/
theorem append (h : v.Wrote v' sb n offset source source.length) (hv : v.Consistent sb) (hfile : v.IsFile (v.alloc sb) n)
    (h' : v'.Wrote v'' sb n (offset + source.length) part done) :
    v.Wrote v'' sb n offset (source ++ part) (source.length + done) := by
  have hle := h'.reach.le
  have hfirst : Overwritten v v' sb n offset (bufferOf (source ++ part)) source.length :=
    h.toOverwritten.congr fun i hi => (List.getD_append source part 0 i hi).symm
  have hsecond : Overwritten v' v'' sb n (offset + source.length) (fun i => bufferOf (source ++ part) (source.length + i)) done := by
    refine h'.toOverwritten.congr fun i _ => ?_
    unfold bufferOf
    rw [List.getD_append_right _ _ _ _ (Nat.le_add_right _ _), Nat.add_sub_cancel_left]
  refine ⟨hfirst.step hsecond.toSettled hsecond.bytes hsecond.length hsecond.links, ?_⟩
  rw [List.length_append]
  have hreach := h'.reach
  rw [h.toSettled.budget_eq hv.sound.owns hfile.1] at hreach
  exact hreach.append

/-- A write that has not written all of its bytes gets no further with more of them. -/
theorem extend (h : v.Wrote v' sb n offset source done) (hlt : done < source.length) (rest : List UInt8) :
    v.Wrote v' sb n offset (source ++ rest) done where
  toOverwritten := h.toOverwritten.congr fun i hi => (List.getD_append source rest 0 i (hi.trans hlt)).symm
  reach := by
    rw [List.length_append]
    exact h.reach.extend hlt

end Vol.Wrote

end MiniOrange
