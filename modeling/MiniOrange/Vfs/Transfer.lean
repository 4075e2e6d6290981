import MiniOrange.Fs.Room
import MiniOrange.Vfs.Effect

/-!
# Reading and writing an open file

`FileOpen` says that a descriptor stands for a regular file of a mounted volume, with its offset in the file. Then `vfs_read` returns
the bytes behind the offset, and `vfs_write` writes as many bytes as the volume has room for; both move the offset by as many
bytes as they have transferred.
-/

namespace MiniOrange

/-- Set the offset of an open file. -/
def Desk.moveTo (d : Desk) (handle : Handle) (offset : Nat) : Desk :=
  d.setFile handle { d.vfs.fileTable handle with offset := offset }

@[simp] theorem Desk.moveTo_moveTo (d : Desk) (handle : Handle) (offset offset' : Nat) :
    (d.moveTo handle offset).moveTo handle offset' = d.moveTo handle offset' := by
  unfold moveTo
  rw [setFile_setFile, setFile_self]

@[simp] theorem Desk.moveTo_file (d : Desk) (handle : Handle) (offset : Nat) :
    (d.moveTo handle offset).vfs.fileTable handle = { d.vfs.fileTable handle with offset := offset } := setFile_self ..

theorem Desk.moveTo_self (d : Desk) (handle : Handle) : d.moveTo handle (d.vfs.fileTable handle).offset = d := setFile_eq_self rfl

/-- Moving the offset does not close the file. -/
theorem Desk.fileFromHandle_moveTo {d : Desk} {descriptor : Int} {handle : Handle} {offset : Nat}
    (h : d.fileFromHandle (d.fdGet descriptor) = some handle) :
    (d.moveTo handle offset).fileFromHandle ((d.moveTo handle offset).fdGet descriptor) = some handle := by
  unfold fileFromHandle at h ⊢
  obtain ⟨hget, hused⟩ := Option.filter_eq_some_iff.1 h
  refine Option.filter_eq_some_iff.2 ⟨hget, ?_⟩
  rw [moveTo_file]
  exact hused

/-- A call with the lock free leaves it free. -/
theorem Station.leave_setFile {st : Station} (hfree : st.desk.vfs.busy = false) (handle : Handle) (file : VfsFile) (s : Machine)
    (interrupts : Bool) : (⟨st.enter.desk.setFile handle file, s⟩ : Station).leave interrupts =
      ⟨st.desk.setFile handle file, { s with interrupts := interrupts }⟩ := by
  obtain ⟨⟨fdTable, ⟨fileTable, initialized, busy⟩⟩, fs⟩ := st
  obtain rfl : busy = false := hfree
  rfl

theorem Station.leave_enter {st : Station} (hfree : st.desk.vfs.busy = false) (s : Machine) (interrupts : Bool) :
    (⟨st.enter.desk, s⟩ : Station).leave interrupts = ⟨st.desk, { s with interrupts := interrupts }⟩ := by
  obtain ⟨⟨fdTable, ⟨fileTable, initialized, busy⟩⟩, fs⟩ := st
  obtain rfl : busy = false := hfree
  rfl

/-- A descriptor of a regular file on a volume that is mounted. -/
structure FileOpen (sb : Superblock) (v : Vol) (descriptor : Int) (handle : Handle) (st : Station) : Prop where
  initialized : st.desk.vfs.initialized = true
  free : st.desk.vfs.busy = false
  file : st.desk.fileFromHandle (st.desk.fdGet descriptor) = some handle
  mode : (st.desk.vfs.fileTable handle).mode ≠ 2
  serving : Serving sb v st.fs
  consistent : v.Consistent sb
  regular : v.IsFile (v.alloc sb) (st.desk.vfs.fileTable handle).inode
  offset_le : (st.desk.vfs.fileTable handle).offset ≤ (v.ino (st.desk.vfs.fileTable handle).inode).size

namespace FileOpen

variable {α : Type} {sb : Superblock} {v v' : Vol} {descriptor : Int} {handle : Handle} {st st' : Station} {offset : Nat}

/-- A file has no standard descriptor. -/
theorem descriptor_bounds (h : FileOpen sb v descriptor handle st) : 3 ≤ descriptor ∧ descriptor < 16 := by
  have hget := (used_of_fileFromHandle h.file).1
  unfold Desk.fdGet at hget
  split at hget
  · cases hget
  · omega

/-- The file stays open when its offset moves within the file. -/
theorem moved (h : FileOpen sb v descriptor handle st) (hdesk : st'.desk = st.desk.moveTo handle offset)
    (hserving : Serving sb v' st'.fs) (hconsistent : v'.Consistent sb)
    (hregular : v'.IsFile (v'.alloc sb) (st.desk.vfs.fileTable handle).inode)
    (hoffset : offset ≤ (v'.ino (st.desk.vfs.fileTable handle).inode).size) : FileOpen sb v' descriptor handle st' := by
  refine ⟨?_, ?_, ?_, ?_, hserving, hconsistent, ?_, ?_⟩
  · rw [hdesk]
    exact h.initialized
  · rw [hdesk]
    exact h.free
  · rw [hdesk]
    exact Desk.fileFromHandle_moveTo h.file
  · rw [hdesk, Desk.moveTo_file]
    exact h.mode
  · rw [hdesk, Desk.moveTo_file]
    exact hregular
  · rw [hdesk, Desk.moveTo_file]
    exact hoffset

/-- The bytes that a transfer has moved. -/
def taken (count : α → Nat) : Except Errno α → Nat
  | .ok a => count a
  | .error _ => 0

/-- `vfs_read` and `vfs_write` make the transfer, and move the offset. -/
theorem transfer {refused : Vfs → Prop} [DecidablePred refused] {e : Errno} {allowed : VfsFile → Bool} {count : α → Nat}
    {transfer : Nat → Nat → Fs (Except Errno α)} {Q : Except Errno α → Machine → Prop} (h : FileOpen sb v descriptor handle st)
    (hrefused : ¬ refused st.desk.vfs) (hallowed : allowed (st.desk.vfs.fileTable handle) = true)
    (hlt : ∀ r s, Q r s → (st.desk.vfs.fileTable handle).offset + taken count r < 2 ^ 32)
    (htransfer : ∀ s, Serving sb v s →
      wp (transfer (st.desk.vfs.fileTable handle).inode (st.desk.vfs.fileTable handle).offset) Q s) :
    wp (vfsCall refused e (transferLocked descriptor allowed count transfer)) (fun r st' =>
      (∃ s, Q r s ∧ st'.fs = { s with interrupts := st.fs.interrupts }) ∧
      st'.desk = st.desk.moveTo handle ((st.desk.vfs.fileTable handle).offset + taken count r)) st := by
  have hfree := h.free
  refine vfsCall_cases (fun hno => absurd hno hrefused) (fun hbusy => ?_) fun _ _ => ?_
  · rw [hfree] at hbusy
    cases hbusy
  unfold transferLocked
  rw [wp_bind, wp_fileOf]
  have hfile : st.enter.desk.fileFromHandle (st.enter.desk.fdGet descriptor) = some handle := h.file
  rw [hfile]
  dsimp only
  rw [wp_bind, wp_fileAt]
  rw [show st.enter.desk.vfs.fileTable handle = st.desk.vfs.fileTable handle from rfl, if_neg (by rw [hallowed]; decide),
    if_neg h.mode, wp_bind, wp_onFs]
  refine (htransfer _ (h.serving.setInterrupts false)).mono fun r s hQ => ?_
  cases r with
  | error e =>
    dsimp only
    rw [wp_pure, Station.leave_enter hfree, taken, Nat.add_zero, Desk.moveTo_self]
    exact ⟨⟨s, hQ, rfl⟩, rfl⟩
  | ok a =>
    have hmod := Nat.mod_eq_of_lt (hlt _ _ hQ)
    rw [taken] at hmod
    dsimp only
    unfold advance
    split
    · rw [wp_bind, wp_setFile, wp_pure, Station.leave_setFile hfree, hmod, taken]
      exact ⟨⟨s, hQ, rfl⟩, rfl⟩
    · next hzero =>
      rw [wp_bind, wp_pure, wp_pure, Station.leave_enter hfree, taken, show count a = 0 by omega, Nat.add_zero, Desk.moveTo_self]
      exact ⟨⟨s, hQ, rfl⟩, rfl⟩

theorem taken_countOf (source : List UInt8) (done : Nat) : taken id (countOf source done) = done := by
  unfold countOf
  split
  · next hzero => exact hzero.1.symm
  · rfl

/-- `vfs_write` on an open file. -/
theorem write {source : List UInt8} (h : FileOpen sb v descriptor handle st)
    (hwritable : (st.desk.vfs.fileTable handle).writable = true)
    (hmax : (st.desk.vfs.fileTable handle).offset + source.length ≤ 1034 * 4096) :
    wp (vfsWrite descriptor (some source) source.length) (fun r st' => ∃ v' done, r = countOf source done ∧
      v.Wrote v' sb (st.desk.vfs.fileTable handle).inode (st.desk.vfs.fileTable handle).offset source done ∧
      st'.desk = st.desk.moveTo handle ((st.desk.vfs.fileTable handle).offset + done) ∧
      FileOpen sb v' descriptor handle st') st := by
  have hrefused : ¬ (st.desk.vfs.initialized = false ∨ (some source = none ∧ source.length ≠ 0)) := by
    rw [h.initialized]
    exact not_or.2 ⟨nofun, fun hnone => nomatch hnone.1⟩
  refine (h.transfer (Q := fun r s => ∃ v' done, r = countOf source done ∧
    v.Wrote v' sb (st.desk.vfs.fileTable handle).inode (st.desk.vfs.fileTable handle).offset source done ∧ Serving sb v' s)
    hrefused hwritable ?_ fun s hs => ?_).mono ?_
  · rintro r s ⟨v', done, rfl, hwrote, -⟩
    have hle := hwrote.reach.le
    rw [taken_countOf]
    omega
  · rw [show ((some source).getD []).takeD source.length 0 = source.take source.length from List.takeD_eq_take 0 le_rfl,
      List.take_length]
    exact hs.write_count h.consistent h.regular h.offset_le hmax
  · rintro r st' ⟨⟨s, ⟨v', done, rfl, hwrote, hs⟩, hfs⟩, hdesk⟩
    rw [taken_countOf] at hdesk
    refine ⟨v', done, rfl, hwrote, hdesk, h.moved hdesk ?_ (hwrote.consistent h.consistent h.regular) (hwrote.isFile h.regular)
      hwrote.end_le⟩
    rw [hfs]
    exact hs.setInterrupts _

/-- `vfs_read` on an open file. -/
theorem read (h : FileOpen sb v descriptor handle st) (hreadable : (st.desk.vfs.fileTable handle).readable = true) (length : Nat)
    (hmax : (st.desk.vfs.fileTable handle).offset + length ≤ 1034 * 4096) :
    wp (vfsRead descriptor true length) (fun r st' => ∃ bytes, r = .ok bytes ∧
      bytes = ((v.content (st.desk.vfs.fileTable handle).inode).drop (st.desk.vfs.fileTable handle).offset).take length ∧
      st'.desk = st.desk.moveTo handle ((st.desk.vfs.fileTable handle).offset + bytes.length) ∧
      FileOpen sb v descriptor handle st') st := by
  generalize hbytes : ((v.content (st.desk.vfs.fileTable handle).inode).drop (st.desk.vfs.fileTable handle).offset).take length = bytes
  have hrefused : ¬ (st.desk.vfs.initialized = false ∨ (true = false ∧ length ≠ 0)) := by
    rw [h.initialized]
    exact not_or.2 ⟨nofun, fun hnone => nomatch hnone.1⟩
  have hlength : bytes.length ≤ length ∧
      (st.desk.vfs.fileTable handle).offset + bytes.length ≤ (v.ino (st.desk.vfs.fileTable handle).inode).size := by
    have hle := h.offset_le
    rw [← hbytes, List.length_take, List.length_drop, Vol.content, List.length_map, List.length_range]
    omega
  refine (h.transfer (Q := fun r s => r = .ok bytes ∧ Serving sb v s) hrefused hreadable ?_ fun s hs => ?_).mono ?_
  · rintro r s ⟨rfl, -⟩
    show _ + bytes.length < _
    omega
  · refine (hs.read _ _ length).mono ?_
    rintro r s' ⟨hr, hs'⟩
    refine ⟨hr.trans ?_, hs'⟩
    rw [Vol.readAt_content h.consistent.owns h.regular.1 h.regular.2, hbytes]
  · rintro r st' ⟨⟨s, ⟨rfl, hs⟩, hfs⟩, hdesk⟩
    refine ⟨bytes, rfl, rfl, hdesk, h.moved hdesk ?_ h.consistent h.regular hlength.2⟩
    rw [hfs]
    exact hs.setInterrupts _

end FileOpen

end MiniOrange
