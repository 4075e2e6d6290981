import MiniOrange.Fs.Serving

/-!
# Files as byte sequences

What the data calls are for: a file is a sequence of bytes, a write replaces a stretch of it and
extends it, a truncation keeps its beginning, and a read returns a stretch. `FileStep` says this of a
map from inode numbers to files, with nothing of blocks, pointers or buffers in it. Each call on a
mounted consistent volume is such a step (`Serving.fileCall`) and leaves the volume consistent; so is
each call of a run (`Serving.fileCalls`).
-/

namespace MiniOrange

/-! ## The model -/

/-- What a caller can see of an inode through the data calls. -/
structure FileData where
  mode : Nat
  size : Nat
  content : List UInt8

/-- A file with `new` put in from `offset` on. -/
def FileData.overwrite (f : FileData) (offset : Nat) (new : List UInt8) : FileData :=
  { f with size := max f.size (offset + new.length), content := splice f.content offset new }

/-- The first `size` bytes of a file. -/
def FileData.cut (f : FileData) (size : Nat) : FileData :=
  { f with size := size, content := f.content.take size }

/-- The allocated inodes. -/
abbrev Files := Nat → Option FileData

/-- A call that reads or writes file data. -/
inductive FileCall where
  | write (inode offset : Nat) (source : List UInt8)
  | truncate (inode size : Nat)
  | read (inode offset length : Nat)

/-- What such a call returns. -/
inductive FileResult where
  | written (r : Except Errno Nat)
  | truncated (r : Except Errno Unit)
  | bytes (r : Except Errno (List UInt8))

/-- A call on byte sequences: its result and the files after it. A write may stop short of its buffer, at
the `done` bytes it returns, and a failed call changes nothing. -/
inductive FileStep (files : Files) : FileCall → FileResult → Files → Prop
  | wrote {n offset done source f} : files n = some f → f.mode = 1 → offset ≤ f.size → done ≤ source.length →
      FileStep files (.write n offset source) (.written (.ok done))
        (Function.update files n (some (f.overwrite offset (source.take done))))
  | notWritten {n offset source e} : FileStep files (.write n offset source) (.written (.error e)) files
  | cut {n size f} : files n = some f → f.mode = 1 → size ≤ f.size →
      FileStep files (.truncate n size) (.truncated (.ok ())) (Function.update files n (some (f.cut size)))
  | notCut {n size e} : FileStep files (.truncate n size) (.truncated (.error e)) files
  | read {n offset length f} : files n = some f → f.mode = 1 →
      FileStep files (.read n offset length) (.bytes (.ok ((f.content.drop offset).take length))) files
  | notRead {n offset length e} : (∀ f, files n = some f → f.mode = 2) →
      FileStep files (.read n offset length) (.bytes (.error e)) files

/-- A sequence of calls, with the result of each. -/
inductive FileRun : Files → List FileCall → List FileResult → Files → Prop
  | nil (files) : FileRun files [] [] files
  | cons {files files' files'' call calls r rs} : FileStep files call r files' →
      FileRun files' calls rs files'' → FileRun files (call :: calls) (r :: rs) files''

/-! ## The code -/

/-- The call of `minifs.c`. -/
def FileCall.exec : FileCall → Fs FileResult
  | .write inode offset source => return .written (← minifsWrite inode offset source)
  | .truncate inode size => return .truncated (← minifsTruncate inode size)
  | .read inode offset length => return .bytes (← minifsRead inode offset length)

/-- The calls in turn. -/
def execFileCalls : List FileCall → Fs (List FileResult)
  | [] => return []
  | call :: calls => do
    let r ← call.exec
    return r :: (← execFileCalls calls)

namespace Vol

variable {v w : Vol} {sb : Superblock} {n m offset size done : Nat} {source : List UInt8}

/-- What the model sees of an inode. -/
def fileData (v : Vol) (n : Nat) : FileData := ⟨(v.ino n).mode, (v.ino n).size, v.content n⟩

/-- What the model sees of a volume. -/
def files (v : Vol) (sb : Superblock) : Files := fun n =>
  if n ∈ v.alloc sb then some (v.fileData n) else none

theorem files_of_mem (hn : n ∈ v.alloc sb) : v.files sb n = some (v.fileData n) := if_pos hn

theorem mem_of_files {f : FileData} (h : v.files sb n = some f) : n ∈ v.alloc sb ∧ f = v.fileData n := by
  unfold files at h
  split at h
  · next hn => exact ⟨hn, (Option.some.inj h).symm⟩
  · cases h

theorem Kept.fileData (h : Kept v w n) : w.fileData n = v.fileData n := by
  unfold Vol.fileData
  rw [h.ino, h.content]

/-- The files after a change of one. -/
theorem files_update {f : FileData} (himap : w.imap = v.imap) (hn : n ∈ v.alloc sb) (hf : w.fileData n = f)
    (hkept : ∀ m ∈ v.alloc sb, m ≠ n → Kept v w m) :
    w.files sb = Function.update (v.files sb) n (some f) := by
  have halloc : w.alloc sb = v.alloc sb := alloc_congr himap
  funext m
  by_cases hmn : m = n
  · subst hmn
    rw [Function.update_self, files_of_mem (halloc ▸ hn), hf]
  · rw [Function.update_of_ne hmn, files, files, halloc]
    split
    · next hm => rw [(hkept m hm hmn).fileData]
    · rfl

/-- The bytes of a buffer as a list. -/
theorem map_bufferOf (h : done ≤ source.length) : (List.range done).map (bufferOf source) = source.take done := by
  refine List.ext_getElem (by simpa using h) fun i hi _ => ?_
  have hlt : i < source.length := by
    rw [List.length_map, List.length_range] at hi
    omega
  simp [bufferOf, hlt]

/-- The files after a write. -/
theorem Overwritten.files (h : Overwritten v w sb n offset (bufferOf source) done) (hown : v.Owns sb (v.alloc sb))
    (hn : n ∈ v.alloc sb) (hoffset : offset ≤ (v.ino n).size) (hdone : done ≤ source.length) :
    w.files sb =
      Function.update (v.files sb) n (some ((v.fileData n).overwrite offset (source.take done))) := by
  refine files_update h.imap hn ?_ fun m hm hne => h.toGrown.kept hown hn hm hne
  simp only [fileData, FileData.overwrite, FileData.mk.injEq, List.length_take, Nat.min_eq_left hdone]
  exact ⟨h.mode, h.length, by rw [h.content hoffset, map_bufferOf hdone]⟩

/-- Writing no bytes at all leaves a file. -/
theorem overwrite_nil (hoffset : offset ≤ (v.ino n).size) :
    (v.fileData n).overwrite offset [] = v.fileData n := by
  simp only [fileData, FileData.overwrite, splice, FileData.mk.injEq, List.length_nil, Nat.add_zero,
    List.append_nil, List.take_append_drop, true_and, and_true]
  exact Nat.max_eq_left hoffset

/-- A write is a write of the model, and leaves the volume consistent. -/
theorem WriteEffect.fileStep {r : Except Errno Nat} {ℓ' : Level}
    (h : WriteEffect sb .quiet v n offset source r ℓ' w) (hv : v.Consistent sb) :
    FileStep (v.files sb) (.write n offset source) (.written r) (w.files sb) ∧ w.Consistent sb := by
  have hregular : v.IsFile (v.alloc sb) n → (v.ino n).mode ≠ 2 := fun hn hdir => by
    rw [hn.2] at hdir
    cases hdir
  cases h with
  | refused => exact ⟨.notWritten, hv⟩
  | wrote done _ hn hoffset hdone hover =>
    refine ⟨?_, hv.settled hn.1 (hregular hn) hover.toSettled hover.links⟩
    rw [hover.files hv.owns hn.1 hoffset hdone]
    exact .wrote (files_of_mem hn.1) hn.2 hoffset hdone
  | full _ hn hoffset hover =>
    refine ⟨?_, hv.settled hn.1 (hregular hn) hover.toSettled hover.links⟩
    rw [hover.files hv.owns hn.1 hoffset (Nat.zero_le _), List.take_zero, overwrite_nil hoffset,
      ← files_of_mem hn.1, Function.update_eq_self]
    exact .notWritten
  | undone _ _ hs => cases hs
  | leaked _ _ _ _ _ hs => cases hs

/-- So is a truncation. -/
theorem TruncateEffect.fileStep {r : Except Errno Unit} {ℓ' : Level} (h : TruncateEffect sb v n size r ℓ' w)
    (hv : v.Consistent sb) :
    FileStep (v.files sb) (.truncate n size) (.truncated r) (w.files sb) ∧ w.Consistent sb := by
  cases h with
  | refused => exact ⟨.notCut, hv⟩
  | same _ hn hsize =>
    have hcut : (v.fileData n).cut size = v.fileData n := by
      simp only [fileData, FileData.cut, FileData.mk.injEq, hsize, true_and]
      exact List.take_of_length_le (by simp [content])
    have hstep := FileStep.cut (files_of_mem hn.1) hn.2 hsize.le
    rw [hcut, ← files_of_mem hn.1, Function.update_eq_self] at hstep
    exact ⟨hstep, hv⟩
  | cut _ hn hsize =>
    have hshrunk := shrunk_truncated (hv.owns.ok n hn.1) hsize.le
    have hfile : (v.ino n).mode ≠ 2 := by
      rw [hn.2]
      decide
    refine ⟨?_, hv.truncated hn.1 hfile hsize.le⟩
    rw [files_update hshrunk.imap hn.1 rfl fun m hm hne => hshrunk.kept hv.owns hn.1 hm hne]
    have hdata : (v.truncated n size).fileData n = (v.fileData n).cut size := by
      simp only [fileData, FileData.cut, FileData.mk.injEq, hshrunk.content hv.owns hn.1 hsize.le, and_true]
      rw [hshrunk.ino]
      exact ⟨rfl, rfl⟩
    rw [hdata]
    exact .cut (files_of_mem hn.1) hn.2 hsize.le

/-- A read is a read of the model. -/
theorem readAt_fileStep (hv : v.Consistent sb) {length : Nat} :
    FileStep (v.files sb) (.read n offset length) (.bytes (v.readAt sb n offset length)) (v.files sb) := by
  by_cases hn : n ∈ v.alloc sb
  · rcases (hv.owns.ok n hn).mode with hmode | hmode
    · rw [readAt_content hv.owns hn hmode]
      exact .read (files_of_mem hn) hmode
    · have heq : v.readAt sb n offset length = .error .eisdir := by
        unfold readAt
        rw [hv.owns.readInode hn]
        exact if_pos hmode
      rw [heq]
      exact .notRead fun f hf => by rw [(mem_of_files hf).2]; exact hmode
  · have herror : ∃ e, v.readAt sb n offset length = .error e := by
      unfold readAt
      cases hread : v.readInode sb n with
      | error e => exact ⟨e, rfl⟩
      | ok inode =>
        obtain ⟨hlt, himap, -⟩ := readInode_eq_ok.1 hread
        exact absurd (mem_alloc.2 ⟨hlt, himap⟩) hn
    obtain ⟨e, heq⟩ := herror
    rw [heq]
    exact .notRead fun f hf => absurd (mem_of_files hf).1 hn

end Vol

variable {sb : Superblock} {v : Vol} {s : Machine}

/-- A data call on a mounted volume is a step of the model. -/
theorem Serving.fileCall (h : Serving sb v s) (hv : v.Consistent sb) (call : FileCall) :
    wp call.exec (fun r s' => ∃ v', Serving sb v' s' ∧ v'.Consistent sb ∧
      FileStep (v.files sb) call r (v'.files sb)) s := by
  cases call with
  | write n offset source =>
    refine wp.bind (h.write hv n offset source) ?_
    intro r s' ⟨v', heffect, h'⟩
    exact ⟨v', h', (heffect.fileStep hv).2, (heffect.fileStep hv).1⟩
  | truncate n size =>
    refine wp.bind (h.truncate hv n size) ?_
    intro r s' ⟨v', heffect, h'⟩
    exact ⟨v', h', (heffect.fileStep hv).2, (heffect.fileStep hv).1⟩
  | read n offset length =>
    refine wp.bind (h.read n offset length) ?_
    intro r s' ⟨hr, h'⟩
    exact ⟨v, h', hv, hr ▸ Vol.readAt_fileStep hv⟩

/-- **The data calls work on byte sequences.** On a mounted consistent volume every sequence of writes,
truncations and reads returns what the same calls on byte sequences return, and leaves the files that they
leave. -/
theorem Serving.fileCalls (hv : v.Consistent sb) (calls : List FileCall) (h : Serving sb v s) :
    wp (execFileCalls calls) (fun rs s' => ∃ v', Serving sb v' s' ∧ v'.Consistent sb ∧
      FileRun (v.files sb) calls rs (v'.files sb)) s := by
  induction calls generalizing v s with
  | nil => exact ⟨v, h, hv, .nil _⟩
  | cons call calls ih =>
    refine wp.bind (h.fileCall hv call) ?_
    intro r s₁ ⟨v₁, h₁, hv₁, hstep⟩
    refine wp.bind (ih hv₁ h₁) ?_
    intro rs s₂ ⟨v₂, h₂, hv₂, hrun⟩
    exact ⟨v₂, h₂, hv₂, .cons hstep hrun⟩

end MiniOrange
