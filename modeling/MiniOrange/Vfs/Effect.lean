import MiniOrange.Vfs.Calls

/-!
# What the calls of `vfs.c` do

With the lock taken, a call refuses, opens or closes a file, moves the offset of one, or changes names; `FileEffect` says
which, for the tables and for the file system together. What holds between calls is proved by cases over it.
-/

namespace MiniOrange

variable {α : Type} {st : Station}

variable {Q : α → Station → Prop} {f : Desk → α × Desk} {file : VfsFile} {descriptor : Int} {refused : Vfs → Prop}
  {e : Errno} {body : Vf (Except Errno α)}

@[simp] theorem wp_onFs {m : Fs α} :
    wp (onFs m) Q st ↔ wp m (fun a fs => Q a { st with fs := fs }) st.fs := Iff.rfl

@[simp] theorem wp_onDesk :
    wp (onDesk f) Q st ↔ Q (f st.desk).1 { st with desk := (f st.desk).2 } := Iff.rfl

@[simp] theorem wp_setFile {handle : Handle} {Q : Unit → Station → Prop} :
    wp (setFile handle file) Q st ↔ Q () { st with desk := st.desk.setFile handle file } := Iff.rfl

@[simp] theorem wp_fileAt {handle : Handle} {Q : VfsFile → Station → Prop} :
    wp (fileAt handle) Q st ↔ Q (st.desk.vfs.fileTable handle) st := Iff.rfl

@[simp] theorem wp_irqOff_onDesk :
    wp (irqOff (onDesk f)) Q st ↔ Q (f st.desk).1 { st with desk := (f st.desk).2 } := Iff.rfl

@[simp] theorem wp_schedulerFdInstall {handle : Handle} {Q : Except Errno Nat → Station → Prop} :
    wp (schedulerFdInstall handle) Q st ↔
      Q (st.desk.fdInstall handle).1 { st with desk := (st.desk.fdInstall handle).2 } := Iff.rfl

@[simp] theorem wp_schedulerFdGet {Q : Option Handle → Station → Prop} :
    wp (schedulerFdGet descriptor) Q st ↔ Q (st.desk.fdGet descriptor) st := by
  unfold schedulerFdGet Desk.fdGet
  split
  · exact Iff.rfl
  · rw [wp_irqOff_onDesk]

@[simp] theorem wp_schedulerFdRemove {Q : Option Handle → Station → Prop} :
    wp (schedulerFdRemove descriptor) Q st ↔
      Q (st.desk.fdRemove descriptor).1 { st with desk := (st.desk.fdRemove descriptor).2 } := by
  unfold schedulerFdRemove Desk.fdRemove
  split
  · exact Iff.rfl
  · rw [wp_irqOff_onDesk]

@[simp] theorem wp_fileOf {Q : Option Handle → Station → Prop} :
    wp (fileOf descriptor) Q st ↔ Q (st.desk.fileFromHandle (st.desk.fdGet descriptor)) st := by
  unfold fileOf
  rw [wp_bind, wp_schedulerFdGet]
  exact Iff.rfl

/-! ## The tables -/

namespace Desk

variable {d : Desk} {handle : Handle} {file : VfsFile} {descriptor : Int}

/-- `allocate_file` takes an entry that is not in use, or there is none. -/
theorem allocateFile_cases (d : Desk) :
    (d.allocateFile = (none, d) ∧ ∀ handle, (d.vfs.fileTable handle).used = true) ∨
    ∃ handle, (d.vfs.fileTable handle).used = false ∧
      d.allocateFile = (some handle, d.setFile handle { clearFile with used := true, refcount := 1 }) := by
  unfold allocateFile
  cases hfind : (List.finRange 32).find? fun handle => (d.vfs.fileTable handle).used = false with
  | none =>
    refine .inl ⟨rfl, fun handle => ?_⟩
    have := List.find?_eq_none.1 hfind handle (List.mem_finRange handle)
    simpa using this
  | some handle => exact .inr ⟨handle, by simpa using List.find?_some hfind, rfl⟩

/-- The descriptors behind the three standard ones. -/
theorem mem_drop_finRange {descriptor : Fd} : descriptor ∈ (List.finRange 16).drop 3 ↔ 3 ≤ descriptor.val := by
  revert descriptor
  decide

/-- `scheduler_fd_install` takes a descriptor that is free, or there is none. -/
theorem fdInstall_cases (d : Desk) (handle : Handle) :
    (d.fdInstall handle = (.error .emfile, d) ∧ ∀ descriptor : Fd, 3 ≤ descriptor.val → d.fdTable descriptor ≠ none) ∨
    ∃ descriptor : Fd, 3 ≤ descriptor.val ∧ d.fdTable descriptor = none ∧
      d.fdInstall handle = (.ok descriptor, { d with fdTable := Function.update d.fdTable descriptor (some handle) }) := by
  unfold fdInstall
  cases hfind : ((List.finRange 16).drop 3).find? fun descriptor => d.fdTable descriptor = none with
  | none =>
    refine .inl ⟨rfl, fun descriptor hdescriptor => ?_⟩
    have := List.find?_eq_none.1 hfind descriptor (mem_drop_finRange.2 hdescriptor)
    simpa using this
  | some descriptor =>
    exact .inr ⟨descriptor, mem_drop_finRange.1 (List.mem_of_find?_eq_some hfind), by simpa using List.find?_some hfind, rfl⟩

/-- The last of two changes of an entry counts. -/
@[simp] theorem setFile_setFile (d : Desk) (handle : Handle) (file file' : VfsFile) :
    (d.setFile handle file).setFile handle file' = d.setFile handle file' := by
  unfold setFile
  rw [Function.update_idem]

@[simp] theorem setFile_self (d : Desk) (handle : Handle) (file : VfsFile) :
    (d.setFile handle file).vfs.fileTable handle = file := Function.update_self ..

theorem setFile_of_ne (d : Desk) {handle other : Handle} (file : VfsFile) (h : other ≠ handle) :
    (d.setFile handle file).vfs.fileTable other = d.vfs.fileTable other := Function.update_of_ne h ..

theorem setFile_eq_self (h : d.vfs.fileTable handle = file) : d.setFile handle file = d := by
  unfold setFile
  rw [← h, Function.update_eq_self]

/-- `vfs_close` with the lock. -/
def closeDescriptor (d : Desk) (descriptor : Int) : Except Errno Unit × Desk :=
  let (handle, d) := d.fdRemove descriptor
  match d.fileFromHandle handle with
  | none => (.error .ebadf, d)
  | some file => (.ok (), d.dropFile file)

theorem vfsClose_eq (hinit : d.vfs.initialized = true) (hfree : d.vfs.busy = false) :
    d.vfsClose descriptor = d.closeDescriptor descriptor := by
  unfold vfsClose
  rw [if_neg (by rw [hinit]; decide), if_neg (by rw [hfree]; decide)]
  rfl

end Desk

/-! ## Effects -/

/-- What `vfs_open` does with the lock. -/
inductive OpenEffect (path : List UInt8) (flags : Nat) (d : Desk) (s : Machine) :
    Except Errno Nat → Desk → Machine → Prop
  /-- All entries of `file_table` are in use. -/
  | full : (∀ handle, (d.vfs.fileTable handle).used = true) → OpenEffect path flags d s (.error .enfile) d s
  /-- There is no such file, and it is not made. -/
  | missing {handle e s'} : (d.vfs.fileTable handle).used = false → lookupOrCreate path flags s = (.error e, s') →
      OpenEffect path flags d s (.error e) (d.setFile handle clearFile) s'
  /-- A directory is opened for writing. -/
  | directory {handle status s'} : (d.vfs.fileTable handle).used = false →
      lookupOrCreate path flags s = (.ok status, s') → status.mode = 2 → accessOf flags ≠ 0 ∨ truncates flags →
      OpenEffect path flags d s (.error .eisdir) (d.setFile handle clearFile) s'
  /-- The file is not truncated. -/
  | stuck {handle status s' e s''} : (d.vfs.fileTable handle).used = false →
      lookupOrCreate path flags s = (.ok status, s') → truncateOpened flags status.inode s' = (.error e, s'') →
      OpenEffect path flags d s (.error e) (d.setFile handle clearFile) s''
  /-- The process has no descriptor left. -/
  | crowded {handle status s' s''} : (d.vfs.fileTable handle).used = false →
      lookupOrCreate path flags s = (.ok status, s') → (status.mode = 2 → accessOf flags = 0 ∧ truncates flags = false) →
      truncateOpened flags status.inode s' = (.ok (), s'') →
      (∀ descriptor : Fd, 3 ≤ descriptor.val → d.fdTable descriptor ≠ none) →
      OpenEffect path flags d s (.error .emfile) (d.setFile handle clearFile) s''
  /-- The file is open. -/
  | opened {handle status s' s''} {descriptor : Fd} : (d.vfs.fileTable handle).used = false →
      lookupOrCreate path flags s = (.ok status, s') → (status.mode = 2 → accessOf flags = 0 ∧ truncates flags = false) →
      truncateOpened flags status.inode s' = (.ok (), s'') → 3 ≤ descriptor.val → d.fdTable descriptor = none →
      OpenEffect path flags d s (.ok descriptor)
        { d.setFile handle (openedFile status flags) with fdTable := Function.update d.fdTable descriptor (some handle) } s''

/-- A call of the file system on the inode of an open file. -/
inductive InodeCall (inode : Nat) (s : Machine) : Machine → Prop
  | read (offset length : Nat) : InodeCall inode s (minifsRead inode offset length s).2
  | write (offset : Nat) (source : List UInt8) : InodeCall inode s (minifsWrite inode offset source s).2
  | readdir (offset : Nat) : InodeCall inode s (minifsReaddir inode offset s).2
  | stat : InodeCall inode s (minifsStatInode inode s).2

/-- What a call of `vfs.c` does with the lock. -/
inductive FileEffect (d : Desk) (s : Machine) : Desk → Machine → Prop
  | refused : FileEffect d s d s
  | «open» {path flags r d' s'} : OpenEffect path flags d s r d' s' → FileEffect d s d' s'
  | close (descriptor : Int) : FileEffect d s (d.closeDescriptor descriptor).2 s
  | transfer {handle s'} (offset : Nat) : (d.vfs.fileTable handle).used = true →
      InodeCall (d.vfs.fileTable handle).inode s s' →
      FileEffect d s (d.setFile handle { d.vfs.fileTable handle with offset := offset }) s'
  | seek {handle} (offset : Nat) : (d.vfs.fileTable handle).used = true →
      FileEffect d s (d.setFile handle { d.vfs.fileTable handle with offset := offset }) s
  | lookup (path : List UInt8) : FileEffect d s d (minifsLookup path s).2
  | mkdir (path : List UInt8) : FileEffect d s d (minifsMkdir path s).2
  | unlink {path status s'} : minifsLookup path s = (.ok status, s') → d.vfs.isOpen status.inode = false →
      FileEffect d s d (minifsUnlink path s').2

/-- `vfs_open` finds the file at the path. -/
theorem lookupOrCreate_of_ok {path : List UInt8} {s : Machine} {status : Stat} (flags : Nat)
    (h : (minifsLookup path s).1 = .ok status) : lookupOrCreate path flags s = (.ok status, (minifsLookup path s).2) := by
  have hwp : wp (lookupOrCreate path flags) (fun r s' => (r, s') = (.ok status, (minifsLookup path s).2)) s := by
    unfold lookupOrCreate
    rw [wp_bind]
    unfold wp
    rw [h]
    rfl
  exact hwp

theorem openFile_effect (st : Station) {path : List UInt8} {flags : Nat} {d : Desk} {s : Machine} {handle : Handle} {status : Stat}
    (hst : st.desk = d.setFile handle file) (hunused : (d.vfs.fileTable handle).used = false)
    (hfound : lookupOrCreate path flags s = (.ok status, st.fs)) :
    wp (openFile handle status flags) (fun r st' => OpenEffect path flags d s r st'.desk st'.fs) st := by
  unfold openFile
  split
  · next hdir =>
    rw [wp_bind, wp_setFile, wp_pure, hst, Desk.setFile_setFile]
    exact .directory hunused hfound hdir.1 hdir.2
  · next hdir =>
    have hmode : status.mode = 2 → accessOf flags = 0 ∧ truncates flags = false := by
      intro hmode
      simpa [hmode, not_or] using hdir
    rw [wp_bind, wp_onFs]
    cases htrunc : truncateOpened flags status.inode st.fs with
    | mk r s' =>
    rw [wp_of_eq htrunc]
    cases r with
    | error e =>
      rw [wp_bind, wp_setFile, wp_pure, hst, Desk.setFile_setFile]
      exact .stuck hunused hfound htrunc
    | ok =>
      rw [wp_bind, wp_setFile, wp_bind, wp_schedulerFdInstall]
      dsimp only
      rw [hst, Desk.setFile_setFile]
      rcases (d.setFile handle (openedFile status flags)).fdInstall_cases handle with ⟨heq, hfull⟩ | ⟨descriptor, hle, hfree, heq⟩
      · rw [heq, wp_bind, wp_setFile, wp_pure, Desk.setFile_setFile]
        exact .crowded hunused hfound hmode htrunc hfull
      · rw [heq, wp_pure]
        exact .opened hunused hfound hmode htrunc hle hfree

theorem openLocked_effect (path : List UInt8) (flags : Nat) :
    wp (openLocked path flags) (fun r st' => OpenEffect path flags st.desk st.fs r st'.desk st'.fs) st := by
  unfold openLocked
  rw [wp_bind, wp_onDesk]
  rcases st.desk.allocateFile_cases with ⟨heq, hfull⟩ | ⟨handle, hunused, heq⟩
  · rw [heq]
    exact .full hfull
  · rw [heq]
    dsimp only
    rw [wp_bind, wp_onFs]
    cases hfound : lookupOrCreate path flags st.fs with
    | mk r s' =>
    rw [wp_of_eq hfound]
    cases r with
    | error e =>
      rw [wp_bind, wp_setFile, wp_pure, Desk.setFile_setFile]
      exact .missing hunused hfound
    | ok status =>
      exact openFile_effect ⟨st.desk.setFile handle _, s'⟩ rfl hunused hfound

theorem closeLocked_effect (descriptor : Int) :
    wp (closeLocked descriptor) (fun _ st' => FileEffect st.desk st.fs st'.desk st'.fs) st := by
  have heffect : FileEffect st.desk st.fs (st.desk.closeDescriptor descriptor).2 st.fs := .close descriptor
  unfold closeLocked
  rw [wp_bind, wp_schedulerFdRemove, wp_bind, wp_get]
  unfold Desk.closeDescriptor at heffect
  dsimp only at heffect ⊢
  split
  · next hnone =>
    rw [hnone] at heffect
    exact heffect
  · next file hsome =>
    rw [hsome] at heffect
    exact heffect

/-- A file that a descriptor stands for is in use. -/
theorem used_of_fileFromHandle {d : Desk} {h : Option Handle} {handle : Handle}
    (hfile : d.fileFromHandle h = some handle) : h = some handle ∧ (d.vfs.fileTable handle).used = true := by
  unfold Desk.fileFromHandle at hfile
  obtain ⟨hsome, hused⟩ := Option.filter_eq_some_iff.1 hfile
  simp only [Bool.and_eq_true] at hused
  exact ⟨hsome, hused.1.1⟩

theorem transferLocked_effect {allowed : VfsFile → Bool} {count : α → Nat}
    {transfer : Nat → Nat → Fs (Except Errno α)} (hcall : ∀ inode offset s, InodeCall inode s (transfer inode offset s).2) :
    wp (transferLocked descriptor allowed count transfer) (fun _ st' => FileEffect st.desk st.fs st'.desk st'.fs) st := by
  unfold transferLocked
  rw [wp_bind, wp_fileOf]
  cases hfile : st.desk.fileFromHandle (st.desk.fdGet descriptor) with
  | none => exact .refused
  | some handle =>
    have hused := (used_of_fileFromHandle hfile).2
    dsimp only
    rw [wp_bind, wp_fileAt]
    split
    · exact .refused
    split
    · exact .refused
    generalize hold : st.desk.vfs.fileTable handle = file
    have hcall := hcall file.inode file.offset st.fs
    have hstay : FileEffect st.desk st.fs st.desk (transfer file.inode file.offset st.fs).2 := by
      have := FileEffect.transfer (d := st.desk) (s := st.fs) file.offset hused (hold ▸ hcall)
      rwa [hold, show ({ file with offset := file.offset } : VfsFile) = file from rfl, Desk.setFile_eq_self hold] at this
    rw [wp_bind, wp_onFs]
    unfold wp
    cases hresult : (transfer file.inode file.offset st.fs).1 with
    | error e => exact hstay
    | ok result =>
      dsimp only
      show wp (do
        advance handle file (count result)
        return (Except.ok result : Except Errno α)) (fun _ st' => FileEffect st.desk st.fs st'.desk st'.fs) { st with fs := _ }
      rw [wp_bind]
      unfold advance
      split
      · rw [wp_setFile, wp_pure, ← hold]
        exact .transfer _ hused (hold ▸ hcall)
      · exact hstay

theorem lseekLocked_effect (descriptor offset whence : Int) :
    wp (lseekLocked descriptor offset whence) (fun _ st' => FileEffect st.desk st.fs st'.desk st'.fs) st := by
  unfold lseekLocked
  rw [wp_bind, wp_fileOf]
  cases hfile : st.desk.fileFromHandle (st.desk.fdGet descriptor) with
  | none => exact .refused
  | some handle =>
    have hused := (used_of_fileFromHandle hfile).2
    dsimp only
    rw [wp_bind, wp_fileAt]
    -- the base is a number, or it is asked of the file system
    have hbase : wp (seekBase (st.desk.vfs.fileTable handle) whence) (fun _ st' => st'.desk = st.desk ∧
        (st'.fs = st.fs ∨ InodeCall (st.desk.vfs.fileTable handle).inode st.fs st'.fs)) st := by
      unfold seekBase
      split
      · exact ⟨rfl, .inl rfl⟩
      split
      · exact ⟨rfl, .inl rfl⟩
      split
      · exact ⟨rfl, .inr .stat⟩
      · exact ⟨rfl, .inl rfl⟩
    have hmoved : ∀ st' : Station, st'.desk = st.desk →
        (st'.fs = st.fs ∨ InodeCall (st.desk.vfs.fileTable handle).inode st.fs st'.fs) → ∀ offset,
        FileEffect st.desk st.fs (st'.desk.setFile handle { st.desk.vfs.fileTable handle with offset := offset }) st'.fs := by
      rintro st' hdesk (hfs | hcall) offset
      · rw [hdesk, hfs]
        exact .seek offset hused
      · rw [hdesk]
        exact .transfer offset hused hcall
    refine wp.bind hbase fun r st' h => ?_
    have hstay : FileEffect st.desk st.fs st'.desk st'.fs := by
      have := hmoved st' h.1 h.2 (st.desk.vfs.fileTable handle).offset
      rwa [Desk.setFile_eq_self (by rw [h.1])] at this
    cases r with
    | error e => exact hstay
    | ok base =>
      dsimp only
      split
      · exact hstay
      · exact hmoved st' h.1 h.2 _

theorem readdirLocked_effect (descriptor : Int) :
    wp (readdirLocked descriptor) (fun _ st' => FileEffect st.desk st.fs st'.desk st'.fs) st := by
  unfold readdirLocked
  rw [wp_bind, wp_fileOf]
  cases hfile : st.desk.fileFromHandle (st.desk.fdGet descriptor) with
  | none => exact .refused
  | some handle =>
    have hused := (used_of_fileFromHandle hfile).2
    dsimp only
    rw [wp_bind, wp_fileAt]
    split
    · exact .refused
    split
    · exact .refused
    have hcall : wp (onFs (minifsReaddir (st.desk.vfs.fileTable handle).inode (st.desk.vfs.fileTable handle).offset))
        (fun _ st' => st'.desk = st.desk ∧ InodeCall (st.desk.vfs.fileTable handle).inode st.fs st'.fs) st :=
      ⟨rfl, .readdir _⟩
    refine wp.bind hcall fun r st' ⟨hdesk, hcall⟩ => ?_
    cases r with
    | error e =>
      have := FileEffect.transfer (d := st.desk) (st.desk.vfs.fileTable handle).offset hused hcall
      rw [Desk.setFile_eq_self rfl] at this
      rwa [wp_pure, hdesk]
    | ok result =>
      dsimp only
      rw [wp_bind, wp_setFile, wp_pure, hdesk]
      exact .transfer _ hused hcall

theorem unlinkClosed_effect (path : List UInt8) :
    wp (unlinkClosed path) (fun _ st' => FileEffect st.desk st.fs st'.desk st'.fs) st := by
  unfold unlinkClosed
  rw [wp_bind, wp_onFs]
  cases hlookup : minifsLookup path st.fs with
  | mk r s' =>
  have hs' : (minifsLookup path st.fs).2 = s' := by rw [hlookup]
  have hread : FileEffect st.desk st.fs st.desk s' := hs' ▸ .lookup path
  rw [wp_of_eq hlookup]
  cases r with
  | error e => exact hread
  | ok status =>
    rw [wp_bind, wp_get]
    split
    · exact hread
    · next hclosed => exact .unlink hlookup (Bool.not_eq_true _ ▸ hclosed)

/-! ## The lock -/

/-- The station in a call: the lock is taken and the interrupts are off. -/
def Station.enter (st : Station) : Station :=
  ⟨{ st.desk with vfs := { st.desk.vfs with busy := true } }, { st.fs with interrupts := false }⟩

/-- The station after a call. -/
def Station.leave (st : Station) (interrupts : Bool) : Station :=
  ⟨{ st.desk with vfs := { st.desk.vfs with busy := false } }, { st.fs with interrupts := interrupts }⟩

/-- A call is refused, or it takes the lock and gives it back. -/
theorem vfsCall_cases [DecidablePred refused]
    {Q : Except Errno α → Station → Prop} (hrefused : refused st.desk.vfs → Q (.error e) st)
    (hbusy : st.desk.vfs.busy = true → Q (.error .eagain) st)
    (hbody : ¬ refused st.desk.vfs → st.desk.vfs.busy = false →
      wp body (fun r st' => Q r (st'.leave st.fs.interrupts)) st.enter) :
    wp (vfsCall refused e body) Q st := by
  unfold vfsCall
  rw [wp_bind, wp_get]
  split
  · next h => exact hrefused h
  · next h =>
    unfold vfsLocked vfsAcquire
    simp only [wp_bind, wp_onFs, wp_get]
    unfold irqSaveDisable
    simp only [wp_bind, wp_get, wp_set, wp_pure]
    split
    · next hb => exact hbusy hb
    · next hb => exact hbody h (Bool.not_eq_true _ ▸ hb)

/-- What a call of `vfs.c` does. -/
inductive CallEffect (st : Station) : Station → Prop
  | refused : CallEffect st st
  | looked (path : List UInt8) : CallEffect st { st with fs := (minifsLookup path st.fs).2 }
  | made {st' : Station} : st.desk.vfs.busy = false → FileEffect st.enter.desk st.enter.fs st'.desk st'.fs →
      CallEffect st (st'.leave st.fs.interrupts)

theorem vfsCall_effect [DecidablePred refused]
    (hbody : ∀ st, wp body (fun _ st' => FileEffect st.desk st.fs st'.desk st'.fs) st) :
    wp (vfsCall refused e body) (fun _ st' => CallEffect st st') st :=
  vfsCall_cases (fun _ => .refused) (fun _ => .refused) fun _ hfree => (hbody _).mono fun _ _ h => .made hfree h

theorem FileRequest.run_effect (request : FileRequest) : wp request.run (fun _ st' => CallEffect st st') st := by
  -- the result of a call does not matter
  have hrun : ∀ {β : Type} {m : Vf (Except Errno β)}, wp m (fun _ st' => CallEffect st st') st →
      wp (do return run.errorOf (← m)) (fun _ st' => CallEffect st st') st := fun h => h
  cases request with
  | openPath path flags =>
    refine hrun (vfsCall_effect fun _ => ?_)
    exact (openLocked_effect path flags).mono fun _ _ h => .open h
  | close descriptor => exact hrun (vfsCall_effect fun _ => closeLocked_effect descriptor)
  | read descriptor buffer length =>
    refine hrun (vfsCall_effect fun _ => transferLocked_effect fun _ _ _ => ?_)
    exact .read _ _
  | write descriptor buffer length =>
    refine hrun (vfsCall_effect fun _ => transferLocked_effect fun _ _ _ => ?_)
    exact .write _ _
  | lseek descriptor offset whence => exact hrun (vfsCall_effect fun _ => lseekLocked_effect descriptor offset whence)
  | stat path status =>
    refine hrun (m := vfsStat path status) ?_
    unfold vfsStat
    rw [wp_bind, wp_get]
    split
    · exact .refused
    · exact .looked path
  | mkdir path => exact hrun (vfsCall_effect fun _ => FileEffect.mkdir path)
  | unlink path => exact hrun (vfsCall_effect fun _ => unlinkClosed_effect path)
  | readdir descriptor entry => exact hrun (vfsCall_effect fun _ => readdirLocked_effect descriptor)

end MiniOrange
