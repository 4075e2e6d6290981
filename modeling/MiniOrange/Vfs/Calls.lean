import MiniOrange.Fs.Code
import MiniOrange.Vfs.Table

/-!
# The functions of `kernel/fs/vfs.c`

A call is made with the files of the running process and goes through the lock of `vfs.c` to the file system. The flag
of the interrupts is the one of the machine the file system runs on. A buffer that is NULL is `none`, and where a
function fills a buffer the model returns what it is filled with.
-/

namespace MiniOrange

/-- What a call of `vfs.c` works on: the files of the running process, and the file system. -/
structure Station where
  desk : Desk
  fs : Machine

/-- A function of `vfs.c`. -/
abbrev Vf := StateM Station

/-- A call of the file system. -/
def onFs {α : Type} (m : Fs α) : Vf α := fun st => ((m st.fs).1, { st with fs := (m st.fs).2 })

/-- A change of the tables. -/
def onDesk {α : Type} (f : Desk → α × Desk) : Vf α := fun st => ((f st.desk).1, { st with desk := (f st.desk).2 })

/-! ## The tables -/

/-- `allocate_file`. -/
def Desk.allocateFile (d : Desk) : Option Handle × Desk :=
  match (List.finRange 32).find? fun handle => (d.vfs.fileTable handle).used = false with
  | none => (none, d)
  | some handle => (some handle, d.setFile handle { clearFile with used := true, refcount := 1 })

/-- `scheduler_fd_install`, with the interrupts off. -/
def Desk.fdInstall (d : Desk) (handle : Handle) : Except Errno Nat × Desk :=
  match ((List.finRange 16).drop 3).find? fun descriptor => d.fdTable descriptor = none with
  | none => (.error .emfile, d)
  | some descriptor => (.ok descriptor, { d with fdTable := Function.update d.fdTable descriptor (some handle) })

/-- A function of `scheduler.c` on the descriptors of the running process, which it calls with the interrupts off. -/
def irqOff {α : Type} (m : Vf α) : Vf α := do
  let flags ← onFs irqSaveDisable
  let a ← m
  onFs (irqRestore flags)
  return a

/-- `scheduler_fd_install`. -/
def schedulerFdInstall (handle : Handle) : Vf (Except Errno Nat) := irqOff (onDesk (·.fdInstall handle))

/-- `scheduler_fd_get`. -/
def schedulerFdGet (descriptor : Int) : Vf (Option Handle) :=
  if descriptor < 3 ∨ descriptor ≥ 16 then return none else irqOff (onDesk fun d => (d.fdGet descriptor, d))

/-- `scheduler_fd_remove`. -/
def schedulerFdRemove (descriptor : Int) : Vf (Option Handle) :=
  if descriptor < 3 ∨ descriptor ≥ 16 then return none else irqOff (onDesk (·.fdRemove descriptor))

/-- `clear_file` and the other changes of an entry of `file_table`. -/
def setFile (handle : Handle) (file : VfsFile) : Vf Unit := onDesk fun d => ((), d.setFile handle file)

/-- The file that a descriptor stands for. -/
def fileOf (descriptor : Int) : Vf (Option Handle) := do
  let handle ← schedulerFdGet descriptor
  return (← get).desk.fileFromHandle handle

/-- An entry of `file_table`. -/
def fileAt (handle : Handle) : Vf VfsFile := return (← get).desk.vfs.fileTable handle

/-- `vfs_init`. -/
def vfsInit : Vfs := ⟨fun _ => clearFile, true, false⟩

/-! ## The lock -/

/-- A change of `vfs_busy`. -/
def setBusy (busy : Bool) : Vf Unit := onDesk fun d => ((), { d with vfs := { d.vfs with busy := busy } })

/-- `vfs_acquire`: the saved interrupt flag, or nothing when a call is running. -/
def vfsAcquire : Vf (Option Bool) := do
  let flags ← onFs irqSaveDisable
  if (← get).desk.vfs.busy then
    onFs (irqRestore flags)
    return none
  setBusy true
  return some flags

/-- `vfs_release`. -/
def vfsRelease (irqFlags : Bool) : Vf Unit := do
  setBusy false
  onFs (irqRestore irqFlags)

/-- The frame of a call: the lock, the body and the release. -/
def vfsLocked {α : Type} (body : Vf (Except Errno α)) : Vf (Except Errno α) := do
  match ← vfsAcquire with
  | none => return .error .eagain
  | some irqFlags =>
    let result ← body
    vfsRelease irqFlags
    return result

/-- A call that `vfs.c` refuses before it takes the lock. -/
def vfsCall {α : Type} (refused : Vfs → Prop) [DecidablePred refused] (e : Errno) (body : Vf (Except Errno α)) :
    Vf (Except Errno α) := do
  if refused (← get).desk.vfs then return .error e else vfsLocked body

/-! ## Flags -/

/-- `flags & MINIOS_O_ACCMODE`. -/
def accessOf (flags : Nat) : Nat := flags &&& 0x003

/-- `flags & MINIOS_O_CREAT`. -/
def creates (flags : Nat) : Bool := flags &&& 0x100 != 0

/-- `flags & MINIOS_O_TRUNC`. -/
def truncates (flags : Nat) : Bool := flags &&& 0x200 != 0

/-- `flags_valid`: no bits but those of `VFS_ALLOWED_FLAGS` are set, and only a file open for writing is truncated. -/
def flagsValid (flags : Nat) : Bool :=
  flags &&& 0x303 = flags && accessOf flags ≤ 2 && (!truncates flags || accessOf flags != 0)

/-- `file_readable`. -/
def VfsFile.readable (file : VfsFile) : Bool := accessOf file.flags != 1

/-- `file_writable`. -/
def VfsFile.writable (file : VfsFile) : Bool := accessOf file.flags != 0

/-! ## Opening and closing -/

/-- The file that `vfs_open` opens: the one at the path, or a new one. -/
def lookupOrCreate (path : List UInt8) (flags : Nat) : Fs (Except Errno Stat) := do
  match ← minifsLookup path with
  | .error .enoent => if creates flags then minifsCreate path else return .error .enoent
  | result => return result

/-- `vfs_open` once it has a file that it may open: the file is truncated if that is asked for. -/
def truncateOpened (flags inode : Nat) : Fs (Except Errno Unit) :=
  if truncates flags then minifsTruncate inode 0 else return .ok ()

/-- The entry that `vfs_open` makes. -/
def openedFile (status : Stat) (flags : Nat) : VfsFile where
  used := true
  refcount := 1
  ops := true
  inode := status.inode
  offset := 0
  flags := flags
  mode := status.mode

/-- `vfs_open` once it has an entry of `file_table` and the file. -/
def openFile (handle : Handle) (status : Stat) (flags : Nat) : Vf (Except Errno Nat) := do
  if status.mode = 2 ∧ (accessOf flags ≠ 0 ∨ truncates flags) then
    setFile handle clearFile
    return .error .eisdir
  match ← onFs (truncateOpened flags status.inode) with
  | .error e =>
    setFile handle clearFile
    return .error e
  | .ok () =>
    setFile handle (openedFile status flags)
    match ← schedulerFdInstall handle with
    | .error e =>
      setFile handle clearFile
      return .error e
    | .ok descriptor => return .ok descriptor

/-- `vfs_open` with the lock. -/
def openLocked (path : List UInt8) (flags : Nat) : Vf (Except Errno Nat) := do
  match ← onDesk Desk.allocateFile with
  | none => return .error .enfile
  | some handle =>
    match ← onFs (lookupOrCreate path flags) with
    | .error e =>
      setFile handle clearFile
      return .error e
    | .ok status => openFile handle status flags

/-- `vfs_open`. -/
def vfsOpen (path : List UInt8) (flags : Nat) : Vf (Except Errno Nat) :=
  vfsCall (fun vfs => vfs.initialized = false ∨ flagsValid flags = false) .einval (openLocked path flags)

/-- `vfs_close` with the lock. -/
def closeLocked (descriptor : Int) : Vf (Except Errno Unit) := do
  let handle ← schedulerFdRemove descriptor
  match (← get).desk.fileFromHandle handle with
  | none => return .error .ebadf
  | some file =>
    onDesk fun d => ((), d.dropFile file)
    return .ok ()

/-- `vfs_close`. -/
def vfsClose (descriptor : Int) : Vf (Except Errno Unit) :=
  vfsCall (fun vfs => vfs.initialized = false) .eio (closeLocked descriptor)

/-! ## Reading and writing -/

/-- `file->offset += result`, if the result is positive. -/
def advance (handle : Handle) (file : VfsFile) (count : Nat) : Vf Unit :=
  if count > 0 then setFile handle { file with offset := (file.offset + count) % 2 ^ 32 } else return ()

/-- `vfs_read` and `vfs_write` with the lock: `allowed` is the access they want, and `transfer` moves bytes from the offset
of the file on. -/
def transferLocked {α : Type} (descriptor : Int) (allowed : VfsFile → Bool) (count : α → Nat)
    (transfer : Nat → Nat → Fs (Except Errno α)) : Vf (Except Errno α) := do
  match ← fileOf descriptor with
  | none => return .error .ebadf
  | some handle =>
    let file ← fileAt handle
    if allowed file = false then return .error .ebadf
    if file.mode = 2 then return .error .eisdir
    match ← onFs (transfer file.inode file.offset) with
    | .error e => return .error e
    | .ok result =>
      advance handle file (count result)
      return .ok result

/-- `vfs_read` into a buffer, which may be NULL. -/
def vfsRead (descriptor : Int) (buffer : Bool) (length : Nat) : Vf (Except Errno (List UInt8)) :=
  vfsCall (fun vfs => vfs.initialized = false ∨ (buffer = false ∧ length ≠ 0)) .einval
    (transferLocked descriptor VfsFile.readable List.length fun inode offset => minifsRead inode offset length)

/-- `vfs_write` of `length` bytes of a buffer. -/
def vfsWrite (descriptor : Int) (buffer : Option (List UInt8)) (length : Nat) : Vf (Except Errno Nat) :=
  vfsCall (fun vfs => vfs.initialized = false ∨ (buffer = none ∧ length ≠ 0)) .einval
    (transferLocked descriptor VfsFile.writable id fun inode offset =>
      minifsWrite inode offset ((buffer.getD []).takeD length 0))

/-- The base of `vfs_lseek`. -/
def seekBase (file : VfsFile) (whence : Int) : Vf (Except Errno Nat) :=
  if whence = 0 then return .ok 0
  else if whence = 1 then return .ok file.offset
  else if whence = 2 then return (← onFs (minifsStatInode file.inode)).map Stat.size
  else return .error .einval

/-- `vfs_lseek` with the lock. -/
def lseekLocked (descriptor offset whence : Int) : Vf (Except Errno Nat) := do
  match ← fileOf descriptor with
  | none => return .error .ebadf
  | some handle =>
    let file ← fileAt handle
    match ← seekBase file whence with
    | .error e => return .error e
    | .ok base =>
      let target := (base : Int) + offset
      if target < 0 ∨ target > 0x7FFFFFFF then return .error .einval
      setFile handle { file with offset := target.toNat }
      return .ok target.toNat

/-- `vfs_lseek`. -/
def vfsLseek (descriptor offset whence : Int) : Vf (Except Errno Nat) :=
  vfsCall (fun vfs => vfs.initialized = false) .eio (lseekLocked descriptor offset whence)

/-! ## Names -/

/-- `vfs_stat`, with a place for the result that may be NULL. -/
def vfsStat (path : List UInt8) (status : Bool) : Vf (Except Errno Stat) := do
  if (← get).desk.vfs.initialized = false ∨ status = false then return .error .einval else onFs (minifsLookup path)

/-- `vfs_mkdir`. -/
def vfsMkdir (path : List UInt8) : Vf (Except Errno Unit) :=
  vfsCall (fun vfs => vfs.initialized = false) .eio (onFs (minifsMkdir path))

/-- Some entry of `file_table` in use is of this inode. -/
def Vfs.isOpen (vfs : Vfs) (inode : Nat) : Bool :=
  (List.finRange 32).any fun handle => (vfs.fileTable handle).used && (vfs.fileTable handle).inode = inode

/-- `vfs_unlink` with the lock. -/
def unlinkClosed (path : List UInt8) : Vf (Except Errno Unit) := do
  match ← onFs (minifsLookup path) with
  | .error e => return .error e
  | .ok status =>
    if (← get).desk.vfs.isOpen status.inode then return .error .ebusy else onFs (minifsUnlink path)

/-- `vfs_unlink`. -/
def vfsUnlink (path : List UInt8) : Vf (Except Errno Unit) :=
  vfsCall (fun vfs => vfs.initialized = false) .eio (unlinkClosed path)

/-- `vfs_readdir` with the lock: the next entry, or the end. -/
def readdirLocked (descriptor : Int) : Vf (Except Errno (Option Dirent)) := do
  match ← fileOf descriptor with
  | none => return .error .ebadf
  | some handle =>
    let file ← fileAt handle
    if file.readable = false then return .error .ebadf
    if file.mode ≠ 2 then return .error .enotdir
    match ← onFs (minifsReaddir file.inode file.offset) with
    | .error e => return .error e
    | .ok (entry, offset) =>
      setFile handle { file with offset := offset }
      return .ok entry

/-- `vfs_readdir`, with a place for the entry that may be NULL. -/
def vfsReaddir (descriptor : Int) (entry : Bool) : Vf (Except Errno (Option Dirent)) :=
  vfsCall (fun vfs => vfs.initialized = false ∨ entry = false) .einval (readdirLocked descriptor)

/-! ## Calls -/

/-- A call of `vfs.c`. -/
inductive FileRequest where
  | openPath (path : List UInt8) (flags : Nat)
  | close (descriptor : Int)
  | read (descriptor : Int) (buffer : Bool) (length : Nat)
  | write (descriptor : Int) (buffer : Option (List UInt8)) (length : Nat)
  | lseek (descriptor offset whence : Int)
  | stat (path : List UInt8) (status : Bool)
  | mkdir (path : List UInt8)
  | unlink (path : List UInt8)
  | readdir (descriptor : Int) (entry : Bool)

/-- Make a call. -/
def FileRequest.run : FileRequest → Vf (Option Errno)
  | openPath path flags => return errorOf (← vfsOpen path flags)
  | close descriptor => return errorOf (← vfsClose descriptor)
  | read descriptor buffer length => return errorOf (← vfsRead descriptor buffer length)
  | write descriptor buffer length => return errorOf (← vfsWrite descriptor buffer length)
  | lseek descriptor offset whence => return errorOf (← vfsLseek descriptor offset whence)
  | stat path status => return errorOf (← vfsStat path status)
  | mkdir path => return errorOf (← vfsMkdir path)
  | unlink path => return errorOf (← vfsUnlink path)
  | readdir descriptor entry => return errorOf (← vfsReaddir descriptor entry)
where
  /-- The error of a call. -/
  errorOf {α : Type} : Except Errno α → Option Errno
    | .ok _ => none
    | .error e => some e

end MiniOrange
