import MiniOrange.Fs.Format

/-!
# Open files and descriptors

`vfs.c` keeps a table of 32 open files; a process has a table of 16 descriptors, each empty or the address of an entry
of the former. This module has the functions on the two tables that do not reach the file system. A call of
`vfs.c` is made with the descriptors of the running process.
-/

namespace MiniOrange

/-- The address of an entry of `file_table`. -/
abbrev Handle := Fin 32

instance neZero_fd : NeZero (16 : Nat) := ⟨by decide⟩

/-- A descriptor number of a process. -/
abbrev Fd := Fin 16

/-- `fd_table` of a process; 0 is `none`. -/
abbrev FdTable := Fd → Option Handle

/-- `struct vfs_file`. Its type is always `VFS_FILE_MINIFS`, and `ops` is NULL or `minifs_file_ops`. -/
structure VfsFile where
  used : Bool
  refcount : Nat
  ops : Bool
  inode : Nat
  offset : Nat
  flags : Nat
  mode : Nat
  deriving DecidableEq, Repr

/-- The static state of `vfs.c`. -/
structure Vfs where
  fileTable : Handle → VfsFile
  initialized : Bool
  busy : Bool

/-- `clear_file`. -/
def clearFile : VfsFile := ⟨false, 0, false, 0, 0, 0, 0⟩

/-- The descriptors of the running process, and the open files. -/
structure Desk where
  fdTable : FdTable
  vfs : Vfs

namespace Desk

/-- `scheduler_fd_get`. -/
def fdGet (d : Desk) (descriptor : Int) : Option Handle :=
  if descriptor < 3 ∨ descriptor ≥ 16 then none else d.fdTable (Fin.ofNat 16 descriptor.toNat)

/-- `scheduler_fd_remove`. -/
def fdRemove (d : Desk) (descriptor : Int) : Option Handle × Desk :=
  if descriptor < 3 ∨ descriptor ≥ 16 then (none, d)
  else (d.fdTable (Fin.ofNat 16 descriptor.toNat),
    { d with fdTable := Function.update d.fdTable (Fin.ofNat 16 descriptor.toNat) none })

/-- `file_from_handle`. -/
def fileFromHandle (d : Desk) (handle : Option Handle) : Option Handle :=
  handle.filter fun h => (d.vfs.fileTable h).used && decide ((d.vfs.fileTable h).refcount > 0) && (d.vfs.fileTable h).ops

/-- Give an entry of `file_table` a new value. -/
def setFile (d : Desk) (handle : Handle) (file : VfsFile) : Desk :=
  { d with vfs := { d.vfs with fileTable := Function.update d.vfs.fileTable handle file } }

/-- The end of a descriptor's file: `--refcount`, and the entry is cleared with the last. -/
def dropFile (d : Desk) (handle : Handle) : Desk :=
  let file := { d.vfs.fileTable handle with refcount := (d.vfs.fileTable handle).refcount - 1 }
  d.setFile handle (if file.refcount = 0 then clearFile else file)

/-- `vfs_close`. The flag `vfs_busy` is set and taken back. -/
def vfsClose (d : Desk) (descriptor : Int) : Except Errno Unit × Desk :=
  if d.vfs.initialized = false then (.error .eio, d)
  else if d.vfs.busy then (.error .eagain, d)
  else
    let (handle, d) := d.fdRemove descriptor
    match d.fileFromHandle handle with
    | none => (.error .ebadf, d)
    | some file => (.ok (), d.dropFile file)

/-- One round of the loop of `vfs_close_all_current`. -/
def closeIfOpen (d : Desk) (descriptor : Nat) : Desk :=
  if (d.fdGet descriptor).isSome then (d.vfsClose descriptor).2 else d

/-- `vfs_close_all_current`. -/
def vfsCloseAllCurrent (d : Desk) : Desk :=
  if d.vfs.initialized = false then d else (List.range' 3 13).foldl closeIfOpen d

end Desk

end MiniOrange
