import MiniOrange.Fs.Primitives

/-!
# Directories and paths as functions of the volume

The functions of `minifs.c` that walk directories and paths only read. Each has a counterpart on a
volume, and a theorem that the code returns what the counterpart returns, or `EIO` after a failed
transfer, at every level of faults. Everything about names and paths is then proved of the
counterparts.
-/

namespace MiniOrange

namespace Vol

variable (v : Vol) (sb : Superblock)

/-- `directory_find_internal` inside one block. -/
def findEntries (component : List UInt8) (fileBlock : Nat) (block : Block) :
    Nat → Nat → Option (Except Errno DirectoryRecord)
  | 0, _ => none
  | count + 1, index =>
    let entry := block.ptr (index * 64)
    let child := readLe32 entry
    let entryType := (entry 4).toNat
    let name : Bytes := fun i => entry (5 + i)
    if entryType = 0 then
      if directoryEntryUnused entry = false then some (.error .eio)
      else findEntries component fileBlock block count (index + 1)
    else if (entryType ≠ 1 ∧ entryType ≠ 2) ∨ child ≥ sb.totalInodes ∨
        directoryNameValid name = false then some (.error .eio)
    else if directoryNameEqual name component then
      match v.readInode sb child with
      | .error _ => some (.error .eio)
      | .ok childInode =>
        if typeMatches entryType childInode.mode = false then some (.error .eio)
        else some (.ok
          ⟨child, fileBlock * 4096 + index * 64, entryType, (Entry.ofBytes entry).name⟩)
    else findEntries component fileBlock block count (index + 1)

/-- `directory_find_internal` from one block on. -/
def findBlocks (directory : Inode) (component : List UInt8) :
    Nat → Nat → Nat → Except Errno DirectoryRecord
  | 0, _, _ => .error .enoent
  | fuel + 1, remainingEntries, fileBlock =>
    if remainingEntries = 0 then .error .enoent else
    match v.inodeBlockAt sb directory fileBlock with
    | .error _ => .error .eio
    | .ok diskBlock =>
      let entries := min remainingEntries 64
      match v.findEntries sb component fileBlock (v.data diskBlock) entries 0 with
      | some result => result
      | none =>
        findBlocks directory component fuel (remainingEntries - entries) (fileBlock + 1)

/-- `directory_find_internal`. -/
def find (directory : Inode) (component : List UInt8) : Except Errno DirectoryRecord :=
  if directory.mode ≠ 2 ∨ component.length = 0 ∨ component.length > 58 then .error .einval
  else v.findBlocks sb directory component (directory.size / 64) (directory.size / 64) 0

/-- The loop of `lookup_locked`. -/
def lookupFrom : Nat → List UInt8 → Nat → Except Errno Nat
  | 0, _, current => .ok current
  | fuel + 1, rest, current =>
    if rest = [] then .ok current else
    let rest := rest.dropWhile (· = 0x2F)
    if rest = [] then .ok current else
    let component := rest.takeWhile (· ≠ 0x2F)
    if component.any (· > 0x7F) then .error .einval else
    let next := rest.drop component.length
    if component.length = 0 ∨ component.length > 58 then .error .einval else
    match v.readInode sb current with
    | .error e => .error e
    | .ok directory =>
      if directory.mode ≠ 2 then .error .enotdir
      else if component = [0x2E] then lookupFrom fuel next current
      else
        match (v.find sb directory component).map DirectoryRecord.inode with
        | .error e => .error e
        | .ok child => lookupFrom fuel next child

/-- `lookup_locked`. -/
def lookup (path : List UInt8) : Except Errno Stat :=
  match boundedPathLength path with
  | .error e => .error e
  | .ok pathLength =>
    match v.lookupFrom sb pathLength ((path.take pathLength).drop 1) sb.rootInode with
    | .error e => .error e
    | .ok current =>
      match v.readInode sb current with
      | .error e => .error e
      | .ok inode =>
        if (pathLength > 1 ∧ path.getD (pathLength - 1) 0 = 0x2F) ∧ inode.mode ≠ 2 then
          .error .enotdir
        else .ok (inode.stat current)

/-- The loop of `resolve_parent_locked`. -/
def resolveParentFrom : Nat → List UInt8 → Nat → Except Errno (Nat × Inode × List UInt8)
  | 0, _, _ => .error .einval
  | fuel + 1, rest, current =>
    if rest = [] then .error .einval else
    let rest := rest.dropWhile (· = 0x2F)
    if rest = [] then .error .einval else
    let component := rest.takeWhile (· ≠ 0x2F)
    if component.any (· > 0x7F) then .error .einval else
    if component.length = 0 ∨ component.length > 58 then .error .einval else
    let next := (rest.drop component.length).dropWhile (· = 0x2F)
    match v.readInode sb current with
    | .error e => .error e
    | .ok directory =>
      if directory.mode ≠ 2 then .error .enotdir
      else if next = [] then
        if component = [0x2E] ∨ component = [0x2E, 0x2E] then .error .einval
        else .ok (current, directory, component)
      else if component = [0x2E] then resolveParentFrom fuel next current
      else
        match (v.find sb directory component).map DirectoryRecord.inode with
        | .error e => .error e
        | .ok child => resolveParentFrom fuel next child

/-- `resolve_parent_locked`. -/
def resolveParent (path : List UInt8) : Except Errno (Nat × Inode × List UInt8) :=
  match boundedPathLength path with
  | .error e => .error e
  | .ok pathLength =>
    if pathLength ≤ 1 ∨ path.getD (pathLength - 1) 0 = 0x2F then .error .einval
    else v.resolveParentFrom sb pathLength ((path.take pathLength).drop 1) sb.rootInode

/-- The scan of `directory_append_locked`. -/
def findUnused (directory : Inode) : Nat → Nat → Except Errno Nat
  | 0, offset => .ok offset
  | fuel + 1, offset =>
    if offset ≥ directory.size then .ok offset else
    match v.inodeBlockAt sb directory (offset / 4096) with
    | .error _ => .error .eio
    | .ok diskBlock =>
      if directoryEntryUnused ((v.data diskBlock).ptr (offset % 4096)) then .ok offset
      else findUnused directory fuel (offset + 64)

/-- The loop of `directory_empty_locked`. -/
def emptyFrom (directory : Inode) : Nat → Nat → Except Errno Unit
  | 0, _ => .ok ()
  | fuel + 1, offset =>
    if offset ≥ directory.size then .ok () else
    match v.inodeBlockAt sb directory (offset / 4096) with
    | .error _ => .error .eio
    | .ok diskBlock =>
      let entry := (v.data diskBlock).ptr (offset % 4096)
      let type := (entry 4).toNat
      let name : Bytes := fun i => entry (5 + i)
      if type = 0 then
        if directoryEntryUnused entry = false then .error .eio
        else emptyFrom directory fuel (offset + 64)
      else if (type ≠ 1 ∧ type ≠ 2) ∨ directoryNameValid name = false then .error .eio
      else if directoryNameEqual name [0x2E] = false ∧
          directoryNameEqual name [0x2E, 0x2E] = false then .error .enotempty
      else emptyFrom directory fuel (offset + 64)

/-- `directory_empty_locked`. -/
def empty (directory : Inode) : Except Errno Unit :=
  if directory.mode ≠ 2 then .error .enotdir else v.emptyFrom sb directory directory.size 0

/-- The loop of `minifs_read`. -/
def readFrom (inode : Inode) (offset length : Nat) :
    Nat → List UInt8 → Except Errno (List UInt8)
  | 0, completed => .ok completed
  | fuel + 1, completed =>
    if completed.length ≥ length then .ok completed else
    let position := offset + completed.length
    let blockOffset := position % 4096
    let chunk := min (4096 - blockOffset) (length - completed.length)
    match v.inodeBlockAt sb inode (position / 4096) with
    | .error _ => .error .eio
    | .ok diskBlock => readFrom inode offset length fuel (completed ++
        (List.range chunk).map fun index => (v.data diskBlock).byte (blockOffset + index))

/-- `minifs_read` on a mounted volume. -/
def readAt (n offset length : Nat) : Except Errno (List UInt8) :=
  match v.readInode sb n with
  | .error e => .error e
  | .ok inode =>
    if inode.mode = 2 then .error .eisdir
    else if offset ≥ inode.size ∨ length = 0 then .ok []
    else v.readFrom sb inode offset (min length (inode.size - offset))
      (min length (inode.size - offset)) []

/-- The loop of `minifs_readdir`. -/
def readdirFrom (directory : Inode) : Nat → Nat → Except Errno (Option Dirent × Nat)
  | 0, cursor => .ok (none, cursor)
  | fuel + 1, cursor =>
    if cursor ≥ directory.size then .ok (none, cursor) else
    match v.inodeBlockAt sb directory (cursor / 4096) with
    | .error _ => .error .eio
    | .ok diskBlock =>
      let rawEntry := (v.data diskBlock).ptr (cursor % 4096)
      let type := (rawEntry 4).toNat
      let name : Bytes := fun i => rawEntry (5 + i)
      let childNumber := readLe32 rawEntry
      if type = 0 then
        if directoryEntryUnused rawEntry = false then .error .eio
        else readdirFrom directory fuel (cursor + 64)
      else if (type ≠ 1 ∧ type ≠ 2) ∨ directoryNameValid name = false then .error .eio
      else
        match v.readInode sb childNumber with
        | .error _ => .error .eio
        | .ok child =>
          if typeMatches type child.mode = false then .error .eio
          else .ok (some ⟨childNumber, child.mode,
            ((List.range 58).map name).takeWhile (· ≠ 0)⟩, cursor + 64)

/-- `minifs_readdir` on a mounted volume, at an offset of an entry. -/
def readdirAt (n offset : Nat) : Except Errno (Option Dirent × Nat) :=
  match v.readInode sb n with
  | .error e => .error e
  | .ok directory =>
    if directory.mode ≠ 2 then .error .enotdir
    else v.readdirFrom sb directory directory.size offset

end Vol

variable {E : Env} {v : Vol}

variable {inode directory : Inode} {P : Machine → Prop} {component : List UInt8}

/-- A block that `inode_block_at` returns is a data block. -/
theorem Vol.inodeBlockAt_valid {sb : Superblock} {k b : Nat}
    (h : v.inodeBlockAt sb inode k = .ok b) : sb.dataStart ≤ b ∧ b < sb.totalBlocks := by
  have hvalid : ∀ {c}, (if v.blockAllocated sb c then Except.ok c else .error Errno.eio) = .ok b →
      sb.dataStart ≤ b ∧ b < sb.totalBlocks := by
    intro c hc
    split at hc
    · next halloc =>
      cases hc
      exact dataBlockValid_iff.1 (Bool.and_eq_true _ _ ▸ halloc).1
    · cases hc
  unfold Vol.inodeBlockAt at h
  split at h
  · cases h
  split at h
  · exact hvalid h
  split at h
  · cases h
  split at h
  · cases h
  · exact hvalid h

/-- `inode_block_at` and the read of the block it returns: the body goes on with the block of the
volume in `io_block`. -/
theorem Reads.fileBlock {α : Type} {k : Nat} {body : Nat → Fs α} {value : Nat → α} {fault : α}
    (hbody : ∀ b, v.inodeBlockAt E.sb inode k = .ok b →
      Reads E v (fun s => s.buffers.ioBlock = v.data b) (body b) (value b) fault fun _ => True) :
    Reads E v P (do
      match ← MiniOrange.inodeBlockAt inode k with
      | .error _ => return fault
      | .ok b =>
        match ← readVolumeBlock b with
        | .error _ => return fault
        | .ok () => body b)
      (match v.inodeBlockAt E.sb inode k with
        | .error _ => fault
        | .ok b => value b) fault fun _ => True := by
  refine Reads.bind (Reads.inodeBlockAt inode k) ?_ rfl
  cases hb : v.inodeBlockAt E.sb inode k with
  | error e => exact Reads.pure
  | ok b =>
    obtain ⟨h1, h2⟩ := Vol.inodeBlockAt_valid hb
    exact Reads.bind (Reads.dataBlock h1 h2) (hbody b hb) rfl

/-- The inner loop of `directory_find_internal`. -/
theorem Reads.findEntries {fileBlock : Nat} {block : Block} :
    ∀ count index, Reads E v (fun s => s.buffers.ioBlock = block)
      (directoryFindEntries component fileBlock count index)
      (v.findEntries E.sb component fileBlock block count index) (some (.error .eio)) fun _ => True
  | 0, _ => Reads.ret
  | count + 1, index => by
    have ih : Reads E v (fun s => s.buffers.ioBlock = block)
        (directoryFindEntries component fileBlock count (index + 1))
        (v.findEntries E.sb component fileBlock block count (index + 1)) (some (.error .eio))
        fun _ => True := Reads.findEntries count (index + 1)
    refine Reads.io (Reads.ite (Reads.ite Reads.ret ih) ?_)
    refine Reads.get (fun _ _ _ _ h _ => by rw [h.superblock]) ?_
    refine Reads.ite Reads.ret (Reads.ite ?_ ih)
    refine Reads.bind (Reads.readInode _) ?_ rfl
    cases v.readInode E.sb (readLe32 (block.ptr (index * 64))) with
    | error e => exact Reads.ret
    | ok childInode => exact Reads.ite Reads.ret Reads.ret

/-- The outer loop of `directory_find_internal`. -/
theorem Reads.findBlocks :
    ∀ {P : Machine → Prop} (fuel remaining fileBlock : Nat), Reads E v P
      (directoryFindBlocks directory component fuel remaining fileBlock)
      (v.findBlocks E.sb directory component fuel remaining fileBlock) (.error .eio) fun _ => True
  | _, 0, _, _ => Reads.ret
  | _, fuel + 1, remaining, fileBlock => by
    refine Reads.ite Reads.ret (Reads.fileBlock fun b _ => ?_)
    refine Reads.bind (Reads.findEntries _ _) ?_ rfl
    dsimp only
    cases v.findEntries E.sb component fileBlock (v.data b) (min remaining 64) 0 with
    | none => exact Reads.findBlocks fuel _ _
    | some result => exact Reads.ret

/-- `directory_find_internal`. -/
theorem Reads.find (directory : Inode) (component : List UInt8) :
    Reads E v P (directoryFindInternal directory component) (v.find E.sb directory component)
      (.error .eio) fun _ => True :=
  Reads.ite Reads.ret (Reads.findBlocks _ _ _)

/-- `directory_find`. -/
theorem Reads.directoryFind (directory : Inode) (component : List UInt8) :
    Reads E v P (MiniOrange.directoryFind directory component)
      ((v.find E.sb directory component).map DirectoryRecord.inode) (.error .eio) fun _ => True :=
  Reads.bind (Reads.find directory component) Reads.ret rfl

/-- The loop of `lookup_locked`. -/
theorem Reads.lookupFrom : ∀ {P : Machine → Prop} (fuel : Nat) (rest : List UInt8) (current : Nat),
    Reads E v P (MiniOrange.lookupFrom fuel rest current) (v.lookupFrom E.sb fuel rest current)
      (.error .eio) fun _ => True
  | _, 0, _, _ => Reads.ret
  | _, fuel + 1, rest, current => by
    refine Reads.ite Reads.ret (Reads.ite Reads.ret (Reads.ite Reads.ret (Reads.ite Reads.ret ?_)))
    refine Reads.bind (Reads.readInode current) ?_ rfl
    cases v.readInode E.sb current with
    | error e => exact Reads.ret
    | ok directory =>
      refine Reads.ite Reads.ret (Reads.ite (Reads.lookupFrom fuel _ _) ?_)
      refine Reads.bind (Reads.directoryFind directory _) ?_ rfl
      cases (v.find E.sb directory _).map DirectoryRecord.inode with
      | error e => exact Reads.ret
      | ok child => exact Reads.lookupFrom fuel _ _

/-- `lookup_locked` returns what the volume's paths say. -/
theorem Reads.lookup (path : List UInt8) :
    Reads E v P (lookupLocked path) (v.lookup E.sb path) (.error .eio) fun _ => True := by
  unfold lookupLocked Vol.lookup
  refine Reads.get (fun _ _ _ _ h _ => by rw [h.superblock]) ?_
  dsimp only
  cases boundedPathLength path with
  | error e => exact Reads.ret
  | ok pathLength =>
    refine Reads.bind (Reads.lookupFrom _ _ _) ?_ rfl
    dsimp only
    cases v.lookupFrom E.sb pathLength ((path.take pathLength).drop 1) E.sb.rootInode with
    | error e => exact Reads.ret
    | ok current =>
      refine Reads.bind (Reads.readInode current) ?_ rfl
      dsimp only
      cases v.readInode E.sb current with
      | error e => exact Reads.ret
      | ok inode => exact Reads.ite Reads.ret Reads.ret

/-- The loop of `resolve_parent_locked`. -/
theorem Reads.resolveParentFrom : ∀ {P : Machine → Prop} (fuel : Nat) (rest : List UInt8)
    (current : Nat), Reads E v P (MiniOrange.resolveParentFrom fuel rest current)
      (v.resolveParentFrom E.sb fuel rest current) (.error .eio) fun _ => True
  | _, 0, _, _ => Reads.ret
  | _, fuel + 1, rest, current => by
    refine Reads.ite Reads.ret (Reads.ite Reads.ret (Reads.ite Reads.ret (Reads.ite Reads.ret ?_)))
    refine Reads.bind (Reads.readInode current) ?_ rfl
    cases v.readInode E.sb current with
    | error e => exact Reads.ret
    | ok directory =>
      refine Reads.ite Reads.ret (Reads.ite (Reads.ite Reads.ret Reads.ret) ?_)
      refine Reads.ite (Reads.resolveParentFrom fuel _ _) ?_
      refine Reads.bind (Reads.directoryFind directory _) ?_ rfl
      cases (v.find E.sb directory _).map DirectoryRecord.inode with
      | error e => exact Reads.ret
      | ok child => exact Reads.resolveParentFrom fuel _ _

/-- `resolve_parent_locked`. -/
theorem Reads.resolveParent (path : List UInt8) :
    Reads E v P (resolveParentLocked path) (v.resolveParent E.sb path) (.error .eio)
      fun _ => True := by
  unfold resolveParentLocked Vol.resolveParent
  refine Reads.get (fun _ _ _ _ h _ => by rw [h.superblock]) ?_
  dsimp only
  cases boundedPathLength path with
  | error e => exact Reads.ret
  | ok pathLength => exact Reads.ite Reads.ret (Reads.resolveParentFrom _ _ _)

/-- The scan of `directory_append_locked`. -/
theorem Reads.findUnused : ∀ {P : Machine → Prop} (fuel offset : Nat),
    Reads E v P (findUnusedEntry directory fuel offset)
      (v.findUnused E.sb directory fuel offset) (.error .eio) fun _ => True
  | _, 0, _ => Reads.ret
  | _, fuel + 1, _ =>
    Reads.ite Reads.ret (Reads.fileBlock fun _ _ =>
      Reads.io (Reads.ite Reads.ret (Reads.findUnused fuel _)))

/-- The loop of `directory_empty_locked`. -/
theorem Reads.emptyFrom : ∀ {P : Machine → Prop} (fuel offset : Nat),
    Reads E v P (directoryEmptyFrom directory fuel offset)
      (v.emptyFrom E.sb directory fuel offset) (.error .eio) fun _ => True
  | _, 0, _ => Reads.ret
  | _, fuel + 1, _ =>
    Reads.ite Reads.ret (Reads.fileBlock fun _ _ =>
      Reads.io (Reads.ite (Reads.ite Reads.ret (Reads.emptyFrom fuel _))
        (Reads.ite Reads.ret (Reads.ite Reads.ret (Reads.emptyFrom fuel _)))))

/-- `directory_empty_locked`. -/
theorem Reads.empty (directory : Inode) :
    Reads E v P (directoryEmptyLocked directory) (v.empty E.sb directory) (.error .eio)
      fun _ => True :=
  Reads.ite Reads.ret (Reads.emptyFrom _ _)

/-- The loop of `minifs_read`. -/
theorem Reads.readFrom {offset length : Nat} :
    ∀ {P : Machine → Prop} (fuel : Nat) (completed : List UInt8),
      Reads E v P (minifsReadFrom inode offset length fuel completed)
        (v.readFrom E.sb inode offset length fuel completed) (.error .eio) fun _ => True
  | _, 0, _ => Reads.ret
  | _, fuel + 1, _ =>
    Reads.ite Reads.ret (Reads.fileBlock fun _ _ => Reads.io (Reads.readFrom fuel _))

/-- The loop of `minifs_readdir`. -/
theorem Reads.readdirFrom : ∀ {P : Machine → Prop} (fuel cursor : Nat),
    Reads E v P (minifsReaddirFrom directory fuel cursor)
      (v.readdirFrom E.sb directory fuel cursor) (.error .eio) fun _ => True
  | _, 0, _ => Reads.ret
  | _, fuel + 1, cursor => by
    refine Reads.ite Reads.ret (Reads.fileBlock fun b _ => Reads.io ?_)
    refine Reads.ite (Reads.ite Reads.ret (Reads.readdirFrom fuel _)) (Reads.ite Reads.ret ?_)
    refine Reads.bind (Reads.readInode _) ?_ rfl
    cases v.readInode E.sb (readLe32 ((v.data b).ptr (cursor % 4096))) with
    | error e => exact Reads.ret
    | ok child => exact Reads.ite Reads.ret Reads.ret

end MiniOrange
