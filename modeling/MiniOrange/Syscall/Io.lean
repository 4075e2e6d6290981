import MiniOrange.Mm.Usercopy
import MiniOrange.Vfs.FailedOpen
import MiniOrange.Vfs.Transfer

/-!
# Reading and writing by system calls

`syscall_write` and `syscall_read` move the bytes of a process through a buffer of 128 bytes, with one call of `vfs.c` for each
chunk. On a regular file this is what one call for all the bytes would do (`syscall_io`), wherever a write runs out of space.
-/

namespace MiniOrange

/-- What the two calls work on. The console has what was written to it, and the keyboard what will be typed. -/
structure Io where
  station : Station
  paging : Paging
  console : List UInt8
  keyboard : List UInt8

/-- A system call. -/
abbrev Sys := StateT Io (Except MemoryPanic)

/-- A call of `vfs.c`. -/
def onVfs {α : Type} (m : Vf α) : Sys α := fun io => .ok ((m io.station).1, { io with station := (m io.station).2 })

/-- A call of `usercopy.c`. -/
def onMm {α : Type} (m : Mem Paging α) : Sys α := fun io => do
  let (a, paging) ← m io.paging
  return (a, { io with paging := paging })

namespace Syscall

open Paging

/-- The loop over a chunk for the console. -/
def consoleWrite (bytes : List UInt8) : Sys Unit := modify fun io => { io with console := io.console ++ bytes }

/-- The wait for a key. -/
def keyboardRead : Sys UInt8 := do
  match (← get).keyboard with
  | [] => throw .endless
  | character :: keyboard =>
    modify fun io => { io with keyboard := keyboard }
    return character

/-- The bytes of the buffer that are part of a chunk. -/
def chunkOf (buffer : Option Bytes) (chunk : Nat) : Option (List UInt8) := buffer.map fun bytes => (List.range chunk).map bytes

/-- The loop of `syscall_write`. -/
def syscallWriteFrom (descriptor userBuffer length : Nat) : Nat → Nat → Option Bytes → Sys (Except Errno Nat)
  | 0, _, _ => throw .endless
  | left + 1, offset, buffer => do
    if offset < length then
      let chunk := min (length - offset) 128
      let (copied, buffer) ← onMm (copyFromUser buffer (add32 userBuffer offset) chunk)
      match copied with
      | .error _ => return .error .efault
      | .ok () =>
        let written ←
          if descriptor = 1 ∨ descriptor = 2 then do
            consoleWrite ((chunkOf buffer chunk).getD [])
            pure (.ok chunk)
          else onVfs (vfsWrite descriptor (chunkOf buffer chunk) chunk)
        match written with
        | .error e => return if offset = 0 then .error e else .ok offset
        | .ok written =>
          if written < chunk then return .ok (offset + written)
          else syscallWriteFrom descriptor userBuffer length left (offset + written) buffer
    else return .ok offset

/-- `syscall_write`, with what is in its buffer at the start. -/
def syscallWrite (buffer : Bytes) (descriptor userBuffer length : Nat) : Sys (Except Errno Nat) := do
  if descriptor = 0 ∨ descriptor ≥ 16 then return .error .ebadf
  else if length > 4096 then return .error .einval
  else if ← onMm (checkRange userBuffer length .read) then
    syscallWriteFrom descriptor userBuffer length (length + 1) 0 (some buffer)
  else return .error .efault

/-- The loop of `syscall_read`. -/
def syscallReadFrom (descriptor userBuffer length : Nat) : Nat → Nat → Sys (Except Errno Nat)
  | 0, _ => throw .endless
  | left + 1, offset => do
    if offset < length then
      let chunk := min (length - offset) 128
      match ← onVfs (vfsRead descriptor true chunk) with
      | .error e => return if offset = 0 then .error e else .ok offset
      | .ok bytes =>
        if bytes.length = 0 then return .ok offset
        else
          match ← onMm (copyToUser (add32 userBuffer offset) (some (bufferOf bytes)) bytes.length) with
          | .error _ => return if offset = 0 then .error .efault else .ok offset
          | .ok () =>
            if bytes.length < chunk then return .ok (offset + bytes.length)
            else syscallReadFrom descriptor userBuffer length left (offset + bytes.length)
    else return .ok offset

/-- `syscall_read`. -/
def syscallRead (descriptor userBuffer length : Nat) : Sys (Except Errno Nat) := do
  if descriptor = 1 ∨ descriptor = 2 ∨ descriptor ≥ 16 then return .error .ebadf
  else if length > 4096 then return .error .einval
  else if ← onMm (checkRange userBuffer length .write) then
    if length = 0 then return .ok 0
    else if descriptor = 0 then
      let character ← keyboardRead
      match ← onMm (copyToUser userBuffer (some fun _ => character) 1) with
      | .error _ => return .error .efault
      | .ok () => return .ok 1
    else syscallReadFrom descriptor userBuffer length (length + 1) 0
  else return .error .efault

end Syscall

/-! ## Rules -/

variable {α : Type} {F : MemoryPanic → Prop} {io : Io}

@[simp] theorem wpe_onVfs {m : Vf α} {Q : α → Io → Prop} :
    wpe (onVfs m) Q F io ↔ wp m (fun a station => Q a { io with station := station }) io.station := Iff.rfl

@[simp] theorem wpe_onMm {m : Mem Paging α} {Q : α → Io → Prop} :
    wpe (onMm m) Q F io ↔ wpe m (fun a paging => Q a { io with paging := paging }) F io.paging := by
  unfold wpe onMm
  cases h : m io.paging with
  | error e => exact Iff.rfl
  | ok p => exact Iff.rfl

namespace Syscall

open Paging

variable {sb : Superblock} {v v' : Vol} {descriptor userBuffer : Nat} {handle : Handle} {source : List UInt8} {done : Nat} {io₁ : Io}

/-! ## Writing -/

/-- The first `done` bytes have been written, and nothing else has changed. -/
structure WriteProgress (sb : Superblock) (v : Vol) (descriptor : Nat) (handle : Handle) (io : Io) (source : List UInt8)
    (done : Nat) (v' : Vol) (io' : Io) : Prop where
  rest : io' = { io with station := io'.station }
  wrote : v.Wrote v' sb (io.station.desk.vfs.fileTable handle).inode (io.station.desk.vfs.fileTable handle).offset source done
  desk : io'.station.desk = io.station.desk.moveTo handle ((io.station.desk.vfs.fileTable handle).offset + done)
  isOpen : FileOpen sb v' descriptor handle io'.station

/-- A chunk of the buffer of the process. -/
theorem chunkOf_eq {buffer : Bytes} {chunk : Nat} (hchunk : done + chunk ≤ source.length)
    (hsource : ∀ i < source.length, io.paging.userByte (userBuffer + i) = some (source.getD i 0))
    (hbuffer : ∀ i < chunk, io.paging.userByte (userBuffer + done + i) = some (buffer i)) :
    (List.range chunk).map buffer = (source.drop done).take chunk := by
  refine List.ext_getElem ?_ fun i hi _ => ?_
  · rw [List.length_map, List.length_range, List.length_take, List.length_drop]
    omega
  · have hi : i < chunk := by simpa using hi
    have hbyte := hbuffer i hi
    rw [Nat.add_assoc, hsource (done + i) (by omega), List.getD_eq_getElem _ _ (by omega)] at hbyte
    rw [List.getElem_map, List.getElem_range, List.getElem_take, List.getElem_drop]
    exact (Option.some.inj hbyte).symm

/-- The next chunk of a write. -/
theorem WriteProgress.chunk (h : WriteProgress sb v descriptor handle io source source.length v' io₁) (part : List UInt8)
    (hopen : FileOpen sb v descriptor handle io.station) (hwritable : (io.station.desk.vfs.fileTable handle).writable = true)
    (hmax : (io.station.desk.vfs.fileTable handle).offset + (source ++ part).length ≤ 1034 * 4096) :
    wpe (onVfs (vfsWrite descriptor (some part) part.length)) (fun r io₂ => ∃ v'' k, r = countOf part k ∧ k ≤ part.length ∧
      WriteProgress sb v descriptor handle io (source ++ part) (source.length + k) v'' io₂) F io₁ := by
  have hdesk := h.desk
  have hfile : io₁.station.desk.vfs.fileTable handle = { io.station.desk.vfs.fileTable handle with
      offset := (io.station.desk.vfs.fileTable handle).offset + source.length } := by rw [hdesk, Desk.moveTo_file]
  rw [wpe_onVfs]
  rw [List.length_append] at hmax
  refine (h.isOpen.write ?_ ?_).mono ?_
  · rw [hfile]
    exact hwritable
  · rw [hfile]
    dsimp only
    omega
  · rintro r st ⟨v'', k, rfl, hwrote, hdesk', hopen'⟩
    rw [hfile] at hwrote hdesk'
    refine ⟨v'', k, rfl, hwrote.reach.le, ?_, h.wrote.append hopen.consistent hopen.regular hwrote, ?_, hopen'⟩
    · rw [h.rest]
    · rw [hdesk', hdesk, Desk.moveTo_moveTo, Nat.add_assoc]

/-- The loop of `syscall_write` on a regular file. -/
theorem syscallWriteFrom_spec (hopen : FileOpen sb v descriptor handle io.station)
    (hwritable : (io.station.desk.vfs.fileTable handle).writable = true)
    (hmax : (io.station.desk.vfs.fileTable handle).offset + source.length ≤ 1034 * 4096) (hdescriptor : 3 ≤ descriptor)
    (hvmm : io.paging.vmmInitialized = true) (hallowed : ∀ i < source.length, io.paging.Allowed .read (userBuffer + i))
    (hsource : ∀ i < source.length, io.paging.userByte (userBuffer + i) = some (source.getD i 0)) (left : Nat) :
    ∀ done v₁ io₁ buffer, done ≤ source.length → source.length - done < left →
      WriteProgress sb v descriptor handle io (source.take done) done v₁ io₁ →
      wpe (syscallWriteFrom descriptor userBuffer source.length left done (some buffer)) (fun r io' => ∃ v' k,
        r = countOf source k ∧ WriteProgress sb v descriptor handle io source k v' io') (fun _ => False) io₁ := by
  have hbase : kernelBase = 0xC0000000 := rfl
  induction left with
  | zero => exact fun done _ _ _ _ hleft => absurd hleft (Nat.not_lt_zero _)
  | succ left ih =>
    intro done v₁ io₁ buffer hdone hleft h
    rw [syscallWriteFrom]
    rcases Nat.lt_or_ge done source.length with hlt | hge
    case inr =>
      obtain rfl : done = source.length := by omega
      rw [List.take_length] at h
      rw [if_neg (Nat.lt_irrefl _)]
      exact ⟨v₁, source.length, (countOf_length source).symm, h⟩
    rw [if_pos hlt]
    dsimp only
    generalize hchunk : min (source.length - done) 128 = chunk
    have hpaging : io₁.paging = io.paging := by rw [h.rest]
    have hlow := (hallowed done hlt).1
    rw [wpe_bind, wpe_onMm, hpaging, add32_eq (by omega)]
    refine (copyFromUser_spec hvmm buffer (userBuffer + done) chunk).mono ?_
    rintro ⟨copied, _⟩ paging ⟨rfl, buffer', rfl, hcopied⟩
    rw [if_pos fun i hi => by rw [Nat.add_assoc]; exact hallowed _ (by omega)] at hcopied
    obtain ⟨rfl, hbytes, -⟩ := hcopied
    have hpart := chunkOf_eq (by omega) hsource hbytes
    dsimp only
    rw [if_neg (by omega), show ({ io₁ with paging := io.paging } : Io) = io₁ by rw [← hpaging]]
    rw [show chunkOf (some buffer') chunk = some ((List.range chunk).map buffer') from rfl, hpart]
    have hlength : ((source.drop done).take chunk).length = chunk := by
      rw [List.length_take, List.length_drop]
      omega
    generalize hrest : (source.drop done).take chunk = part at *
    subst hlength
    have htake : (source.take done).length = done := by
      rw [List.length_take]
      omega
    have hjoin : source.take done ++ part = source.take (done + part.length) := by rw [List.take_add, hrest]
    have hwritten : WriteProgress sb v descriptor handle io (source.take done) (source.take done).length v₁ io₁ := by rwa [htake]
    refine (hwritten.chunk part hopen hwritable ?_).bind ?_
    · rw [hjoin, List.length_take]
      omega
    rintro _ io₂ ⟨v₂, k, rfl, hk, h₂⟩
    rw [htake, hjoin] at h₂
    rcases Nat.lt_or_ge k part.length with hshort | hall
    · -- there is no room for the rest of the chunk, nor for what comes behind it
      have hend : WriteProgress sb v descriptor handle io source (done + k) v₂ io₂ := by
        refine ⟨h₂.rest, ?_, h₂.desk, h₂.isOpen⟩
        have hwrote := h₂.wrote.extend (by rw [List.length_take]; omega) (source.drop (done + part.length))
        rwa [List.take_append_drop] at hwrote
      rcases Nat.eq_zero_or_pos k with rfl | hpos
      · rw [show countOf part 0 = .error .enospc from if_pos ⟨rfl, List.ne_nil_of_length_pos hshort⟩]
        refine ⟨v₂, done + 0, ?_, hend⟩
        rcases Nat.eq_zero_or_pos done with rfl | hpos
        · exact (if_pos rfl).trans (if_pos ⟨rfl, List.ne_nil_of_length_pos hlt⟩).symm
        · exact (if_neg hpos.ne').trans (countOf_pos hpos).symm
      · rw [countOf_pos hpos]
        dsimp only
        rw [if_pos hshort]
        exact ⟨v₂, done + k, (countOf_pos (by omega)).symm, hend⟩
    · obtain rfl : k = part.length := by omega
      rw [countOf_length]
      dsimp only
      rw [if_neg (Nat.lt_irrefl _)]
      exact ih (done + part.length) v₂ io₂ buffer' (by omega) (by omega) h₂

/-- `syscall_write` on a regular file. -/
theorem syscallWrite_spec (buffer : Bytes) (hopen : FileOpen sb v descriptor handle io.station)
    (hwritable : (io.station.desk.vfs.fileTable handle).writable = true) (hle : source.length ≤ 4096)
    (hmax : (io.station.desk.vfs.fileTable handle).offset + source.length ≤ 1034 * 4096)
    (hvmm : io.paging.vmmInitialized = true) (hallowed : ∀ i < source.length, io.paging.Allowed .read (userBuffer + i))
    (hsource : ∀ i < source.length, io.paging.userByte (userBuffer + i) = some (source.getD i 0)) :
    wpe (syscallWrite buffer descriptor userBuffer source.length) (fun r io' => ∃ v' k,
      r = countOf source k ∧ WriteProgress sb v descriptor handle io source k v' io') (fun _ => False) io := by
  have hdescriptor := hopen.descriptor_bounds
  obtain ⟨b, hb, hiff⟩ := validateUserRange_eq hvmm userBuffer source.length .read
  obtain rfl := hiff.2 hallowed
  unfold syscallWrite
  rw [if_neg (by omega), if_neg (by omega), wpe_bind, wpe_onMm, wpe_of_eq_ok (checkRange_eq hb), if_pos rfl]
  refine syscallWriteFrom_spec hopen hwritable hmax (by omega) hvmm hallowed hsource _ 0 v io buffer (Nat.zero_le _) (by omega) ?_
  refine ⟨rfl, ?_, ?_, hopen⟩
  · rw [List.take_zero]
    exact .nil hopen.consistent hopen.regular hopen.offset_le
  · exact (Desk.moveTo_self _ _).symm

/-! ## Reading -/

/-- The first `done` bytes have been read into the buffer of the process, and nothing else has changed. -/
structure ReadProgress (sb : Superblock) (v : Vol) (descriptor : Nat) (handle : Handle) (io : Io) (userBuffer : Nat)
    (bytes : List UInt8) (done : Nat) (io' : Io) : Prop where
  rest : io' = { io with station := io'.station, paging := io'.paging }
  written : Written io.paging io'.paging userBuffer (bufferOf bytes) done
  desk : io'.station.desk = io.station.desk.moveTo handle ((io.station.desk.vfs.fileTable handle).offset + done)
  isOpen : FileOpen sb v descriptor handle io'.station

/-- A chunk of a stretch of the content. -/
theorem chunk_content (content : List UInt8) (offset length done chunk : Nat) (hchunk : done + chunk ≤ length) :
    (content.drop (offset + done)).take chunk = (((content.drop offset).take length).drop done).take chunk := by
  rw [List.drop_take, List.drop_drop, List.take_take, Nat.min_eq_left (by omega)]

/-- The loop of `syscall_read` on a regular file. -/
theorem syscallReadFrom_spec {bytes : List UInt8} {length : Nat}
    (hreadable : (io.station.desk.vfs.fileTable handle).readable = true) (hle : length ≤ 4096)
    (hmax : (io.station.desk.vfs.fileTable handle).offset + length ≤ 1034 * 4096) (hvmm : io.paging.vmmInitialized = true)
    (hallowed : ∀ i < length, io.paging.Allowed .write (userBuffer + i)) (hfence : Fenced io.paging userBuffer length)
    (hbytes : bytes = ((v.content (io.station.desk.vfs.fileTable handle).inode).drop
      (io.station.desk.vfs.fileTable handle).offset).take length) (left : Nat) :
    ∀ done io₁, done ≤ bytes.length → length - done < left →
      ReadProgress sb v descriptor handle io userBuffer bytes done io₁ →
      wpe (syscallReadFrom descriptor userBuffer length left done) (fun r io' =>
        r = .ok bytes.length ∧ ReadProgress sb v descriptor handle io userBuffer bytes bytes.length io') (fun _ => False) io₁ := by
  have hbase : kernelBase = 0xC0000000 := rfl
  have hlength : bytes.length ≤ length := by
    rw [hbytes]
    exact List.length_take_le _ _
  induction left with
  | zero => exact fun _ _ _ hleft => absurd hleft (Nat.not_lt_zero _)
  | succ left ih =>
    intro done io₁ hdone hleft h
    rw [syscallReadFrom]
    rcases Nat.lt_or_ge done length with hlt | hge
    case inr =>
      obtain rfl : done = bytes.length := by omega
      rw [if_neg (Nat.not_lt.2 hge)]
      exact ⟨rfl, h⟩
    rw [if_pos hlt]
    dsimp only
    generalize hchunk : min (length - done) 128 = chunk
    have hfile : io₁.station.desk.vfs.fileTable handle = { io.station.desk.vfs.fileTable handle with
        offset := (io.station.desk.vfs.fileTable handle).offset + done } := by rw [h.desk, Desk.moveTo_file]
    rw [wpe_bind, wpe_onVfs]
    refine (h.isOpen.read ?_ chunk ?_).mono ?_
    · rw [hfile]
      exact hreadable
    · rw [hfile]
      dsimp only
      omega
    rintro _ st ⟨part, rfl, hpart, hdesk, hopen'⟩
    rw [hfile] at hpart hdesk
    rw [h.desk, Desk.moveTo_moveTo, Nat.add_assoc] at hdesk
    rw [chunk_content _ _ length done chunk (by omega), ← hbytes] at hpart
    have hcount : part.length = min chunk (bytes.length - done) := by rw [hpart, List.length_take, List.length_drop]
    dsimp only
    rcases Nat.eq_zero_or_pos part.length with hzero | hpos
    · -- the end of the file
      rw [if_pos hzero]
      obtain rfl : done = bytes.length := by omega
      refine ⟨rfl, ?_, h.written, ?_, hopen'⟩
      · rw [h.rest]
      · rw [hdesk, hzero, Nat.add_zero]
    rw [if_neg hpos.ne']
    have hlow := (hallowed done hlt).1
    have hsame : ∀ i < part.length, bufferOf part i = bufferOf bytes (done + i) := by
      intro i hi
      unfold bufferOf
      rw [List.getD_eq_getElem _ _ hi, List.getD_eq_getElem _ _ (by omega)]
      simp only [hpart, List.getElem_take, List.getElem_drop]
    rw [wpe_bind, wpe_onMm, add32_eq (by omega)]
    refine (copyToUser_next h.written hvmm hfence (distinct_of_length_le hle) hallowed (by omega) hsame).mono ?_
    rintro _ paging ⟨rfl, hwritten⟩
    have hnext : ReadProgress sb v descriptor handle io userBuffer bytes (done + part.length)
        { io₁ with station := st, paging := paging } := by
      refine ⟨?_, hwritten, hdesk, hopen'⟩
      rw [h.rest]
    dsimp only
    rcases Nat.lt_or_ge part.length chunk with hshort | hall
    · rw [if_pos hshort]
      have hend : done + part.length = bytes.length := by omega
      rw [hend] at hnext ⊢
      exact ⟨rfl, hnext⟩
    · rw [if_neg (Nat.not_lt.2 hall)]
      exact ih (done + part.length) _ (by omega) (by omega) hnext

/-- `syscall_read` on a regular file. -/
theorem syscallRead_spec {length : Nat} (hopen : FileOpen sb v descriptor handle io.station)
    (hreadable : (io.station.desk.vfs.fileTable handle).readable = true) (hle : length ≤ 4096)
    (hmax : (io.station.desk.vfs.fileTable handle).offset + length ≤ 1034 * 4096) (hvmm : io.paging.vmmInitialized = true)
    (hallowed : ∀ i < length, io.paging.Allowed .write (userBuffer + i)) (hfence : Fenced io.paging userBuffer length)
    {bytes : List UInt8} (hbytes : bytes = ((v.content (io.station.desk.vfs.fileTable handle).inode).drop
      (io.station.desk.vfs.fileTable handle).offset).take length) :
    wpe (syscallRead descriptor userBuffer length) (fun r io' =>
      r = .ok bytes.length ∧ ReadProgress sb v descriptor handle io userBuffer bytes bytes.length io') (fun _ => False) io := by
  have hdescriptor := hopen.descriptor_bounds
  have hstart : ReadProgress sb v descriptor handle io userBuffer bytes 0 io :=
    ⟨rfl, written_zero _ _ _, (Desk.moveTo_self _ _).symm, hopen⟩
  obtain ⟨b, hb, hiff⟩ := validateUserRange_eq hvmm userBuffer length .write
  obtain rfl := hiff.2 hallowed
  unfold syscallRead
  rw [if_neg (by omega), if_neg (by omega), wpe_bind, wpe_onMm, wpe_of_eq_ok (checkRange_eq hb), if_pos rfl]
  split
  · next hzero =>
    subst hzero
    obtain rfl : bytes = [] := by rw [hbytes, List.take_zero]
    exact ⟨rfl, hstart⟩
  · rw [if_neg (by omega)]
    exact syscallReadFrom_spec hreadable hle hmax hvmm hallowed hfence hbytes _ 0 io (Nat.zero_le _) (by omega) hstart

/-- The two calls do on a regular file what one call of `vfs.c` with all the bytes does. -/
theorem syscall_io (userBuffer length : Nat) (hopen : FileOpen sb v descriptor handle io.station) (hle : length ≤ 4096)
    (hmax : (io.station.desk.vfs.fileTable handle).offset + length ≤ 1034 * 4096) (hvmm : io.paging.vmmInitialized = true) :
    ((io.station.desk.vfs.fileTable handle).writable = true → (∀ i < length, io.paging.Allowed .read (userBuffer + i)) →
      ∀ buffer, ∃ source : List UInt8, source.length = length ∧
        (∀ i < length, io.paging.userByte (userBuffer + i) = some (source.getD i 0)) ∧
        ∃ r io' v' st w, syscallWrite buffer descriptor userBuffer length io = .ok (r, io') ∧
          vfsWrite descriptor (some source) length io.station = (r, st) ∧
          FileOpen sb v' descriptor handle io'.station ∧ FileOpen sb w descriptor handle st ∧ io'.station.desk = st.desk ∧
          v'.content (io.station.desk.vfs.fileTable handle).inode = w.content (io.station.desk.vfs.fileTable handle).inode ∧
          (v'.ino (io.station.desk.vfs.fileTable handle).inode).size = (w.ino (io.station.desk.vfs.fileTable handle).inode).size ∧
          io' = { io with station := io'.station }) ∧
    ((io.station.desk.vfs.fileTable handle).readable = true → (∀ i < length, io.paging.Allowed .write (userBuffer + i)) →
      Fenced io.paging userBuffer length →
      ∃ bytes io' st, syscallRead descriptor userBuffer length io = .ok (.ok bytes.length, io') ∧
        vfsRead descriptor true length io.station = (.ok bytes, st) ∧
        FileOpen sb v descriptor handle io'.station ∧ FileOpen sb v descriptor handle st ∧ io'.station.desk = st.desk ∧
        (∀ i < bytes.length, io'.paging.userByte (userBuffer + i) = some (bytes.getD i 0)) ∧
        (∀ p, (∀ i < bytes.length, io.paging.userTranslate false (userBuffer + i) ≠ some p) →
          io'.paging.memory p = io.paging.memory p) ∧
        io' = { io with station := io'.station, paging := { io.paging with memory := io'.paging.memory } }) := by
  refine ⟨fun hwritable hallowed buffer => ?_, fun hreadable hallowed hfence => ?_⟩
  · have hlength : ((List.range length).map fun i => (io.paging.userByte (userBuffer + i)).getD 0).length = length := by simp
    have hsource : ∀ i < length, io.paging.userByte (userBuffer + i) =
        some (((List.range length).map fun i => (io.paging.userByte (userBuffer + i)).getD 0).getD i 0) := by
      intro i hi
      obtain ⟨b, hb⟩ := exists_userByte (hallowed i hi)
      rw [List.getD_eq_getElem _ _ (by omega), List.getElem_map, List.getElem_range, hb]
      rfl
    generalize ((List.range length).map fun i => (io.paging.userByte (userBuffer + i)).getD 0) = source at hlength hsource
    subst hlength
    obtain ⟨_, io', hcall, v', k, rfl, h⟩ := (syscallWrite_spec buffer hopen hwritable hle hmax hvmm hallowed hsource).exists_ok
    obtain ⟨w, k', hr, hwrote, hdesk, hopen'⟩ := hopen.write hwritable hmax
    obtain ⟨rfl, hcontent, hsize⟩ := h.wrote.unique hwrote hopen.offset_le
    exact ⟨source, rfl, hsource, _, io', v', _, w, hcall, Prod.ext hr rfl, h.isOpen, hopen', h.desk.trans hdesk.symm, hcontent, hsize,
      h.rest⟩
  · obtain ⟨bytes, hr, hbytes, hdesk, hopen'⟩ := hopen.read hreadable length hmax
    obtain ⟨_, io', hcall, rfl, h⟩ := (syscallRead_spec hopen hreadable hle hmax hvmm hallowed hfence hbytes).exists_ok
    have hlength : bytes.length ≤ length := by
      rw [hbytes]
      exact List.length_take_le _ _
    refine ⟨bytes, io', _, hcall, Prod.ext hr rfl, h.isOpen, hopen', h.desk.trans hdesk.symm, fun i hi => ?_, h.written.outside, ?_⟩
    · exact h.written.userByte_inside hfence hlength hi (hallowed i (by omega))
    · rw [← h.written.rest]
      exact h.rest

/-- A process with two pages has opened a file for reading and writing. -/
def opened (status : Stat) (s : Machine) : Io where
  station :=
    { desk :=
        { fdTable := Function.update (fun _ => none) 3 (some 0)
          vfs := { vfsInit with fileTable := Function.update (fun _ => clearFile) 0 (openedFile status 2) } }
      fs := s }
  paging := twoPages 0x3007 0x4007
  console := []
  keyboard := []

/-- The process writes two bytes to the file `/bin/a`, or reads two from it. -/
theorem syscall_io_opened : ∃ io : Io,
    (∃ source r io' st, source.length = 2 ∧ syscallWrite (fun _ => 0) 3 0x1FFF 2 io = .ok (r, io') ∧
      vfsWrite 3 (some source) 2 io.station = (r, st) ∧ io'.station.desk = st.desk) ∧
    ∃ bytes io' st, syscallRead 3 0x1FFF 2 io = .ok (.ok bytes.length, io') ∧ vfsRead 3 true 2 io.station = (.ok bytes, st) ∧
      io'.station.desk = st.desk := by
  obtain ⟨sb, v, s, status, hs, hv, hlookup, hmode, -, -⟩ := exists_bin_a
  obtain ⟨hmem, hsame, hsize⟩ := hv.consistent.lookup_ok hlookup
  have hmax : ((opened status s).station.desk.vfs.fileTable 0).offset + 2 ≤ 1034 * 4096 := show 0 + 2 ≤ 1034 * 4096 by decide
  have hwritable : ((opened status s).station.desk.vfs.fileTable 0).writable = true := show (accessOf 2 != 0) = true by decide
  have hreadable : ((opened status s).station.desk.vfs.fileTable 0).readable = true := show (accessOf 2 != 1) = true by decide
  have hopen : FileOpen sb v (3 : Nat) 0 (opened status s).station := by
    refine ⟨rfl, rfl, rfl, ?_, hs, hv.consistent, ⟨hmem, hsame.symm.trans hmode⟩, Nat.zero_le _⟩
    show status.mode ≠ 2
    omega
  have hread : ∀ i < 2, (twoPages 0x3007 0x4007).Allowed .read (0x1FFF + i) := by decide +kernel
  have hwrite : ∀ i < 2, (twoPages 0x3007 0x4007).Allowed .write (0x1FFF + i) := by decide +kernel
  obtain ⟨hwrites, hreads⟩ := syscall_io 0x1FFF 2 hopen (by decide) hmax rfl
  obtain ⟨source, hlength, -, r, io', -, st, -, hcall, hvfs, -, -, hdesk, -⟩ := hwrites hwritable hread fun _ => 0
  obtain ⟨bytes, io'', st', hcall', hvfs', -, -, hdesk', -⟩ :=
    hreads hreadable hwrite (separate_twoPages.fenced hwrite)
  exact ⟨opened status s, ⟨source, r, io', st, hlength, hcall, hvfs, hdesk⟩, bytes, io'', st', hcall', hvfs', hdesk'⟩

end Syscall

end MiniOrange
