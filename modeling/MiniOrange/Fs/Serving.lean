import MiniOrange.Fs.Run

/-!
# The mounted file system

`Serving sb v s` says that the machine `s` is at rest with the volume `v` mounted, and that no transfer
fails. It is what `minifs_mount` ends in, and every public operation takes it to itself: one that reads
returns a function of `v` (`Serving.lookup` and the others), and one that writes takes `v` to a volume
its effect describes (`Serving.write` and the others).
-/

namespace MiniOrange

/-- The machine is at rest with the volume `v` mounted, and no transfer to come fails. -/
structure Serving (sb : Superblock) (v : Vol) (s : Machine) : Prop where
  superblock : s.superblock = sb
  decoded : decodeSuperblock sb.totalBlocks (s.volume 0) = some sb
  volume : Vol.ofDisk sb s.volume = v
  blockCount : sb.totalBlocks ≤ s.layout.blockCount
  device : s.layout.startBlock + s.layout.blockCount ≤ s.deviceBlockCount
  mounted : s.mounted = true
  free : s.operationBusy = false
  quiet : ∀ k, s.outcome k = none
  history : ∀ d ∈ s.history, d 0 = s.volume 0

namespace Serving

variable {sb : Superblock} {v : Vol} {s : Machine} {α : Type} {n offset length size : Nat}
  {path source : List UInt8}

theorem geometry (h : Serving sb v s) : sb.Geometry := (decodeSuperblock_geometry h.decoded).1

/-- The mounted volume, with nothing to be kept between the writes. -/
def env (h : Serving sb v s) : Env := sb.env h.geometry (s.volume 0) fun _ => True

theorem on (h : Serving sb v s) : On h.env .quiet v s.buffers.auxiliaryBlock s.buffers.compareBuffer s where
  superblock := h.superblock
  blockCount := h.blockCount
  device := h.device
  mounted := h.mounted
  header := rfl
  volume := h.volume
  auxiliary := rfl
  compare := rfl
  outcome := h.quiet
  safe := trivial
  history d hd := ⟨h.history d hd, trivial⟩

theorem ready (h : Serving sb v s) : Ready h.env s := ⟨rfl, h.free⟩

/-- The flag of the interrupts does not matter. -/
theorem setInterrupts (h : Serving sb v s) (interrupts : Bool) : Serving sb v { s with interrupts := interrupts } :=
  { h with }

/-- A call that leaves the lock free leaves the file system mounted. -/
theorem ends {m : Fs α} {P : α → Level → Vol → Prop} (h : Serving sb v s)
    (hbusy : wp m (fun _ s' => s'.operationBusy = s.operationBusy) s) (hm : wp m (Ends h.env .quiet P) s) :
    wp m (fun r s' => ∃ v', P r .quiet v' ∧ Serving sb v' s') s := by
  refine (hbusy.and hm).mono ?_
  rintro r s' ⟨hfree, ℓ', v', aux, cmp, hℓ, hP, h'⟩
  obtain rfl := hℓ.quiet
  exact ⟨v', hP,
    { superblock := h'.superblock
      decoded := by rw [h'.header]; exact h.decoded
      volume := h'.volume
      blockCount := h'.blockCount
      device := h'.device
      mounted := h'.mounted
      free := hfree.trans h.free
      quiet := h'.outcome
      history := fun d hd => (h'.history d hd).1.trans h'.header.symm }⟩

/-- A call that only reads. -/
theorem reads {m : Fs (Except Errno α)} {a : Except Errno α} (h : Serving sb v s)
    (hbusy : wp m (fun _ s' => s'.operationBusy = s.operationBusy) s)
    (hm : wp m (Ends h.env .quiet (ReadEffect (Ready h.env s) .quiet v a)) s) :
    wp m (fun r s' => r = a ∧ Serving sb v s') s := by
  refine (h.ends hbusy hm).mono ?_
  rintro r s' ⟨v', ⟨rfl, hr⟩, h'⟩
  rcases hr with rfl | ⟨hnot | hquiet, -⟩
  · exact ⟨rfl, h'⟩
  · exact absurd h.ready hnot
  · exact absurd rfl hquiet

/-- A call with a check in front of the lock leaves the lock. -/
theorem busy_ite {c : Machine → Prop} [∀ s, Decidable (c s)] {e : Errno} {unmounted : Errno}
    {body : Fs (Except Errno α)} :
    wp (do if c (← get) then return .error e else locked unmounted body)
      (fun _ s' => s'.operationBusy = s.operationBusy) s := by
  rw [wp_bind, wp_get]
  split
  · rfl
  · exact locked_busy

/-! ## The operations that read -/

variable (h : Serving sb v s)
include h

theorem lookup (path : List UInt8) :
    wp (minifsLookup path) (fun r s' => r = v.lookup sb path ∧ Serving sb v s') s :=
  h.reads locked_busy (h.on.minifsLookup path)

theorem statInode (n : Nat) :
    wp (minifsStatInode n) (fun r s' => r = (v.readInode sb n).map (·.stat n) ∧ Serving sb v s') s :=
  h.reads locked_busy (h.on.minifsStatInode n)

theorem read (n offset length : Nat) :
    wp (minifsRead n offset length) (fun r s' => r = v.readAt sb n offset length ∧ Serving sb v s') s :=
  h.reads locked_busy (h.on.minifsRead n offset length)

theorem readdir (n offset : Nat) :
    wp (minifsReaddir n offset) (fun r s' =>
      r = (if offset % 64 ≠ 0 then .error .einval else v.readdirAt sb n offset) ∧ Serving sb v s') s :=
  h.reads busy_ite (h.on.minifsReaddir n offset)

/-! ## The operations that write -/

variable (hv : v.Consistent sb)
include hv

theorem write (n offset : Nat) (source : List UInt8) :
    wp (minifsWrite n offset source) (fun r s' =>
      ∃ v', Vol.WriteEffect sb .quiet v n offset source r .quiet v' ∧ Serving sb v' s') s :=
  h.ends busy_ite (h.on.minifsWrite nofun hv.sound.owns hv.sound.ends fun _ _ _ _ => trivial)

theorem truncate (n size : Nat) :
    wp (minifsTruncate n size) (fun r s' =>
      ∃ v', Vol.TruncateEffect sb v n size r .quiet v' ∧ Serving sb v' s') s :=
  h.ends busy_ite (h.on.minifsTruncate hv.sound.owns fun _ _ => ⟨fun _ => trivial, fun _ _ => trivial⟩)

theorem create (path : List UInt8) :
    wp (minifsCreate path) (fun r s' =>
      ∃ v', Vol.CreateEffect sb .quiet v path 1 Inode.clear.stat r .quiet v' ∧ Serving sb v' s') s := by
  have hquiet : Level.quiet ≠ .any := nofun
  exact h.ends locked_busy (On.minifsCreate hquiet hv.sound (fun _ _ _ _ _ => trivial)
    (fun _ _ _ _ _ _ _ _ _ _ _ _ => trivial) h.on path)

theorem mkdir (path : List UInt8) :
    wp (minifsMkdir path) (fun r s' =>
      ∃ v', Vol.CreateEffect sb .quiet v path 2 (fun _ => ()) r .quiet v' ∧ Serving sb v' s') s := by
  have hquiet : Level.quiet ≠ .any := nofun
  exact h.ends locked_busy (On.minifsMkdir hquiet hv.sound (fun _ _ _ _ _ => trivial)
    (fun _ _ _ _ _ _ _ _ _ _ _ _ => trivial) h.on path)

theorem unlink (path : List UInt8) :
    wp (minifsUnlink path) (fun r s' =>
      ∃ v', Vol.UnlinkEffect sb v path r .quiet v' ∧ Serving sb v' s') s := by
  obtain ⟨parent, depth, htree⟩ := hv.tree
  exact h.ends locked_busy (h.on.minifsUnlink hv.sound htree path fun _ _ _ _ _ _ _ _ _ _ =>
    ⟨trivial, fun _ _ => trivial⟩)

/-- `minifs_unlink` removes a name that its path leads to, unless that is of a directory with entries. -/
theorem unlink_removes {d j c : Nat} {name : List UInt8}
    (hres : v.resolveParent sb path = .ok (d, v.ino d, name)) (hj : v.Names d j name c) (hroot : c ≠ sb.rootInode)
    (hempty : (v.ino c).mode = 2 → v.empty sb (v.ino c) = .ok ()) : (minifsUnlink path s).1 = .ok () := by
  obtain ⟨parent, depth, htree⟩ := hv.tree
  exact h.on.minifsUnlink_removes h.ready hv.sound htree hres hj hroot hempty ⟨trivial, fun _ _ => trivial⟩

end Serving

/-- `minifs_mount` of a consistent volume ends with it mounted. -/
theorem minifsMount_serving {sb : Superblock} {s : Machine} (hboot : Booted s) (hquiet : ∀ k, s.outcome k = none)
    (hdecode : decodeSuperblock s.layout.blockCount (s.volume 0) = some sb)
    (hv : (Vol.ofDisk sb s.volume).Consistent sb) :
    wp minifsMount (fun r s' => r = .ok () ∧ Serving sb (Vol.ofDisk sb s.volume) s') s := by
  obtain ⟨hgeo, hblocks⟩ := decodeSuperblock_geometry hdecode
  refine (minifsMount_consistent hboot hquiet hdecode hv).mono ?_
  rintro r s' ⟨rfl, hfree, aux, cmp, h⟩
  have hheader : s'.volume 0 = s.volume 0 := h.header
  exact ⟨rfl,
    { superblock := h.superblock
      decoded := by rw [hheader, hblocks]; exact hdecode
      volume := h.volume
      blockCount := h.blockCount
      device := h.device
      mounted := h.mounted
      free := hfree
      quiet := h.outcome
      history := fun d hd => (h.history d hd).1.trans h.header.symm }⟩

end MiniOrange
