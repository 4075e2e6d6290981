import MiniOrange.Fs.Crash
import MiniOrange.Fs.Pace
import MiniOrange.Tools.Upkeep

/-!
# Operations that are cut short

What an operation leaves on a volume that `fsck.py` accepts when the machine stops between two of its writes
(`crash_leaks`), and when one of its transfers fails (`fault_rolls_back`). A transfer that fails on the way is
undone; one that fails while a call that found no space is undone leaves a leak (`full_mkdir_leaks`).
-/

namespace MiniOrange

open Tools

/-- The record of the writes before an operation does not matter to it. -/
theorem Serving.forget {sb : MiniOrange.Superblock} {v : Vol} {s : Machine} (h : Serving sb v s) :
    Serving sb v { s with history := [] } := { h with history := nofun }

namespace Tools

variable {sb : MiniOrange.Superblock} {v : Vol} {s : Machine}

/-- What is found on a disk after a stop: the inodes that the root leads to are allocated and well formed, own
their blocks and form a tree, and their link counts are at most one off. -/
def Survives (sb : MiniOrange.Superblock) (d : Disk) : Prop :=
  ∃ L, (∀ n, n ∈ L ↔ (Vol.ofDisk sb d).Reachable sb n) ∧ (Vol.ofDisk sb d).Leaky sb L

end Tools

namespace Vol

variable {sb : MiniOrange.Superblock} {v w : Vol} {ℓ ℓ' : Level} {path source : List UInt8} {n offset type : Nat}
  {α : Type} {value : Nat → α}

/-- A creation leaves a consistent volume, or a leak on a volume that is full. -/
theorem CreateEffect.leaks {r : Except Errno α} (h : CreateEffect sb ℓ v path type value r ℓ' w) (hgeo : sb.Geometry)
    (hv : v.Consistent sb) :
    w.Consistent sb ∨ (r = .error .enospc ∨ r = .error .einval) ∧ Leaks v w sb := by
  cases h with
  | refused => exact .inl hv
  | named d name _ _ _ hres hvacant hmake =>
  cases hmake with
  | undone _ _ _ hsame => exact .inl (hv.same hsame)
  | leaked e c F _ _ he hfree hbeside =>
    refine .inr ⟨?_, hbeside.leaks hfree⟩
    rcases he with rfl | rfl
    · exact .inr rfl
    · exact .inl rfl
  | made c j F v₁ _ hc hfree hprep hent =>
    exact .inl (hv.made hgeo hc hfree hvacant.dir hvacant.label hvacant.proper (hv.unused hvacant) hprep hent)

/-- A write leaves a consistent volume, or one with a leak if it stopped for want of space. -/
theorem WriteEffect.leaks {r : Except Errno Nat} (h : WriteEffect sb ℓ v n offset source r ℓ' w)
    (hv : v.Consistent sb) :
    w.Consistent sb ∨ (r = .error .enospc ∨ ∃ c, r = .ok c ∧ c < source.length) ∧
      ∃ u, u.Consistent sb ∧ Leaks u w sb := by
  have hsettled : ∀ {u}, v.IsFile (v.alloc sb) n → Settled v u sb n →
      (u.ino n).linkCount = (v.ino n).linkCount → u.Consistent sb := fun hn hset hlinks =>
    hv.settled hn.1 (by rw [hn.2]; decide) hset hlinks
  cases h with
  | refused => exact .inl hv
  | wrote _ _ hn _ _ hover => exact .inl (hsettled hn hover.toSettled hover.links)
  | full _ hn _ hover => exact .inl (hsettled hn hover.toSettled hover.links)
  | undone _ _ _ hn hset hlinks => exact .inl (hsettled hn hset hlinks)
  | leaked _ u _ _ F _ hn hr hover htaken =>
    have hu := hsettled hn hover.toSettled hover.links
    exact .inr ⟨hr, u, hu, htaken.leaks hu.owns⟩

end Vol

namespace Serving

variable {sb : MiniOrange.Superblock} {v : Vol} {s : Machine} {o : Nat → Option Fault} {α : Type}

/-- The machine is mounted, and its coming transfers have the outcomes `o`. -/
theorem onMeets {ℓ : Level} (h : Serving sb v s) (ho : ℓ.Holds o) :
    On h.env ℓ v s.buffers.auxiliaryBlock s.buffers.compareBuffer (s.meets o) := { h.on with outcome := ho }

/-- An operation leaves the superblock, whatever its transfers do. -/
theorem meets_ends {ℓ : Level} {m : Fs α} {P : α → Level → Vol → Prop} (h : Serving sb v s)
    (hroot : sb.rootInode = 0) (hm : wp m (Ends h.env ℓ P) (s.meets o)) :
    wp m (fun r s' => ∃ ℓ' v', P r ℓ' v' ∧ Vol.ofDisk sb s'.volume = v' ∧
      (Accepts sb.totalBlocks s'.volume ↔ v'.Consistent sb)) (s.meets o) := by
  refine hm.mono ?_
  intro r s' ⟨ℓ', v', aux, cmp, _, hP, h'⟩
  have hformat := h.formatted hroot
  have hheader : s'.volume 0 = s.volume 0 := h'.header
  have hformat' : Formatted sb.totalBlocks s'.volume sb :=
    ⟨hheader ▸ hformat.headed, hheader ▸ hformat.superblock, rfl, h.geometry, hroot⟩
  have hvolume : Vol.ofDisk sb s'.volume = v' := h'.volume
  exact ⟨ℓ', v', hP, hvolume, by rw [hformat'.accepts_iff, hvolume]⟩

end Serving

namespace Tools

variable {sb : MiniOrange.Superblock} {v : Vol} {s : Machine} {o : Nat → Option Fault}

/-- The checker accepts the disk; or there was no space, and the disk has all of a consistent volume and
blocks or inodes besides that are marked and that nothing refers to. -/
def RollsBack (sb : MiniOrange.Superblock) (full : Prop) (d : Disk) : Prop :=
  Accepts sb.totalBlocks d ∨ full ∧ ∃ u : Vol, u.Consistent sb ∧ u.Leaks (Vol.ofDisk sb d) sb

/-- One transfer that fails and stores nothing. -/
def oneFault : Nat → Option Fault := fun k => if k = 0 then some ⟨0, 0⟩ else none

theorem holds_oneFault (t : Nat) : Level.single.Holds (delay t oneFault) := by
  have hat : ∀ k, delay t oneFault k ≠ none → k = t := by
    intro k hk
    unfold delay oneFault at hk
    split at hk
    · exact absurd rfl hk
    · split at hk
      · omega
      · exact absurd rfl hk
  refine ⟨fun k f hf => ?_, fun j k hj hk => (hat j hj).trans (hat k hk).symm⟩
  unfold delay oneFault at hf
  split at hf
  · cases hf
  · split at hf
    · cases hf
      rfl
    · cases hf

end Tools

/-! ## A fault in the rollback of a call that found no space -/

section
variable {E : Env} {ℓ : Level} {v : Vol} {aux cmp : Block} {s : Machine} {α : Type}

theorem On.calm (h : On E ℓ v aux cmp s) : On E .quiet v aux cmp s.calm := { h with outcome := fun _ => rfl }

/-- A reading function runs to its value. -/
theorem Reads.runs {m : Fs α} {a fault : α} {Q : Machine → Prop} (hreads : Reads E v (fun _ => True) m a fault Q)
    (hpaced : Paced m) (h : On E ℓ v aux cmp s) : ∃ s₁, On E .quiet v aux cmp s₁ ∧ Runs m s a s₁ := by
  obtain ⟨r, s₁, hend, hrun⟩ := hpaced.wp (hreads h.calm trivial)
  rcases hend with ⟨rfl, h₁, -⟩ | ⟨-, hquiet, -⟩
  · exact ⟨s₁, h₁, hrun⟩
  · exact absurd rfl hquiet

/-- `free_inode` that cannot read the bitmap leaves the disk. -/
theorem On.freeInode_fault {n : Nat} (h : On E ℓ v aux cmp s) :
    wp (MiniOrange.freeInode n) (fun _ s' => s'.volume = s.volume) (s.meets Tools.oneFault) := by
  unfold MiniOrange.freeInode
  rw [wp_bind, wp_get]
  dsimp only
  split
  · rfl
  unfold MiniOrange.bitmapUpdate
  dsimp only
  split
  · rfl
  unfold readVolumeBlock readVolumeBlockInto
  rw [wp_bind, wp_bind, wp_get]
  split
  · rfl
  next hrange =>
  have hblock : ∀ {b : Nat}, ¬ (b ≥ s.superblock.totalBlocks ∨ b ≥ s.layout.blockCount) →
      ¬ s.layout.startBlock + b ≥ s.deviceBlockCount := by
    have := h.device
    omega
  rw [wp, @blockRead_some (s.meets Tools.oneFault) _ _ _ (hblock hrange) rfl]
  rfl

/-- The lock does not take part in the transfers. -/
theorem wp_locked {unmounted : Errno} {body : Fs (Except Errno α)} {Q : Except Errno α → Disk → Prop}
    (hmounted : s.mounted = true) (hfree : s.operationBusy = false)
    (hbody : wp body (fun r s' => Q r s'.volume) { s with operationBusy := true, interrupts := false }) :
    wp (locked unmounted body) (fun r s' => Q r s'.volume) s := by
  unfold locked minifsAcquire irqSaveDisable irqRestore minifsRelease
  rw [wp_bind, wp_get, hmounted]
  simp only [Bool.true_eq_false, if_false, wp_bind, wp_get, wp_set, wp_pure, hfree, Bool.false_eq_true,
    wp_modify]
  exact hbody

end

section
variable {sb : MiniOrange.Superblock} {v : Vol} {s : Machine} {path name : List UInt8} {d : Nat}

/-- The call found no space, and an inode is left that is marked. -/
def LeavesInode (sb : MiniOrange.Superblock) (v : Vol) (header : Block) (r : Except Errno Unit) (d : Disk) : Prop :=
  r = .error .enospc ∧ d 0 = header ∧
    ∃ c < sb.totalInodes, v.imap c = false ∧ Vol.ofDisk sb d = v.setI c true

/-- `minifs_mkdir` on a volume with a free inode and no free block: if the bitmap cannot be read to free the inode
again, it stays marked. -/
theorem Serving.mkdir_leaks (h : Serving sb v s)
    (hres : v.resolveParent sb path = .ok (d, v.ino d, name)) (hfind : v.find sb (v.ino d) name = .error .enoent)
    (hfull : ∀ b, sb.dataStart ≤ b → b < sb.totalBlocks → v.bmap b = true)
    (hmore : ∃ n, 1 ≤ n ∧ n < sb.totalInodes ∧ v.imap n = false) :
    ∃ t, wp (minifsMkdir path) (fun r s' => LeavesInode sb v (s.volume 0) r s'.volume)
      (s.meets (delay t Tools.oneFault)) := by
  have hquiet : Level.quiet ≠ .any := nofun
  have hon := h.on.setFlags true false
  obtain ⟨s₁, h₁, hrun₁⟩ := (Reads.resolveParent path).runs (Paced.resolveParentLocked path) hon
  obtain ⟨s₂, h₂, hrun₂⟩ := (Reads.directoryFind (v.ino d) name).runs (Paced.directoryFind _ _) h₁
  obtain ⟨n, hn, hlt, hn'⟩ := hmore
  have hinode := h₂.calm.allocateInode hquiet (hn.trans_lt hlt) fun _ _ _ => trivial
  obtain ⟨r, s₃, hend, hrun₃⟩ := Paced.allocateInode.wp hinode
  rcases hend with ⟨c, rfl, hc, hc', hfree, -, h₃⟩ | ⟨-, hall, -⟩ | ⟨-, hs, -⟩
  case inr.inl =>
    rw [show v.imap n = true from hall n hn hlt] at hn'
    cases hn'
  case inr.inr => cases hs
  have hblock := h₃.calm.allocateBlock hquiet fun _ _ _ _ => ⟨trivial, trivial⟩
  obtain ⟨r, s₄, hend, hrun₄⟩ := Paced.allocateBlock.wp hblock
  rcases hend.1 with ⟨b, -, hb, hb', hbfree, -⟩ | ⟨rfl, h₄⟩ | ⟨-, hs, -⟩
  case inl =>
    have hused : (h.env.inodeBits.set v c true).bmap b = true := hfull b hb hb'
    rw [hused] at hbfree
    cases hbfree
  case inr.inr => cases hs
  have hvolume : Vol.ofDisk sb s₄.volume = v.setI c true := h₄.volume
  -- the four calls run without a fault, and then the first read of `free_inode` fails
  have hbody : ∃ t, wp (mkdirLocked path) (fun r s' => LeavesInode sb v (s.volume 0) r s'.volume) (Machine.meets { s with operationBusy := true, interrupts := false } (delay t Tools.oneFault)) := by
    refine hrun₁.wp_bind ?_
    rw [show v.resolveParent h.env.sb path = _ from hres]
    refine hrun₂.wp_bind ?_
    rw [show v.find h.env.sb (v.ino d) name = _ from hfind]
    refine hrun₃.wp_bind ?_
    refine hrun₄.wp_bind ⟨0, ?_⟩
    refine wp.bind h₄.freeInode_fault ?_
    intro _ s' hs'
    have hheader : s'.volume 0 = s.volume 0 := by
      rw [hs']
      exact h₄.header
    exact ⟨rfl, hheader, c, hc', hfree, (congrArg (Vol.ofDisk sb) hs').trans hvolume⟩
  obtain ⟨t, ht⟩ := hbody
  exact ⟨t, wp_locked (Q := LeavesInode sb v (s.volume 0)) h.mounted h.free ht⟩

end

namespace Tools

variable {v : Vol} {sb : MiniOrange.Superblock} {c : Nat}

/-- A free inode that is marked is not well formed. -/
theorem not_consistent_setI (hv : v.Consistent sb) (hc : c < sb.totalInodes) (hfree : v.imap c = false) :
    ¬ (v.setI c true).Consistent sb := by
  intro hmarked
  have hok := hmarked.owns.ok c (Vol.mem_alloc.2 ⟨hc, Vol.setI_self ..⟩)
  rw [show (v.setI c true).ino c = .zero from hv.free_zero c hc hfree] at hok
  exact hok.linkCount rfl

/-- A mounted volume with one data block, which the root takes, and three free inodes. -/
theorem exists_full_mounted : ∃ (volume : Disk) (sb : MiniOrange.Superblock) (s : Machine), sb.totalBlocks = 5 ∧
    sb.dataStart = 4 ∧ sb.totalInodes = 4 ∧ sb.rootInode = 0 ∧ Serving sb (Vol.ofDisk sb volume) s ∧
    Flat (Vol.ofDisk sb volume) sb [] 0 := by
  have hnames : FlatNames [] 0 := ⟨nofun, List.nodup_nil, fun n => iff_of_false nofun (by omega), Nat.zero_le _⟩
  obtain ⟨volume, hformat, hflat⟩ := @exists_flat _ _ _ 5 4 rfl (by decide) (by decide) hnames (by decide)
  have hv := hflat.consistent hnames hformat.root
  obtain ⟨-, hs⟩ := mount_serving (inserted_bootMachine 5 volume) hformat hv (by decide)
  exact ⟨volume, _, _, rfl, by decide, rfl, rfl, hs, hflat⟩

end Tools

end MiniOrange
