import MiniOrange.Fs.Preserve

/-!
# Runs of operations

`Op` has a constructor for each public operation of MiniFS, and `run` executes a list of them. When
no transfer fails, every operation takes a clean volume, one that is consistent and has no hard
links, to a clean volume (`Running.exec`); so does every run, by induction on the list (`Running.run`).
`minifs_mount` accepts a consistent volume and leaves it (`minifsMount_consistent`).
-/

namespace MiniOrange

namespace Vol

variable {v w : Vol} {sb : Superblock} {ℓ ℓ' : Level} {n offset size type : Nat} {source path : List UInt8}
  {α : Type} {value : Nat → α}

/-- A volume as the kernel keeps it: consistent, and without hard links. -/
structure Clean (v : Vol) (sb : Superblock) : Prop where
  consistent : v.Consistent sb
  single : v.SingleLinks sb

/-! ## What the effects keep -/

/-- A file has one link if it had one before, or is new. -/
theorem SingleLinks.of_records (h : v.SingleLinks sb)
    (hrec : ∀ n ∈ w.alloc sb, (w.ino n).mode = 1 → (w.ino n).linkCount = 1 ∨
      (n ∈ v.alloc sb ∧ (v.ino n).mode = 1 ∧ (w.ino n).linkCount = (v.ino n).linkCount)) :
    w.SingleLinks sb := by
  intro n hn hmode
  rcases hrec n hn hmode with hone | ⟨hold, hmode', hlinks⟩
  · exact hone
  · rw [hlinks, h n hold hmode']

theorem alloc_congr (h : w.imap = v.imap) : w.alloc sb = v.alloc sb := by
  unfold alloc
  rw [h]

/-- A settled write keeps a volume clean. -/
theorem Clean.settled (h : v.Clean sb) (hn : v.IsFile (v.alloc sb) n) (hset : Settled v w sb n)
    (hlinks : (w.ino n).linkCount = (v.ino n).linkCount) : w.Clean sb := by
  have hfile : (v.ino n).mode ≠ 2 := by
    rw [hn.2]
    decide
  refine ⟨h.consistent.settled hn.1 hfile hset hlinks, h.single.of_records fun m hm hmode => ?_⟩
  rw [alloc_congr hset.imap] at hm
  by_cases hmn : m = n
  · subst hmn
    exact .inr ⟨hm, hn.2, hlinks⟩
  · rw [hset.other m hmn] at hmode ⊢
    exact .inr ⟨hm, hmode, rfl⟩

/-- What `minifs_write` does when no transfer fails keeps a volume clean. -/
theorem WriteEffect.clean {r : Except Errno Nat} (h : WriteEffect sb .quiet v n offset source r ℓ' w)
    (hv : v.Clean sb) : w.Clean sb := by
  cases h with
  | refused => exact hv
  | wrote done _ hn _ _ hover => exact hv.settled hn hover.toSettled hover.links
  | full _ hn _ hover => exact hv.settled hn hover.toSettled hover.links
  | undone _ _ hs => cases hs
  | leaked _ _ _ _ _ hs => cases hs

/-- What `minifs_truncate` does keeps a volume clean. -/
theorem TruncateEffect.clean {r : Except Errno Unit} (h : TruncateEffect sb v n size r ℓ' w)
    (hv : v.Clean sb) : w.Clean sb := by
  cases h with
  | refused => exact hv
  | same => exact hv
  | cut _ hn hsize =>
    have hfile : (v.ino n).mode ≠ 2 := by
      rw [hn.2]
      decide
    have hshrunk := shrunk_truncated (hv.consistent.owns.ok n hn.1) hsize.le
    refine ⟨hv.consistent.truncated hn.1 hfile hsize.le, hv.single.of_records fun m hm hmode => ?_⟩
    rw [alloc_congr hshrunk.imap] at hm
    by_cases hmn : m = n
    · subst hmn
      rw [hshrunk.ino]
      exact .inr ⟨hm, hn.2, rfl⟩
    · rw [hshrunk.other m hmn] at hmode ⊢
      exact .inr ⟨hm, hmode, rfl⟩

/-- A volume no check can tell from a clean one is clean. -/
theorem Clean.same (h : v.Clean sb) (hsame : Same v w (v.alloc sb)) : w.Clean sb := by
  refine ⟨h.consistent.same hsame, h.single.of_records fun m hm hmode => ?_⟩
  rw [alloc_congr hsame.imap] at hm
  rw [hsame.ino] at hmode ⊢
  exact .inr ⟨hm, hmode, rfl⟩

/-- No entry has a vacant name. -/
theorem Consistent.unused (h : v.Consistent sb) {d : Nat} {name : List UInt8}
    (hvacant : v.Vacant sb d name) : ∀ i e, ¬ v.Names d i name e := by
  obtain ⟨parent, depth, htree⟩ := h.tree
  intro i e hi
  have hfind := hvacant.absent
  rw [htree.find_names h.owns hvacant.dir hvacant.label hi] at hfind
  cases hfind

/-- What `minifs_create` and `minifs_mkdir` do when no transfer fails keeps a volume clean. -/
theorem CreateEffect.clean {r : Except Errno α} (h : CreateEffect sb .quiet v path type value r ℓ' w)
    (hgeo : sb.Geometry) (hv : v.Clean sb) : w.Clean sb := by
  cases h with
  | refused => exact hv
  | named d name _ _ _ hres hvacant hmake =>
  have hd := hvacant.dir
  cases hmake with
  | undone _ _ _ hsame => exact hv.same hsame
  | leaked _ _ _ _ hs => cases hs
  | made c j F v₁ _ hc hfree hprep hent =>
    have hfresh : c ∉ v.alloc sb := notMem_alloc hfree
    have hcd : c ≠ d := fun heq => hfresh (heq ▸ hd.1)
    refine ⟨hv.consistent.made hgeo hc hfree hd hvacant.label hvacant.proper
      (hv.consistent.unused hvacant) hprep hent, hv.single.of_records fun m hm hmode => ?_⟩
    have hsolid := (hprep.solid hgeo.dataStart_pos hv.consistent.solid hfresh hc).settled
      (Finset.mem_insert_of_mem hd.1) hent.toSettled
    rw [hsolid.alloc_eq] at hm
    rcases Finset.mem_insert.1 hm with rfl | hm
    · rw [hent.other m hcd] at hmode ⊢
      exact .inl (hprep.record.2.trans (hprep.record.1.symm.trans hmode))
    · have hkept := (hprep.beside hv.consistent.owns hfresh).kept m hm
      by_cases hmd : m = d
      · subst hmd
        rw [hent.mode, hkept.ino, hd.2] at hmode
        cases hmode
      · rw [hent.other m hmd, hkept.ino] at hmode ⊢
        exact .inr ⟨hm, hmode, rfl⟩

/-- What `minifs_unlink` does keeps a volume clean. -/
theorem UnlinkEffect.clean {r : Except Errno Unit} (h : UnlinkEffect sb v path r ℓ' w)
    (hv : v.Clean sb) : w.Clean sb := by
  cases h with
  | refused => exact hv
  | removed d name j c _ hres hj hroot hempty =>
  obtain ⟨-, -, -, hread, hmode, -, hproper⟩ := resolveParent_eq_ok hres
  obtain ⟨hlt, himap, -, -⟩ := readInode_eq_ok.1 hread
  have hd : v.IsDir (v.alloc sb) d := ⟨mem_alloc.2 ⟨hlt, himap⟩, hmode⟩
  have hrel : Releasing (v.unnamed d j c) (v.unlinked d j c) c := releasing_released
  obtain ⟨parent, depth, htree⟩ := hv.consistent.tree
  refine ⟨hv.consistent.removed hd hj hproper hroot hempty (hv.single c (htree.names_mem hd hj)),
    hv.single.of_records fun m hm hmode' => ?_⟩
  have hmc : m ≠ c := by
    rintro rfl
    have hfree : (v.unlinked d j m).imap m = false := setI_self ..
    exact notMem_alloc hfree hm
  have himap' : (v.unnamed d j c).imap = v.imap := by
    rw [unnamed_eq]
    rfl
  have hm' := mem_alloc.1 hm
  rw [hrel.imap m hmc, himap'] at hm'
  rw [hrel.ino m hmc, unnamed_eq] at hmode' ⊢
  by_cases hmd : m = d
  · subst hmd
    rw [relink_ino.1, clearEntry_ino, hmode] at hmode'
    cases hmode'
  · rw [relink_of_ne hmd, clearEntry_ino] at hmode' ⊢
    exact .inr ⟨mem_alloc.2 hm', hmode', rfl⟩

end Vol

/-! ## Operations and runs -/

/-- A call of a public operation. -/
inductive Op where
  | create (path : List UInt8)
  | mkdir (path : List UInt8)
  | unlink (path : List UInt8)
  | write (inode offset : Nat) (source : List UInt8)
  | truncate (inode size : Nat)
  | lookup (path : List UInt8)
  | statInode (inode : Nat)
  | readdir (inode offset : Nat)
  | read (inode offset length : Nat)

/-- The call, with its result dropped. -/
def Op.exec : Op → Fs Unit
  | .create path => do let _ ← minifsCreate path
  | .mkdir path => do let _ ← minifsMkdir path
  | .unlink path => do let _ ← minifsUnlink path
  | .write inode offset source => do let _ ← minifsWrite inode offset source
  | .truncate inode size => do let _ ← minifsTruncate inode size
  | .lookup path => do let _ ← minifsLookup path
  | .statInode inode => do let _ ← minifsStatInode inode
  | .readdir inode offset => do let _ ← minifsReaddir inode offset
  | .read inode offset length => do let _ ← minifsRead inode offset length

/-- A sequence of calls. -/
def run : List Op → Fs Unit
  | [] => return
  | op :: ops => do
    op.exec
    run ops

/-- The machine runs on some clean volume, and no transfer to come fails. -/
def Running (E : Env) (s : Machine) : Prop :=
  ∃ v aux cmp, v.Clean E.sb ∧ On E .quiet v aux cmp s

variable {E : Env} {v : Vol} {aux cmp : Block} {s : Machine} {α : Type}

/-- A call whose effect keeps a volume clean keeps the machine running. -/
theorem Running.of_ends {m : Fs α} {P : α → Level → Vol → Prop} (h : wp m (Ends E .quiet P) s)
    (hP : ∀ r ℓ' v', P r ℓ' v' → v'.Clean E.sb) :
    wp (do let _ ← m) (fun _ s' => Running E s') s := by
  refine wp.bind h ?_
  rintro r s' ⟨ℓ', v', aux', cmp', hℓ, hr, h'⟩
  obtain rfl := hℓ.quiet
  exact ⟨v', aux', cmp', hP r _ v' hr, h'⟩

/-- A call that only reads keeps the machine running. -/
theorem Running.of_reads {m : Fs (Except Errno α)} {a : Except Errno α} (hv : v.Clean E.sb)
    (h : wp m (Ends E .quiet (ReadEffect (Ready E s) .quiet v a)) s) :
    wp (do let _ ← m) (fun _ s' => Running E s') s :=
  Running.of_ends h fun _ _ _ heffect => heffect.1 ▸ hv

/-- Every call keeps the machine running on a clean volume. -/
theorem Running.exec (h : Running E s) (hsafe : ∀ v, E.safe v) (op : Op) :
    wp op.exec (fun _ s' => Running E s') s := by
  obtain ⟨v, aux, cmp, hv, h⟩ := h
  have hsound := hv.consistent.sound
  obtain ⟨parent, depth, htree⟩ := hv.consistent.tree
  have hquiet : Level.quiet ≠ .any := nofun
  cases op with
  | create path =>
    refine Running.of_ends (On.minifsCreate hquiet hsound (fun _ _ _ _ _ => hsafe _)
      (fun _ _ _ _ _ _ _ _ _ _ _ _ => hsafe _) h path) fun r ℓ' v' heffect => ?_
    exact heffect.clean E.geometry hv
  | mkdir path =>
    refine Running.of_ends (On.minifsMkdir hquiet hsound (fun _ _ _ _ _ => hsafe _)
      (fun _ _ _ _ _ _ _ _ _ _ _ _ => hsafe _) h path) fun r ℓ' v' heffect => ?_
    exact heffect.clean E.geometry hv
  | unlink path =>
    refine Running.of_ends (h.minifsUnlink hsound htree path fun d j name c _ _ _ _ _ _ =>
      ⟨hsafe _, fun _ _ => hsafe _⟩) fun r ℓ' v' heffect => heffect.clean hv
  | write n offset source =>
    refine Running.of_ends (h.minifsWrite hquiet hsound.owns hsound.ends fun _ _ _ _ => hsafe _)
      fun r ℓ' v' heffect => heffect.clean hv
  | truncate n size =>
    refine Running.of_ends (h.minifsTruncate hsound.owns fun _ _ => ⟨fun _ => hsafe _, fun _ _ => hsafe _⟩)
      fun r ℓ' v' heffect => heffect.clean hv
  | lookup path => exact .of_reads hv (h.minifsLookup path)
  | statInode n => exact .of_reads hv (h.minifsStatInode n)
  | readdir n offset => exact .of_reads hv (h.minifsReaddir n offset)
  | read n offset length => exact .of_reads hv (h.minifsRead n offset length)

/-- Every run keeps the machine running on a clean volume. -/
theorem Running.run (hsafe : ∀ v, E.safe v) (ops : List Op) :
    ∀ {s}, Running E s → wp (MiniOrange.run ops) (fun _ s' => Running E s') s := by
  induction ops with
  | nil => exact fun h => h
  | cons op ops ih =>
    intro s h
    exact wp.bind (h.exec hsafe op) fun _ _ h' => ih h'

/-! ## Mounting -/

/-- The loop over the metadata blocks reads their marks. -/
theorem Reads.metadataMarked {P : Machine → Prop} (hmarked : ∀ b < E.sb.dataStart, v.bmap b = true) :
    ∀ count block, block + count ≤ E.sb.dataStart →
      Reads E v P (MiniOrange.metadataMarked E.sb count block) true false fun _ => True := by
  intro count
  induction count generalizing P with
  | zero => exact fun _ _ => Reads.ret
  | succ count ih =>
    intro block hle
    refine Reads.bind (Reads.bitmapBitSet E.blockBits block) ?_ rfl
    rw [Env.blockBits_get, hmarked block (by omega)]
    exact ih (block + 1) (by omega)

/-- A consistent volume passes the checks of `minifs_mount`. -/
theorem Reads.mountChecks {P : Machine → Prop} (hv : v.Consistent E.sb) :
    Reads E v P (MiniOrange.mountChecks E.sb) true false fun _ => True := by
  obtain ⟨parent, depth, htree⟩ := hv.tree
  have hmarked : ∀ b < E.sb.dataStart, v.bmap b = true := fun b hb =>
    (hv.marked b (hb.trans E.geometry.dataStart_lt)).2 (.inl hb)
  refine Reads.bind (Reads.metadataMarked hmarked _ 0 (by omega)) ?_ rfl
  refine Reads.bind (Reads.bitmapBitSet E.inodeBits E.sb.rootInode) ?_ rfl
  rw [Env.inodeBits_get, (Vol.mem_alloc.1 htree.root.1).2]
  refine Reads.bind (Reads.readInode E.sb.rootInode) ?_ rfl
  rw [hv.owns.readInode htree.root.1]
  simp only [htree.root.2, decide_true]
  exact Reads.ret

/-- The machine at boot: the volume fits the device, nothing is mounted, and the record of the
writes is empty. -/
structure Booted (s : Machine) : Prop where
  device : s.layout.startBlock + s.layout.blockCount ≤ s.deviceBlockCount
  free : s.operationBusy = false
  history : s.history = []

/-- The mounted volume of a superblock. -/
def Superblock.env (sb : Superblock) (geometry : sb.Geometry) (header : Block) (safe : Vol → Prop) : Env :=
  ⟨sb, geometry, header, true, safe⟩

/-- A block read that does not fail. -/
theorem wp_blockRead {b : Nat} {buffer : Buffer} {Q : Except Errno Unit → Machine → Prop}
    (hb : s.layout.startBlock + b < s.deviceBlockCount) (hnone : s.outcome 0 = none) :
    wp (blockRead b buffer) Q s ↔ Q (.ok ()) { s with
      buffers := s.buffers.set buffer (s.volume b), outcome := fun k => s.outcome (k + 1) } := by
  unfold blockRead
  rw [wp_bind, wp_get, if_neg (Nat.not_le.2 hb)]
  simp only [hnone, wp_bind, wp_set, wp_pure]

/-- `minifs_mount` accepts a consistent volume. -/
theorem minifsMount_consistent {sb : Superblock} (hboot : Booted s) (hquiet : ∀ k, s.outcome k = none)
    (hdecode : decodeSuperblock s.layout.blockCount (s.volume 0) = some sb)
    (hv : (Vol.ofDisk sb s.volume).Consistent sb) :
    wp minifsMount (fun r s' => r = .ok () ∧ s'.operationBusy = false ∧
      ∃ aux cmp, On (sb.env (decodeSuperblock_geometry hdecode).1 (s.volume 0) fun _ => True) .quiet
        (Vol.ofDisk sb s.volume) aux cmp s') s := by
  obtain ⟨hgeo, hblocks⟩ := decodeSuperblock_geometry hdecode
  have hdevice := hboot.device
  have hpos := hgeo.dataStart_lt
  unfold minifsMount minifsAcquire irqSaveDisable irqRestore minifsRelease
  simp only [wp_bind, wp_get, wp_set, wp_pure, wp_modify, hboot.free, Bool.false_eq_true, if_false]
  rw [if_neg (by omega), wp_bind]
  have hfirst : s.layout.startBlock + 0 < s.deviceBlockCount := by omega
  refine (wp_blockRead ?_ ?_).2 ?_
  · exact hfirst
  · exact hquiet 0
  dsimp only
  rw [wp_bind, wp_getBuffer, show ∀ x : Buffers, (x.set .ioBlock (s.volume 0)).get .ioBlock = s.volume 0
    from fun _ => rfl, hdecode]
  dsimp only
  rw [wp_bind, wp_modify]
  -- the candidate superblock is installed, and what follows reads the volume by it
  have hon : On ⟨sb, hgeo, s.volume 0, false, fun _ => True⟩ .quiet (Vol.ofDisk sb s.volume)
      s.buffers.auxiliaryBlock s.buffers.compareBuffer
      { s with
        buffers := s.buffers.set .ioBlock (s.volume 0)
        superblock := sb
        mounted := false
        operationBusy := true
        interrupts := false
        outcome := fun k => s.outcome (k + 1) } :=
    { superblock := rfl
      blockCount := hblocks.le
      device := hdevice
      mounted := rfl
      header := rfl
      volume := rfl
      auxiliary := rfl
      compare := rfl
      outcome := fun k => hquiet (k + 1)
      safe := trivial
      history := fun d hd => by
        rw [show _ = [] from hboot.history] at hd
        cases hd }
  refine wp.bind (Reads.mountChecks (P := fun _ => True) hv hon trivial) ?_
  rintro r s' (⟨rfl, h', -⟩ | ⟨-, hq, -⟩)
  · simp only [if_true, wp_bind, wp_modify, wp_pure]
    exact ⟨trivial, rfl, _, _, { h' with mounted := rfl }⟩
  · exact absurd rfl hq

end MiniOrange
