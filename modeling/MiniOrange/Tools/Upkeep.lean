import MiniOrange.Fs.Resolve
import MiniOrange.Tools.Agreement

/-!
# What the kernel leaves passes `fsck.py`

The checker accepts the disk of a mounted machine exactly when its volume is consistent
(`Serving.accepts_iff`). So whatever is done to a volume from `mkfs.py`, the checker accepts the result. On a
volume from elsewhere a regular file can have several names; `unlink_locked` releases the inode with the
first of them, and the result passes only if there was no other.
-/

namespace MiniOrange

open Tools

variable {sb : MiniOrange.Superblock} {v : Vol} {s : Machine} {path : List UInt8}

/-- The disk of a mounted machine has the superblock of its volume. -/
theorem Serving.formatted (h : Serving sb v s) (hroot : sb.rootInode = 0) :
    Formatted sb.totalBlocks s.volume sb := by
  obtain ⟨hhead, hsb, -, -, hgeo⟩ := kernel_decodeSuperblock_eq_some.1 h.decoded
  exact ⟨hhead, hsb, rfl, hgeo, hroot⟩

/-- The checker accepts the disk of a mounted machine when the volume is consistent. -/
theorem Serving.accepts_iff (h : Serving sb v s) (hroot : sb.rootInode = 0) :
    Accepts sb.totalBlocks s.volume ↔ v.Consistent sb := by
  rw [(h.formatted hroot).accepts_iff, h.volume]

/-- Runs leave the volume of a mounted machine clean. -/
theorem Serving.run_clean (h : Serving sb v s) (hv : v.Clean sb) (hroot : sb.rootInode = 0) (ops : List Op) :
    Accepts sb.totalBlocks (run ops s).2.volume := by
  have hrun : Running h.env s := ⟨v, _, _, hv, h.on⟩
  obtain ⟨v', aux, cmp, hv', h'⟩ := Running.run (fun _ => trivial) ops hrun
  have hformat := h.formatted hroot
  have hheader : (run ops s).2.volume 0 = s.volume 0 := h'.header
  have hformat' : Formatted sb.totalBlocks (run ops s).2.volume sb :=
    ⟨hheader ▸ hformat.headed, hheader ▸ hformat.superblock, rfl, h.geometry, hroot⟩
  rw [hformat'.accepts_iff, show Vol.ofDisk sb (run ops s).2.volume = v' from h'.volume]
  exact hv'.consistent

namespace Tools

variable {blocks : Nat} {volume : Disk} {imports : List ImportedFile}

/-- **Whatever is done to a volume from `mkfs.py`, `fsck.py` accepts the result.** -/
theorem built_run_accepts (hnodup : (imports.map (·.name)).Nodup)
    (hproper : ∀ file ∈ imports, Vol.Proper file.name) (hbuild : buildVolume blocks imports = .ok volume)
    (hs : Inserted blocks volume s) (ops : List Op) :
    (minifsMount s).1 = .ok () ∧ Accepts blocks (run ops (minifsMount s).2).2.volume := by
  obtain ⟨sb, hformat, hinodes, hbuilt⟩ := buildVolume_built hnodup hbuild
  have hv := hbuilt.clean hformat.root hnodup hproper
  obtain ⟨hmount, hserving⟩ := mount_serving hs hformat hv.consistent (by rw [hinodes]; decide)
  have haccepts := hserving.run_clean hv hformat.root ops
  rw [hformat.totalBlocks] at haccepts
  exact ⟨hmount, haccepts⟩

/-- A file is made and the imported one removed. -/
theorem built_run_accepts_one : ∃ volume, buildVolume 24 [⟨[0x61], elfMagic⟩] = .ok volume ∧
    Accepts 24 (run [.create (binPath [0x62]), .write 3 0 elfMagic, .unlink (binPath [0x61])]
      (minifsMount (bootMachine 24 volume)).2).2.volume := by
  have hgood : Entry.GoodLabel [0x61] := by decide
  have hbuildable := buildable_one hgood
  obtain ⟨volume, hbuild⟩ := hbuildable.exists_volume
  refine ⟨volume, hbuild, (built_run_accepts hbuildable.distinct (fun file hfile => ?_) hbuild
    (inserted_bootMachine 24 volume) _).2⟩
  obtain rfl := List.mem_singleton.1 hfile
  exact ⟨by decide, by decide⟩

/-! ## Removing names -/

/-- A removal leaves the volume consistent unless it was one of several names of a file. -/
theorem UnlinkEffect.consistent_iff {ℓ' : Level} {v' : Vol} {stat : Stat} (hv : v.Consistent sb)
    (heffect : Vol.UnlinkEffect sb v path (.ok ()) ℓ' v') (hstat : v.lookup sb path = .ok stat) :
    v'.Consistent sb ↔ (stat.mode = 1 → stat.linkCount = 1) := by
  cases heffect with
  | removed d name j c _ hres hj hroot hempty =>
  obtain ⟨-, -, -, hread, hmode, -, hproper⟩ := Vol.resolveParent_eq_ok hres
  obtain ⟨hlt, himap, -, -⟩ := Vol.readInode_eq_ok.1 hread
  have hd : v.IsDir (v.alloc sb) d := ⟨Vol.mem_alloc.2 ⟨hlt, himap⟩, hmode⟩
  rw [Vol.lookup_of_resolveParent hv hres hj] at hstat
  cases hstat
  exact hv.removed_iff hd hj hproper hroot hempty

/-- A path that was removed had led somewhere. -/
theorem UnlinkEffect.lookup {ℓ' : Level} {v' : Vol} (hv : v.Consistent sb)
    (heffect : Vol.UnlinkEffect sb v path (.ok ()) ℓ' v') : ∃ stat, v.lookup sb path = .ok stat := by
  cases heffect with
  | removed d name j c _ hres hj hroot hempty => exact ⟨_, Vol.lookup_of_resolveParent hv hres hj⟩

/-- A mounted volume that the checker accepts is consistent, with its root at inode 0. -/
theorem Serving.consistent (h : Serving sb v s) (haccepts : Accepts sb.totalBlocks s.volume) :
    sb.rootInode = 0 ∧ v.Consistent sb := by
  obtain ⟨sb', hformat, -⟩ := Tools.accepts_iff.1 haccepts
  obtain ⟨-, hsb, -⟩ := kernel_decodeSuperblock_eq_some.1 h.decoded
  obtain rfl : sb = sb' := hsb.symm.trans hformat.superblock
  exact ⟨hformat.root, (h.accepts_iff hformat.root).1 haccepts⟩

/-- **`minifs_unlink` keeps a volume `fsck.py` accepts exactly when it removes a directory or a regular file
with one link.** -/
theorem unlink_accepts_iff (h : Serving sb v s) (haccepts : Accepts sb.totalBlocks s.volume)
    (hok : (minifsUnlink path s).1 = .ok ()) :
    ∃ stat, (minifsLookup path s).1 = .ok stat ∧
      (Accepts sb.totalBlocks (minifsUnlink path s).2.volume ↔ (stat.mode = 1 → stat.linkCount = 1)) := by
  obtain ⟨hroot, hv⟩ := Serving.consistent h haccepts
  obtain ⟨v', heffect, h'⟩ := h.unlink hv path
  rw [hok] at heffect
  obtain ⟨stat, hstat⟩ := UnlinkEffect.lookup hv heffect
  refine ⟨stat, (h.lookup path).1.trans hstat, ?_⟩
  rw [h'.accepts_iff hroot]
  exact UnlinkEffect.consistent_iff hv heffect hstat

section
variable {names : List (Nat × List UInt8)} {count : Nat} {item : Nat × List UInt8}

/-- A name on a flat volume is looked for in the root. -/
theorem Flat.resolveParent {l : List UInt8} (h : Flat v sb names count) (hnames : FlatNames names count)
    (hroot : sb.rootInode = 0) (hgood : Entry.GoodLabel l) (hproper : Vol.Proper l) :
    v.resolveParent sb (pathOf [l]) = .ok (0, v.ino 0, l) := by
  have hle := hgood.length_le
  have hmem : 0 ∈ v.alloc sb := by
    rw [h.solid.alloc_eq]
    exact Finset.mem_range.2 (Nat.succ_pos _)
  have hparse : parsePath (pathOf [l]) = .ok ([] ++ [l], false) := by
    refine parsePath_pathOf (by simp) (fun l' hl => ?_) ?_
    · rw [List.mem_singleton.1 hl]
      exact hgood.component
    · rw [pathOf_cons]
      simp only [pathOf, List.flatMap_nil, List.length_cons, List.append_nil]
      omega
  exact Vol.resolveParent_of_walk hparse (by rw [Vol.walk, hroot])
    ((h.consistent hnames hroot).owns.readInode hmem) h.mode hgood hproper

/-- A name of a flat volume can be removed. -/
theorem Flat.unlink_ok (h : Flat v sb names count) (hnames : FlatNames names count) (hroot : sb.rootInode = 0)
    (hs : Serving sb v s) (hitem : item ∈ names) :
    v.lookup sb (pathOf [item.2]) = .ok ((v.ino item.1).stat item.1) ∧
      (minifsUnlink (pathOf [item.2]) s).1 = .ok () := by
  have hv := h.consistent hnames hroot
  obtain ⟨hgood, hproper⟩ := hnames.named item hitem
  have hres := h.resolveParent hnames hroot hgood hproper
  obtain ⟨hone, hcount⟩ := hnames.fst_pos hitem
  obtain ⟨i, rfl⟩ := List.get_of_mem hitem
  have hj : v.Names 0 (i + 2) (names.get i).2 (names.get i).1 :=
    h.names_root.2 (.inr (.inr ⟨i, i.2, rfl, rfl, rfl⟩))
  refine ⟨Vol.lookup_of_resolveParent hv hres hj, hs.unlink_removes hv hres hj (by omega) fun hmode => ?_⟩
  rw [h.file _ hone hcount] at hmode
  cases hmode

end

/-- A flat volume of 24 blocks, mounted. -/
theorem exists_flat_mounted {names : List (Nat × List UInt8)} {count : Nat} (hnames : FlatNames names count)
    (hcount : count < 1024) :
    ∃ volume sb, Accepts 24 volume ∧ sb.totalBlocks = 24 ∧ sb.rootInode = 0 ∧
      (minifsMount (bootMachine 24 volume)).1 = .ok () ∧
      Serving sb (Vol.ofDisk sb volume) (minifsMount (bootMachine 24 volume)).2 ∧
      Flat (Vol.ofDisk sb volume) sb names count := by
  obtain ⟨volume, hformat, hflat⟩ := @exists_flat _ _ _ 24 1024 rfl (by decide) (by decide) hnames hcount
  have hv := hflat.consistent hnames hformat.root
  obtain ⟨hmount, hserving⟩ := mount_serving (inserted_bootMachine 24 volume) hformat hv (by decide)
  exact ⟨volume, _, hformat.accepts_iff.2 hv, rfl, hformat.root, hmount, hserving, hflat⟩

/-- A file with two names. -/
def twoNames : List (Nat × List UInt8) := [(1, [0x61]), (1, [0x62])]

theorem flatNames_twoNames : FlatNames twoNames 1 where
  named := by
    intro item hitem
    simp only [twoNames, List.mem_cons, List.not_mem_nil, or_false] at hitem
    obtain rfl | rfl := hitem
    · exact ⟨by decide, by decide, by decide⟩
    · exact ⟨by decide, by decide, by decide⟩
  distinct := by decide
  files n := by
    simp only [twoNames, List.map_cons, List.map_nil, List.mem_cons, List.not_mem_nil, or_false, or_self]
    omega
  length_le := by decide

/-- A file with one name. -/
def oneName : List (Nat × List UInt8) := [(1, [0x61])]

theorem flatNames_oneName : FlatNames oneName 1 where
  named := by
    intro item hitem
    obtain rfl := List.mem_singleton.1 hitem
    exact ⟨by decide, by decide, by decide⟩
  distinct := by decide
  files n := by
    simp only [oneName, List.map_cons, List.map_nil, List.mem_singleton]
    omega
  length_le := by decide

/-- The path `/c` of a byte. -/
def pathOne (c : UInt8) : List UInt8 := pathOf [[c]]

/-- The first of two names is removed: the other is left and leads to a free inode. -/
theorem Flat.twoNames_unlink (h : Flat v sb twoNames 1) (hroot : sb.rootInode = 0) (hs : Serving sb v s) :
    ∃ w, Serving sb w (minifsUnlink (pathOne 0x61) s).2 ∧ w.Names 0 3 [0x62] 1 ∧ w.imap 1 = false ∧
      w.Owns sb ((v.alloc sb).erase 1) ∧ w.IsDir ((v.alloc sb).erase 1) 0 := by
  have hv := h.consistent flatNames_twoNames hroot
  have hitem : (1, [0x61]) ∈ twoNames := List.mem_cons_self ..
  obtain ⟨w, heffect, hs'⟩ := hs.unlink hv (pathOne 0x61)
  rw [show (minifsUnlink (pathOne 0x61) s).1 = .ok () from (h.unlink_ok flatNames_twoNames hroot hs hitem).2] at heffect
  cases heffect with
  | removed d name j c _ hres hj hnotroot _ =>
  obtain ⟨rfl, -, rfl⟩ : d = 0 ∧ _ ∧ name = [0x61] := by
    obtain ⟨hgood, hproper⟩ := flatNames_twoNames.named _ hitem
    have hfound := hres.symm.trans (h.resolveParent flatNames_twoNames hroot hgood hproper)
    simpa using hfound
  have hother : v.Names 0 3 [0x62] 1 := h.names_root.2 (.inr (.inr ⟨1, by decide, rfl, rfl, rfl⟩))
  obtain ⟨rfl, rfl⟩ : j = 2 ∧ c = 1 := by
    have hfirst : v.Names 0 2 [0x61] 1 := h.names_root.2 (.inr (.inr ⟨0, by decide, rfl, rfl, rfl⟩))
    obtain rfl := h.unique flatNames_twoNames hj hfirst
    exact ⟨rfl, hj.2.2.2.symm.trans hfirst.2.2.2⟩
  obtain ⟨parent, depth, htree⟩ := hv.tree
  have hdir : v.IsDir (v.alloc sb) 0 := hroot ▸ htree.root
  have hproper : Vol.Proper [0x61] := ⟨by decide, by decide⟩
  have hun := hv.unlinked_unlinked hdir hj hproper
  have hlt : 3 < (v.unlinked 0 2 1).entryCount 0 := by
    rw [hun.placed.count]
    exact hother.1.trans_le (le_max_left _ _)
  refine ⟨_, hs', ⟨hlt, ?_⟩, Vol.setI_self .., (hv.solid_unlinked hdir hj hproper).owns, ?_⟩
  · rw [hun.placed.entry 3 hlt, if_neg (by decide)]
    exact hother.2
  · exact hun.isDir.2 ⟨hdir, by decide⟩

/-- The first of two names is removed, and the checker no longer accepts the volume. -/
theorem twoNames_unlink_not_accepts : ∃ volume, Accepts 24 volume ∧
    (minifsMount (bootMachine 24 volume)).1 = .ok () ∧
    (minifsUnlink (pathOne 0x61) (minifsMount (bootMachine 24 volume)).2).1 = .ok () ∧
    ¬ Accepts 24 (minifsUnlink (pathOne 0x61) (minifsMount (bootMachine 24 volume)).2).2.volume := by
  obtain ⟨volume, sb, haccepts, htotal, hroot, hmount, hs, hflat⟩ :=
    exists_flat_mounted flatNames_twoNames (by decide)
  have hv := hflat.consistent flatNames_twoNames hroot
  obtain ⟨hlookup, hok⟩ := hflat.unlink_ok flatNames_twoNames hroot hs (List.mem_cons_self ..)
  obtain ⟨v', heffect, hs'⟩ := hs.unlink hv (pathOne 0x61)
  rw [show (minifsUnlink (pathOne 0x61) (minifsMount (bootMachine 24 volume)).2).1 = .ok () from hok] at heffect
  have hiff := hs'.accepts_iff hroot
  rw [htotal, UnlinkEffect.consistent_iff hv heffect hlookup, hflat.file 1 le_rfl le_rfl] at hiff
  refine ⟨volume, haccepts, hmount, hok, fun haccepts' => ?_⟩
  have htwo : linksOf twoNames 1 = 1 := hiff.1 haccepts' rfl
  exact absurd htwo (by decide)

/-- The only name of a file is removed. -/
theorem unlink_accepts_oneName : ∃ volume, Accepts 24 volume ∧
    (minifsUnlink (pathOne 0x61) (minifsMount (bootMachine 24 volume)).2).1 = .ok () ∧
    Accepts 24 (minifsUnlink (pathOne 0x61) (minifsMount (bootMachine 24 volume)).2).2.volume := by
  obtain ⟨volume, sb, haccepts, htotal, hroot, hmount, hs, hflat⟩ :=
    exists_flat_mounted flatNames_oneName (by decide)
  obtain ⟨hlookup, hok⟩ : (Vol.ofDisk sb volume).lookup sb (pathOne 0x61) = _ ∧
      (minifsUnlink (pathOne 0x61) (minifsMount (bootMachine 24 volume)).2).1 = _ :=
    hflat.unlink_ok flatNames_oneName hroot hs (List.mem_cons_self ..)
  have hconsistent := hflat.consistent flatNames_oneName hroot
  have haccepts' := (hs.accepts_iff hroot).2 hconsistent
  obtain ⟨stat, hstat, hiff⟩ := unlink_accepts_iff hs haccepts' hok
  rw [(hs.lookup _).1, hlookup, hflat.file 1 le_rfl le_rfl] at hstat
  rw [htotal, ← Except.ok.inj hstat] at hiff
  exact ⟨volume, haccepts, hok, hiff.2 fun _ => rfl⟩

end Tools

end MiniOrange
