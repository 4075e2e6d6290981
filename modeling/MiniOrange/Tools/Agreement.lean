import MiniOrange.Tools.Flat
import MiniOrange.Fs.Namespace

/-!
# The host tools and the kernel

`fsck.py` and `minifs.c` read a volume with two decoders. On what the checker accepts they agree: the kernel
mounts it, unless it has more inodes than `decode_superblock` allows (`Formatted.decode_iff`), and then its
reads return the bytes and its listings the names the checker saw (`Agrees`). A volume from `mkfs.py` has
few inodes, so the kernel mounts it, finds each imported file under `/bin` and reads its bytes back.
-/

namespace MiniOrange

/-- The operations that only read. -/
def Op.Reading : Op → Prop
  | .lookup _ | .statInode _ | .readdir _ _ | .read _ _ _ => True
  | _ => False

/-- Reading operations leave the mounted volume. -/
theorem Serving.run_reading {sb : Superblock} {v : Vol} (ops : List Op) : ∀ {s}, Serving sb v s →
    (∀ op ∈ ops, op.Reading) → wp (run ops) (fun _ s' => Serving sb v s') s := by
  induction ops with
  | nil => exact fun h _ => h
  | cons op ops ih =>
    intro s h hops
    obtain ⟨hop, hops⟩ := List.forall_mem_cons.1 hops
    have hstep : wp op.exec (fun _ s' => Serving sb v s') s := by
      cases op with
      | lookup path => exact wp.bind (h.lookup path) fun _ _ h' => h'.2
      | statInode n => exact wp.bind (h.statInode n) fun _ _ h' => h'.2
      | readdir n offset => exact wp.bind (h.readdir n offset) fun _ _ h' => h'.2
      | read n offset length => exact wp.bind (h.read n offset length) fun _ _ h' => h'.2
      | create | mkdir | unlink | write | truncate => exact hop.elim
    exact wp.bind hstep fun _ _ h' => ih h' hops

namespace Tools

open Check

variable {blocks : Nat} {volume : Disk} {sb : MiniOrange.Superblock} {s : Machine} {c : Checker} {v : Vol}

/-- The machine at boot, with a volume of `blocks` blocks on its disk, where no transfer fails. -/
structure Inserted (blocks : Nat) (volume : Disk) (s : Machine) : Prop extends Booted s where
  onDisk : s.volume = volume
  layout : s.layout.blockCount = blocks
  quiet : ∀ k, s.outcome k = none

/-- A machine at boot. -/
def bootMachine (blocks : Nat) (volume : Disk) : Machine where
  layout := ⟨256, blocks⟩
  deviceBlockCount := 256 + blocks
  volume
  buffers := ⟨.zero, .zero, .zero⟩
  superblock := .clear
  mounted := false
  operationBusy := false
  interrupts := true
  outcome _ := none
  history := []

theorem inserted_bootMachine (blocks : Nat) (volume : Disk) : Inserted blocks volume (bootMachine blocks volume) :=
  ⟨⟨le_rfl, rfl, rfl⟩, rfl, rfl, fun _ => rfl⟩

/-! ## Mounting what `fsck.py` accepts -/

/-- The kernel decodes the superblock of a volume the checker accepts if it has not too many inodes. -/
theorem Formatted.decode_iff (h : Formatted blocks volume sb) :
    MiniOrange.decodeSuperblock blocks (volume 0) = some sb ↔ sb.totalInodes ≤ 0xFFFFFFFF / 64 := by
  rw [kernel_decodeSuperblock_eq_some]
  exact ⟨fun hdecode => hdecode.2.2.2.1, fun hle => ⟨h.headed, h.superblock, h.totalBlocks, hle, h.geometry⟩⟩

/-- On a volume of up to 4 GiB there are never too many inodes. -/
theorem Formatted.inodes_le (h : Formatted blocks volume sb) (hblocks : blocks ≤ 2 ^ 20) :
    sb.totalInodes ≤ 0xFFFFFFFF / 64 := by
  have htable := h.geometry.inodeTableBlocks
  have hdata := h.geometry.dataStart
  have hlt := h.geometry.dataStart_lt
  have htotal := h.totalBlocks
  by_contra hmany
  have hfull : 2 ^ 20 - 1 < sb.inodeTableBlocks := by
    rw [htable, lt_divideRoundUp (by decide)]
    omega
  omega

/-- A superblock that is not decoded is not mounted. -/
theorem minifsMount_refused (hs : Inserted blocks volume s)
    (hnone : MiniOrange.decodeSuperblock blocks (volume 0) = none) : (minifsMount s).1 = .error .eio := by
  have hdevice := hs.device
  have hwp : wp minifsMount (fun r _ => r = .error .eio) s := by
    unfold minifsMount minifsAcquire irqSaveDisable irqRestore minifsRelease
    simp only [wp_bind, wp_get, wp_set, wp_pure, wp_modify, hs.free, Bool.false_eq_true, if_false]
    split
    · rfl
    rw [wp_bind]
    unfold blockRead
    rw [wp_bind, wp_get]
    split
    · rfl
    simp only [hs.quiet 0, wp_bind, wp_set, wp_pure, wp_getBuffer]
    rw [show ∀ x : Buffers, (x.set .ioBlock (s.volume 0)).get .ioBlock = s.volume 0 from fun _ => rfl, hs.onDisk,
      hs.layout, hnone]
    rfl
  exact hwp

/-- `minifs_mount` of a volume the checker accepts. -/
theorem mount_serving (hs : Inserted blocks volume s) (hformat : Formatted blocks volume sb)
    (hv : (Vol.ofDisk sb volume).Consistent sb) (hle : sb.totalInodes ≤ 0xFFFFFFFF / 64) :
    (minifsMount s).1 = .ok () ∧ Serving sb (Vol.ofDisk sb volume) (minifsMount s).2 := by
  obtain ⟨hboot, rfl, rfl, hquiet⟩ := hs
  exact minifsMount_serving hboot hquiet (hformat.decode_iff.2 hle) hv

theorem mount_ok_iff (hs : Inserted blocks volume s) (hformat : Formatted blocks volume sb)
    (hv : (Vol.ofDisk sb volume).Consistent sb) :
    (minifsMount s).1 = .ok () ↔ sb.totalInodes ≤ 0xFFFFFFFF / 64 := by
  refine ⟨fun hok => ?_, fun hle => (mount_serving hs hformat hv hle).1⟩
  by_contra hmany
  have hnone : MiniOrange.decodeSuperblock blocks (volume 0) = none := by
    cases hdecode : MiniOrange.decodeSuperblock blocks (volume 0) with
    | none => rfl
    | some sb' =>
      obtain ⟨-, hsb, -⟩ := kernel_decodeSuperblock_eq_some.1 hdecode
      obtain rfl : sb = sb' := hformat.superblock.symm.trans hsb
      exact absurd (hformat.decode_iff.1 hdecode) hmany
  rw [minifsMount_refused hs hnone] at hok
  cases hok

/-! ## Reading what `fsck.py` accepts -/

/-- The names the checker sees in a directory: what its loop over the entries returns. -/
def Checker.namesIn (c : Checker) (number : Nat) (inode : Inode) : Except MiniFsError (List Checker.Name) := do
  let content := c.readInodeContent number inode
  let offsets := (List.range ((content.length + 63) / 64)).map (· * 64)
  let (names, _) ← c.checkEntries number content offsets [] fun _ => 0
  return names

/-- The kernel reads the volume as the checker has read it. -/
structure Agrees (c : Checker) (s : Machine) : Prop where
  ne_eio : ∀ path n offset length, c.inodes n ≠ none →
    (minifsLookup path s).1 ≠ .error .eio ∧ (minifsStatInode n s).1 ≠ .error .eio ∧
      (minifsReaddir n offset s).1 ≠ .error .eio ∧ (minifsRead n offset length s).1 ≠ .error .eio
  read : ∀ n inode, c.inodes n = some inode → inode.mode = 1 → ∀ offset length,
    (minifsRead n offset length s).1 = .ok (((c.readInodeContent n inode).drop offset).take length)
  list : ∀ n inode, c.inodes n = some inode → inode.mode = 2 → ∃ names, c.namesIn n inode = .ok names ∧
    (listDirectory n (names.length + 1) 0 s).1 = .ok (names.map fun item => ⟨item.child, item.type, item.name⟩)

/-- The checker's names of a directory are its entries in use. -/
theorem namesIn_eq {d : Nat} (hload : Loaded c sb v sb.totalInodes) (hv : v.Consistent sb)
    (hd : v.IsDir (v.alloc sb) d) :
    c.namesIn d (v.ino d) = .ok ((usedOf v d (List.range (v.entryCount d))).map (nameOf v d)) := by
  obtain ⟨parent, depth, htree⟩ := hv.tree
  have hok : ∀ j < v.entryCount d, EntryOk v (v.alloc sb) d j := htree.entry d hd
  unfold Checker.namesIn
  exact bind_eq_ok.2 ⟨_, (dirEntries_yields hload hv.owns hd).eq_ok.2
    ⟨⟨hok, (unique_iff_nodup hok).1 (htree.unique d hd)⟩, rfl⟩, rfl⟩

/-- The kernel agrees with the checker on a consistent volume. -/
theorem Serving.agrees (h : Serving sb v s) (hv : v.Consistent sb) (hload : Loaded c sb v sb.totalInodes) :
    Agrees c s := by
  have hinodes : ∀ {n inode}, c.inodes n = some inode → n ∈ v.alloc sb ∧ inode = v.ino n := by
    intro n inode hn
    rw [hload.inodes] at hn
    split at hn
    · next hmem => exact ⟨hmem, (Option.some.inj hn).symm⟩
    · cases hn
  refine ⟨fun path n offset length hn => ?_, fun n inode hn hmode offset length => ?_, fun n inode hn hmode => ?_⟩
  · obtain ⟨inode, hinode⟩ := Option.ne_none_iff_exists'.1 hn
    exact h.ne_eio hv path (hinodes hinode).1 offset length
  · obtain ⟨hmem, rfl⟩ := hinodes hn
    rw [(h.read n offset length).1, Vol.readAt_content hv.owns hmem hmode, readInodeContent_eq hload hv.owns hmem]
  · obtain ⟨hmem, rfl⟩ := hinodes hn
    have hd : v.IsDir (v.alloc sb) n := ⟨hmem, hmode⟩
    refine ⟨_, namesIn_eq hload hv hd, ?_⟩
    have hused : v.usedFrom n 0 = usedOf v n (List.range (v.entryCount n)) := by
      rw [Vol.usedFrom, usedOf, List.range_eq_range', Nat.sub_zero]
    have hlist := (Serving.listDirectory hv hd ((v.usedFrom n 0).length + 1) h (Nat.lt_succ_self _)).1
    rw [Nat.zero_mul, hused] at hlist
    rw [List.length_map, hlist, List.map_map]
    refine congrArg Except.ok (List.map_congr_left fun j hj => ?_)
    -- an entry in use has the type of its inode
    obtain ⟨hj, htype⟩ := List.mem_filter.1 hj
    obtain ⟨parent, depth, htree⟩ := hv.tree
    rcases htree.entry n hd j (List.mem_range.1 hj) with hblank | ⟨-, -, hmode⟩
    · rw [hblank] at htype
      simp [Entry.blank] at htype
    · rw [Function.comp_apply, Vol.direntOf, ← hmode]
      rfl

/-- An empty volume. -/
theorem exists_empty {inodes : Nat} {sb : Superblock} (hsb : makeSuperblock blocks inodes = .ok sb)
    (hblocks : blocks < 2 ^ 32) (hinodes : inodes < 2 ^ 32) (hpos : 0 < inodes) :
    ∃ volume, Formatted blocks volume sb.toSuperblock ∧
      (Vol.ofDisk sb.toSuperblock volume).Consistent sb.toSuperblock := by
  have hnames : FlatNames [] 0 := ⟨nofun, List.nodup_nil, fun n => iff_of_false nofun (by omega), Nat.zero_le _⟩
  obtain ⟨volume, hformat, hflat⟩ := exists_flat hsb hblocks hinodes hnames hpos
  exact ⟨volume, hformat, hflat.consistent hnames hformat.root⟩

variable {imports : List ImportedFile} {l : List UInt8}

/-- The path `/bin/l`. -/
def binPath (l : List UInt8) : List UInt8 := pathOf [binName, l]

theorem component_binName : Component binName := by decide

theorem length_binPath (l : List UInt8) : (binPath l).length = l.length + 5 := by
  rw [binPath, pathOf_cons, pathOf_cons]
  simp [pathOf, binName]

/-- A component behind `/bin/` is looked up in inode 1. -/
theorem Built.lookup_bin (h : Built v sb imports) (hroot : sb.rootInode = 0)
    (hnodup : (imports.map (·.name)).Nodup) (hproper : ∀ file ∈ imports, Vol.Proper file.name)
    (hl : Component l) (hlength : l.length + 5 < 256) :
    v.lookup sb (binPath l) = match v.step sb 1 l with
      | .error e => .error e
      | .ok current => (v.readInode sb current).map (·.stat current) := by
  have htree := h.tree hroot hnodup hproper
  have hcs : ∀ x ∈ [binName, l], Component x := by
    simp only [List.forall_mem_cons, List.not_mem_nil, false_implies, implies_true, and_true]
    exact ⟨component_binName, hl⟩
  have hbin : v.step sb 0 binName = .ok 1 := htree.step_names h.solid.owns (h.isDir.2 (.inl rfl))
    (h.names_root.2 (.inr (.inr ⟨rfl, rfl, rfl⟩)))
  rw [Vol.lookup_eq, binPath, parsePath_pathOf (by simp) hcs (by rw [← binPath, length_binPath]; exact hlength)]
  simp only [Vol.walk, hroot, hbin]
  cases v.step sb 1 l with
  | error e => rfl
  | ok current =>
    dsimp only
    cases v.readInode sb current with
    | error e => rfl
    | ok inode => rfl

/-- An imported file is found. -/
theorem Built.lookup_file (h : Built v sb imports) (hroot : sb.rootInode = 0)
    (hnodup : (imports.map (·.name)).Nodup) (hproper : ∀ file ∈ imports, Vol.Proper file.name) {i : Nat}
    (hi : i < imports.length) :
    v.lookup sb (binPath (imports.get ⟨i, hi⟩).name) = .ok ((v.ino (i + 2)).stat (i + 2)) := by
  have hnames := h.names_bin.2 (.inr (.inr ⟨i, hi, rfl, rfl, rfl⟩))
  have hgood : Entry.GoodLabel (imports.get ⟨i, hi⟩).name := hnames.2.2.1 ▸ hnames.2.1.label
  have hle := hgood.length_le
  rw [h.lookup_bin hroot hnodup hproper hgood.component (by omega),
    (h.tree hroot hnodup hproper).step_names h.solid.owns (h.isDir.2 (.inr rfl)) hnames]
  dsimp only
  rw [h.solid.owns.readInode (Finset.mem_range.2 (by omega))]
  rfl

/-- Any other component is not: it is no name, or the name of no file. -/
theorem Built.lookup_other (h : Built v sb imports) (hroot : sb.rootInode = 0)
    (hnodup : (imports.map (·.name)).Nodup) (hproper : ∀ file ∈ imports, Vol.Proper file.name)
    (hl : Component l) (hl' : Vol.Proper l) (hnew : ∀ file ∈ imports, file.name ≠ l) :
    v.lookup sb (binPath l) = .error (if l.length ≤ 58 ∧ (∀ x ∈ l, x ≤ 0x7F) then .enoent else .einval) := by
  by_cases hlength : l.length + 5 < 256
  · rw [h.lookup_bin hroot hnodup hproper hl hlength]
    by_cases hgood : Entry.GoodLabel l
    · rw [if_pos (hl.good_iff.1 hgood)]
      rcases (h.tree hroot hnodup hproper).step_dir h.solid.owns (h.isDir.2 (.inr rfl)) hgood with
        ⟨j, c, hj, -⟩ | ⟨-, heq⟩
      · obtain ⟨-, rfl, -⟩ | ⟨-, rfl, -⟩ | ⟨i, hi, -, rfl, -⟩ := h.names_bin.1 hj
        · exact absurd rfl hl'.1
        · exact absurd rfl hl'.2
        · exact absurd rfl (hnew _ (List.get_mem imports ⟨i, hi⟩))
      · rw [heq]
    · rw [if_neg fun hshort => hgood (hl.good_iff.2 hshort), Vol.step_of_not_good hl hgood]
  · have hcs : ∀ x ∈ [binName, l], Component x := by
      simp only [List.forall_mem_cons, List.not_mem_nil, false_implies, implies_true, and_true]
      exact ⟨component_binName, hl⟩
    rw [if_neg (by omega), Vol.lookup_eq, binPath,
      parsePath_long hcs (by rw [← binPath, length_binPath]; omega)]

/-- **What `mkfs.py` has written, the kernel reads.** The volume is mounted, each imported file is found under
`/bin` and its bytes are read back, and no other component is found there: a name of up to 58 ASCII bytes is
unknown, and anything else is no name. -/
theorem built_readable (hnodup : (imports.map (·.name)).Nodup)
    (hproper : ∀ file ∈ imports, Vol.Proper file.name) (hbuild : buildVolume blocks imports = .ok volume)
    (hs : Inserted blocks volume s) :
    (minifsMount s).1 = .ok () ∧
      (∀ file ∈ imports, ∃ stat, (minifsLookup (binPath file.name) (minifsMount s).2).1 = .ok stat ∧
        stat.mode = 1 ∧ stat.size = file.payload.length ∧
        (minifsRead stat.inode 0 stat.size (minifsLookup (binPath file.name) (minifsMount s).2).2).1 =
          .ok file.payload) ∧
      ∀ l, Component l → Vol.Proper l → (∀ file ∈ imports, file.name ≠ l) →
        (minifsLookup (binPath l) (minifsMount s).2).1 =
          .error (if l.length ≤ 58 ∧ (∀ x ∈ l, x ≤ 0x7F) then .enoent else .einval) := by
  obtain ⟨sb, hformat, hinodes, hbuilt⟩ := buildVolume_built hnodup hbuild
  have hv := (hbuilt.clean hformat.root hnodup hproper).consistent
  obtain ⟨hmount, hserving⟩ := mount_serving hs hformat hv (by rw [hinodes]; decide)
  refine ⟨hmount, fun file hfile => ?_, fun l hl hl' hnew => ?_⟩
  · obtain ⟨i, rfl⟩ := List.get_of_mem hfile
    obtain ⟨hmode, -, hcontent⟩ := hbuilt.file i i.2
    obtain ⟨hlookup, hserving'⟩ := hserving.lookup (binPath (imports.get i).name)
    have hsize : ((Vol.ofDisk sb volume).ino (i + 2)).size = (imports.get i).payload.length := by
      rw [← hcontent, Vol.content, List.length_map, List.length_range]
    refine ⟨_, hlookup.trans (hbuilt.lookup_file hformat.root hnodup hproper i.2), hmode, hsize, ?_⟩
    have hmem : i.val + 2 ∈ (Vol.ofDisk sb volume).alloc sb := by
      rw [hbuilt.solid.alloc_eq]
      exact Finset.mem_range.2 (by have := i.2; omega)
    refine (hserving'.read _ _ _).1.trans ?_
    simp only [Inode.stat]
    rw [Vol.readAt_content hv.owns hmem hmode, hcontent, List.drop_zero]
    exact congrArg Except.ok (List.take_of_length_le hsize.ge)
  · rw [(hserving.lookup (binPath l)).1]
    exact hbuilt.lookup_other hformat.root hnodup hproper hl hl' hnew

/-- A component of 59 bytes is not the name of a file either, but the kernel answers `EINVAL`. -/
theorem longComponent_einval : ∃ volume, buildVolume 24 [⟨[0x61], elfMagic⟩] = .ok volume ∧
    (minifsLookup (binPath (List.replicate 59 0x61)) (minifsMount (bootMachine 24 volume)).2).1 =
      .error .einval := by
  have hgood : Entry.GoodLabel [0x61] := by decide
  have hbuildable := buildable_one hgood
  have hproper : ∀ file ∈ [(⟨[0x61], elfMagic⟩ : ImportedFile)], Vol.Proper file.name := fun file hfile => by
    obtain rfl := List.mem_singleton.1 hfile
    exact ⟨by decide, by decide⟩
  obtain ⟨volume, hbuild⟩ := hbuildable.exists_volume
  obtain ⟨sb, hformat, hinodes, hbuilt⟩ := buildVolume_built hbuildable.distinct hbuild
  have hv := (hbuilt.clean hformat.root hbuildable.distinct hproper).consistent
  obtain ⟨-, hserving⟩ := mount_serving (inserted_bootMachine 24 volume) hformat hv (by rw [hinodes]; decide)
  refine ⟨volume, hbuild, ?_⟩
  rw [(hserving.lookup _).1, hbuilt.lookup_other hformat.root hbuildable.distinct hproper]
  · rfl
  · decide
  · exact ⟨by decide, by decide⟩
  · intro file hfile
    obtain rfl := List.mem_singleton.1 hfile
    decide

/-- The volume with one file. -/
theorem built_readable_one : ∃ volume, buildVolume 24 [⟨[0x61], elfMagic⟩] = .ok volume ∧
    (minifsMount (bootMachine 24 volume)).1 = .ok () := by
  have hgood : Entry.GoodLabel [0x61] := by decide
  have hbuildable := buildable_one hgood
  obtain ⟨volume, hbuild⟩ := hbuildable.exists_volume
  refine ⟨volume, hbuild, (built_readable hbuildable.distinct (fun file hfile => ?_) hbuild
    (inserted_bootMachine 24 volume)).1⟩
  obtain rfl := List.mem_singleton.1 hfile
  exact ⟨by decide, by decide⟩

end Tools

end MiniOrange
