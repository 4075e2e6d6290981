import MiniOrange.Fs.Solid

/-!
# Every effect keeps a volume consistent

`Vol.Counted` is the part of consistency above the storage: the directories form a tree that names
every inode, and link counts are the numbers of these names. A volume is consistent if it is solid
and counted for one set of files. With this, each effect of an operation is one step of the storage
and one of the names: a write and a truncation change no name, a creation adds one and a removal
takes one away.

A removal keeps a volume consistent only where a regular file has one name (`Vol.SingleLinks`), as it
has on every volume without hard links: the kernel releases the inode with the first name it removes.
-/

namespace MiniOrange

namespace Vol

variable {v v₁ w : Vol} {sb : Superblock} {L F : Finset Nat} {parent depth : Nat → Nat}
  {b c d j n size type links : Nat} {name : List UInt8}

/-! ## Names and link counts -/

/-- The directories of `L` form a tree with a name for every inode, and link counts are right. -/
structure Counted (v : Vol) (sb : Superblock) (L : Finset Nat) : Prop where
  tree : ∃ parent depth, v.Tree sb L parent depth
  named : ∀ n ∈ L, n ≠ sb.rootInode → ∃ d j l, v.IsDir L d ∧ v.Names d j l n ∧ Proper l
  links : ∀ n ∈ L, (v.ino n).linkCount = v.refs L n

theorem Consistent.counted (h : v.Consistent sb) : v.Counted sb (v.alloc sb) :=
  ⟨h.tree, h.named, h.links⟩

/-- A volume is consistent if its storage and its names are right for one set of files. -/
theorem Solid.consistent (h : v.Solid sb L) (h' : v.Counted sb L) : v.Consistent sb := by
  obtain rfl : v.alloc sb = L := h.alloc_eq
  refine ⟨h.owns, h'.tree, h'.named, h'.links, h.marked, h.block_tail, h.inode_tail, ?_, h.ends⟩
  intro n hlt himap
  exact (h.free n hlt (notMem_alloc himap)).2

/-- With the same names and link counts the counts are right. -/
theorem Counted.sameNames (h : v.Counted sb L) (hnames : SameNames v w L)
    (hlinks : ∀ n ∈ L, (w.ino n).linkCount = (v.ino n).linkCount) : w.Counted sb L := by
  obtain ⟨parent, depth, htree⟩ := h.tree
  refine ⟨⟨parent, depth, hnames.tree htree⟩, fun n hn hroot => ?_, fun n hn => ?_⟩
  · obtain ⟨d, j, l, hd, hj, hl⟩ := h.named n hn hroot
    exact ⟨d, j, l, hnames.isDir.2 hd, (hnames.names hd).2 hj, hl⟩
  · rw [hlinks n hn, h.links n hn, hnames.refs]

/-- Regular files have one name. -/
def SingleLinks (v : Vol) (sb : Superblock) : Prop :=
  ∀ n ∈ v.alloc sb, (v.ino n).mode = 1 → (v.ino n).linkCount = 1

/-! ## Regular files -/

/-- A change of one regular file changes no name. -/
theorem SameNames.of_file (hn : (v.ino n).mode ≠ 2) (hmode : (w.ino n).mode = (v.ino n).mode)
    (hkept : ∀ m ∈ L, m ≠ n → Kept v w m) : SameNames v w L where
  mode m hm := by
    by_cases hmn : m = n
    · rw [hmn, hmode]
    · rw [(hkept m hm hmn).ino]
  count d hd := (hkept d hd.1 fun heq => hn (heq ▸ hd.2)).entryCount
  entry d hd _ hj := (hkept d hd.1 fun heq => hn (heq ▸ hd.2)).entry hj

/-- A file that has grown changes no name. -/
theorem Grown.sameNames (h : Grown v w sb n) (hown : v.Owns sb L) (hn : n ∈ L)
    (hfile : (v.ino n).mode ≠ 2) : SameNames v w L :=
  .of_file hfile h.mode fun _ hm hne => h.kept hown hn hm hne

/-- Nor does one that has shrunk. -/
theorem Shrunk.sameNames (h : Shrunk v w n size) (hown : v.Owns sb L) (hn : n ∈ L)
    (hfile : (v.ino n).mode ≠ 2) : SameNames v w L :=
  .of_file hfile (by rw [h.ino]; rfl) fun _ hm hne => h.kept hown hn hm hne

/-- A settled write leaves the volume consistent. -/
theorem Consistent.settled (h : v.Consistent sb) (hn : n ∈ v.alloc sb) (hfile : (v.ino n).mode ≠ 2)
    (hset : Settled v w sb n) (hlinks : (w.ino n).linkCount = (v.ino n).linkCount) :
    w.Consistent sb := by
  have hnames : SameNames v w (v.alloc sb) := hset.toGrown.sameNames h.owns hn hfile
  refine (h.solid.settled hn hset).consistent (h.counted.sameNames hnames fun m hm => ?_)
  by_cases hmn : m = n
  · rw [hmn, hlinks]
  · rw [hset.other m hmn]

/-- A truncation leaves the volume consistent. -/
theorem Consistent.truncated (h : v.Consistent sb) (hn : n ∈ v.alloc sb)
    (hfile : (v.ino n).mode ≠ 2) (hsize : size ≤ (v.ino n).size) :
    (v.truncated n size).Consistent sb := by
  have hshrunk := shrunk_truncated (h.owns.ok n hn) hsize
  have hnames := hshrunk.sameNames h.owns hn hfile
  refine (h.solid.truncated hn hfile hsize).consistent (h.counted.sameNames hnames fun m hm => ?_)
  by_cases hmn : m = n
  · rw [hmn, hshrunk.ino]
    rfl
  · rw [hshrunk.other m hmn]

/-! ## A new name -/

/-- The entries of a new directory. -/
theorem newDirectory_entries (hc : c < 2 ^ 32) (hd : d < 2 ^ 32) :
    (v.newDirectory c d b).entryCount c = 2 ∧
    (v.newDirectory c d b).entry c 0 = Entry.of c 2 [0x2E] ∧
    (v.newDirectory c d b).entry c 1 = Entry.of d 2 [0x2E, 0x2E] := by
  have hino : (v.newDirectory c d b).ino c = newDirectoryInode b := setIno_self ..
  have hblock : ∀ i < 64, (v.newDirectory c d b).fileBlock c (i / 64) = b := by
    intro i hi
    rw [Nat.div_eq_of_lt hi, fileBlock, if_pos (by decide), hino, Inode.directAt, dif_pos (by decide)]
    exact newDirectoryInode_direct_zero
  have hdata : (v.newDirectory c d b).data b = newDirectoryBlock c d := by
    simp [newDirectory]
  refine ⟨by rw [entryCount, hino, newDirectoryInode_size], ?_, ?_⟩
  · rw [entry, hblock 0 (by decide), hdata, ← Entry.ofBytes_encodeDirectoryEntry hc (by decide) (by decide)]
    refine Entry.ofBytes_congr fun x hx => ?_
    rw [Block.ptr, newDirectoryBlock, Block.byte_copyBytes, if_neg (by omega),
      Block.byte_copyBytes_of_mem (by omega) (by omega) (by omega)]
    rw [show 0 % 64 * 64 + x - 0 = x by omega]
  · rw [entry, hblock 1 (by decide), hdata, ← Entry.ofBytes_encodeDirectoryEntry hd (by decide) (by decide)]
    refine Entry.ofBytes_congr fun x hx => ?_
    rw [Block.ptr, newDirectoryBlock, Block.byte_copyBytes_of_mem (by omega) (by omega) (by omega)]
    rw [show 1 % 64 * 64 + x - 64 = x by omega]

/-- A prepared directory has its two entries. -/
theorem Prepared.entries (h : v.Prepared sb d c type F v₁) (htype : type = 2) (hc : c < 2 ^ 32)
    (hd : d < 2 ^ 32) : v₁.entryCount c = 2 ∧ v₁.entry c 0 = Entry.of c 2 [0x2E] ∧
      v₁.entry c 1 = Entry.of d 2 [0x2E, 0x2E] := by
  subst htype
  cases h with
  | directory => exact newDirectory_entries hc hd

/-- A name entered for a prepared inode, whether or not the link count is written yet. -/
theorem Prepared.linked (h : v.Prepared sb d c type F v₁) (hgeo : sb.Geometry) (hown : v.Owns sb L)
    (hc : c ∉ L) (hlt : c < sb.totalInodes) (hd : d ∈ L) (hgrown : Grown v₁ w sb d)
    (hhole : v₁.Hole d j) (hplaced : Placed v₁ w d j (Entry.of c type name)) :
    Linked v w L d j c type name := by
  have hbeside := h.beside hown hc
  have hown₁ := hbeside.owns_insert (h.complete hgeo.dataStart_pos) hown hlt
  have hne : c ≠ d := fun heq => hc (heq ▸ hd)
  have hkept : ∀ x ∈ L, x ≠ d → Kept v w x := fun x hx hxd =>
    (hbeside.kept x hx).trans
      (hgrown.kept hown₁ (Finset.mem_insert_of_mem hd) (Finset.mem_insert_of_mem hx) hxd)
  have hkeptd := hbeside.kept d hd
  have hentries := fun htype => h.entries htype (hlt.trans hgeo.totalInodes_lt)
    ((hown.inode_lt d hd).trans hgeo.totalInodes_lt)
  have hkeptc : Kept v₁ w c :=
    hgrown.kept hown₁ (Finset.mem_insert_of_mem hd) (Finset.mem_insert_self c L) hne
  refine
    { mode := fun n hn => ?_
      count := fun x hx hxd => (hkept x hx.1 hxd).entryCount
      entry := fun x hx hxd i hi => (hkept x hx.1 hxd).entry hi
      hole := ⟨?_, fun hj => ?_⟩
      placed := ⟨?_, fun i hi => ?_⟩
      new_mode := by rw [hkeptc.ino, h.record.1]
      new_count := fun htype => ?_
      new_dot := fun htype => ?_
      new_dotdot := fun htype => ?_ }
  · by_cases hnd : n = d
    · rw [hnd, hgrown.mode, hkeptd.ino]
    · rw [(hkept n hn hnd).ino]
  · rw [← hkeptd.entryCount]
    exact hhole.le
  · rw [← hkeptd.entry hj]
    exact hhole.blank (by rwa [hkeptd.entryCount])
  · rw [hplaced.count, hkeptd.entryCount]
  · rw [hplaced.entry i hi]
    split
    · rfl
    · next hij =>
      have hcount := hplaced.count
      have hle := hhole.le
      rw [hkeptd.entryCount] at hcount hle
      exact hkeptd.entry (by omega)
  · rw [hkeptc.entryCount, (hentries htype).1]
  · obtain ⟨hcount, hdot, -⟩ := hentries htype
    rw [hkeptc.entry (by omega), hdot]
  · obtain ⟨hcount, -, hdotdot⟩ := hentries htype
    rw [hkeptc.entry (by omega), hdotdot]

/-- With a new name every inode has one. -/
theorem Linked.named (h : Linked v w L d j c type name)
    (he : v.Enterable sb L parent depth d c type name) (hcount : v.Counted sb L) :
    ∀ n ∈ insert c L, n ≠ sb.rootInode →
      ∃ x i l, w.IsDir (insert c L) x ∧ w.Names x i l n ∧ Proper l := by
  intro n hn hroot
  rcases Finset.mem_insert.1 hn with rfl | hn
  · exact ⟨d, j, name, (h.isDir he).2 (.inl he.dir), h.names_new he, he.proper⟩
  · obtain ⟨x, i, l, hx, hi, hl⟩ := hcount.named n hn hroot
    exact ⟨x, i, l, (h.isDir he).2 (.inl hx), (h.names he hx).2 (.inl hi), hl⟩

/-- A new name counts. -/
theorem Linked.counted (h : Linked v w L d j c type name)
    (he : v.Enterable sb L parent depth d c type name) (hcount : v.Counted sb L)
    (hnew : (w.ino c).linkCount = type)
    (hparent : (w.ino d).linkCount = linksWith type (v.ino d).linkCount)
    (hother : ∀ n ∈ L, n ≠ d → (w.ino n).linkCount = (v.ino n).linkCount) :
    w.Counted sb (insert c L) := by
  have hcd : c ≠ d := fun heq => he.fresh (heq ▸ he.dir.1)
  refine ⟨⟨_, _, h.tree he⟩, h.named he hcount, fun n hn => ?_⟩
  rw [h.refs he]
  rcases Finset.mem_insert.1 hn with rfl | hn
  · rw [hnew, he.tree.refs_notMem he.fresh, if_pos rfl, if_neg hcd]
    rcases he.type_eq with rfl | rfl <;> rfl
  · have hnc : n ≠ c := fun heq => he.fresh (heq ▸ hn)
    rw [if_neg hnc]
    by_cases hnd : n = d
    · subst hnd
      rw [hparent, hcount.links n hn, linksWith, if_pos rfl]
      split <;> omega
    · rw [hother n hn hnd, hcount.links n hn, if_neg hnd]
      split <;> rfl

/-- A creation leaves the volume consistent. -/
theorem Consistent.made (h : v.Consistent sb) (hgeo : sb.Geometry) (hlt : c < sb.totalInodes)
    (hfree : v.imap c = false) (hd : v.IsDir (v.alloc sb) d) (hlabel : Entry.GoodLabel name)
    (hproper : Proper name) (hunused : ∀ i e, ¬ v.Names d i name e)
    (hprep : v.Prepared sb d c type F v₁)
    (hent : v₁.Entered w sb d j (Entry.of c type name) (linksWith type (v.ino d).linkCount)) :
    w.Consistent sb := by
  have hc : c ∉ v.alloc sb := notMem_alloc hfree
  obtain ⟨parent, depth, htree⟩ := h.tree
  have he : v.Enterable sb (v.alloc sb) parent depth d c type name :=
    ⟨htree, hd, hc, hprep.type_eq, hlabel, hproper, hunused⟩
  have hlinked : Linked v w (v.alloc sb) d j c type name :=
    hprep.linked hgeo h.owns hc hlt hd.1 hent.toGrown hent.hole hent.placed
  have hsolid := (hprep.solid hgeo.dataStart_pos h.solid hc hlt).settled
    (Finset.mem_insert_of_mem hd.1) hent.toSettled
  have hcd : c ≠ d := fun heq => hc (heq ▸ hd.1)
  refine hsolid.consistent (hlinked.counted he h.counted ?_ hent.linkCount fun n hn hnd => ?_)
  · rw [hent.other c hcd, hprep.record.2]
  · rw [hent.other n hnd, ((hprep.beside h.owns hc).kept n hn).ino]

/-! ## A name less -/

/-- The entries of a directory without proper names refer to itself and to its parent. -/
theorem Tree.refsIn_empty (htree : v.Tree sb L parent depth) (hc : v.IsDir L c)
    (hempty : ∀ i l e, v.Names c i l e → ¬ Proper l) (hn : n ≠ c) :
    v.refsIn c n = if parent c = n then 1 else 0 := by
  obtain ⟨i, hi⟩ := htree.dotdot c hc
  have hsingle : ∀ k ∈ Finset.range (v.entryCount c), k ≠ i → refersTo (v.entry c k) n = 0 := by
    intro k hk hki
    have hk := Finset.mem_range.1 hk
    rcases htree.entry c hc k hk with hblank | ⟨hused, -, -⟩
    · rw [hblank, refersTo_blank]
    have hnames : v.Names c k (v.entry c k).label (v.entry c k).inode := ⟨hk, hused, rfl, rfl⟩
    rcases not_and_or.1 (hempty k _ _ hnames) with hdot | hdotdot
    · -- `.` names the directory
      obtain ⟨i', hi'⟩ := htree.dot c hc
      rw [not_not.1 hdot] at hnames
      rw [hnames.refersTo, htree.name_unique hc hnames hi', if_neg hn.symm]
    · rw [not_not.1 hdotdot] at hnames
      exact absurd (htree.unique c hc k i _ _ _ hnames hi) hki
  rw [refsIn_eq hc.2, Finset.sum_eq_single i hsingle fun h => absurd (Finset.mem_range.2 hi.1) h,
    hi.refersTo]

/-- A directory with a child is named by itself and by the child. -/
theorem Tree.two_le_refs (htree : v.Tree sb L parent depth) (hd : v.IsDir L d) (hc : v.IsDir L c)
    (hne : c ≠ d) (hparent : parent c = d) : 2 ≤ v.refs L d := by
  obtain ⟨i, hi⟩ := htree.dot d hd
  obtain ⟨k, hk⟩ := htree.dotdot c hc
  have hself : 1 ≤ v.refsIn d d := hi.one_le_refsIn hd.2
  have hchild : 1 ≤ v.refsIn c d := (hparent ▸ hk).one_le_refsIn hc.2
  have hsum := Finset.add_le_sum (f := fun x => v.refsIn x d) (fun _ _ => Nat.zero_le _) hd.1 hc.1
    hne.symm
  exact (Nat.add_le_add hself hchild).trans hsum

/-- The parent of a removed inode has another link count, if need be. -/
theorem unnamed_eq : v.unnamed d j c = (v.clearEntry d j).relink d
    ((v.ino d).linkCount - if (v.ino c).mode = 2 then 1 else 0) := by
  unfold unnamed
  split
  · rfl
  · exact (setIno_eq_self ..).symm

/-- While the inode is released, and after it, its name is gone and the others stay. -/
theorem Releasing.unlinked (hrel : Releasing ((v.clearEntry d j).relink d links) w c)
    (hsolid : v.Solid sb L) (hd : v.IsDir L d) (hj : v.Names d j name c) (hc : c ∈ L) (hne : c ≠ d)
    (hlinks : links ≠ 0) : Unlinked v w L d j c := by
  have hset := settled_clearEntry hsolid.owns hd.1 (hsolid.ends d hd.1) hj.1
  have hsolid₂ := (hsolid.settled hd.1 hset).relink hd.1 hlinks
  have hkept : ∀ n ∈ L, n ≠ c → Kept ((v.clearEntry d j).relink d links) w n := fun n hn hnc =>
    hrel.kept hsolid₂.owns hc hn hnc
  have hkept' : ∀ n ∈ L, n ≠ d → n ≠ c → Kept v w n := fun n hn hnd hnc =>
    ((hset.toGrown.kept hsolid.owns hd.1 hn hnd).trans (.setIno hnd)).trans (hkept n hn hnc)
  have hkeptd := hkept d hd.1 hne.symm
  have hplaced := placed_clearEntry hsolid.owns hd hj.1
  refine
    { mode := fun n hn hnc => ?_
      count := fun x hx hxd hxc => (hkept' x hx.1 hxd hxc).entryCount
      entry := fun x hx hxd hxc i hi => (hkept' x hx.1 hxd hxc).entry hi
      placed := ⟨?_, fun i hi => ?_⟩ }
  · rw [(hkept n hn hnc).ino, relink_ino.1, clearEntry_ino]
  · rw [hkeptd.entryCount, relink_entryCount, hplaced.count]
  · rw [hkeptd.entryCount, relink_entryCount] at hi
    rw [hkeptd.entry (by rwa [relink_entryCount]), relink_entry, hplaced.entry i hi]

/-- What `unlink_locked` removes has no other name. -/
theorem Consistent.removable (h : v.Consistent sb) (hsingle : (v.ino c).mode = 1 → (v.ino c).linkCount = 1)
    (htree : v.Tree sb (v.alloc sb) parent depth) (hd : v.IsDir (v.alloc sb) d)
    (hj : v.Names d j name c) (hproper : Proper name) (hroot : c ≠ sb.rootInode)
    (hempty : (v.ino c).mode = 2 → v.empty sb (v.ino c) = .ok ()) :
    v.Removable sb (v.alloc sb) parent depth d j c name := by
  have hc : c ∈ v.alloc sb := htree.names_mem hd hj
  refine ⟨htree, hd, hj, hproper, hroot, ?_⟩
  by_cases hmode : (v.ino c).mode = 2
  · exact htree.last_dir h.named hd hj hproper ⟨hc, hmode⟩ hroot
      (empty_eq_ok h.owns ⟨hc, hmode⟩ (hempty hmode))
  · have hrefs : v.refs (v.alloc sb) c = 1 := by
      rw [← h.links c hc]
      exact hsingle ((h.owns.ok c hc).regular hmode)
    exact fun x hx _ => last_file hd hj hrefs x hx

/-- The references an inode loses with the removed one. -/
theorem Removable.refsIn_removed (h : v.Removable sb L parent depth d j c name)
    (hempty : (v.ino c).mode = 2 → ∀ i l e, v.Names c i l e → ¬ Proper l) (hn : n ≠ c) :
    v.refsIn c n = if n = d ∧ (v.ino c).mode = 2 then 1 else 0 := by
  have hc : c ∈ L := h.tree.names_mem h.dir h.names
  by_cases hmode : (v.ino c).mode = 2
  · obtain ⟨-, hparent, -⟩ := h.tree.child d h.dir j name c h.names h.proper ⟨hc, hmode⟩
    rw [h.tree.refsIn_empty ⟨hc, hmode⟩ (hempty hmode) hn, hparent]
    simp only [hmode, and_true, eq_comm]
  · rw [refsIn_file hmode, if_neg fun hboth => hmode hboth.2]

variable (h : v.Consistent sb)
include h

/-- Without the removed name every other inode still has one. -/
theorem Consistent.named_unlinked (hun : Unlinked v w (v.alloc sb) d j c)
    (hr : v.Removable sb (v.alloc sb) parent depth d j c name)
    (hempty : (v.ino c).mode = 2 → v.empty sb (v.ino c) = .ok ()) : ∀ n ∈ (v.alloc sb).erase c,
      n ≠ sb.rootInode → ∃ d j l, w.IsDir ((v.alloc sb).erase c) d ∧ w.Names d j l n ∧ Proper l := by
  intro n hn hnroot
  obtain ⟨hnc, hn⟩ := Finset.mem_erase.1 hn
  obtain ⟨x, i, l, hx, hi, hl⟩ := h.named n hn hnroot
  have hxc : x ≠ c := by
    rintro rfl
    exact empty_eq_ok h.owns hx (hempty hx.2) i l n hi hl
  exact ⟨x, i, l, hun.isDir.2 ⟨hx, hxc⟩, hun.names_of_ne hr hx hxc hi hnc, hl⟩

/-- The references that are left, and the one to the parent that is not. -/
theorem Consistent.refs_unlinked (hun : Unlinked v w (v.alloc sb) d j c)
    (hr : v.Removable sb (v.alloc sb) parent depth d j c name)
    (hempty : (v.ino c).mode = 2 → v.empty sb (v.ino c) = .ok ()) (hn : n ∈ (v.alloc sb).erase c) :
    (v.ino n).linkCount =
      w.refs ((v.alloc sb).erase c) n + if n = d ∧ (v.ino c).mode = 2 then 1 else 0 := by
  obtain ⟨hnc, hn⟩ := Finset.mem_erase.1 hn
  have hc : c ∈ v.alloc sb := hr.tree.names_mem hr.dir hr.names
  have hrefs := hun.refs hr (n := n)
  rwa [if_neg hnc.symm, hr.refsIn_removed (fun hmode => empty_eq_ok h.owns ⟨hc, hmode⟩ (hempty hmode)) hnc,
    ← h.links n hn] at hrefs

variable (hd : v.IsDir (v.alloc sb) d) (hj : v.Names d j name c) (hproper : Proper name)
include hd hj hproper

/-- The parent keeps a link when an entry of it is removed. -/
theorem Consistent.links_left : (v.ino d).linkCount - (if (v.ino c).mode = 2 then 1 else 0) ≠ 0 := by
  obtain ⟨parent, depth, htree⟩ := h.tree
  have hpos := (h.owns.ok d hd.1).linkCount
  split
  · next hmode =>
    have hc : v.IsDir (v.alloc sb) c := ⟨htree.names_mem hd hj, hmode⟩
    obtain ⟨-, hparent, -⟩ := htree.child d hd j name c hj hproper hc
    have htwo := htree.two_le_refs hd hc (htree.names_ne hd hj hproper) hparent
    rw [← h.links d hd.1] at htwo
    omega
  · exact hpos

/-- A removal leaves the storage in order. -/
theorem Consistent.solid_unlinked : (v.unlinked d j c).Solid sb ((v.alloc sb).erase c) := by
  obtain ⟨parent, depth, htree⟩ := h.tree
  have hset := settled_clearEntry h.owns hd.1 (h.pointer_zero d hd.1) hj.1
  have hsolid := ((h.solid.settled hd.1 hset).relink hd.1 (h.links_left hd hj hproper)).released
    (htree.names_mem hd hj)
  rwa [← unnamed_eq] at hsolid

/-- What a removal does to the names. -/
theorem Consistent.unlinked_unlinked : Unlinked v (v.unlinked d j c) (v.alloc sb) d j c := by
  obtain ⟨parent, depth, htree⟩ := h.tree
  have hrel : Releasing ((v.clearEntry d j).relink d
      ((v.ino d).linkCount - if (v.ino c).mode = 2 then 1 else 0)) (v.unlinked d j c) c := by
    rw [← unnamed_eq]
    exact releasing_released
  exact hrel.unlinked h.solid hd hj (htree.names_mem hd hj) (htree.names_ne hd hj hproper)
    (h.links_left hd hj hproper)

variable (hroot : c ≠ sb.rootInode) (hempty : (v.ino c).mode = 2 → v.empty sb (v.ino c) = .ok ())
include hroot hempty

/-- A removal leaves the volume consistent, if a regular file had no other name. -/
theorem Consistent.removed (hsingle : (v.ino c).mode = 1 → (v.ino c).linkCount = 1) :
    (v.unlinked d j c).Consistent sb := by
  obtain ⟨parent, depth, htree⟩ := h.tree
  have hr := h.removable hsingle htree hd hj hproper hroot hempty
  have hc : c ∈ v.alloc sb := htree.names_mem hd hj
  have hlinks := h.links_left hd hj hproper
  have hsolid := h.solid_unlinked hd hj hproper
  have hrel : Releasing ((v.clearEntry d j).relink d
      ((v.ino d).linkCount - if (v.ino c).mode = 2 then 1 else 0)) (v.unlinked d j c) c := by
    rw [← unnamed_eq]
    exact releasing_released
  have hun := h.unlinked_unlinked hd hj hproper
  refine Solid.consistent hsolid ⟨⟨parent, depth, hun.tree hr⟩, h.named_unlinked hun hr hempty, fun n hn => ?_⟩
  have hnc := Finset.ne_of_mem_erase hn
  have hrefs := h.refs_unlinked hun hr hempty hn
  rw [show (v.unlinked d j c).ino n = _ from hrel.ino n hnc]
  by_cases hnd : n = d
  · subst hnd
    rw [relink_self]
    simp only [true_and] at hrefs
    dsimp only
    omega
  · rw [relink_of_ne hnd, clearEntry_ino]
    rw [if_neg fun hboth => hnd hboth.1] at hrefs
    omega

/-- A removed file that had another name leaves an entry for an inode that is not allocated. -/
theorem Consistent.removed_iff :
    (v.unlinked d j c).Consistent sb ↔ ((v.ino c).mode = 1 → (v.ino c).linkCount = 1) := by
  refine ⟨fun h' hmode => ?_, h.removed hd hj hproper hroot hempty⟩
  obtain ⟨parent, depth, htree⟩ := h.tree
  obtain ⟨parent', depth', htree'⟩ := h'.tree
  have hun := h.unlinked_unlinked hd hj hproper
  have hc := htree.names_mem hd hj
  have himap : (v.unlinked d j c).imap c = false := setI_self ..
  rw [h.links c hc]
  refine htree.refs_of_last hd hj fun x hx i l hi => ?_
  by_contra hother
  have hxc : x ≠ c := by
    rintro rfl
    rw [hx.2] at hmode
    cases hmode
  -- the other entry is still there
  have hnames : (v.unlinked d j c).Names x i l c := by
    by_cases hxd : x = d
    · subst hxd
      have hij : i ≠ j := fun hij => hother ⟨rfl, hij⟩
      have hlt : i < (v.unlinked x j c).entryCount x := by
        rw [hun.placed.count]
        exact hi.1.trans_le (le_max_left _ _)
      refine ⟨hlt, ?_⟩
      rw [hun.placed.entry i hlt, if_neg hij]
      exact hi.2
    · refine ⟨by rw [hun.count x hx hxd hxc]; exact hi.1, ?_⟩
      rw [hun.entry x hx hxd hxc i hi.1]
      exact hi.2
  have hx' : (v.unlinked d j c).IsDir ((v.unlinked d j c).alloc sb) x := by
    rw [(h.solid_unlinked hd hj hproper).alloc_eq]
    exact hun.isDir.2 ⟨hx, hxc⟩
  exact notMem_alloc himap (htree'.names_mem hx' hnames)

end Vol

end MiniOrange
