import MiniOrange.Fs.Resolve

/-!
# Stopping between two writes

An operation writes several blocks, and the machine may stop after any of them. `Vol.Leaky` says what is then
found: the inodes that the root leads to form a tree, are allocated and well formed, and own their blocks; what
may be wrong is that blocks and inodes are marked that nothing leads to, that a link count is off by one, and
that pointers behind the end of a file are left. Each of the volumes between the writes of an operation is of
this kind: those with a file half grown or half cut (`Consistent.leaky_grown`, `leaky_shrunk`), with a new inode
beside the tree or just entered (`leaky_beside`, `leaky_entering`), and with one taken out of it and half released
(`leaky_removing`).
-/

namespace MiniOrange

namespace Vol

variable {v v₁ w : Vol} {sb : Superblock} {L F : Finset Nat} {parent depth : Nat → Nat}
  {c d j n type links : Nat} {name : List UInt8}

/-- An entry of a directory that the root leads to leads to the inode. -/
inductive Reachable (v : Vol) (sb : Superblock) : Nat → Prop
  | root : Reachable v sb sb.rootInode
  | entry {d j l c} : Reachable v sb d → (v.ino d).mode = 2 → v.Names d j l c → Reachable v sb c

/-- A volume whose only damage is leaked blocks and inodes, link counts off by one, and what lies behind the end
of files. -/
structure Leaky (v : Vol) (sb : Superblock) (L : Finset Nat) : Prop where
  owns : v.Owns sb L
  tree : ∃ parent depth, v.Tree sb L parent depth
  named : ∀ n ∈ L, n ≠ sb.rootInode → ∃ d j l, v.IsDir L d ∧ v.Names d j l n ∧ Proper l
  links : ∀ n ∈ L, (v.ino n).linkCount ≤ v.refs L n + 1 ∧ v.refs L n ≤ (v.ino n).linkCount + 1
  reserved : ∀ b < sb.dataStart, v.bmap b = true

namespace Leaky

/-- What the root leads to is in the set. -/
theorem mem_of_reachable (h : v.Leaky sb L) (hn : v.Reachable sb n) : n ∈ L := by
  obtain ⟨parent, depth, htree⟩ := h.tree
  induction hn with
  | root => exact htree.root.1
  | entry _ hmode hj ih => exact htree.names_mem ⟨ih, hmode⟩ hj

/-- The root leads to every directory of the set, since its parent lies less deep. -/
theorem reachable_dir (h : v.Leaky sb L) (htree : v.Tree sb L parent depth) :
    ∀ {n}, v.IsDir L n → v.Reachable sb n := by
  intro n hn
  induction hdepth : depth n using Nat.strong_induction_on generalizing n with
  | _ k ih =>
    by_cases hroot : n = sb.rootInode
    · rw [hroot]
      exact .root
    · obtain ⟨d, j, l, hd, hj, hl⟩ := h.named n hn.1 hroot
      obtain ⟨-, -, hlt⟩ := htree.child d hd j l n hj hl hn
      exact .entry (ih (depth d) (by omega) hd rfl) hd.2 hj

/-- The set is what the root leads to. -/
theorem mem_iff (h : v.Leaky sb L) : n ∈ L ↔ v.Reachable sb n := by
  refine ⟨fun hn => ?_, h.mem_of_reachable⟩
  obtain ⟨parent, depth, htree⟩ := h.tree
  by_cases hroot : n = sb.rootInode
  · rw [hroot]
    exact .root
  · obtain ⟨d, j, l, hd, hj, -⟩ := h.named n hn hroot
    exact .entry (h.reachable_dir htree hd) hd.2 hj

end Leaky

section
variable (h : v.Consistent sb)
include h

/-- The reserved blocks of a consistent volume are marked. -/
theorem Consistent.reserved (hgeo : sb.Geometry) : ∀ b < sb.dataStart, v.bmap b = true :=
  fun b hb => (h.marked b (hb.trans hgeo.dataStart_lt)).2 (.inl hb)

/-! ## Between the writes -/

/-- A change that leaves the names and the link counts. -/
theorem Consistent.leaky_sameNames (hown : w.Owns sb (v.alloc sb))
    (hnames : SameNames v w (v.alloc sb)) (hlinks : ∀ n ∈ v.alloc sb, (w.ino n).linkCount = (v.ino n).linkCount)
    (hreserved : ∀ b < sb.dataStart, w.bmap b = true) : w.Leaky sb (v.alloc sb) := by
  have hcounted := h.counted.sameNames hnames hlinks
  exact ⟨hown, hcounted.tree, hcounted.named, fun n hn => by rw [hcounted.links n hn]; omega, hreserved⟩

theorem Consistent.leaky (hgeo : sb.Geometry) : v.Leaky sb (v.alloc sb) :=
  h.leaky_sameNames h.owns (.of_kept fun n _ => .refl v n) (fun _ _ => rfl) (h.reserved hgeo)

/-- In a write. -/
theorem Consistent.leaky_grown (hgeo : sb.Geometry) (hn : v.IsFile (v.alloc sb) n)
    (hgrown : Grown v w sb n) (hlinks : (w.ino n).linkCount = (v.ino n).linkCount) : w.Leaky sb (v.alloc sb) := by
  have hfile : (v.ino n).mode ≠ 2 := by
    rw [hn.2]
    decide
  refine h.leaky_sameNames (hgrown.owns h.owns hn.1) (hgrown.sameNames h.owns hn.1 hfile) (fun m hm => ?_)
    fun b hb => hgrown.mark b (h.reserved hgeo b hb)
  by_cases hmn : m = n
  · rw [hmn, hlinks]
  · rw [hgrown.other m hmn]

/-- In a truncation. -/
theorem Consistent.leaky_shrunk (hgeo : sb.Geometry) (hn : v.IsFile (v.alloc sb) n)
    {size : Nat} (hsize : size ≤ (v.ino n).size) (hshrunk : Shrunk v w n size) : w.Leaky sb (v.alloc sb) := by
  have hfile : (v.ino n).mode ≠ 2 := by
    rw [hn.2]
    decide
  refine h.leaky_sameNames (hshrunk.owns h.owns hn.1 hfile hsize) (hshrunk.sameNames h.owns hn.1 hfile)
    (fun m hm => ?_) fun b hb => ?_
  · by_cases hmn : m = n
    · rw [hmn, hshrunk.ino]
      rfl
    · rw [hshrunk.other m hmn]
  · rcases hshrunk.bmap b with hsame | ⟨-, t, ht, -, rfl⟩
    · rw [hsame, h.reserved hgeo b hb]
    · exact absurd (h.owns.slot_valid hn.1 ht).1 (Nat.not_le.2 hb)

/-- With a new inode that has no name yet. -/
theorem Consistent.leaky_beside (hgeo : sb.Geometry)
    (hbeside : Beside v w sb (v.alloc sb) c F) : w.Leaky sb (v.alloc sb) :=
  h.leaky_sameNames (hbeside.owns h.owns) (.of_kept hbeside.kept)
    (fun n hn => by rw [(hbeside.kept n hn).ino])
    fun b hb => (hbeside.bmap b).2 (.inl (h.reserved hgeo b hb))

end

/-- A new name that is written, with the link count of the parent written or not. -/
theorem Linked.leaky (hlinked : Linked v w L d j c type name) (hown : w.Owns sb (insert c L))
    (he : v.Enterable sb L parent depth d c type name) (hcount : v.Counted sb L)
    (hnew : (w.ino c).linkCount = type)
    (hparent : (w.ino d).linkCount = (v.ino d).linkCount ∨
      (w.ino d).linkCount = linksWith type (v.ino d).linkCount)
    (hother : ∀ n ∈ L, n ≠ d → (w.ino n).linkCount = (v.ino n).linkCount)
    (hreserved : ∀ b < sb.dataStart, w.bmap b = true) : w.Leaky sb (insert c L) := by
  have hcd : c ≠ d := fun heq => he.fresh (heq ▸ he.dir.1)
  refine ⟨hown, ⟨_, _, hlinked.tree he⟩, hlinked.named he hcount, fun n hn => ?_, hreserved⟩
  rw [hlinked.refs he]
  rcases Finset.mem_insert.1 hn with rfl | hn
  · rw [hnew, he.tree.refs_notMem he.fresh, if_pos rfl, if_neg hcd]
    rcases he.type_eq with rfl | rfl
    · exact ⟨by decide, by decide⟩
    · exact ⟨by decide, by decide⟩
  · have hnc : n ≠ c := fun heq => he.fresh (heq ▸ hn)
    rw [if_neg hnc]
    by_cases hnd : n = d
    · subst hnd
      rw [if_pos rfl, ← hcount.links n hn]
      unfold linksWith at hparent
      split at hparent
      · next htype =>
        rw [if_pos htype]
        omega
      · next htype =>
        rw [if_neg htype]
        omega
    · rw [hother n hn hnd, hcount.links n hn, if_neg hnd]
      split
      · omega
      · omega

/-- On the way to a new name. -/
theorem Consistent.leaky_entering (h : v.Consistent sb) (hgeo : sb.Geometry) (hvacant : v.Vacant sb d name)
    (hlt : c < sb.totalInodes) (hfree : v.imap c = false) (hprep : v.Prepared sb d c type F v₁)
    (hgrown : Grown v₁ w sb d)
    (hentering : v₁.Entering w d (Entry.of c type name) (linksWith type (v.ino d).linkCount)) :
    ∃ L, w.Leaky sb L := by
  obtain ⟨parent, depth, htree⟩ := h.tree
  have hd := hvacant.dir
  have hc : c ∉ v.alloc sb := notMem_alloc hfree
  have hcd : c ≠ d := fun heq => hc (heq ▸ hd.1)
  have hbeside := hprep.beside h.owns hc
  have hown₁ : v₁.Owns sb (insert c (v.alloc sb)) :=
    hbeside.owns_insert (hprep.complete hgeo.dataStart_pos) h.owns hlt
  have hd₁ : d ∈ insert c (v.alloc sb) := Finset.mem_insert_of_mem hd.1
  have hreserved : ∀ b < sb.dataStart, w.bmap b = true := fun b hb =>
    hgrown.mark b ((hbeside.bmap b).2 (.inl (h.reserved hgeo b hb)))
  rcases hentering with hsame | ⟨j, hhole, hplaced, hlinks⟩
  · -- the directory is as it was
    have hkept : ∀ n ∈ v.alloc sb, Kept v w n := fun n hn => by
      refine (hbeside.kept n hn).trans ?_
      by_cases hnd : n = d
      · rw [hnd]
        exact hgrown.kept_self hown₁ hd₁ hsame
      · exact hgrown.kept hown₁ hd₁ (Finset.mem_insert_of_mem hn) hnd
    refine ⟨v.alloc sb, h.leaky_sameNames (h.owns.congr fun n hn => (hkept n hn).toSameFile) (.of_kept hkept)
      (fun n hn => by rw [(hkept n hn).ino]) hreserved⟩
  · have he : v.Enterable sb (v.alloc sb) parent depth d c type name :=
      ⟨htree, hd, hc, hprep.type_eq, hvacant.label, hvacant.proper, h.unused hvacant⟩
    have hlinked : Linked v w (v.alloc sb) d j c type name :=
      hprep.linked hgeo h.owns hc hlt hd.1 hgrown hhole hplaced
    refine ⟨insert c (v.alloc sb), hlinked.leaky (hgrown.owns hown₁ hd₁) he h.counted ?_ ?_ (fun n hn hnd => ?_)
      hreserved⟩
    · rw [hgrown.other c hcd, hprep.record.2]
    · rwa [(hbeside.kept d hd.1).ino] at hlinks
    · rw [hgrown.other n hnd, (hbeside.kept n hn).ino]

/-- With the name gone, and the inode released in part or in whole. -/
theorem Consistent.leaky_removing (h : v.Consistent sb) (hgeo : sb.Geometry)
    (hsingle : (v.ino c).mode = 1 → (v.ino c).linkCount = 1) (hd : v.IsDir (v.alloc sb) d)
    (hj : v.Names d j name c) (hproper : Proper name) (hroot : c ≠ sb.rootInode)
    (hempty : (v.ino c).mode = 2 → v.empty sb (v.ino c) = .ok ())
    (hlinks : links = (v.ino d).linkCount ∨
      links = (v.ino d).linkCount - if (v.ino c).mode = 2 then 1 else 0)
    (hrel : Releasing ((v.clearEntry d j).relink d links) w c) : w.Leaky sb ((v.alloc sb).erase c) := by
  obtain ⟨parent, depth, htree⟩ := h.tree
  have hr := h.removable hsingle htree hd hj hproper hroot hempty
  have hc : c ∈ v.alloc sb := htree.names_mem hd hj
  have hcd := htree.names_ne hd hj hproper
  have hleft := h.links_left hd hj hproper
  have hnonzero : links ≠ 0 := by
    rcases hlinks with rfl | rfl
    · exact (h.owns.ok d hd.1).linkCount
    · exact hleft
  have hset := settled_clearEntry h.owns hd.1 (h.pointer_zero d hd.1) hj.1
  have hsolid := (h.solid.settled hd.1 hset).relink hd.1 hnonzero
  have hun := hrel.unlinked h.solid hd hj hc hcd hnonzero
  have hkept : ∀ n ∈ (v.alloc sb).erase c, Kept ((v.clearEntry d j).relink d links) w n := fun n hn =>
    hrel.kept hsolid.owns hc (Finset.mem_of_mem_erase hn) (Finset.ne_of_mem_erase hn)
  refine ⟨?_, ⟨parent, depth, hun.tree hr⟩, h.named_unlinked hun hr hempty, fun n hn => ?_, fun b hb => ?_⟩
  · exact (hsolid.owns.mono (Finset.erase_subset _ _)).congr fun n hn => (hkept n hn).toSameFile
  · have hrefs := h.refs_unlinked hun hr hempty hn
    rw [(hkept n hn).ino]
    by_cases hnd : n = d
    · subst hnd
      rw [relink_self]
      dsimp only
      simp only [true_and] at hrefs
      split at hrefs
      · next hdir =>
        rw [if_pos hdir] at hlinks
        omega
      · next hfile =>
        rw [if_neg hfile] at hlinks
        omega
    · rw [relink_of_ne hnd, clearEntry_ino]
      rw [if_neg fun hboth => hnd hboth.1] at hrefs
      omega
  · rcases hrel.bmap b with hsame | ⟨-, t, ht, rfl⟩
    · rw [hsame]
      exact (hsolid.marked b (hb.trans hgeo.dataStart_lt)).2 (.inl hb)
    · exact absurd (hsolid.owns.slot_valid hc ht).1 (Nat.not_le.2 hb)

end Vol

/-! ## The operations -/

variable {sb : Superblock} {v : Vol} {s : Machine} {α : Type}

namespace Serving

/-- The mounted volume, with a property to be kept at every point where the machine may stop. -/
def envOf (h : Serving sb v s) (safe : Vol → Prop) : Env := sb.env h.geometry (s.volume 0) safe

theorem onOf {safe : Vol → Prop} (h : Serving sb v s) (hsafe : safe v) (hhistory : s.history = []) :
    On (h.envOf safe) .quiet v s.buffers.auxiliaryBlock s.buffers.compareBuffer s :=
  { h.on with
    safe := hsafe
    history := fun d hd => by
      rw [hhistory] at hd
      cases hd }

/-- What is kept at every point holds of the volume after each write, and of the last. -/
theorem stops {m : Fs α} {P : α → Level → Vol → Prop} {safe : Vol → Prop} (h : Serving sb v s)
    (hm : wp m (Ends (h.envOf safe) .quiet P) s) :
    wp (do let _ ← m) (fun _ s' => ∀ d ∈ s'.volume :: s'.history, safe (Vol.ofDisk sb d)) s := by
  refine wp.bind hm ?_
  intro r s' ⟨ℓ', v', aux, cmp, _, _, h'⟩ d hd
  have hvolume : Vol.ofDisk sb s'.volume = v' := h'.volume
  rcases List.mem_cons.1 hd with rfl | hd
  · show safe (Vol.ofDisk sb s'.volume)
    rw [hvolume]
    exact h'.safe
  · exact (h'.history d hd).2

/-- A path that is removed leads to a file without another name. -/
def SingleAt (v : Vol) (sb : Superblock) : Op → Prop
  | .unlink path => ∀ stat, v.lookup sb path = .ok stat → stat.mode = 1 → stat.linkCount = 1
  | _ => True

/-- A truncation leaves nothing. -/
def Empties : Op → Prop
  | .truncate _ size => size = 0
  | _ => True

/-- Wherever an operation stops, it leaves a volume with leaks only. -/
theorem crash (h : Serving sb v s) (hv : v.Consistent sb) (hhistory : s.history = []) {op : Op}
    (hempties : Empties op) (hsingle : SingleAt v sb op) :
    wp op.exec (fun _ s' => ∀ d ∈ s'.volume :: s'.history, ∃ L, (Vol.ofDisk sb d).Leaky sb L) s := by
  have hgeo := h.geometry
  have hquiet : Level.quiet ≠ .any := nofun
  have hstart : ∃ L, v.Leaky sb L := ⟨_, hv.leaky hgeo⟩
  let E := h.envOf fun v => ∃ L, v.Leaky sb L
  have hon : On E .quiet v _ _ s := h.onOf hstart hhistory
  have hbeside : E.SafeBeside v := fun _ _ _ _ hbeside => ⟨_, hv.leaky_beside hgeo hbeside⟩
  have hentering : ∀ type, E.SafeEntering v type :=
    fun _ _ _ _ _ _ _ hvacant hlt hfree hprep hgrown hentering =>
      hv.leaky_entering hgeo hvacant hlt hfree hprep hgrown hentering
  have hsound := hv.sound
  obtain ⟨parent, depth, htree⟩ := hv.tree
  cases op with
  | create path => exact h.stops (On.minifsCreate hquiet hsound hbeside (hentering 1) hon path)
  | mkdir path => exact h.stops (On.minifsMkdir hquiet hsound hbeside (hentering 2) hon path)
  | unlink path =>
    refine h.stops (hon.minifsUnlink hsound htree path fun d j name c hres hd hj hproper hroot hempty => ?_)
    have hone := hsingle _ (Vol.lookup_of_resolveParent hv hres hj)
    have hcleared : (v.clearEntry d j).relink d (v.ino d).linkCount = v.clearEntry d j := Vol.setIno_eq_self ..
    refine ⟨⟨_, hv.leaky_removing hgeo hone hd hj hproper hroot hempty (.inl rfl) ?_⟩, fun w hrel => ?_⟩
    · rw [hcleared]
      exact .refl _ c
    rw [Vol.unnamed_eq] at hrel
    exact ⟨_, hv.leaky_removing hgeo hone hd hj hproper hroot hempty (.inr rfl) hrel⟩
  | write n offset source =>
    exact h.stops (hon.minifsWrite hquiet hsound.owns hsound.ends fun v' hn hgrown hlinks =>
      ⟨_, hv.leaky_grown hgeo hn hgrown hlinks⟩)
  | truncate n size =>
    obtain rfl : size = 0 := hempties
    refine h.stops (hon.minifsTruncate hsound.owns fun hn hsize => ⟨fun hmany => ?_, fun w hshrunk => ?_⟩)
    · exact absurd hmany (by decide)
    · exact ⟨_, hv.leaky_shrunk hgeo hn hsize.le hshrunk⟩
  | lookup path => exact h.stops (hon.minifsLookup path)
  | statInode n => exact h.stops (hon.minifsStatInode n)
  | readdir n offset => exact h.stops (hon.minifsReaddir n offset)
  | read n offset length => exact h.stops (hon.minifsRead n offset length)

end Serving

end MiniOrange
