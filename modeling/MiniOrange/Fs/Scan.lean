import MiniOrange.Logic.Cursor
import MiniOrange.Logic.Run
import MiniOrange.Fs.Crash
import MiniOrange.Tools.Upkeep

/-!
# Listing a directory that changes

A process lists a directory by calls of `minifs_readdir`, each with the offset that the one before returned, until a call returns
0, while names are made and removed. Entries are not moved: a new name takes the first hole or comes at the end, and removing
a name leaves a hole (`Vol.Stays`), so that the directory is a shelf that is read through. What breaks a listing is the
removal of a regular file that has a second name, which leaves that name to a free inode.
-/

namespace MiniOrange

namespace Vol

variable {v w : Vol} {sb : Superblock} {c d i j type : Nat} {l name path : List UInt8} {ℓ' : Level} {α : Type}

/-! ## What stays in a directory -/

/-- The directory `d` is still there, and an entry of it is still in its place, or its name is gone. -/
structure Stays (v w : Vol) (sb : Superblock) (d : Nat) : Prop where
  consistent : w.Consistent sb
  dir : w.IsDir (w.alloc sb) d
  count_le : v.entryCount d ≤ w.entryCount d
  names : ∀ {i l c}, v.Names d i l c →
    (w.Names d i l c ∧ (w.ino c).mode = (v.ino c).mode) ∨ ∀ i' c', ¬ w.Names d i' l c'

/-- The entries of a directory in their places. -/
def shelf (v : Vol) (d : Nat) : Shelf Dirent where
  slot i := if i < v.entryCount d ∧ (v.entry d i).type ≠ 0 then some (v.direntOf d i) else none
  count := v.entryCount d

theorem shelf_slot {i : Nat} {a : Dirent} : (v.shelf d).slot i = some a ↔
    i < v.entryCount d ∧ (v.entry d i).type ≠ 0 ∧ v.direntOf d i = a := by
  unfold shelf
  dsimp only
  split
  · next h => simp [h]
  · next h =>
    simp only [reduceCtorEq, false_iff]
    exact fun h' => h ⟨h'.1, h'.2.1⟩

section

variable (hv : v.Consistent sb) (hd : v.IsDir (v.alloc sb) d)
include hv hd

theorem Stays.refl : Stays v v sb d :=
  ⟨hv, hd, le_rfl, fun h => .inl ⟨h, rfl⟩⟩

/-- A call that has undone what it did. -/
theorem Same.stays (hsame : Same v w (v.alloc sb)) : Stays v w sb d := by
  have hw := hv.same hsame
  have halloc : w.alloc sb = v.alloc sb := alloc_congr hsame.imap
  have hkept := hsame.kept d hd.1
  have hcount : w.entryCount d = v.entryCount d := hkept.entryCount
  refine ⟨hw, ⟨by rw [halloc]; exact hd.1, by rw [hkept.ino]; exact hd.2⟩, hcount.ge, fun {i l c} h => ?_⟩
  refine .inl ⟨⟨hcount ▸ h.1, ?_⟩, by rw [hsame.ino]⟩
  rw [hkept.entry h.1]
  exact h.2

/-- `minifs_create` and `minifs_mkdir`. -/
theorem CreateEffect.stays {value : Nat → α} {r : Except Errno α} (h : CreateEffect sb .quiet v path type value r ℓ' w)
    (hgeo : sb.Geometry) : Stays v w sb d := by
  cases h with
  | refused => exact .refl hv hd
  | named d' name _ _ _ hres hvacant hmake =>
  cases hmake with
  | undone _ _ _ hsame => exact hsame.stays hv hd
  | leaked _ _ _ _ hs => cases hs
  | made c j F v₁ _ hlt hfree hprep hent =>
  obtain ⟨parent, depth, htree⟩ := hv.tree
  have hc : c ∉ v.alloc sb := notMem_alloc hfree
  have he : v.Enterable sb (v.alloc sb) parent depth d' c type name :=
    ⟨htree, hvacant.dir, hc, hprep.type_eq, hvacant.label, hvacant.proper, hv.unused hvacant⟩
  have hlinked : Linked v w (v.alloc sb) d' j c type name :=
    hprep.linked hgeo hv.owns hc hlt hvacant.dir.1 hent.toGrown hent.hole hent.placed
  have hw : w.Consistent sb := hv.made hgeo hlt hfree hvacant.dir hvacant.label hvacant.proper (hv.unused hvacant) hprep hent
  have hsolid := (hprep.solid hgeo.dataStart_pos hv.solid hc hlt).settled
    (Finset.mem_insert_of_mem hvacant.dir.1) hent.toSettled
  have hpruned := hlinked.pruned hv.owns hsolid.owns he
  have hold : ∀ {n}, n ∈ v.alloc sb → n ∈ (insert c (v.alloc sb)).erase c := fun hn => by rwa [Finset.erase_insert hc]
  have hdw : w.IsDir (w.alloc sb) d := by
    rw [hsolid.alloc_eq]
    exact (hlinked.isDir he).2 (.inl hd)
  refine ⟨hw, hdw, ?_, fun {i l m} hi => .inl ⟨?_, ?_⟩⟩
  · by_cases hdd : d = d'
    · subst hdd
      rw [hlinked.placed.count]
      exact le_max_left _ _
    · exact (hlinked.count d hd hdd).ge
  · exact hpruned.names_of (hold hd.1) hdw.2 hi
  · exact (hpruned.mode m (hold (htree.names_mem hd hi))).symm

/-- `minifs_unlink` of a path that leads to a directory or to a regular file with no other name. -/
theorem UnlinkEffect.stays {r : Except Errno Unit} (h : UnlinkEffect sb v path r ℓ' w)
    (hsingle : Serving.SingleAt v sb (.unlink path))
    (hbeside : v.ParentOf sb path d ∨ ∀ stat, v.lookup sb path = .ok stat → stat.inode ≠ d) : Stays v w sb d := by
  cases h with
  | refused => exact .refl hv hd
  | removed d' name j c _ hres hj hroot hempty =>
  obtain ⟨parent, depth, htree⟩ := hv.tree
  obtain ⟨init, hparse, hwalk, hread, hmode, -, hproper⟩ := resolveParent_eq_ok hres
  obtain ⟨hlt, himap, -, -⟩ := readInode_eq_ok.1 hread
  have hd' : v.IsDir (v.alloc sb) d' := ⟨mem_alloc.2 ⟨hlt, himap⟩, hmode⟩
  have hlookup := lookup_of_resolveParent hv hres hj
  have hw := hv.removed hd' hj hproper hroot hempty (hsingle _ hlookup)
  have hpruned := hv.pruned_unlinked hd' hj hproper hroot
  have hun := hv.unlinked_unlinked hd' hj hproper
  have hdc : d ≠ c := by
    rcases hbeside with ⟨init', name', hparse', hwalk'⟩ | hother
    · obtain ⟨rfl, -⟩ := List.append_inj' (Prod.mk.inj (Except.ok.inj (hparse.symm.trans hparse'))).1 rfl
      obtain rfl : d' = d := Except.ok.inj (hwalk.symm.trans hwalk')
      exact (htree.names_ne hd' hj hproper).symm
    · exact fun heq => hother _ hlookup heq.symm
  have hdmem : d ∈ (v.alloc sb).erase c := Finset.mem_erase.2 ⟨hdc, hd.1⟩
  have halloc : (v.unlinked d' j c).alloc sb = (v.alloc sb).erase c := (hv.solid_unlinked hd' hj hproper).alloc_eq
  have hdw : (v.unlinked d' j c).IsDir ((v.unlinked d' j c).alloc sb) d := by
    rw [halloc]
    exact ⟨hdmem, (hpruned.mode d hdmem).trans hd.2⟩
  refine ⟨hw, hdw, ?_, fun {i l m} hi => ?_⟩
  · by_cases hdd : d = d'
    · subst hdd
      rw [hun.placed.count]
      exact le_max_left _ _
    · exact (hun.count d hd hdd hdc).ge
  · by_cases hmc : m = c
    · -- the name is gone, as it would still lead to the inode
      subst hmc
      refine .inr fun i' m' hi' => ?_
      obtain ⟨parent', depth', htree'⟩ := hw.tree
      have hi'' := hpruned.names_of hdmem hd.2 hi'
      have hmem := htree'.names_mem hdw hi'
      rw [htree.name_unique hd hi'' hi, halloc] at hmem
      exact Finset.notMem_erase m _ hmem
    · refine .inl ⟨hpruned.names d hdmem hd.2 i l m hi hmc, ?_⟩
      exact hpruned.mode m (Finset.mem_erase.2 ⟨hmc, htree.names_mem hd hi⟩)

/-! ## The directory as a shelf -/

/-- A place of the shelf is an entry. -/
theorem Consistent.shelf_slot {i : Nat} {a : Dirent} :
    (v.shelf d).slot i = some a ↔ v.Names d i a.name a.inode ∧ (v.ino a.inode).mode = a.mode := by
  obtain ⟨parent, depth, htree⟩ := hv.tree
  rw [Vol.shelf_slot]
  constructor
  · rintro ⟨hlt, htype, rfl⟩
    rcases htree.entry d hd i hlt with hblank | ⟨hused, -, -⟩
    · exact absurd (by rw [hblank]; rfl) htype
    · exact ⟨⟨hlt, hused, rfl, rfl⟩, rfl⟩
  · rintro ⟨⟨hlt, hused, hname, hinode⟩, hmode⟩
    refine ⟨hlt, ?_, ?_⟩
    · rcases hused.type with h | h
      · rw [h]
        decide
      · rw [h]
        decide
    · rw [direntOf, hname, hinode, hmode]

theorem Consistent.shelf_has :
    (v.shelf d).Has Dirent.name l ↔ ∃ i c, v.Names d i l c := by
  constructor
  · rintro ⟨i, a, hslot, rfl⟩
    exact ⟨i, a.inode, ((hv.shelf_slot hd).1 hslot).1⟩
  · rintro ⟨i, c, hi⟩
    exact ⟨i, ⟨c, (v.ino c).mode, l⟩, (hv.shelf_slot hd).2 ⟨hi, rfl⟩, rfl⟩

theorem Consistent.shelf_ordered : (v.shelf d).Ordered Dirent.name := by
  obtain ⟨parent, depth, htree⟩ := hv.tree
  refine ⟨fun hslot => (Vol.shelf_slot.1 hslot).1, fun {i j a b} ha hb hname => ?_⟩
  have hi := ((hv.shelf_slot hd).1 ha).1
  rw [hname] at hi
  exact htree.unique d hd i j b.name _ _ hi ((hv.shelf_slot hd).1 hb).1

/-- Beside a listing nothing is moved. -/
theorem Stays.steadies (h : Stays v w sb d) :
    Shelf.Steadies Dirent.name (v.shelf d) (w.shelf d) := by
  refine ⟨h.consistent.shelf_ordered h.dir, h.count_le, fun {i a} hslot => ?_⟩
  obtain ⟨hnames, hmode⟩ := (hv.shelf_slot hd).1 hslot
  rw [h.consistent.shelf_slot h.dir, h.consistent.shelf_has h.dir]
  rcases h.names hnames with ⟨hnames', hmode'⟩ | hgone
  · exact .inl ⟨hnames', hmode'.trans hmode⟩
  · exact .inr fun ⟨i', c', h'⟩ => hgone i' c' h'

end

/-- The first entry in use is what is found on the shelf. -/
theorem finds_usedFrom (v : Vol) (d j : Nat) :
    (v.shelf d).Finds j ((v.usedFrom d j).head?.map fun i => (i, v.direntOf d i)) := by
  induction hleft : v.entryCount d - j generalizing j with
  | zero =>
    rw [usedFrom_of_le (by omega)]
    intro k hk
    exact if_neg fun h => absurd h.1 (by omega)
  | succ left ih =>
    have hlt : j < v.entryCount d := by omega
    rw [usedFrom_of_lt hlt]
    split
    · next htype => exact ⟨le_rfl, Vol.shelf_slot.2 ⟨hlt, htype, rfl⟩, fun k hle hlt => absurd hle (by omega)⟩
    · next htype =>
      have hskip : (v.shelf d).slot j = none := if_neg fun h => htype h.2
      have hrest := ih (j + 1) (by omega)
      cases hused : v.usedFrom d (j + 1) with
      | nil =>
        rw [hused] at hrest
        intro k hk
        rcases Nat.eq_or_lt_of_le hk with rfl | hk
        · exact hskip
        · exact hrest k hk
      | cons i rest =>
        rw [hused] at hrest
        obtain ⟨hle, hslot, hnone⟩ := hrest
        refine ⟨by omega, hslot, fun k hk hki => ?_⟩
        rcases Nat.eq_or_lt_of_le hk with rfl | hk
        · exact hskip
        · exact hnone k hk hki

end Vol

/-! ## A listing -/

/-- A listing: the offset for the next call, the entries returned, and how it has ended; and the volumes there have been. -/
structure Scan where
  fs : Machine
  offset : Nat
  returned : List Dirent
  result : Option (Except Errno Unit)
  seen : List Vol

namespace Scan

variable {sb : Superblock} {v : Vol} {s : Machine} {d : Nat} {x y : Scan} {op : Op} {ops : List Op}

/-- Before the first call. -/
def start (sb : Superblock) (s : Machine) : Scan := ⟨s, 0, [], none, [Vol.ofDisk sb s.volume]⟩

/-- A call of `minifs_readdir`. -/
def readdir (sb : Superblock) (d : Nat) (x : Scan) : Scan :=
  let (r, s) := minifsReaddir d x.offset x.fs
  let x := { x with fs := s, seen := Vol.ofDisk sb s.volume :: x.seen }
  match r with
  | .error e => { x with result := some (.error e) }
  | .ok (none, offset) => { x with offset := offset, result := some (.ok ()) }
  | .ok (some entry, offset) => { x with offset := offset, returned := x.returned ++ [entry] }

/-- Another operation. -/
def other (sb : Superblock) (op : Op) (x : Scan) : Scan :=
  let s := (op.exec x.fs).2
  { x with fs := s, seen := Vol.ofDisk sb s.volume :: x.seen }

/-- The operations beside a listing of `d`: names are made, and names are removed, in `d` or elsewhere, unless it is `d` itself
that is removed. -/
def Beside (v : Vol) (sb : Superblock) (d : Nat) : Op → Prop
  | .create _ => True
  | .mkdir _ => True
  | .unlink path => v.ParentOf sb path d ∨ ∀ stat, v.lookup sb path = .ok stat → stat.inode ≠ d
  | _ => False

/-- A step of a listing of `d`, or beside it. -/
inductive Step (sb : Superblock) (d : Nat) (x : Scan) : Op → Scan → Prop
  | readdir : x.result = none → Step sb d x (.readdir d x.offset) (x.readdir sb d)
  | other {op : Op} : Beside (Vol.ofDisk sb x.fs.volume) sb d op → Step sb d x op (x.other sb op)

/-- A step that removes no regular file with another name. -/
def SingleStep (sb : Superblock) (d : Nat) (x : Scan) (op : Op) (y : Scan) : Prop :=
  Step sb d x op y ∧ Serving.SingleAt (Vol.ofDisk sb x.fs.volume) sb op

/-- The reader of the shelf. -/
def reader (sb : Superblock) (d : Nat) (x : Scan) : Reader Dirent where
  shelf := (Vol.ofDisk sb x.fs.volume).shelf d
  place := x.offset / 64
  read := x.returned
  ended := x.result.isSome
  seen := x.seen.map (·.shelf d)

/-- A listing that goes on well. -/
structure Good (sb : Superblock) (d : Nat) (x : Scan) : Prop where
  serving : Serving sb (Vol.ofDisk sb x.fs.volume) x.fs
  consistent : (Vol.ofDisk sb x.fs.volume).Consistent sb
  dir : (Vol.ofDisk sb x.fs.volume).IsDir ((Vol.ofDisk sb x.fs.volume).alloc sb) d
  whole : x.offset % 64 = 0
  result : ∀ e, x.result ≠ some (.error e)
  seen : ∀ w ∈ x.seen, w.Consistent sb ∧ w.IsDir (w.alloc sb) d
  sound : (x.reader sb d).Sound Dirent.name

theorem Good.seen_cons (h : Good sb d x) {w : Vol} (hw : w.Consistent sb) (hd : w.IsDir (w.alloc sb) d) :
    ∀ u ∈ w :: x.seen, u.Consistent sb ∧ u.IsDir (u.alloc sb) d := List.forall_mem_cons.2 ⟨⟨hw, hd⟩, h.seen⟩

/-- What a call of `minifs_readdir` adds to a listing. -/
theorem readdir_eq {j : Nat} (hs : Serving sb v x.fs) (hv : v.Consistent sb) (hd : v.IsDir (v.alloc sb) d)
    (hj : x.offset = j * 64) : ∃ s, Serving sb v s ∧ x.readdir sb d = match v.usedFrom d j with
      | [] => { x with fs := s, offset := max j (v.entryCount d) * 64, result := some (.ok ()), seen := v :: x.seen }
      | i :: _ => { x with
          fs := s, offset := (i + 1) * 64, returned := x.returned ++ [v.direntOf d i], seen := v :: x.seen } := by
  obtain ⟨parent, depth, htree⟩ := hv.tree
  have hcall := hs.readdir d (j * 64)
  unfold wp at hcall
  rw [if_neg (by omega), htree.readdirAt_eq hv.owns hd] at hcall
  unfold Scan.readdir
  rw [hj]
  generalize minifsReaddir d (j * 64) x.fs = out at hcall
  obtain ⟨r, s⟩ := out
  obtain ⟨hr, hs⟩ := hcall
  dsimp only at hr
  refine ⟨s, hs, ?_⟩
  rw [hr]
  dsimp only
  rw [hs.volume]
  cases v.usedFrom d j with
  | nil => rfl
  | cons i rest => rfl

/-- A call of `minifs_readdir` is a step of the reader. -/
theorem Good.readdir (h : Good sb d x) (hgoing : x.result = none) : Good sb d (x.readdir sb d) := by
  obtain ⟨j, hj⟩ : ∃ j, x.offset = j * 64 := ⟨x.offset / 64, by have := h.whole; omega⟩
  have hplace : (x.reader sb d).place = j := by
    show x.offset / 64 = j
    omega
  have hended : (x.reader sb d).ended = false := by
    show x.result.isSome = false
    rw [hgoing]
    rfl
  have hfinds := Vol.finds_usedFrom (Vol.ofDisk sb x.fs.volume) d j
  obtain ⟨s, hs, heq⟩ := readdir_eq h.serving h.consistent h.dir hj
  have hvolume := hs.volume
  rw [heq]
  cases hused : (Vol.ofDisk sb x.fs.volume).usedFrom d j with
  | nil =>
    rw [hused] at hfinds
    have hsound := h.sound.last (by rw [hplace]; exact hfinds)
    rw [hplace] at hsound
    refine ⟨by rwa [hvolume], by rw [hvolume]; exact h.consistent, by rw [hvolume]; exact h.dir, Nat.mul_mod_left _ _, nofun,
      h.seen_cons h.consistent h.dir, ?_⟩
    unfold reader
    dsimp only
    rw [Nat.mul_div_cancel _ (by decide), hvolume]
    exact hsound
  | cons i rest =>
    rw [hused] at hfinds
    have hsound := h.sound.next hended (by rw [hplace]; exact hfinds)
    refine ⟨by rwa [hvolume], by rw [hvolume]; exact h.consistent, by rw [hvolume]; exact h.dir, Nat.mul_mod_left _ _, h.result,
      h.seen_cons h.consistent h.dir, ?_⟩
    unfold reader
    dsimp only
    rw [Nat.mul_div_cancel _ (by decide), hvolume]
    exact hsound

/-- Another operation is a change of the shelf. -/
theorem Good.other (h : Good sb d x) (hbeside : Beside (Vol.ofDisk sb x.fs.volume) sb d op)
    (hsingle : Serving.SingleAt (Vol.ofDisk sb x.fs.volume) sb op) : Good sb d (x.other sb op) := by
  obtain ⟨w, hstays, hs⟩ : ∃ w, Vol.Stays (Vol.ofDisk sb x.fs.volume) w sb d ∧ Serving sb w (op.exec x.fs).2 := by
    have hgeo := h.serving.geometry
    cases op with
    | create path =>
      obtain ⟨w, heffect, hs⟩ := h.serving.create h.consistent path
      exact ⟨w, heffect.stays h.consistent h.dir hgeo, hs⟩
    | mkdir path =>
      obtain ⟨w, heffect, hs⟩ := h.serving.mkdir h.consistent path
      exact ⟨w, heffect.stays h.consistent h.dir hgeo, hs⟩
    | unlink path =>
      obtain ⟨w, heffect, hs⟩ := h.serving.unlink h.consistent path
      exact ⟨w, heffect.stays h.consistent h.dir hsingle hbeside, hs⟩
    | write | truncate | lookup | statInode | readdir | read => exact hbeside.elim
  obtain rfl := hs.volume
  exact ⟨hs, hstays.consistent, hstays.dir, h.whole, h.result, h.seen_cons hstays.consistent hstays.dir,
    h.sound.change (hstays.steadies h.consistent h.dir)⟩

theorem SingleStep.good (hstep : SingleStep sb d x op y) (h : Good sb d x) : Good sb d y := by
  obtain ⟨hstep, hsingle⟩ := hstep
  cases hstep with
  | readdir hgoing => exact h.readdir hgoing
  | other hbeside => exact h.other hbeside hsingle

theorem good_start (hs : Serving sb v s) (hv : v.Consistent sb) (hd : v.IsDir (v.alloc sb) d) : Good sb d (start sb s) := by
  obtain rfl := hs.volume
  refine ⟨hs, hv, hd, rfl, nofun, fun w hw => List.mem_singleton.1 hw ▸ ⟨hv, hd⟩, ?_⟩
  unfold reader start
  dsimp only
  rw [Nat.zero_div]
  exact Reader.sound_start (hv.shelf_ordered hd)

/-- Whatever names are made and removed beside a listing: each name that is there all the time is returned once, with its inode and
its mode; what is returned was there; there are not more entries returned than the directory has had room for at some time; and
no call fails. -/
theorem listing_stable (hs : Serving sb v s) (hv : v.Consistent sb) (hd : v.IsDir (v.alloc sb) d)
    (hrun : Run (SingleStep sb d) (start sb s) ops x) :
    (∀ l, (∀ w ∈ x.seen, ∃ i c, w.Names d i l c) → x.result = some (.ok ()) →
      x.returned.countP (·.name = l) = 1 ∧ ∃ entry ∈ x.returned, entry.name = l ∧
        ∀ w ∈ x.seen, ∃ i, w.Names d i l entry.inode ∧ (w.ino entry.inode).mode = entry.mode) ∧
    (∀ entry ∈ x.returned, ∃ w ∈ x.seen, ∃ i, w.Names d i entry.name entry.inode ∧ (w.ino entry.inode).mode = entry.mode) ∧
    (∃ w ∈ x.seen, x.returned.length ≤ (w.ino d).size / 64) ∧ ∀ e, x.result ≠ some (.error e) := by
  have hgood := hrun.invariant (good_start hs hv hd) fun _ _ _ h hstep => hstep.good h
  have hslot : ∀ {w}, w ∈ x.seen → ∀ {i a}, (w.shelf d).slot i = some a →
      w.Names d i a.name a.inode ∧ (w.ino a.inode).mode = a.mode := fun {_} hw {_ _} h =>
    ((hgood.seen _ hw).1.shelf_slot (hgood.seen _ hw).2).1 h
  refine ⟨fun l hl hend => ?_, fun entry hentry => ?_, ?_, hgood.result⟩
  · have hlasting : (x.reader sb d).Lasting Dirent.name l := by
      intro y hy
      obtain ⟨w, hw, rfl⟩ := List.mem_map.1 hy
      exact ((hgood.seen w hw).1.shelf_has (hgood.seen w hw).2).2 (hl w hw)
    have hended : (x.reader sb d).ended = true := by
      show x.result.isSome = true
      rw [hend]
      rfl
    obtain ⟨i, entry, hmem, rfl, hstands, hone⟩ := hgood.sound.read_once hended hlasting
    exact ⟨hone, entry, hmem, rfl, fun w hw => ⟨i, hslot hw (hstands _ (List.mem_map_of_mem hw))⟩⟩
  · obtain ⟨y, hy, i, hi⟩ := hgood.sound.from_seen entry hentry
    obtain ⟨w, hw, rfl⟩ := List.mem_map.1 hy
    exact ⟨w, hw, i, hslot hw hi⟩
  · obtain ⟨w, hw, heq⟩ := List.mem_map.1 hgood.sound.current
    refine ⟨w, hw, ?_⟩
    have hle := hgood.sound.length_le.trans hgood.sound.place_le
    rw [← heq] at hle
    exact hle

/-- A listing that is left alone comes to its end. -/
theorem Good.ends (h : Good sb d x) (hgoing : x.result = none) :
    ∃ ops y, Run (SingleStep sb d) x ops y ∧ y.result = some (.ok ()) := by
  obtain ⟨j, hj⟩ : ∃ j, x.offset = j * 64 := ⟨x.offset / 64, by have := h.whole; omega⟩
  induction hleft : (Vol.ofDisk sb x.fs.volume).entryCount d - j using Nat.strong_induction_on generalizing x j with
  | _ left ih =>
  obtain ⟨s, hs, heq⟩ := readdir_eq h.serving h.consistent h.dir hj
  have hgood := h.readdir hgoing
  have hstep : Run (SingleStep sb d) x [.readdir d x.offset] (x.readdir sb d) := .single ⟨.readdir hgoing, trivial⟩
  cases hused : (Vol.ofDisk sb x.fs.volume).usedFrom d j with
  | nil =>
    rw [hused] at heq
    exact ⟨_, _, hstep, by rw [heq]⟩
  | cons i rest =>
    have hfinds := Vol.finds_usedFrom (Vol.ofDisk sb x.fs.volume) d j
    rw [hused] at heq hfinds
    obtain ⟨hle, hslot, -⟩ := hfinds
    have hlt := (Vol.shelf_slot.1 hslot).1
    rw [heq] at hgood hstep
    obtain ⟨ops, y, hrun, hend⟩ := ih _ (by dsimp only; rw [hs.volume]; omega) hgood hgoing (i + 1) rfl rfl
    exact ⟨_, y, hstep.trans hrun, hend⟩

/-- A file is made in the root and the root is listed: its entry `.` is returned once. -/
theorem listing_stable_oneName : ∃ sb s ops x, Run (SingleStep sb sb.rootInode) (start sb s) ops x ∧
    x.result = some (.ok ()) ∧ x.returned.countP (·.name = [0x2E]) = 1 := by
  obtain ⟨volume, sb, -, -, hroot, -, hs, hflat⟩ := Tools.exists_flat_mounted Tools.flatNames_oneName (by decide)
  have hv := hflat.consistent Tools.flatNames_oneName hroot
  generalize (minifsMount (Tools.bootMachine 24 volume)).2 = s at hs
  obtain ⟨parent, depth, htree⟩ := hv.tree
  have hstart := good_start hs hv htree.root
  have hmade : SingleStep sb sb.rootInode (start sb s) (.create (Tools.pathOne 0x62)) _ := ⟨.other trivial, trivial⟩
  obtain ⟨ops, x, hrun, hend⟩ := (hmade.good hstart).ends rfl
  have hrun := (Run.single hmade).trans hrun
  have hgood := hrun.invariant hstart fun _ _ _ h hstep => hstep.good h
  have hdot : ∀ w ∈ x.seen, ∃ i c, w.Names sb.rootInode i [0x2E] c := by
    intro w hw
    obtain ⟨hw, hd⟩ := hgood.seen w hw
    obtain ⟨parent', depth', htree'⟩ := hw.tree
    obtain ⟨i, hi⟩ := htree'.dot _ hd
    exact ⟨i, _, hi⟩
  exact ⟨sb, s, _, x, hrun, hend, ((listing_stable hs hv htree.root hrun).1 [0x2E] hdot hend).1⟩

/-! ## A file with two names -/

/-- An entry whose inode is free stops a listing. -/
theorem readdirAt_dangling {w : Vol} {L : Finset Nat} {i c : Nat} {l : List UInt8} (hown : w.Owns sb L) (hd : w.IsDir L d)
    (hi : w.Names d i l c) (hfree : w.imap c = false) : w.readdirAt sb d (i * 64) = .error .eio := by
  obtain ⟨hlt, hused, -, hinode⟩ := hi
  have hsize : i * 64 < (w.ino d).size := by
    unfold Vol.entryCount at hlt
    omega
  have hblock : i * 64 / 4096 = i / 64 := by omega
  have hbyte : i * 64 % 4096 = i % 64 * 64 := by omega
  have hk : i / 64 < blocksOf (w.ino d).size := by
    rw [lt_blocksOf]
    omega
  have hread : ∀ inode, w.readInode sb c ≠ .ok inode := fun inode hok => by
    have himap := (Vol.readInode_eq_ok.1 hok).2.1
    rw [hfree] at himap
    cases himap
  unfold Vol.readdirAt
  rw [hown.readInode hd.1]
  dsimp only
  rw [if_neg (not_not.2 hd.2), show (w.ino d).size = (w.ino d).size - 1 + 1 by omega, Vol.readdirFrom,
    if_neg (Nat.not_le.2 hsize), hblock, hbyte, hown.inodeBlockAt hd.1 hk]
  dsimp only
  generalize hp : (w.data (w.fileBlock d (i / 64))).ptr (i % 64 * 64) = p
  have hentry : w.entry d i = Entry.ofBytes p := by rw [Vol.entry, hp]
  have ht : (p 4).toNat = (w.entry d i).type := by rw [hentry]; rfl
  have hchild : readLe32 p = c := by rw [← hinode, hentry]; rfl
  have htypes := hused.type
  rw [ht, hchild, if_neg (by omega)]
  split
  · rfl
  · cases hcase : w.readInode sb c with
    | error e => rfl
    | ok inode => exact absurd hcase (hread inode)

/-- A listing of a directory whose first entries are in use. -/
theorem exists_listed (hs : Serving sb v s) (hv : v.Consistent sb) (hd : v.IsDir (v.alloc sb) d) (k : Nat) :
    (∀ j < k, ∃ l c, v.Names d j l c) → ∃ ops x, Run (Step sb d) (start sb s) ops x ∧ Serving sb v x.fs ∧
      x.offset = k * 64 ∧ x.result = none ∧ ∀ w ∈ x.seen, w = v := by
  induction k with
  | zero => exact fun _ => ⟨_, _, .nil, hs, rfl, rfl, fun w hw => (List.mem_singleton.1 hw).trans hs.volume⟩
  | succ k ih =>
    intro hnames
    obtain ⟨ops, x, hrun, hx, hoffset, hgoing, hseen⟩ := ih fun j hj => hnames j (by omega)
    obtain ⟨l, c, hk⟩ := hnames k (Nat.lt_succ_self k)
    obtain ⟨s', hs', heq⟩ := readdir_eq hx hv hd hoffset
    have hused : v.usedFrom d k = k :: v.usedFrom d (k + 1) := by
      have htype := hk.2.1.type
      rw [Vol.usedFrom_of_lt hk.1, if_pos (by omega)]
    rw [hused] at heq
    refine ⟨_, _, hrun.trans (.single (.readdir hgoing)), ?_⟩
    rw [heq]
    exact ⟨hs', rfl, hgoing, List.forall_mem_cons.2 ⟨rfl, hseen⟩⟩

/-- One of two names of a file is removed while the root is listed, and the listing fails at the other, which is there all the
time. -/
theorem listing_fails : ∃ sb s ops x, Serving sb (Vol.ofDisk sb s.volume) s ∧ (Vol.ofDisk sb s.volume).Consistent sb ∧
    Run (Step sb sb.rootInode) (start sb s) ops x ∧ (∀ w ∈ x.seen, ∃ i c, w.Names sb.rootInode i [0x62] c) ∧
    x.result = some (.error .eio) := by
  obtain ⟨volume, sb, -, -, hroot, -, hs, hflat⟩ := Tools.exists_flat_mounted Tools.flatNames_twoNames (by decide)
  have hv := hflat.consistent Tools.flatNames_twoNames hroot
  generalize (minifsMount (Tools.bootMachine 24 volume)).2 = s at hs
  obtain ⟨parent, depth, htree⟩ := hv.tree
  have hd := htree.root
  have hother : (Vol.ofDisk sb volume).Names 0 3 [0x62] 1 := hflat.names_root.2 (.inr (.inr ⟨1, by decide, rfl, rfl, rfl⟩))
  rw [hroot] at hd
  have hfirst : ∀ j < 3, ∃ l c, (Vol.ofDisk sb volume).Names 0 j l c := by
    intro j hj
    obtain rfl | rfl | rfl : j = 0 ∨ j = 1 ∨ j = 2 := by omega
    · exact ⟨_, _, hflat.names_root.2 (.inl ⟨rfl, rfl, rfl⟩)⟩
    · exact ⟨_, _, hflat.names_root.2 (.inr (.inl ⟨rfl, rfl, rfl⟩))⟩
    · exact ⟨_, _, hflat.names_root.2 (.inr (.inr ⟨0, by decide, rfl, rfl, rfl⟩))⟩
  obtain ⟨ops, x, hrun, hx, hoffset, hgoing, hseen⟩ := exists_listed hs hv hd 3 hfirst
  -- the first name is removed when it has been returned
  obtain ⟨w, hw, hleft, hfree, hown, hdir⟩ := hflat.twoNames_unlink hroot hx
  have hlookup := (hflat.unlink_ok Tools.flatNames_twoNames hroot hx (List.mem_cons_self ..)).1
  have hbeside : Beside (Vol.ofDisk sb x.fs.volume) sb 0 (.unlink (Tools.pathOne 0x61)) := by
    rw [hx.volume]
    refine .inr fun stat hstat => ?_
    rw [← Except.ok.inj (hlookup.symm.trans hstat)]
    exact Nat.one_ne_zero
  let y := x.other sb (.unlink (Tools.pathOne 0x61))
  have hy : Serving sb w y.fs := hw
  have hcall := hy.readdir 0 y.offset
  unfold wp at hcall
  rw [show y.offset = 3 * 64 from hoffset, if_neg (by decide), readdirAt_dangling hown hdir hleft hfree] at hcall
  have hlast : (y.readdir sb 0).result = some (.error .eio) ∧ (y.readdir sb 0).seen = w :: w :: x.seen := by
    have hseen' : y.seen = w :: x.seen := by
      show Vol.ofDisk sb y.fs.volume :: x.seen = _
      rw [hy.volume]
    unfold Scan.readdir
    rw [show y.offset = 3 * 64 from hoffset]
    generalize minifsReaddir 0 (3 * 64) y.fs = out at hcall
    obtain ⟨r, s'⟩ := out
    obtain ⟨hr, hs'⟩ := hcall
    dsimp only at hr
    rw [hr]
    dsimp only
    rw [hs'.volume, hseen']
    exact ⟨rfl, rfl⟩
  have hrun' : Run (Step sb sb.rootInode) (start sb s)
      (ops ++ [.unlink (Tools.pathOne 0x61)] ++ [.readdir 0 y.offset]) (y.readdir sb 0) := by
    rw [hroot]
    exact (hrun.snoc (.other hbeside)).snoc (.readdir hgoing)
  refine ⟨sb, s, _, _, by rw [hs.volume]; exact hs, by rw [hs.volume]; exact hv, hrun', ?_, hlast.1⟩
  rw [hlast.2, hroot]
  refine List.forall_mem_cons.2 ⟨⟨_, _, hleft⟩, List.forall_mem_cons.2 ⟨⟨_, _, hleft⟩, fun u hu => ?_⟩⟩
  rw [hseen u hu]
  exact ⟨_, _, hother⟩

end Scan

end MiniOrange
