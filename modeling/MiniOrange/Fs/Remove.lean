import MiniOrange.Fs.Create

/-!
# `unlink_locked`

The kernel clears the entry, lowers the parent's link count if the entry was a directory's, and then
releases the inode. The three stages have a volume each: `clearEntry`, `unnamed` and `unlinked`. When
no transfer fails the operation ends in the last, or it refuses before the first write
(`Vol.UnlinkEffect`). A directory is removed only when all its entries but `.` and `..` are blank
(`empty_eq_ok`).
-/

namespace MiniOrange

namespace Vol

variable {v w : Vol} {sb : Superblock} {L : Finset Nat} {parent depth : Nat → Nat} {c d j : Nat}
  {name : List UInt8}

/-! ## The volumes of a removal -/

/-- The volume with entry `j` of directory `d` cleared. -/
def clearEntry (v : Vol) (d j : Nat) : Vol := v.patch d (j * 64) (fun _ => 0) 64

/-- The volume once nothing leads to `c`: the entry is cleared and the parent has a link less if `c`
is a directory. -/
def unnamed (v : Vol) (d j c : Nat) : Vol :=
  if (v.ino c).mode = 2 then
    (v.clearEntry d j).setIno d { v.ino d with linkCount := (v.ino d).linkCount - 1 }
  else v.clearEntry d j

/-- The volume with the blocks, the record and the number of inode `c` free. -/
def released (v : Vol) (c : Nat) : Vol :=
  ((v.release (v.givenUp c 0)).setIno c .zero).setI c false

/-- The volume `unlink_locked` leaves. -/
def unlinked (v : Vol) (d j c : Nat) : Vol := (v.unnamed d j c).released c

/-- What `minifs_unlink` does to a volume when no transfer fails. -/
inductive UnlinkEffect (sb : Superblock) (v : Vol) (path : List UInt8) :
    Except Errno Unit → Level → Vol → Prop
  /-- It refuses before the first write. -/
  | refused (e ℓ') : UnlinkEffect sb v path (.error e) ℓ' v
  /-- The entry and the inode it names are removed. -/
  | removed (d name j c ℓ') : v.resolveParent sb path = .ok (d, v.ino d, name) →
      v.Names d j name c → c ≠ sb.rootInode →
      ((v.ino c).mode = 2 → v.empty sb (v.ino c) = .ok ()) →
      UnlinkEffect sb v path (.ok ()) ℓ' (v.unlinked d j c)

/-! ## Clearing an entry -/

/-- The entry lies in a block of the directory. -/
theorem entry_div_lt (hj : j < v.entryCount d) : j * 64 / 4096 < blocksOf (v.ino d).size := by
  unfold entryCount at hj
  exact div_lt_blocksOf (by omega)

/-- Clearing an entry leaves the rest of the volume. -/
theorem settled_clearEntry (hown : v.Owns sb L) (hd : d ∈ L) (hend : v.PointersEnd d)
    (hj : j < v.entryCount d) : Settled v (v.clearEntry d j) sb d :=
  settled_patch hown hd hend (entry_div_lt hj)

@[simp] theorem clearEntry_ino : (v.clearEntry d j).ino = v.ino := rfl

/-- The cleared entry is blank, and the others are as they were. -/
theorem placed_clearEntry (hown : v.Owns sb L) (hd : v.IsDir L d) (hj : j < v.entryCount d) :
    Placed v (v.clearEntry d j) d j .blank := by
  have hdiv := ((hown.ok d hd.1).dir_size hd.2).2
  have hblank : Entry.ofBytes (fun _ => 0) = .blank := Entry.ofBytes_eq_blank.2 fun _ _ => rfl
  have hspliced : Spliced v (v.clearEntry d j) d (j * 64) (fun _ => 0) 64 := fun o ho =>
    byteAt_patch hown hd.1 (entry_div_lt hj) (by omega) (div_lt_blocksOf ho)
  rw [← hblank]
  refine hspliced.placed ?_ hdiv
  unfold entryCount at hj
  rw [clearEntry_ino]
  omega

/-! ## An empty directory -/

/-- The loop of `directory_empty_locked` passes only blank entries, `.` and `..`. -/
theorem emptyFrom_eq_ok (hown : v.Owns sb L) (hd : d ∈ L) :
    ∀ fuel i, i ≤ v.entryCount d → v.entryCount d ≤ i + fuel →
      v.emptyFrom sb (v.ino d) fuel (i * 64) = .ok () →
      ∀ j, i ≤ j → j < v.entryCount d → v.entry d j = .blank ∨ ¬ Proper (v.entry d j).label := by
  intro fuel
  induction fuel with
  | zero =>
    intro i hi hfuel _ j hij hj
    omega
  | succ fuel ih =>
    intro i hi hfuel hok j hij hj
    rw [emptyFrom] at hok
    have hlt : i < v.entryCount d := by omega
    rw [if_neg (by unfold entryCount at hlt; omega), hown.inodeBlockAt hd (entry_div_lt hlt)] at hok
    dsimp only at hok
    have hentry : v.entry d i =
        Entry.ofBytes ((v.data (v.fileBlock d (i * 64 / 4096))).ptr (i * 64 % 4096)) := by
      unfold entry
      rw [show i * 64 / 4096 = i / 64 by omega, show i * 64 % 4096 = i % 64 * 64 by omega]
    generalize (v.data (v.fileBlock d (i * 64 / 4096))).ptr (i * 64 % 4096) = p at hok hentry
    -- the rest of the loop decides all entries but this one
    have hnext : v.emptyFrom sb (v.ino d) fuel (i * 64 + 64) = .ok () →
        (v.entry d i = .blank ∨ ¬ Proper (v.entry d i).label) →
        v.entry d j = .blank ∨ ¬ Proper (v.entry d j).label := by
      intro hrest hthis
      rcases Nat.eq_or_lt_of_le hij with rfl | hlt'
      · exact hthis
      · rw [← Nat.succ_mul] at hrest
        exact ih (i + 1) hlt (by omega) hrest j hlt' hj
    split at hok
    · split at hok
      · cases hok
      next hunused =>
      refine hnext hok (.inl ?_)
      rw [hentry, Entry.ofBytes_eq_blank]
      exact directoryEntryUnused_iff.1 (Bool.eq_true_of_not_eq_false hunused)
    · split at hok
      · cases hok
      next hbad =>
      have hvalid : directoryNameValid (fun i => p (5 + i)) = true :=
        Bool.eq_true_of_not_eq_false fun h => hbad (.inr h)
      split at hok
      · cases hok
      next hdots =>
      refine hnext hok (.inr fun hproper => hdots ⟨?_, ?_⟩)
      · refine Bool.eq_false_iff.2 fun heq => hproper.1 ?_
        rw [hentry]
        exact (Entry.directoryNameEqual_iff_label hvalid (by simp)).1 heq
      · refine Bool.eq_false_iff.2 fun heq => hproper.2 ?_
        rw [hentry]
        exact (Entry.directoryNameEqual_iff_label hvalid (by simp)).1 heq

/-- A directory `directory_empty_locked` accepts has no proper name. -/
theorem empty_eq_ok (hown : v.Owns sb L) (hd : v.IsDir L d) (h : v.empty sb (v.ino d) = .ok ()) :
    ∀ j l c, v.Names d j l c → ¬ Proper l := by
  intro j l c hj
  unfold empty at h
  rw [if_neg (not_not.2 hd.2)] at h
  rw [← Nat.zero_mul 64] at h
  have hcount : v.entryCount d ≤ 0 + (v.ino d).size := by
    unfold entryCount
    omega
  rcases emptyFrom_eq_ok hown hd.1 _ 0 (Nat.zero_le _) hcount h j (Nat.zero_le _) hj.1 with
    hblank | hdots
  · have htype := hj.2.1.type
    rw [hblank] at htype
    rcases htype with htype | htype <;> cases htype
  · exact hj.2.2.1 ▸ hdots

/-! ## What is named -/

/-- The entry found names an inode other than the directory. -/
theorem Tree.names_ne (htree : v.Tree sb L parent depth) (hd : v.IsDir L d)
    (hj : v.Names d j name c) (hproper : Proper name) : c ≠ d := by
  rintro rfl
  obtain ⟨-, -, hdepth⟩ := htree.child c hd j name c hj hproper hd
  omega

/-- The removed file is kept until it is released. -/
theorem kept_unnamed (hown : v.Owns sb L) (hd : d ∈ L) (hend : v.PointersEnd d) (hc : c ∈ L)
    (hne : c ≠ d) (hj : j < v.entryCount d) : Kept v (v.unnamed d j c) c := by
  have hclear : Kept v (v.clearEntry d j) c :=
    (settled_clearEntry hown hd hend hj).toGrown.kept hown hd hc hne
  unfold unnamed
  split
  · exact hclear.trans (.setIno hne)
  · exact hclear

end Vol

/-! ## The program -/

variable {E : Env} {v : Vol} {aux cmp : Block} {s : Machine} {L : Finset Nat}
  {parent depth : Nat → Nat} {c d j : Nat} {name : List UInt8}

/-- What must be safe for a crash in the removal of entry `j` of `d`. -/
structure Env.SafeRemoving (E : Env) (v : Vol) (d j c : Nat) : Prop where
  cleared : E.safe (v.clearEntry d j)
  releasing : ∀ w, Vol.Releasing (v.unnamed d j c) w c → E.safe w

/-- `unlink_locked` once the entry is found and its inode read. -/
theorem On.unlinkFound (h : On E .quiet v aux cmp s) (hown : v.Owns E.sb L) (hd : v.IsDir L d)
    (hend : v.PointersEnd d) (hj : v.Names d j name c) (hc : c ∈ L) (hne : c ≠ d)
    (hroot : c ≠ E.sb.rootInode) (hsafe : E.SafeRemoving v d j c) :
    wp (MiniOrange.unlinkFound d (v.ino d) (v.record d j) (v.ino c)) (fun r s' => r = .ok () ∧
      ∃ aux' cmp', On E .quiet (v.unlinked d j c) aux' cmp' s') s := by
  have hlt := hj.1
  have hk := Vol.entry_div_lt hlt
  have hkept := Vol.kept_unnamed hown hd.1 hend hc hne hlt
  obtain ⟨hb, hb'⟩ : E.sb.dataStart ≤ v.fileBlock d (j * 64 / 4096) ∧
      v.fileBlock d (j * 64 / 4096) < E.sb.totalBlocks := hown.slot_valid hd.1 (t := .data _) hk
  unfold MiniOrange.unlinkFound
  dsimp only [Vol.record]
  rw [hj.2.2.2]
  refine wp.bind (Reads.inodeBlockAt (P := fun _ => True) (v.ino d) (j * 64 / 4096) h trivial) ?_
  rw [hown.inodeBlockAt hd.1 hk]
  rintro r s₁ (⟨rfl, h₁, -⟩ | ⟨-, hq, -⟩)
  case inr => exact absurd rfl hq
  refine wp.bind (Reads.dataBlock (P := fun _ => True) hb hb' h₁ trivial) ?_
  rintro r s₂ (⟨rfl, h₂, hio⟩ | ⟨-, hq, -⟩)
  case inr => exact absurd rfl hq
  dsimp only
  rw [wp_bind, wp_getBuffer, wp_bind, wp_getBuffer, wp_bind, wp_setBuffer, wp_bind, wp_setBuffer]
  rw [show s₂.buffers.get .ioBlock = v.data (v.fileBlock d (j * 64 / 4096)) from hio]
  refine wp.bind (((h₂.setAuxiliary _).setIo _).writeData .ioBlock nofun hb hb' hsafe.cleared) ?_
  rintro r s₃ ⟨⟨rfl, h₃⟩ | ⟨-, hs, -⟩, -⟩
  case inr => cases hs
  have h₃ : On E .quiet (v.clearEntry d j) _ cmp s₃ := h₃
  -- the end of both branches
  have hrelease : ∀ {aux' : Block} {s : Machine}, On E .quiet (v.unnamed d j c) aux' cmp s →
      wp (MiniOrange.releaseInodeLocked c (v.ino c)) (fun r s' => r = .ok () ∧
        ∃ aux' cmp', On E .quiet (v.unlinked d j c) aux' cmp' s') s := by
    intro aux' s h
    have hsingle : (v.unnamed d j c).Owns E.sb {c} := by
      refine (hown.mono (Finset.singleton_subset_iff.2 hc)).congr fun n hn => ?_
      rw [Finset.mem_singleton.1 hn]
      exact hkept.toSameFile
    rw [← hkept.ino]
    refine (h.releaseInodeLocked hsingle (Finset.mem_singleton_self c) hroot hsafe.releasing).mono ?_
    rintro r s' ⟨rfl, cmp', h'⟩
    exact ⟨rfl, aux', cmp', h'⟩
  unfold unlinkEntry
  dsimp only
  split
  · next hmode =>
    have hname : v.unnamed d j c = (v.clearEntry d j).setIno d
        { v.ino d with linkCount := (v.ino d).linkCount - 1 } := if_pos hmode
    have hok := hown.ok d hd.1
    have hfits := h.fits hok.reserved
    have hshape : inodePointerShapeValid
        ({ v.ino d with linkCount := (v.ino d).linkCount - 1 } : Inode) = true :=
      (Inode.ok_iff.1 hok).2
    have hsafe' := hsafe.releasing _ (.refl _ c)
    rw [hname] at hsafe'
    refine wp.bind (h₃.writeInode nofun (hown.inode_lt d hd.1) hshape
      { hfits with linkCount := Nat.lt_of_le_of_lt (Nat.sub_le _ _) hfits.linkCount } hsafe') ?_
    rintro r s₄ (⟨rfl, h₄⟩ | ⟨-, hs, -⟩)
    case inr => cases hs
    rw [← hname] at h₄
    exact hrelease h₄
  · next hmode =>
    have hname : v.unnamed d j c = v.clearEntry d j := if_neg hmode
    rw [← hname] at h₃
    exact hrelease h₃

/-- `minifs_unlink`, when no transfer fails. -/
theorem On.minifsUnlink (h : On E .quiet v aux cmp s) (hsound : v.Sound E.sb)
    (htree : v.Tree E.sb (v.alloc E.sb) parent depth) (path : List UInt8)
    (hsafe : ∀ d j name c, v.resolveParent E.sb path = .ok (d, v.ino d, name) →
      v.IsDir (v.alloc E.sb) d → v.Names d j name c → Vol.Proper name → c ≠ E.sb.rootInode → ((v.ino c).mode = 2 → v.empty E.sb (v.ino c) = .ok ()) →
      E.SafeRemoving v d j c) :
    wp (MiniOrange.minifsUnlink path) (Ends E .quiet (Vol.UnlinkEffect E.sb v path)) s := by
  refine h.locked (fun _ e => .refused e _) fun s h => ?_
  unfold unlinkLocked
  refine h.ends_bind (Reads.resolveParent path) (fun s h => ?_) rfl fun _ => .refused _ _
  cases hres : v.resolveParent E.sb path with
  | error e => exact .of_on (.refused _ _) h
  | ok found =>
  obtain ⟨d, inode, name⟩ := found
  obtain ⟨-, -, -, hread, hmode, hname, hproper⟩ := Vol.resolveParent_eq_ok hres
  obtain ⟨hlt, himap, -, rfl⟩ := Vol.readInode_eq_ok.1 hread
  have hd : v.IsDir (v.alloc E.sb) d := ⟨Vol.mem_alloc.2 ⟨hlt, himap⟩, hmode⟩
  refine h.ends_bind (Reads.find _ name) (fun s h => ?_) rfl fun _ => .refused _ _
  -- the search finds an entry of the tree, or nothing
  obtain ⟨r, hsearch, hfind⟩ := Vol.find_searched hsound.owns hd
    (htree.searchable hsound.owns hd name) hname
  rcases hsearch with ⟨j, c, -, -, hj, rfl⟩ | ⟨-, rfl⟩
  case inr =>
    rw [hfind]
    exact .of_on (.refused _ _) h
  rw [hfind]
  dsimp only
  have hc : (v.record d j).inode = c := hj.2.2.2
  rw [wp_bind, wp_get, h.superblock, hc]
  split
  · exact .of_on (.refused _ _) h
  next hroot =>
  have hmem := htree.names_mem hd hj
  have hne := htree.names_ne hd hj hproper
  refine h.ends_bind (Reads.readInode c) (fun s h => ?_) rfl fun _ => .refused _ _
  rw [hsound.owns.readInode hmem]
  dsimp only
  -- the removal proper
  have hremove : ∀ s, On E .quiet v aux cmp s →
      ((v.ino c).mode = 2 → v.empty E.sb (v.ino c) = .ok ()) →
      wp (MiniOrange.unlinkFound d (v.ino d) (v.record d j) (v.ino c))
        (Ends E .quiet (Vol.UnlinkEffect E.sb v path)) s := by
    intro s h hempty
    refine (h.unlinkFound hsound.owns hd (hsound.ends d hd.1) hj hmem hne hroot
      (hsafe d j name c hres hd hj hproper hroot hempty)).mono ?_
    rintro r s' ⟨rfl, aux', cmp', h'⟩
    exact .of_on (.removed d name j c _ hres hj hroot hempty) h'
  split
  · next hdir =>
    refine h.ends_bind (Reads.empty (v.ino c)) (fun s h => ?_) rfl fun _ => .refused _ _
    cases hempty : v.empty E.sb (v.ino c) with
    | error e => exact .of_on (.refused _ _) h
    | ok u =>
      dsimp only
      split
      · exact .of_on (.refused _ _) h
      · exact hremove s h fun _ => hempty
  · next hfile => exact hremove s h fun hdir => absurd hdir hfile

/-- `minifs_unlink` removes the entry it finds, unless that is a directory with entries. -/
theorem On.minifsUnlink_removes (h : On E .quiet v aux cmp s) (hready : Ready E s) (hsound : v.Sound E.sb)
    (htree : v.Tree E.sb (v.alloc E.sb) parent depth) {path : List UInt8}
    (hres : v.resolveParent E.sb path = .ok (d, v.ino d, name)) (hj : v.Names d j name c)
    (hroot : c ≠ E.sb.rootInode) (hempty : (v.ino c).mode = 2 → v.empty E.sb (v.ino c) = .ok ())
    (hsafe : E.SafeRemoving v d j c) :
    wp (MiniOrange.minifsUnlink path) (fun r _ => r = .ok ()) s := by
  obtain ⟨-, -, -, hread, hmode, hname, hproper⟩ := Vol.resolveParent_eq_ok hres
  obtain ⟨hlt, himap, -, -⟩ := Vol.readInode_eq_ok.1 hread
  have hd : v.IsDir (v.alloc E.sb) d := ⟨Vol.mem_alloc.2 ⟨hlt, himap⟩, hmode⟩
  have hmem := htree.names_mem hd hj
  have hne := htree.names_ne hd hj hproper
  have hc : (v.record d j).inode = c := hj.2.2.2
  have hremove : ∀ s, On E .quiet v aux cmp s →
      wp (MiniOrange.unlinkFound d (v.ino d) (v.record d j) (v.ino c)) (fun r _ => r = .ok ()) s :=
    fun s h => (h.unlinkFound hsound.owns hd (hsound.ends d hd.1) hj hmem hne hroot hsafe).mono fun _ _ h => h.1
  refine h.locked_ready hready fun s h => ?_
  unfold unlinkLocked
  refine h.bind_reads (Reads.resolveParent path) fun s h => ?_
  rw [hres]
  refine h.bind_reads (Reads.find _ name) fun s h => ?_
  rw [htree.find_names hsound.owns hd hname hj]
  dsimp only
  rw [wp_bind, wp_get, h.superblock, hc, if_neg hroot]
  refine h.bind_reads (Reads.readInode c) fun s h => ?_
  rw [hsound.owns.readInode hmem]
  dsimp only
  split
  · next hdir =>
    refine h.bind_reads (Reads.empty (v.ino c)) fun s h => ?_
    rw [hempty hdir]
    dsimp only
    rw [if_neg (hsound.owns.ok d hd.1).linkCount]
    exact hremove s h
  · exact hremove s h

end MiniOrange
