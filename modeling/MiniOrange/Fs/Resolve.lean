import MiniOrange.Fs.Namespace

/-!
# What the operations on names change

The namespace is the map from paths to inodes that `minifs_lookup` computes. Making or removing a node
`c` below a directory `d` prunes or grafts: of the two volumes one has the names of the other and those that
lead to `c` (`Vol.Pruned`). A path that does not step through `c` resolves alike on both
(`Pruned.lookup`), but for the size and the link count of `d`.
-/

namespace MiniOrange

namespace Vol

variable {v w : Vol} {sb : Superblock} {L M : Finset Nat} {parent depth : Nat → Nat} {c d j n : Nat}
  {l name path : List UInt8}

/-- Resolving the path visits the inode. -/
def StepsThrough (v : Vol) (sb : Superblock) (path : List UInt8) (c : Nat) : Prop :=
  ∃ cs slash, parsePath path = .ok (cs, slash) ∧ c ∈ v.visits sb cs sb.rootInode

/-- The directory that a path without its last component leads to. -/
def ParentOf (v : Vol) (sb : Superblock) (path : List UInt8) (d : Nat) : Prop :=
  ∃ init name, parsePath path = .ok (init ++ [name], false) ∧ v.walk sb init sb.rootInode = .ok d

variable {m type : Nat} {cs : List (List UInt8)} {F : Finset Nat} {ℓ' : Level} {e : Errno}

/-- Only a directory is stepped from, by a name of it. -/
theorem Tree.names_of_step (htree : v.Tree sb L parent depth) (hown : v.Owns sb L) (hn : n ∈ L)
    (hl : Component l) (hstep : v.step sb n l = .ok m) : v.IsDir L n ∧ ∃ i, v.Names n i l m := by
  by_cases hgood : Entry.GoodLabel l
  case neg =>
    rw [step_of_not_good hl hgood] at hstep
    cases hstep
  by_cases hmode : (v.ino n).mode = 2
  case neg =>
    rw [hown.step_file hn hmode hgood] at hstep
    cases hstep
  rcases htree.step_dir hown ⟨hn, hmode⟩ hgood with ⟨i, m', hi, heq⟩ | ⟨-, heq⟩
  · obtain rfl : m = m' := Except.ok.inj (hstep.symm.trans heq)
    exact ⟨⟨hn, hmode⟩, i, hi⟩
  · rw [heq] at hstep
    cases hstep

/-- `w` has the names of `v` except those that lead to `c`, and perhaps some that do. -/
structure Pruned (v w : Vol) (sb : Superblock) (M : Finset Nat) (c : Nat) : Prop where
  owns : v.Owns sb M
  owns' : w.Owns sb (M.erase c)
  tree : ∃ parent depth, v.Tree sb M parent depth
  root : sb.rootInode ≠ c
  mode : ∀ n ∈ M.erase c, (w.ino n).mode = (v.ino n).mode
  entry : ∀ d ∈ M.erase c, (v.ino d).mode = 2 → ∀ i < w.entryCount d,
    w.entry d i = .blank ∨ (i < v.entryCount d ∧ w.entry d i = v.entry d i)
  names : ∀ d ∈ M.erase c, (v.ino d).mode = 2 → ∀ i l m, v.Names d i l m → m ≠ c → w.Names d i l m

namespace Pruned

variable (h : Pruned v w sb M c)
include h

/-- No name is new. -/
theorem names_of {i : Nat} (hn : n ∈ M.erase c) (hmode : (v.ino n).mode = 2) (hi : w.Names n i l m) :
    v.Names n i l m := by
  rcases h.entry n hn hmode i hi.1 with hblank | ⟨hlt, heq⟩
  · exact absurd hblank hi.not_blank
  · refine ⟨hlt, ?_⟩
    rw [← heq]
    exact hi.2

/-- A directory can be searched for a name that did not lead to `c`. -/
theorem searchable (hn : n ∈ M.erase c) (hmode : (v.ino n).mode = 2) (hc : ∀ i, ¬ v.Names n i l c) :
    w.Searchable sb n l := by
  obtain ⟨parent, depth, htree⟩ := h.tree
  have hdir : v.IsDir M n := ⟨Finset.mem_of_mem_erase hn, hmode⟩
  intro i hi
  rcases h.entry n hn hmode i hi with hblank | ⟨hlt, heq⟩
  · exact .inl hblank
  rcases htree.entry n hdir i hlt with hblank | ⟨hused, hmem, htype⟩
  · exact .inl (heq.trans hblank)
  rw [heq]
  refine .inr ⟨hused, h.owns.inode_lt _ hmem, fun hlabel => ?_⟩
  have hne : (v.entry n i).inode ≠ c := fun hlead => hc i ⟨hlt, hused, hlabel, hlead⟩
  have hmem' : (v.entry n i).inode ∈ M.erase c := Finset.mem_erase.2 ⟨hne, hmem⟩
  exact ⟨h.owns'.readInode hmem', by rw [htype, h.mode _ hmem']⟩

/-- Steps that do not lead to `c` are the same. -/
theorem step (hn : n ∈ M.erase c) (hl : Component l) : v.step sb n l = .ok c ∨
    (v.step sb n l = w.step sb n l ∧ ∀ m, v.step sb n l = .ok m → m ∈ M.erase c) := by
  obtain ⟨parent, depth, htree⟩ := h.tree
  have hmem := Finset.mem_of_mem_erase hn
  by_cases hgood : Entry.GoodLabel l
  case neg =>
    rw [step_of_not_good hl hgood, step_of_not_good hl hgood]
    exact .inr ⟨rfl, nofun⟩
  by_cases hmode : (v.ino n).mode = 2
  case neg =>
    rw [h.owns.step_file hmem hmode hgood, h.owns'.step_file hn (by rwa [h.mode n hn]) hgood]
    exact .inr ⟨rfl, nofun⟩
  have hdir : v.IsDir M n := ⟨hmem, hmode⟩
  have hdir' : w.IsDir (M.erase c) n := ⟨hn, by rwa [h.mode n hn]⟩
  by_cases hdot : l = [0x2E]
  · subst hdot
    rw [step_dot h.owns hdir, step_dot h.owns' hdir']
    exact .inr ⟨rfl, fun m hm => Except.ok.inj hm ▸ hn⟩
  by_cases hc : ∃ i, v.Names n i l c
  · obtain ⟨i, hi⟩ := hc
    exact .inl (htree.step_names h.owns hdir hi)
  have hc := not_exists.1 hc
  rcases htree.step_dir h.owns hdir hgood with ⟨i, m, hi, heq⟩ | ⟨hno, heq⟩
  · have hmc : m ≠ c := fun hmc => hc i (hmc ▸ hi)
    refine .inr ⟨?_, fun m' hm' => ?_⟩
    · rcases (h.searchable hn hmode hc).step_dir h.owns' hdir' hgood hdot with ⟨k, m', hk, heq'⟩ | ⟨hno, -⟩
      · rw [heq, heq', htree.name_unique hdir hi (h.names_of hn hmode hk)]
      · exact absurd (h.names n hn hmode i l m hi hmc) (hno i m)
    · obtain rfl : m = m' := Except.ok.inj (heq.symm.trans hm')
      exact Finset.mem_erase.2 ⟨hmc, htree.names_mem hdir hi⟩
  · refine .inr ⟨?_, fun m' hm' => by rw [heq] at hm'; cases hm'⟩
    rcases (h.searchable hn hmode hc).step_dir h.owns' hdir' hgood hdot with ⟨k, m', hk, -⟩ | ⟨-, heq'⟩
    · exact absurd (h.names_of hn hmode hk) (hno k m')
    · rw [heq, heq']

/-- A path that does not step through `c` resolves alike. -/
theorem lookup (hpath : ¬ v.StepsThrough sb path c) :
    (∃ e, v.lookup sb path = .error e ∧ w.lookup sb path = .error e) ∨
      ∃ n ∈ M.erase c, v.lookup sb path = .ok ((v.ino n).stat n) ∧
        w.lookup sb path = .ok ((w.ino n).stat n) := by
  obtain ⟨parent, depth, htree⟩ := h.tree
  rw [lookup_eq, lookup_eq]
  cases hparse : parsePath path with
  | error e => exact .inl ⟨e, rfl, rfl⟩
  | ok parsed =>
  obtain ⟨cs, slash⟩ := parsed
  dsimp only
  have hroot : sb.rootInode ∈ M.erase c := Finset.mem_erase.2 ⟨h.root, htree.root.1⟩
  have hstep : ∀ n ∈ M.erase c, ∀ l, Component l → (∃ m ∈ ({c} : Set Nat), v.step sb n l = .ok m) ∨
      (v.step sb n l = w.step sb n l ∧ ∀ m, v.step sb n l = .ok m → m ∈ M.erase c) := fun n hn l hl =>
    (h.step hn hl).imp_left fun heq => ⟨c, rfl, heq⟩
  obtain ⟨hwalk, hmem⟩ := walk_eq hstep cs sb.rootInode (parsePath_components hparse) hroot fun m hm hmc =>
    hpath ⟨cs, slash, hparse, hmc ▸ hm⟩
  rw [← hwalk]
  cases hend : v.walk sb cs sb.rootInode with
  | error e => exact .inl ⟨e, rfl, rfl⟩
  | ok n =>
    have hn := hmem n hend
    dsimp only
    rw [h.owns.readInode (Finset.mem_of_mem_erase hn), h.owns'.readInode hn]
    dsimp only
    rw [h.mode n hn]
    split
    · exact .inl ⟨_, rfl, rfl⟩
    · exact .inr ⟨n, hn, rfl, rfl⟩

/-- A walk on the smaller volume is one on the larger. -/
theorem walk_of (htree' : w.Tree sb (M.erase c) parent depth)
    (hcs : ∀ l ∈ cs, Component l) (hn : n ∈ M.erase c) (hwalk : w.walk sb cs n = .ok m) :
    v.walk sb cs n = .ok m := by
  obtain ⟨parent', depth', htree⟩ := h.tree
  induction cs generalizing n with
  | nil => exact hwalk
  | cons l cs ih =>
    obtain ⟨hl, hcs⟩ := List.forall_mem_cons.1 hcs
    rw [walk] at hwalk ⊢
    cases hstep : w.step sb n l with
    | error e =>
      rw [hstep] at hwalk
      cases hwalk
    | ok next =>
      rw [hstep] at hwalk
      obtain ⟨hdir, i, hi⟩ := htree'.names_of_step h.owns' hn hl hstep
      have hmode : (v.ino n).mode = 2 := by
        rw [← h.mode n hn]
        exact hdir.2
      rw [htree.step_names h.owns ⟨Finset.mem_of_mem_erase hn, hmode⟩ (h.names_of hn hmode hi)]
      exact ih hcs (htree'.names_mem hdir hi) hwalk

end Pruned

/-! ## The three changes -/

/-- What a path leads to that `resolve_parent_locked` and a search have found. -/
theorem lookup_of_resolveParent {inode : Inode} (hv : v.Consistent sb)
    (hres : v.resolveParent sb path = .ok (d, inode, name)) (hj : v.Names d j name c) :
    v.lookup sb path = .ok ((v.ino c).stat c) := by
  obtain ⟨parent, depth, htree⟩ := hv.tree
  obtain ⟨init, hparse, hwalk, hread, hmode, -, -⟩ := resolveParent_eq_ok hres
  obtain ⟨hlt, himap, -, rfl⟩ := readInode_eq_ok.1 hread
  have hd : v.IsDir (v.alloc sb) d := ⟨mem_alloc.2 ⟨hlt, himap⟩, hmode⟩
  rw [lookup_eq, hparse]
  simp only [walk_append, hwalk, walk, htree.step_names hv.owns hd hj,
    hv.owns.readInode (htree.names_mem hd hj)]
  exact if_neg fun h => Bool.noConfusion h.1

/-- The inodes a walk visits are inodes of the tree. -/
theorem Tree.visits_mem (htree : v.Tree sb L parent depth) (hown : v.Owns sb L)
    (hcs : ∀ l ∈ cs, Component l) (hn : n ∈ L) : ∀ m ∈ v.visits sb cs n, m ∈ L := by
  induction cs generalizing n with
  | nil =>
    intro m hm
    rw [List.mem_singleton.1 hm]
    exact hn
  | cons l cs ih =>
    obtain ⟨hl, hcs⟩ := List.forall_mem_cons.1 hcs
    intro m hm
    rw [visits] at hm
    rcases List.mem_cons.1 hm with rfl | hm
    · exact hn
    rcases htree.step_mem hown hn hl with ⟨next, hnext, heq⟩ | ⟨e, -, heq⟩
    · rw [heq] at hm
      exact ih hcs hnext m hm
    · rw [heq] at hm
      cases hm

/-- No path steps through an inode that is not in the tree. -/
theorem Consistent.not_stepsThrough (h : v.Consistent sb) (hc : c ∉ v.alloc sb) : ¬ v.StepsThrough sb path c := by
  obtain ⟨parent, depth, htree⟩ := h.tree
  intro ⟨cs, slash, hparse, hvisit⟩
  exact hc (htree.visits_mem h.owns (parsePath_components hparse) htree.root.1 c hvisit)

/-- `w` has all that is on `v`, and marks of blocks and inodes besides that nothing on it refers to. -/
structure Leaks (v w : Vol) (sb : Superblock) : Prop where
  bmap : ∀ b, v.bmap b = true → w.bmap b = true
  imap : ∀ n, v.imap n = true → w.imap n = true
  kept : ∀ n ∈ v.alloc sb, Kept v w n
  ends : ∀ n ∈ v.alloc sb, v.PointersEnd n → w.PointersEnd n

theorem Same.leaks (h : Same v w (v.alloc sb)) : Leaks v w sb where
  bmap b hb := by rw [h.bmap, hb]
  imap n hn := by rw [h.imap, hn]
  kept := h.kept
  ends := h.ends

/-- What is left of an inode that was not entered. -/
theorem Beside.leaks (h : Beside v w sb (v.alloc sb) c F) (hfree : v.imap c = false) :
    Leaks v w sb where
  bmap b hb := (h.bmap b).2 (.inl hb)
  imap n hn := by
    have hnc : n ≠ c := fun hnc => by
      rw [hnc, hfree] at hn
      cases hn
    rw [h.imap n hnc, hn]
  kept := h.kept
  ends := h.ends

/-- Blocks that were taken and not used. -/
theorem Taken.leaks (h : Taken v w sb F) (hown : v.Owns sb (v.alloc sb)) : Leaks v w sb where
  bmap b hb := by
    have hF : b ∉ F := fun hF => by
      rw [h.free b hF] at hb
      cases hb
    rw [h.bmap b hF, hb]
  imap n hn := by rw [h.imap, hn]
  kept n hn := h.kept fun t ht => hown.slot_marked hn ht
  ends n hn hend hbig k hk hle := by
    rw [h.ino] at hbig hle ⊢
    rw [h.data (v.ino n).indirect (hown.slot_marked hn (t := .indirect) hbig)]
    exact hend hbig k hk hle

/-- Leaks are out of reach of every path. -/
theorem Leaks.lookup (hleaks : Leaks v w sb) (h : v.Consistent sb) (path : List UInt8) :
    w.lookup sb path = v.lookup sb path := by
  have hout : sb.totalInodes ∉ v.alloc sb := fun hin => Nat.lt_irrefl _ (mem_alloc.1 hin).1
  have herase : (v.alloc sb).erase sb.totalInodes = v.alloc sb := Finset.erase_eq_of_notMem hout
  obtain ⟨parent, depth, htree⟩ := h.tree
  have hpruned : Pruned v w sb (v.alloc sb) sb.totalInodes :=
    { owns := h.owns
      owns' := by
        rw [herase]
        exact h.owns.congr fun n hn => (hleaks.kept n hn).toSameFile
      tree := h.tree
      root := fun heq => hout (heq ▸ htree.root.1)
      mode := fun n hn => by rw [(hleaks.kept n (Finset.mem_of_mem_erase hn)).ino]
      entry := fun d hd _ i hi => by
        have hkept := hleaks.kept d (Finset.mem_of_mem_erase hd)
        rw [hkept.entryCount] at hi
        exact .inr ⟨hi, hkept.entry hi⟩
      names := fun d hd _ i l m hi _ => by
        have hkept := hleaks.kept d (Finset.mem_of_mem_erase hd)
        refine ⟨by rw [hkept.entryCount]; exact hi.1, ?_⟩
        rw [hkept.entry hi.1]
        exact hi.2 }
  rcases hpruned.lookup (h.not_stepsThrough hout) with ⟨e, he, he'⟩ | ⟨n, hn, heq, heq'⟩
  · rw [he, he']
  · rw [heq, heq', (hleaks.kept n (Finset.mem_of_mem_erase hn)).ino]

/-- A creation is undone by pruning. -/
theorem Linked.pruned (h : Linked v w L d j c type name) (hown : v.Owns sb L)
    (hown' : w.Owns sb (insert c L)) (he : v.Enterable sb L parent depth d c type name) :
    Pruned w v sb (insert c L) c := by
  have herase : (insert c L).erase c = L := Finset.erase_insert he.fresh
  have hmode : ∀ n ∈ L, (w.ino n).mode = 2 → v.IsDir L n := fun n hn hmode => ⟨hn, by rwa [← h.mode n hn]⟩
  refine ⟨hown', by rwa [herase], ⟨_, _, h.tree he⟩, ?_, fun n hn => ?_, fun n hn hdir i hi => ?_,
    fun n hn hdir i l m hi hmc => ?_⟩
  · rintro heq
    exact he.fresh (heq ▸ he.tree.root.1)
  · rw [herase] at hn
    exact (h.mode n hn).symm
  · rw [herase] at hn
    have hdir := hmode n hn hdir
    by_cases hnd : n = d
    · subst hnd
      have hcount := h.placed.count
      have hlt : i < w.entryCount n := by omega
      by_cases hij : i = j
      · subst hij
        exact .inl (h.hole.blank hi)
      · refine .inr ⟨hlt, ?_⟩
        rw [h.placed.entry i hlt, if_neg hij]
    · refine .inr ⟨by rwa [h.count n hdir hnd], (h.entry n hdir hnd i hi).symm⟩
  · rw [herase] at hn
    rcases (h.names he (hmode n hn hdir)).1 hi with hold | ⟨-, -, -, hnew⟩
    · exact hold
    · exact absurd hnew hmc

section

variable (h : v.Consistent sb) (hd : v.IsDir (v.alloc sb) d) (hj : v.Names d j name c) (hproper : Proper name)
  (hroot : c ≠ sb.rootInode)
include h hd hj hproper hroot

/-- A removal prunes. -/
theorem Consistent.pruned_unlinked : Pruned v (v.unlinked d j c) sb (v.alloc sb) c := by
  have hun := h.unlinked_unlinked hd hj hproper
  have hcount : (v.unlinked d j c).entryCount d = v.entryCount d := by
    have hcount := hun.placed.count
    have hlt := hj.1
    omega
  refine ⟨h.owns, (h.solid_unlinked hd hj hproper).owns, h.tree, hroot.symm, fun n hn => ?_,
    fun n hn hmode i hi => ?_, fun n hn hmode i l m hi hmc => ?_⟩
  · exact hun.mode n (Finset.mem_of_mem_erase hn) (Finset.ne_of_mem_erase hn)
  · have hdir : v.IsDir (v.alloc sb) n := ⟨Finset.mem_of_mem_erase hn, hmode⟩
    by_cases hnd : n = d
    · subst hnd
      rw [hun.placed.entry i hi]
      split
      · exact .inl rfl
      · exact .inr ⟨by rwa [← hcount], rfl⟩
    · rw [hun.count n hdir hnd (Finset.ne_of_mem_erase hn)] at hi
      exact .inr ⟨hi, hun.entry n hdir hnd (Finset.ne_of_mem_erase hn) i hi⟩
  · have hdir : v.IsDir (v.alloc sb) n := ⟨Finset.mem_of_mem_erase hn, hmode⟩
    by_cases hnd : n = d
    · subst hnd
      have hij : i ≠ j := by
        rintro rfl
        exact hmc (hi.2.2.2.symm.trans hj.2.2.2)
      refine ⟨by rw [hcount]; exact hi.1, ?_⟩
      rw [hun.placed.entry i (by rw [hcount]; exact hi.1), if_neg hij]
      exact hi.2
    · refine ⟨by rw [hun.count n hdir hnd (Finset.ne_of_mem_erase hn)]; exact hi.1, ?_⟩
      rw [hun.entry n hdir hnd (Finset.ne_of_mem_erase hn) i hi.1]
      exact hi.2

/-- The step by the removed name fails. -/
theorem Consistent.step_unlinked : (v.unlinked d j c).step sb d name = .error .enoent := by
  obtain ⟨parent, depth, htree⟩ := h.tree
  have hpruned := h.pruned_unlinked hd hj hproper hroot
  have hun := h.unlinked_unlinked hd hj hproper
  have hgood : Entry.GoodLabel name := hj.2.2.1 ▸ hj.2.1.label
  have hdc : d ∈ (v.alloc sb).erase c := Finset.mem_erase.2 ⟨(htree.names_ne hd hj hproper).symm, hd.1⟩
  have hdir : (v.unlinked d j c).IsDir ((v.alloc sb).erase c) d :=
    ⟨hdc, (hpruned.mode d hdc).trans hd.2⟩
  -- the entry that had the name is blank, and no other has it
  have hgone : ∀ i m, ¬ (v.unlinked d j c).Names d i name m := fun i m hi => by
    obtain rfl := htree.unique d hd i j name m c (hpruned.names_of hdc hd.2 hi) hj
    refine hi.not_blank ?_
    rw [hun.placed.entry i hi.1, if_pos rfl]
  have hsearch : (v.unlinked d j c).Searchable sb d name := fun i hi => by
    rcases hpruned.entry d hdc hd.2 i hi with hblank | ⟨hlt, heq⟩
    · exact .inl hblank
    rcases htree.entry d hd i hlt with hblank | ⟨hused, hmem, -⟩
    · exact .inl (heq.trans hblank)
    have hused' : ((v.unlinked d j c).entry d i).Used := heq ▸ hused
    refine .inr ⟨hused', by rw [heq]; exact h.owns.inode_lt _ hmem, fun hlabel => ?_⟩
    exact absurd ⟨hi, hused', hlabel, rfl⟩ (hgone i _)
  rcases hsearch.step_dir hpruned.owns' hdir hgood hproper.1 with ⟨i, m, hi, -⟩ | ⟨-, heq⟩
  · exact absurd hi (hgone i m)
  · exact heq

/-- The removed path fails: its walk ends at the name, or comes through the removed directory before. -/
theorem Consistent.walk_unlinked
    (hempty : (v.ino c).mode = 2 → v.empty sb (v.ino c) = .ok ())
    (hcs : ∀ l ∈ cs, Component l) (hn : n ∈ (v.alloc sb).erase c) (hwalk : v.walk sb cs n = .ok d) :
    (v.unlinked d j c).walk sb (cs ++ [name]) n = .error .enoent := by
  obtain ⟨parent, depth, htree⟩ := h.tree
  have hpruned := h.pruned_unlinked hd hj hproper hroot
  have hgone := h.step_unlinked hd hj hproper hroot
  induction cs generalizing n with
  | nil =>
    obtain rfl : n = d := Except.ok.inj hwalk
    rw [List.nil_append, walk, hgone]
  | cons l cs ih =>
    obtain ⟨hl, hcs⟩ := List.forall_mem_cons.1 hcs
    rw [walk] at hwalk
    cases hstep : v.step sb n l with
    | error e =>
      rw [hstep] at hwalk
      cases hwalk
    | ok m =>
    rw [hstep] at hwalk
    dsimp only at hwalk
    obtain ⟨hdir, i, hi⟩ := htree.names_of_step h.owns (Finset.mem_of_mem_erase hn) hl hstep
    rw [List.cons_append, walk]
    rcases hpruned.step hn hl with hin | ⟨heq, hmem⟩
    · -- the walk goes on from `c`, which is then a directory, and has no name but this
      obtain rfl : m = c := Except.ok.inj (hstep.symm.trans hin)
      have hc : v.IsDir (v.alloc sb) m := by
        cases cs with
        | nil => exact absurd (Except.ok.inj hwalk) (htree.names_ne hd hj hproper)
        | cons l' cs =>
          rw [walk] at hwalk
          cases hnext : v.step sb m l' with
          | error e =>
            rw [hnext] at hwalk
            cases hwalk
          | ok _ =>
            exact (htree.names_of_step h.owns (htree.names_mem hdir hi) (hcs l' List.mem_cons_self) hnext).1
      obtain ⟨rfl, rfl⟩ := htree.last_dir h.named hd hj hproper hc hroot
        (empty_eq_ok h.owns hc (hempty hc.2)) n hdir (Finset.ne_of_mem_erase hn) i l hi
      rw [← hi.2.2.1, hj.2.2.1, hgone]
    · rw [← heq, hstep]
      exact ih hcs (hmem m hstep) hwalk

end

/-! ## What the paths see -/

/-- The same result, but for the size and the link count of the directory `d`. -/
def SameBut (d : Nat) (r r' : Except Errno Stat) : Prop :=
  r' = r ∨ ∃ a b, r = .ok a ∧ r' = .ok b ∧ a.inode = d ∧ b.inode = d ∧ b.mode = a.mode

/-- Pruning changes the record of one directory. -/
theorem Pruned.sameBut (h : Pruned v w sb M c) (hino : ∀ n ∈ M.erase c, n ≠ d → w.ino n = v.ino n)
    (hpath : ¬ v.StepsThrough sb path c) : SameBut d (v.lookup sb path) (w.lookup sb path) := by
  rcases h.lookup hpath with ⟨e, he, he'⟩ | ⟨n, hn, heq, heq'⟩
  · exact .inl (he'.trans he.symm)
  · by_cases hnd : n = d
    · subst hnd
      exact .inr ⟨_, _, heq, heq', rfl, rfl, h.mode n hn⟩
    · rw [hino n hn hnd] at heq'
      exact .inl (heq'.trans heq.symm)

theorem SameBut.symm {r r' : Except Errno Stat} (h : SameBut d r r') : SameBut d r' r := by
  rcases h with rfl | ⟨a, b, ha, hb, had, hbd, hmode⟩
  · exact .inl rfl
  · exact .inr ⟨b, a, hb, ha, hbd, had, hmode.symm⟩

/-- The path of a removed name fails, and the others lead where they led. -/
theorem UnlinkEffect.paths (heffect : UnlinkEffect sb v path (.ok ()) ℓ' w)
    (h : v.Consistent sb) : ∃ d c, v.ParentOf sb path d ∧ v.lookup sb path = .ok ((v.ino c).stat c) ∧
      w.lookup sb path = .error .enoent ∧
      ∀ q, ¬ v.StepsThrough sb q c → SameBut d (v.lookup sb q) (w.lookup sb q) := by
  cases heffect with
  | removed d name j c _ hres hj hroot hempty =>
  obtain ⟨parent, depth, htree⟩ := h.tree
  obtain ⟨init, hparse, hwalk, hread, hmode, -, hproper⟩ := resolveParent_eq_ok hres
  obtain ⟨hlt, himap, -, -⟩ := readInode_eq_ok.1 hread
  have hd : v.IsDir (v.alloc sb) d := ⟨mem_alloc.2 ⟨hlt, himap⟩, hmode⟩
  have hpruned := h.pruned_unlinked hd hj hproper hroot
  have hinit : ∀ l ∈ init, Component l := fun l hl =>
    parsePath_components hparse l (List.mem_append_left _ hl)
  have hrootmem : sb.rootInode ∈ (v.alloc sb).erase c := Finset.mem_erase.2 ⟨hroot.symm, htree.root.1⟩
  refine ⟨d, c, ⟨init, name, hparse, hwalk⟩, lookup_of_resolveParent h hres hj, ?_, fun q hq => ?_⟩
  · rw [lookup_eq, hparse]
    dsimp only
    rw [h.walk_unlinked hd hj hproper hroot hempty hinit hrootmem hwalk]
  · refine hpruned.sameBut (fun n hn hnd => ?_) hq
    have hrel : Releasing (v.unnamed d j c) (v.unlinked d j c) c := releasing_released
    rw [hrel.ino n (Finset.ne_of_mem_erase hn), unnamed_eq, relink_of_ne hnd, clearEntry_ino]

/-- The record of a new inode. -/
def newStat (c type : Nat) : Stat := if type = 2 then ⟨c, 2, 2, 128⟩ else ⟨c, 1, 1, 0⟩

theorem Prepared.stat (h : v.Prepared sb d c type F w) : (w.ino c).stat c = newStat c type := by
  cases h with
  | file => rw [newFile, setIno_self]; rfl
  | directory b => rw [newDirectory, setIno_self]; rfl

/-- The path of a new name leads to the new inode, and the others lead where they led. -/
theorem CreateEffect.paths {α : Type} {value : Nat → α} {a : α} {ℓ : Level}
    (heffect : CreateEffect sb ℓ v path type value (.ok a) ℓ' w) (hgeo : sb.Geometry) (h : v.Consistent sb) :
    ∃ d c, a = value c ∧ v.ParentOf sb path d ∧ c ∉ v.alloc sb ∧ w.Consistent sb ∧ c ∈ w.alloc sb ∧
      w.lookup sb path = .ok (newStat c type) ∧ (w.ino c).mode = type ∧
      (type = 2 → w.entryCount c = 2 ∧ w.entry c 0 = Entry.of c 2 [0x2E] ∧
        w.entry c 1 = Entry.of d 2 [0x2E, 0x2E] ∧ (w.ino d).mode = 2) ∧
      ∀ q, ¬ w.StepsThrough sb q c → SameBut d (v.lookup sb q) (w.lookup sb q) := by
  cases heffect with
  | named d name _ _ _ hres hvacant hmake =>
  cases hmake with
  | made c j F v₁ _ hlt hfree hprep hent =>
  obtain ⟨parent, depth, htree⟩ := h.tree
  obtain ⟨init, hparse, hwalk, -, -, -, -⟩ := resolveParent_eq_ok hres
  have hd := hvacant.dir
  have hc : c ∉ v.alloc sb := notMem_alloc hfree
  have hcd : c ≠ d := fun heq => hc (heq ▸ hd.1)
  have he : v.Enterable sb (v.alloc sb) parent depth d c type name :=
    ⟨htree, hd, hc, hprep.type_eq, hvacant.label, hvacant.proper, h.unused hvacant⟩
  have hlinked : Linked v w (v.alloc sb) d j c type name :=
    hprep.linked hgeo h.owns hc hlt hd.1 hent.toGrown hent.hole hent.placed
  have hw : w.Consistent sb := h.made hgeo hlt hfree hd hvacant.label hvacant.proper (h.unused hvacant) hprep hent
  have hsolid := (hprep.solid hgeo.dataStart_pos h.solid hc hlt).settled
    (Finset.mem_insert_of_mem hd.1) hent.toSettled
  have hpruned := hlinked.pruned h.owns hsolid.owns he
  have herase : (insert c (v.alloc sb)).erase c = v.alloc sb := Finset.erase_insert hc
  have hstat : (w.ino c).stat c = newStat c type := by
    rw [hent.other c hcd]
    exact hprep.stat
  have hcw : c ∈ w.alloc sb := by
    rw [hsolid.alloc_eq]
    exact Finset.mem_insert_self c _
  have hdw : w.IsDir (w.alloc sb) d := by
    rw [hsolid.alloc_eq]
    exact (hlinked.isDir he).2 (.inl hd)
  -- the walk to the parent is a walk on the new volume
  have hwalk' : w.walk sb init sb.rootInode = .ok d := by
    have hinit : ∀ l ∈ init, Component l := fun l hl =>
      parsePath_components hparse l (List.mem_append_left _ hl)
    rw [← herase] at htree
    exact hpruned.walk_of htree hinit htree.root.1 hwalk
  have hres' : w.resolveParent sb path = .ok (d, w.ino d, name) :=
    resolveParent_of_walk hparse hwalk' (hw.owns.readInode hdw.1) hdw.2 hvacant.label hvacant.proper
  refine ⟨d, c, rfl, ⟨init, name, hparse, hwalk⟩, hc, hw, hcw, ?_, hlinked.new_mode, fun htype => ?_,
    fun q hq => ?_⟩
  · rw [lookup_of_resolveParent hw hres' (hlinked.names_new he), hstat]
  · exact ⟨hlinked.new_count htype, hlinked.new_dot htype, hlinked.new_dotdot htype, hdw.2⟩
  · refine (hpruned.sameBut (fun n hn hnd => ?_) hq).symm
    rw [herase] at hn
    rw [hent.other n hnd, ((hprep.beside h.owns hc).kept n hn).ino]

/-- A creation that fails changes no path. -/
theorem CreateEffect.lookup_error {α : Type} {value : Nat → α} {ℓ : Level}
    (heffect : CreateEffect sb ℓ v path type value (.error e) ℓ' w) (h : v.Consistent sb)
    (q : List UInt8) : w.lookup sb q = v.lookup sb q := by
  cases heffect with
  | refused => rfl
  | named d name _ _ _ hres hvacant hmake =>
  cases hmake with
  | undone _ _ _ hsame => exact hsame.leaks.lookup h q
  | leaked _ _ _ _ _ _ hfree hbeside => exact (hbeside.leaks hfree).lookup h q

/-- A removal that fails changes no path. -/
theorem UnlinkEffect.lookup_error (heffect : UnlinkEffect sb v path (.error e) ℓ' w)
    (q : List UInt8) : w.lookup sb q = v.lookup sb q := by
  cases heffect with
  | refused => rfl

/-- The entries of a new directory, as `minifs_readdir` lists them. -/
theorem usedFrom_newDirectory (hcount : v.entryCount c = 2) (hdot : v.entry c 0 = Entry.of c 2 [0x2E])
    (hdotdot : v.entry c 1 = Entry.of d 2 [0x2E, 0x2E]) (hc : (v.ino c).mode = 2) (hd : (v.ino d).mode = 2) :
    v.usedFrom c 0 = [0, 1] ∧
      (v.usedFrom c 0).map (v.direntOf c) = [⟨c, 2, [0x2E]⟩, ⟨d, 2, [0x2E, 0x2E]⟩] := by
  have hlabel : ∀ {n : Nat} {l : List UInt8}, Entry.GoodLabel l → (Entry.of n 2 l).label = l :=
    fun hl => Entry.label_of fun y hy => (hl.good y hy).1
  have htype : ∀ {n : Nat} {l : List UInt8}, (Entry.of n 2 l).type ≠ 0 := show 2 ≠ 0 by decide
  have hused : v.usedFrom c 0 = [0, 1] := by
    rw [usedFrom_of_lt (by omega), hdot, if_pos htype, usedFrom_of_lt (by omega), hdotdot, if_pos htype,
      usedFrom_of_le (by omega)]
  refine ⟨hused, ?_⟩
  rw [hused]
  simp only [List.map_cons, List.map_nil, direntOf, hdot, hdotdot, hlabel goodLabel_dots.1,
    hlabel goodLabel_dots.2]
  simp only [Entry.of, hc, hd]

end Vol

end MiniOrange
