import MiniOrange.Fs.Serving

/-!
# Paths and listings on a consistent volume

In a directory of the tree a step by a good name leads to the inode it names, or nowhere
(`Tree.step_dir`); so a path leads to an allocated inode or is refused, and `EIO` is never the reason
(`Tree.walk_mem`, `Consistent.lookup_ne_eio`). `minifs_readdir` returns the next entry in use
(`Tree.readdirFrom_eq`), and calling it until the end lists a directory (`Serving.listDirectory`).
-/

namespace MiniOrange

/-- A component of a path: it is not empty, and has no NUL and no slash. -/
def Component (l : List UInt8) : Prop := l ≠ [] ∧ ∀ x ∈ l, x ≠ 0 ∧ x ≠ 0x2F

instance (l : List UInt8) : Decidable (Component l) :=
  decidable_of_iff (l ≠ [] ∧ l.all fun x => x ≠ 0 ∧ x ≠ 0x2F) (by simp [Component])

variable {l path : List UInt8} {cs : List (List UInt8)} {fuel : Nat}

/-- A component is a name for a directory, or too long or not ASCII. -/
theorem Component.good_iff (h : Component l) :
    Entry.GoodLabel l ↔ l.length ≤ 58 ∧ ∀ x ∈ l, x ≤ 0x7F :=
  ⟨fun hl => ⟨hl.length_le, fun x hx => (hl.good x hx).2.1⟩,
    fun hl => ⟨h.1, hl.1, fun x hx => ⟨(h.2 x hx).1, hl.2 x hx, (h.2 x hx).2⟩⟩⟩

theorem Entry.GoodLabel.component (h : Entry.GoodLabel l) : Component l :=
  ⟨h.pos, fun x hx => ⟨(h.good x hx).1, (h.good x hx).2.2⟩⟩

/-- The components of a path are components. -/
theorem parsePath_components {slash : Bool} (h : parsePath path = .ok (cs, slash)) : ∀ l ∈ cs, Component l := by
  unfold parsePath at h
  cases hlength : boundedPathLength path with
  | error e => rw [hlength] at h; cases h
  | ok pathLength =>
    rw [hlength] at h
    obtain ⟨rfl, -⟩ := Prod.mk.inj (Except.ok.inj h)
    intro l hl
    obtain ⟨hne, hbytes⟩ := mem_components hl
    refine ⟨hne, fun x hx => ⟨?_, (hbytes x hx).1⟩⟩
    exact (Vol.boundedPathLength_bytes hlength).2 x ((List.drop_suffix _ _).subset (hbytes x hx).2)

/-! ## Paths written out -/

/-- A short path without a NUL has its length. -/
theorem boundedPathLength_eq (hslash : path.getD 0 0 = 0x2F) (hlength : path.length < 256)
    (hbytes : ∀ x ∈ path, x ≠ 0) : boundedPathLength path = .ok path.length := by
  have hpos : path.length ≠ 0 := by
    rintro hnil
    rw [List.length_eq_zero_iff.1 hnil] at hslash
    cases hslash
  have hfind : (List.range 256).find? (fun index => path.getD index 0 = 0) = some path.length := by
    rw [List.find?_range_eq_some]
    refine ⟨by simp, List.mem_range.2 hlength, fun i hi => ?_⟩
    rw [List.getD_eq_getElem _ _ hi]
    simpa using hbytes _ (List.getElem_mem hi)
  unfold boundedPathLength
  rw [if_neg (not_not.2 hslash), hfind]
  exact if_neg hpos

/-- A long path is refused. -/
theorem boundedPathLength_long (hlength : 256 ≤ path.length) (hbytes : ∀ x ∈ path, x ≠ 0) :
    boundedPathLength path = .error .einval := by
  have hfind : (List.range 256).find? (fun index => path.getD index 0 = 0) = none := by
    rw [List.find?_eq_none]
    intro i hi
    have hi : i < path.length := (List.mem_range.1 hi).trans_le hlength
    rw [List.getD_eq_getElem _ _ hi]
    simpa using hbytes _ (List.getElem_mem hi)
  unfold boundedPathLength
  split
  · rfl
  · rw [hfind]

/-- The components of a path that begins with one. -/
theorem components_append {rest : List UInt8} (hl : Component l) (hrest : rest = [] ∨ rest.head? = some 0x2F) :
    components (fuel + 1) (l ++ rest) = l :: components fuel rest := by
  obtain ⟨x, xs, rfl⟩ := List.exists_cons_of_ne_nil hl.1
  have hx := (hl.2 x List.mem_cons_self).2
  have hdrop : (x :: xs ++ rest).dropWhile (· = 0x2F) = x :: xs ++ rest :=
    List.dropWhile_cons_of_neg (by simpa using hx)
  have htake : (x :: xs ++ rest).takeWhile (· ≠ 0x2F) = x :: xs := by
    rw [List.takeWhile_append_of_pos fun y hy => by simpa using (hl.2 y hy).2]
    rcases hrest with rfl | hhead
    · simp
    · obtain ⟨ys, rfl⟩ : ∃ ys, rest = 0x2F :: ys := by
        cases rest with
        | nil => cases hhead
        | cons y ys => exact ⟨ys, by rw [Option.some.inj hhead]⟩
      simp
  rw [components, hdrop, htake]
  dsimp only
  rw [if_neg (by simp), List.drop_left]

theorem components_nil (fuel : Nat) : components fuel [] = [] := by
  cases fuel with
  | zero => rfl
  | succ fuel => rfl

/-- A slash in front changes nothing. -/
theorem components_slash (fuel : Nat) (rest : List UInt8) :
    components fuel (0x2F :: rest) = components fuel rest := by
  rw [← components_dropWhile, List.dropWhile_cons_of_pos (by simp), components_dropWhile]

/-- The path with given components. -/
def pathOf (cs : List (List UInt8)) : List UInt8 := cs.flatMap fun l => 0x2F :: l

theorem pathOf_cons (l : List UInt8) (cs : List (List UInt8)) : pathOf (l :: cs) = 0x2F :: (l ++ pathOf cs) :=
  List.flatMap_cons

theorem pathOf_head (cs : List (List UInt8)) : pathOf cs = [] ∨ (pathOf cs).head? = some 0x2F := by
  cases cs with
  | nil => exact .inl rfl
  | cons l cs => exact .inr (by rw [pathOf_cons]; rfl)

theorem components_pathOf (hcs : ∀ l ∈ cs, Component l)
    (hfuel : cs.length ≤ fuel) : components fuel (pathOf cs) = cs := by
  induction cs generalizing fuel with
  | nil => exact components_nil fuel
  | cons l cs ih =>
    obtain ⟨hl, hcs⟩ := List.forall_mem_cons.1 hcs
    obtain ⟨fuel, rfl⟩ : ∃ k, fuel = k + 1 := ⟨fuel - 1, by rw [List.length_cons] at hfuel; omega⟩
    rw [pathOf_cons, components_slash, components_append hl (pathOf_head cs), ih hcs (Nat.le_of_succ_le_succ hfuel)]

theorem pathOf_bytes (hcs : ∀ l ∈ cs, Component l) : ∀ x ∈ pathOf cs, x ≠ 0 := by
  intro x hx
  obtain ⟨l, hl, hx⟩ := List.mem_flatMap.1 hx
  rcases List.mem_cons.1 hx with rfl | hx
  · decide
  · exact ((hcs l hl).2 x hx).1

theorem length_le_pathOf (cs : List (List UInt8)) : cs.length ≤ (pathOf cs).length := by
  induction cs with
  | nil => exact Nat.zero_le _
  | cons l cs ih =>
    rw [pathOf_cons, List.length_cons, List.length_cons, List.length_append]
    omega

/-- The last byte of such a path is no slash. -/
theorem pathOf_last (hne : cs ≠ []) (hcs : ∀ l ∈ cs, Component l) :
    (pathOf cs).getD ((pathOf cs).length - 1) 0 ≠ 0x2F := by
  obtain ⟨init, l, rfl⟩ : ∃ init l, cs = init ++ [l] := ⟨_, _, (List.dropLast_append_getLast hne).symm⟩
  have hl := hcs l (List.mem_append_right _ (List.mem_singleton_self l))
  obtain ⟨xs, x, rfl⟩ : ∃ xs x, l = xs ++ [x] := ⟨_, _, (List.dropLast_append_getLast hl.1).symm⟩
  have hpath : pathOf (init ++ [xs ++ [x]]) = (pathOf init ++ 0x2F :: xs) ++ [x] := by
    simp [pathOf, List.flatMap_append]
  rw [hpath, List.length_append, List.length_singleton, Nat.add_sub_cancel,
    List.getD_append_right _ _ _ _ (Nat.le_refl _), Nat.sub_self]
  exact (hl.2 x (List.mem_append_right _ (List.mem_singleton_self x))).2

/-- The components of a path that is written out. -/
theorem parsePath_pathOf (hne : cs ≠ []) (hcs : ∀ l ∈ cs, Component l)
    (hlength : (pathOf cs).length < 256) : parsePath (pathOf cs) = .ok (cs, false) := by
  obtain ⟨l, rest, rfl⟩ := List.exists_cons_of_ne_nil hne
  have hslash : (pathOf (l :: rest)).getD 0 0 = 0x2F := by rw [pathOf_cons]; rfl
  have hlast := pathOf_last hne hcs
  have hfuel := length_le_pathOf (l :: rest)
  unfold parsePath
  rw [boundedPathLength_eq hslash hlength (pathOf_bytes hcs), Except.map, List.take_length,
    decide_eq_false fun hends => hlast hends.2]
  have hdrop : components (pathOf (l :: rest)).length ((pathOf (l :: rest)).drop 1) = l :: rest := by
    have htail : pathOf (l :: rest) = 0x2F :: (pathOf (l :: rest)).drop 1 := by rw [pathOf_cons]; rfl
    rw [← components_slash, ← htail, components_pathOf hcs hfuel]
  rw [hdrop]

/-- A path that is too long is refused. -/
theorem parsePath_long (hcs : ∀ l ∈ cs, Component l)
    (hlength : 256 ≤ (pathOf cs).length) : parsePath (pathOf cs) = .error .einval := by
  unfold parsePath
  rw [boundedPathLength_long hlength (pathOf_bytes hcs)]
  rfl

/-! ## Entries -/

/-- The name `minifs_readdir` copies is the name of the entry. -/
theorem Entry.Used.copied {p : Bytes} (h : (Entry.ofBytes p).Used) :
    ((List.range 58).map fun i => p (5 + i)).takeWhile (· ≠ 0) = (Entry.ofBytes p).label := by
  have htake : (List.range 58).map (fun i => p (5 + i)) = (Entry.ofBytes p).name.take 58 := by
    simp only [Entry.ofBytes, ← List.map_take, List.take_range]
    rfl
  have hle := h.label.length_le
  rw [htake, h.padded, List.take_append, List.take_of_length_le hle, List.take_replicate,
    List.takeWhile_append_of_pos fun x hx => by simpa using (h.label.good x hx).1]
  cases min (58 - (Entry.ofBytes p).label.length) (59 - (Entry.ofBytes p).label.length) with
  | zero => simp
  | succ m => simp [List.replicate_succ]

namespace Vol

variable {v : Vol} {sb : Superblock} {L : Finset Nat} {parent depth : Nat → Nat} {n d j : Nat}
  {l path : List UInt8}

/-! ## Steps -/

/-- A component that is no name is refused, on every volume. -/
theorem step_of_not_good (hc : Component l) (hl : ¬ Entry.GoodLabel l) : v.step sb n l = .error .einval := by
  rw [hc.good_iff, not_and_or] at hl
  unfold step
  by_cases hascii : l.any (· > 0x7F) = true
  · rw [if_pos hascii]
  · rw [if_neg hascii, if_pos]
    rcases hl with hlong | hbyte
    · exact .inr (Nat.lt_of_not_le hlong)
    · refine absurd (fun x hx => ?_) hbyte
      simp only [List.any_eq_true, decide_eq_true_eq, not_exists, not_and] at hascii
      exact UInt8.not_lt.1 (hascii x hx)

/-- A step from a regular file is refused. -/
theorem Owns.step_file (hown : v.Owns sb L) (hn : n ∈ L) (hmode : (v.ino n).mode ≠ 2)
    (hl : Entry.GoodLabel l) : v.step sb n l = .error .enotdir := by
  have hpos := List.length_pos_iff.2 hl.pos
  have hle := hl.length_le
  rw [step, if_neg (Bool.not_eq_true _ ▸ hl.ascii), if_neg (by omega), hown.readInode hn]
  exact if_pos hmode

/-- A step from a directory that can be searched leads to the inode of that name, if there is one. -/
theorem Searchable.step_dir (hs : v.Searchable sb d l) (hown : v.Owns sb L) (hd : v.IsDir L d)
    (hl : Entry.GoodLabel l) (hdot : l ≠ [0x2E]) :
    (∃ j c, v.Names d j l c ∧ v.step sb d l = .ok c) ∨
      ((∀ j c, ¬ v.Names d j l c) ∧ v.step sb d l = .error .enoent) := by
  rw [Vol.step_dir (hown.readInode hd.1) hd.2 hl hdot]
  obtain ⟨r, ⟨j, c, -, -, hj, rfl⟩ | ⟨hno, rfl⟩, heq⟩ := find_searched hown hd hs hl
  · refine .inl ⟨j, c, hj, ?_⟩
    rw [heq]
    exact congrArg Except.ok hj.2.2.2
  · refine .inr ⟨fun j c hj => hno j c (Nat.zero_le _) hj.1 hj, ?_⟩
    rw [heq]
    rfl

/-- A step by `.` stays. -/
theorem step_dot (hown : v.Owns sb L) (hd : v.IsDir L d) : v.step sb d [0x2E] = .ok d := by
  rw [step, if_neg (by decide), if_neg (by decide), hown.readInode hd.1]
  dsimp only
  rw [if_neg (not_not.2 hd.2), if_pos rfl]

section
variable (htree : v.Tree sb L parent depth)
include htree

/-- A step from a directory leads to the inode of that name, if there is one. -/
theorem Tree.step_dir (hown : v.Owns sb L) (hd : v.IsDir L d)
    (hl : Entry.GoodLabel l) :
    (∃ j c, v.Names d j l c ∧ v.step sb d l = .ok c) ∨
      ((∀ j c, ¬ v.Names d j l c) ∧ v.step sb d l = .error .enoent) := by
  by_cases hdot : l = [0x2E]
  · subst hdot
    obtain ⟨j, hj⟩ := htree.dot d hd
    exact .inl ⟨j, d, hj, step_dot hown hd⟩
  · exact (htree.searchable hown hd l).step_dir hown hd hl hdot

/-- A step by the name of an entry. -/
theorem Tree.step_names (hown : v.Owns sb L) (hd : v.IsDir L d) {c : Nat}
    (hj : v.Names d j l c) : v.step sb d l = .ok c := by
  have hl : Entry.GoodLabel l := hj.2.2.1 ▸ hj.2.1.label
  rcases htree.step_dir hown hd hl with ⟨j', c', hj', heq⟩ | ⟨hno, -⟩
  · rw [heq, htree.name_unique hd hj hj']
  · exact absurd hj (hno j c)

/-- A step from an inode of the set leads into the set, or is refused. -/
theorem Tree.step_mem (hown : v.Owns sb L) (hn : n ∈ L) (hc : Component l) :
    (∃ m ∈ L, v.step sb n l = .ok m) ∨ ∃ e, e ≠ .eio ∧ v.step sb n l = .error e := by
  by_cases hl : Entry.GoodLabel l
  · by_cases hmode : (v.ino n).mode = 2
    · rcases htree.step_dir hown ⟨hn, hmode⟩ hl with ⟨j, c, hj, heq⟩ | ⟨-, heq⟩
      · exact .inl ⟨c, htree.names_mem ⟨hn, hmode⟩ hj, heq⟩
      · exact .inr ⟨.enoent, nofun, heq⟩
    · exact .inr ⟨.enotdir, nofun, hown.step_file hn hmode hl⟩
  · exact .inr ⟨.einval, nofun, step_of_not_good hc hl⟩

/-! ## Walks -/

/-- A walk from an inode of the set ends in the set, or is refused. -/
theorem Tree.walk_mem (hown : v.Owns sb L) (hcs : ∀ l ∈ cs, Component l) (hn : n ∈ L) :
    (∃ m ∈ L, v.walk sb cs n = .ok m) ∨ ∃ e, e ≠ .eio ∧ v.walk sb cs n = .error e := by
  induction cs generalizing n with
  | nil => exact .inl ⟨n, hn, rfl⟩
  | cons l cs ih =>
    obtain ⟨hl, hcs⟩ := List.forall_mem_cons.1 hcs
    rw [walk]
    rcases htree.step_mem hown hn hl with ⟨m, hm, heq⟩ | ⟨e, he, heq⟩
    · rw [heq]
      exact ih hcs hm
    · rw [heq]
      exact .inr ⟨e, he, rfl⟩

end

/-- A path leads to an allocated inode, or is refused. -/
theorem Consistent.lookup_cases (h : v.Consistent sb) (path : List UInt8) :
    (∃ n ∈ v.alloc sb, v.lookup sb path = .ok ((v.ino n).stat n)) ∨
      ∃ e, e ≠ .eio ∧ v.lookup sb path = .error e := by
  obtain ⟨parent, depth, htree⟩ := h.tree
  rw [lookup_eq]
  cases hparse : parsePath path with
  | error e =>
    refine .inr ⟨e, ?_, rfl⟩
    unfold parsePath boundedPathLength at hparse
    rintro rfl
    split at hparse
    · cases hparse
    split at hparse
    · split at hparse <;> cases hparse
    · cases hparse
  | ok parsed =>
    obtain ⟨cs, slash⟩ := parsed
    dsimp only
    rcases htree.walk_mem h.owns (parsePath_components hparse) htree.root.1 with ⟨m, hm, heq⟩ | ⟨e, he, heq⟩
    · rw [heq]
      dsimp only
      rw [h.owns.readInode hm]
      dsimp only
      split
      · exact .inr ⟨.enotdir, nofun, rfl⟩
      · exact .inl ⟨m, hm, rfl⟩
    · rw [heq]
      exact .inr ⟨e, he, rfl⟩

/-- The path `/` leads to the root. -/
theorem Consistent.lookup_root (h : v.Consistent sb) :
    v.lookup sb [0x2F] = .ok ((v.ino sb.rootInode).stat sb.rootInode) := by
  obtain ⟨parent, depth, htree⟩ := h.tree
  rw [lookup_eq, show parsePath [0x2F] = .ok ([], false) by decide]
  simp only [walk, h.owns.readInode htree.root.1]
  rfl

/-! ## Listing a directory -/

/-- The entries in use from `j` on. -/
def usedFrom (v : Vol) (d j : Nat) : List Nat :=
  (List.range' j (v.entryCount d - j)).filter fun i => (v.entry d i).type ≠ 0

theorem usedFrom_of_le (h : v.entryCount d ≤ j) : v.usedFrom d j = [] := by
  rw [usedFrom, Nat.sub_eq_zero_of_le h]
  rfl

theorem usedFrom_of_lt (h : j < v.entryCount d) : v.usedFrom d j =
    if (v.entry d j).type ≠ 0 then j :: v.usedFrom d (j + 1) else v.usedFrom d (j + 1) := by
  rw [usedFrom, show v.entryCount d - j = v.entryCount d - (j + 1) + 1 by omega, List.range'_succ,
    List.filter_cons]
  simp only [decide_eq_true_eq]
  rfl

/-- Behind the first entry in use come the others. -/
theorem usedFrom_tail {i : Nat} {rest : List Nat} (h : v.usedFrom d j = i :: rest) :
    v.usedFrom d (i + 1) = rest := by
  induction hleft : v.entryCount d - j generalizing j with
  | zero =>
    rw [usedFrom_of_le (by omega)] at h
    cases h
  | succ left ih =>
    rw [usedFrom_of_lt (by omega)] at h
    split at h
    · obtain ⟨rfl, hrest⟩ := List.cons.inj h
      exact hrest
    · exact ih h (by omega)

/-- What `minifs_readdir` tells of an entry. -/
def direntOf (v : Vol) (d i : Nat) : Dirent :=
  ⟨(v.entry d i).inode, (v.ino (v.entry d i).inode).mode, (v.entry d i).label⟩

/-- One round of the loop of `minifs_readdir`: it passes an unused entry and returns one in use. -/
theorem Tree.readdirFrom_step (htree : v.Tree sb L parent depth) (hown : v.Owns sb L) (hd : v.IsDir L d)
    (hj : j < v.entryCount d) (fuel : Nat) :
    v.readdirFrom sb (v.ino d) (fuel + 1) (j * 64) =
      if (v.entry d j).type ≠ 0 then .ok (some (v.direntOf d j), (j + 1) * 64)
      else v.readdirFrom sb (v.ino d) fuel ((j + 1) * 64) := by
  have hsize : j * 64 < (v.ino d).size := by
    unfold entryCount at hj
    omega
  have hblock : j * 64 / 4096 = j / 64 := by omega
  have hbyte : j * 64 % 4096 = j % 64 * 64 := by omega
  have hk : j / 64 < blocksOf (v.ino d).size := by
    rw [lt_blocksOf]
    omega
  rw [readdirFrom, if_neg (Nat.not_le.2 hsize), hblock, hbyte, hown.inodeBlockAt hd.1 hk]
  dsimp only
  generalize hp : (v.data (v.fileBlock d (j / 64))).ptr (j % 64 * 64) = p
  have hentry : v.entry d j = Entry.ofBytes p := by rw [Vol.entry, hp]
  have hnext : j * 64 + 64 = (j + 1) * 64 := by omega
  rw [hnext]
  rcases htree.entry d hd j hj with hblank | ⟨hused, hmem, htype⟩
  · have hzero := Entry.ofBytes_eq_blank.1 (hentry.symm.trans hblank)
    have hunused : directoryEntryUnused p = true := directoryEntryUnused_iff.2 hzero
    rw [if_pos (by rw [hzero 4 (by omega)]; rfl), hunused, if_neg (by simp), hblank, if_neg (by simp [Entry.blank])]
  · have ht : (p 4).toNat = (v.entry d j).type := by rw [hentry]; rfl
    have hchild : readLe32 p = (v.entry d j).inode := by rw [hentry]; rfl
    have hvalid : directoryNameValid (fun i => p (5 + i)) = true :=
      Entry.directoryNameValid_iff_label.2 (by rw [← hentry]; exact ⟨hused.label, hused.padded⟩)
    have htypes := hused.type
    rw [ht, hchild, hvalid, if_neg (by omega), if_neg (by simp; omega), hown.readInode hmem]
    dsimp only
    have hcopied := Entry.Used.copied (p := p) (by rw [← hentry]; exact hused)
    rw [← htype, typeMatches_self, if_neg (by simp), if_pos (by omega), hcopied, ← hentry, direntOf, ← htype]

/-- The loop of `minifs_readdir` returns the next entry in use, or the end. -/
theorem Tree.readdirFrom_eq (htree : v.Tree sb L parent depth) (hown : v.Owns sb L) (hd : v.IsDir L d)
    (fuel : Nat) : ∀ j, v.entryCount d - j ≤ fuel →
      v.readdirFrom sb (v.ino d) fuel (j * 64) = .ok (match v.usedFrom d j with
        | [] => (none, max j (v.entryCount d) * 64)
        | i :: _ => (some (v.direntOf d i), (i + 1) * 64)) := by
  have hwhole := ((hown.ok d hd.1).dir_size hd.2).2
  induction fuel with
  | zero =>
    intro j hj
    rw [usedFrom_of_le (by omega), readdirFrom, Nat.max_eq_left (by omega)]
  | succ fuel ih =>
    intro j hj
    by_cases hlt : j < v.entryCount d
    · rw [htree.readdirFrom_step hown hd hlt, usedFrom_of_lt hlt]
      split
      · rfl
      · rw [ih (j + 1) (by omega), Nat.max_eq_right (by omega), Nat.max_eq_right (by omega)]
    · have hle : (v.ino d).size ≤ j * 64 := by
        unfold entryCount at hlt
        omega
      rw [usedFrom_of_le (by omega), readdirFrom, if_pos hle, Nat.max_eq_left (by omega)]

/-- `minifs_readdir` at an entry. -/
theorem Tree.readdirAt_eq (htree : v.Tree sb L parent depth) (hown : v.Owns sb L) (hd : v.IsDir L d) (j : Nat) :
    v.readdirAt sb d (j * 64) = .ok (match v.usedFrom d j with
      | [] => (none, max j (v.entryCount d) * 64)
      | i :: _ => (some (v.direntOf d i), (i + 1) * 64)) := by
  unfold readdirAt
  rw [hown.readInode hd.1]
  dsimp only
  rw [if_neg (not_not.2 hd.2)]
  refine htree.readdirFrom_eq hown hd _ j ?_
  unfold entryCount
  omega

end Vol

/-! ## Calls -/

/-- A directory listed by calls of `minifs_readdir` until it finds no more entry. -/
def listDirectory (n : Nat) : Nat → Nat → Fs (Except Errno (List Dirent))
  | 0, _ => return .ok []
  | calls + 1, offset => do
    match ← minifsReaddir n offset with
    | .error e => return .error e
    | .ok (none, _) => return .ok []
    | .ok (some entry, next) => return (← listDirectory n calls next).map (entry :: ·)

variable {sb : Superblock} {v : Vol} {s : Machine}

/-- With one call more than there are entries, a listing has all entries in use. -/
theorem Serving.listDirectory {d : Nat} (hv : v.Consistent sb) (hd : v.IsDir (v.alloc sb) d) (calls : Nat) :
    ∀ {s j}, Serving sb v s → (v.usedFrom d j).length < calls →
      wp (MiniOrange.listDirectory d calls (j * 64)) (fun r s' =>
        r = .ok ((v.usedFrom d j).map (v.direntOf d)) ∧ Serving sb v s') s := by
  obtain ⟨parent, depth, htree⟩ := hv.tree
  induction calls with
  | zero => exact fun _ hcalls => absurd hcalls (Nat.not_lt_zero _)
  | succ calls ih =>
    intro s j h hcalls
    refine wp.bind (h.readdir d (j * 64)) ?_
    rintro r s' ⟨rfl, h'⟩
    rw [if_neg (by omega), htree.readdirAt_eq hv.owns hd]
    cases hused : v.usedFrom d j with
    | nil => exact ⟨rfl, h'⟩
    | cons i rest =>
      rw [hused, List.length_cons] at hcalls
      have htail := Vol.usedFrom_tail hused
      refine wp.bind (ih (j := i + 1) h' (by rw [htail]; omega)) ?_
      rintro r s'' ⟨rfl, h''⟩
      rw [htail]
      exact ⟨rfl, h''⟩

/-- Reading operations on a consistent volume do not return `EIO`. -/
theorem Serving.ne_eio (h : Serving sb v s) (hv : v.Consistent sb) (path : List UInt8) {n : Nat}
    (hn : n ∈ v.alloc sb) (offset length : Nat) :
    (minifsLookup path s).1 ≠ .error .eio ∧ (minifsStatInode n s).1 ≠ .error .eio ∧
      (minifsReaddir n offset s).1 ≠ .error .eio ∧ (minifsRead n offset length s).1 ≠ .error .eio := by
  obtain ⟨parent, depth, htree⟩ := hv.tree
  refine ⟨?_, ?_, ?_, ?_⟩
  · rw [(h.lookup path).1]
    rcases hv.lookup_cases path with ⟨m, -, heq⟩ | ⟨e, he, heq⟩
    · rw [heq]
      exact nofun
    · rw [heq]
      exact fun h => he (Except.error.inj h)
  · rw [(h.statInode n).1, hv.owns.readInode hn]
    exact nofun
  · rw [(h.readdir n offset).1]
    split
    · exact nofun
    · next hoffset =>
      obtain ⟨j, rfl⟩ : ∃ j, offset = j * 64 := ⟨offset / 64, by omega⟩
      by_cases hmode : (v.ino n).mode = 2
      · rw [htree.readdirAt_eq hv.owns ⟨hn, hmode⟩]
        exact nofun
      · unfold Vol.readdirAt
        rw [hv.owns.readInode hn]
        dsimp only
        rw [if_pos hmode]
        exact nofun
  · rw [(h.read n offset length).1]
    rcases (hv.owns.ok n hn).mode with hmode | hmode
    · rw [Vol.readAt_content hv.owns hn hmode]
      exact nofun
    · unfold Vol.readAt
      rw [hv.owns.readInode hn]
      dsimp only
      rw [if_pos hmode]
      exact nofun

end MiniOrange
