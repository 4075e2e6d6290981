import MiniOrange.Fs.Remove

/-!
# Entering and removing a name

What a new entry and a cleared one do to the tree. `Linked` says that directory `d` has a new entry
for `c`, and that `c`, if it is a directory, has its two own entries; `Unlinked` says that the entry
is gone. Each has one lemma for the names there are afterwards; that the directories still form a tree
follows from it (`Linked.tree`, `Unlinked.tree`), and the references to each inode are counted
(`Linked.refs`, `Unlinked.refs`).
-/

namespace MiniOrange

namespace Vol

variable {v w : Vol} {sb : Superblock} {L : Finset Nat} {parent depth : Nat → Nat}
  {c d j x i n e type : Nat} {name l : List UInt8}

/-! ## Counting references -/

/-- Whether an entry refers to an inode, as a number. -/
def refersTo (entry : Entry) (n : Nat) : Nat := if entry.type ≠ 0 ∧ entry.inode = n then 1 else 0

@[simp] theorem refersTo_blank : refersTo .blank n = 0 := if_neg fun h => h.1 rfl

theorem refersTo_of (htype : type ≠ 0) : refersTo (Entry.of c type l) n = if n = c then 1 else 0 :=
  if_congr ((and_iff_right htype).trans eq_comm) rfl rfl

/-- The references of a directory, entry by entry. -/
theorem refsIn_eq (hmode : (v.ino d).mode = 2) :
    v.refsIn d n = ∑ i ∈ Finset.range (v.entryCount d), refersTo (v.entry d i) n := by
  rw [refsIn, if_pos hmode]
  generalize v.entryCount d = count
  induction count with
  | zero => rfl
  | succ count ih =>
    rw [List.range_succ, List.filter_append, List.length_append, ih, Finset.sum_range_succ,
      List.filter_singleton, refersTo]
    by_cases hrefers : (v.entry d count).type ≠ 0 ∧ (v.entry d count).inode = n
    · rw [decide_eq_true hrefers, if_pos hrefers]
      rfl
    · rw [decide_eq_false hrefers, if_neg hrefers]
      rfl

/-- A file that is no directory refers to nothing. -/
theorem refsIn_file (hmode : (v.ino d).mode ≠ 2) : v.refsIn d n = 0 := if_neg hmode

/-- The references of a directory with one entry replaced. -/
theorem Placed.refsIn {entry : Entry} (h : Placed v w d j entry) (hle : j ≤ v.entryCount d)
    (hmode : (v.ino d).mode = 2) (hmode' : (w.ino d).mode = 2) :
    w.refsIn d n + (if j < v.entryCount d then refersTo (v.entry d j) n else 0) =
      v.refsIn d n + refersTo entry n := by
  have hcount := h.count
  have hsame : ∀ i ∈ (Finset.range (v.entryCount d)).erase j,
      refersTo (w.entry d i) n = refersTo (v.entry d i) n := by
    intro i hi
    obtain ⟨hne, hlt⟩ := Finset.mem_erase.1 hi
    have hlt := Finset.mem_range.1 hlt
    rw [h.entry i (by omega), if_neg hne]
  have hnew : w.entry d j = entry := by
    rw [h.entry j (by omega), if_pos rfl]
  rw [refsIn_eq hmode, refsIn_eq hmode']
  rcases Nat.lt_or_ge j (v.entryCount d) with hlt | hge
  · have hmem : j ∈ Finset.range (v.entryCount d) := Finset.mem_range.2 hlt
    rw [if_pos hlt, show w.entryCount d = v.entryCount d by omega,
      ← Finset.sum_erase_add _ _ hmem, ← Finset.sum_erase_add _ _ hmem, Finset.sum_congr rfl hsame,
      hnew]
    omega
  · obtain rfl : j = v.entryCount d := by omega
    rw [Finset.erase_eq_of_notMem (by simp)] at hsame
    rw [if_neg (Nat.lt_irrefl _), show w.entryCount d = v.entryCount d + 1 by omega,
      Finset.sum_range_succ, Finset.sum_congr rfl hsame, hnew, Nat.add_zero]

/-- Only inodes of the set are referred to. -/
theorem Tree.refs_notMem (htree : v.Tree sb L parent depth) (hn : n ∉ L) : v.refs L n = 0 := by
  refine Finset.sum_eq_zero fun d hd => ?_
  by_cases hmode : (v.ino d).mode = 2
  · rw [refsIn_eq hmode]
    refine Finset.sum_eq_zero fun i hi => if_neg ?_
    rintro ⟨htype, rfl⟩
    rcases htree.entry d ⟨hd, hmode⟩ i (Finset.mem_range.1 hi) with hblank | ⟨-, hmem, -⟩
    · rw [hblank] at htype
      exact htype rfl
    · exact hn hmem
  · exact refsIn_file hmode

/-- A blank entry names nothing. -/
theorem Names.not_blank (h : v.Names d j l c) : v.entry d j ≠ .blank := by
  intro hblank
  have htype := h.2.1.type
  rw [hblank] at htype
  rcases htype with htype | htype <;> cases htype

/-- An entry that names an inode refers to it. -/
theorem Names.refersTo (h : v.Names d j l c) : refersTo (v.entry d j) n = if c = n then 1 else 0 := by
  have htype : (v.entry d j).type ≠ 0 := by
    rcases h.2.1.type with htype | htype <;> omega
  unfold Vol.refersTo
  rw [h.2.2.2]
  exact if_congr (and_iff_right htype) rfl rfl

/-- A directory that names an inode refers to it. -/
theorem Names.one_le_refsIn (h : v.Names d j l c) (hmode : (v.ino d).mode = 2) :
    1 ≤ v.refsIn d c := by
  have hle := Finset.single_le_sum (f := fun i => Vol.refersTo (v.entry d i) c)
    (fun _ _ => Nat.zero_le _) (Finset.mem_range.2 h.1)
  rw [h.refersTo, if_pos rfl] at hle
  rw [refsIn_eq hmode]
  exact hle

/-! ## Entering a name -/

/-- Directory `d` of `v` has the new entry `name` for `c` in `w`; a new directory has its own two
entries. -/
structure Linked (v w : Vol) (L : Finset Nat) (d j c type : Nat) (name : List UInt8) : Prop where
  mode : ∀ n ∈ L, (w.ino n).mode = (v.ino n).mode
  count : ∀ x, v.IsDir L x → x ≠ d → w.entryCount x = v.entryCount x
  entry : ∀ x, v.IsDir L x → x ≠ d → ∀ i < v.entryCount x, w.entry x i = v.entry x i
  hole : v.Hole d j
  placed : Placed v w d j (Entry.of c type name)
  new_mode : (w.ino c).mode = type
  new_count : type = 2 → w.entryCount c = 2
  new_dot : type = 2 → w.entry c 0 = Entry.of c 2 [0x2E]
  new_dotdot : type = 2 → w.entry c 1 = Entry.of d 2 [0x2E, 0x2E]

/-- What must hold of a name to be entered. -/
structure Enterable (v : Vol) (sb : Superblock) (L : Finset Nat) (parent depth : Nat → Nat)
    (d c type : Nat) (name : List UInt8) : Prop where
  tree : v.Tree sb L parent depth
  dir : v.IsDir L d
  fresh : c ∉ L
  type_eq : type = 1 ∨ type = 2
  label : Entry.GoodLabel name
  proper : Proper name
  unused : ∀ i e, ¬ v.Names d i name e

/-- The two names every directory has are good ones. -/
theorem goodLabel_dots : Entry.GoodLabel [0x2E] ∧ Entry.GoodLabel [0x2E, 0x2E] := by
  constructor <;> decide

namespace Linked

variable (h : Linked v w L d j c type name) (he : v.Enterable sb L parent depth d c type name)
include h he

/-- The directories are the old ones and the new one. -/
theorem isDir : w.IsDir (insert c L) x ↔ v.IsDir L x ∨ (x = c ∧ type = 2) := by
  unfold IsDir
  rw [Finset.mem_insert]
  constructor
  · rintro ⟨rfl | hx, hmode⟩
    · exact .inr ⟨rfl, by rw [← h.new_mode]; exact hmode⟩
    · exact .inl ⟨hx, by rw [← h.mode x hx]; exact hmode⟩
  · rintro (⟨hx, hmode⟩ | ⟨rfl, htype⟩)
    · exact ⟨.inr hx, by rw [h.mode x hx]; exact hmode⟩
    · exact ⟨.inl rfl, by rw [h.new_mode]; exact htype⟩

/-- The new entry names the new inode. -/
theorem names_new : w.Names d j name c := by
  have hcount := h.placed.count
  have hentry : w.entry d j = Entry.of c type name := by
    rw [h.placed.entry j (by omega), if_pos rfl]
  refine ⟨by omega, ?_, ?_, ?_⟩
  · rw [hentry]
    exact .of he.type_eq he.label
  · rw [hentry]
    exact Entry.label_of fun y hy => (he.label.good y hy).1
  · rw [hentry]
    rfl

/-- The names in an old directory are the old ones and the new one. -/
theorem names (hx : v.IsDir L x) : w.Names x i l e ↔
    v.Names x i l e ∨ (x = d ∧ i = j ∧ l = name ∧ e = c) := by
  by_cases hxd : x = d
  · subst hxd
    have hcount := h.placed.count
    have hle := h.hole.le
    by_cases hij : i = j
    · subst hij
      have hnew := h.names_new he
      constructor
      · intro hnames
        exact .inr ⟨rfl, rfl, hnames.2.2.1.symm.trans hnew.2.2.1, hnames.2.2.2.symm.trans hnew.2.2.2⟩
      · rintro (hold | ⟨-, -, rfl, rfl⟩)
        · exact absurd (h.hole.blank hold.1) hold.not_blank
        · exact hnew
    · have hlt : i < w.entryCount x ↔ i < v.entryCount x := by omega
      constructor
      · rintro ⟨hi, hrest⟩
        rw [h.placed.entry i hi, if_neg hij] at hrest
        exact .inl ⟨hlt.1 hi, hrest⟩
      · rintro (⟨hi, hrest⟩ | ⟨-, heq, -⟩)
        · refine ⟨hlt.2 hi, ?_⟩
          rw [h.placed.entry i (hlt.2 hi), if_neg hij]
          exact hrest
        · exact absurd heq hij
  · unfold Names
    rw [h.count x hx hxd]
    constructor
    · rintro ⟨hi, hrest⟩
      rw [h.entry x hx hxd i hi] at hrest
      exact .inl ⟨hi, hrest⟩
    · rintro (⟨hi, hrest⟩ | ⟨heq, -⟩)
      · refine ⟨hi, ?_⟩
        rw [h.entry x hx hxd i hi]
        exact hrest
      · exact absurd heq hxd

/-- The names in the new directory are `.` and `..`. -/
theorem names_of_new (htype : type = 2) : w.Names c i l e ↔
    (i = 0 ∧ l = [0x2E] ∧ e = c) ∨ (i = 1 ∧ l = [0x2E, 0x2E] ∧ e = d) := by
  have hdots := goodLabel_dots
  have hlabel : ∀ {n : Nat} {l : List UInt8}, Entry.GoodLabel l → (Entry.of n 2 l).label = l :=
    fun hl => Entry.label_of fun y hy => (hl.good y hy).1
  unfold Names
  rw [h.new_count htype]
  constructor
  · rintro ⟨hi, -, rfl, rfl⟩
    obtain rfl | rfl : i = 0 ∨ i = 1 := by omega
    · rw [h.new_dot htype]
      exact .inl ⟨rfl, hlabel hdots.1, rfl⟩
    · rw [h.new_dotdot htype]
      exact .inr ⟨rfl, hlabel hdots.2, rfl⟩
  · rintro (⟨rfl, rfl, rfl⟩ | ⟨rfl, rfl, rfl⟩)
    · rw [h.new_dot htype]
      exact ⟨by omega, .of (.inr rfl) hdots.1, hlabel hdots.1, rfl⟩
    · rw [h.new_dotdot htype]
      exact ⟨by omega, .of (.inr rfl) hdots.2, hlabel hdots.2, rfl⟩

/-- With the new entry the directories form a tree. -/
theorem tree : w.Tree sb (insert c L) (Function.update parent c d)
    (Function.update depth c (depth d + 1)) := by
  have htree := he.tree
  have hold : ∀ {x}, v.IsDir L x → x ≠ c := fun hx heq => he.fresh (heq ▸ hx.1)
  have hmem : ∀ {x i l e}, v.IsDir L x → v.Names x i l e → e ≠ c := fun hx hj heq =>
    he.fresh (heq ▸ htree.names_mem hx hj)
  constructor
  · exact (h.isDir he).2 (.inl htree.root)
  · rw [Function.update_of_ne (hold htree.root)]
    exact htree.parent_root
  · intro x hx i hi
    replace hx := (h.isDir he).1 hx
    rcases hx with hx | ⟨rfl, htype⟩
    · -- an entry of an old directory is blank or names what it named before, or the new inode
      by_cases hblank : w.entry x i = .blank
      · exact .inl hblank
      by_cases hnew : x = d ∧ i = j
      · obtain ⟨rfl, rfl⟩ := hnew
        have hnames := h.names_new he
        refine .inr ⟨hnames.2.1, ?_, ?_⟩
        · rw [hnames.2.2.2]
          exact Finset.mem_insert_self c L
        · rw [hnames.2.2.2, h.new_mode, h.placed.entry _ hi, if_pos rfl]
          rfl
      · have hsame : i < v.entryCount x ∧ w.entry x i = v.entry x i := by
          by_cases hxd : x = d
          · subst hxd
            have hij : i ≠ j := fun heq => hnew ⟨rfl, heq⟩
            have hcount := h.placed.count
            have hle := h.hole.le
            refine ⟨by omega, ?_⟩
            rw [h.placed.entry i hi, if_neg hij]
          · rw [h.count x hx hxd] at hi
            exact ⟨hi, h.entry x hx hxd i hi⟩
        obtain ⟨hi', hentry⟩ := hsame
        rw [hentry] at hblank ⊢
        rcases htree.entry x hx i hi' with habs | ⟨hused, hin, htype⟩
        · exact absurd habs hblank
        · exact .inr ⟨hused, Finset.mem_insert_of_mem hin, by rw [h.mode _ hin]; exact htype⟩
    · rw [h.new_count htype] at hi
      have hdots := goodLabel_dots
      obtain rfl | rfl : i = 0 ∨ i = 1 := by omega
      · rw [h.new_dot htype]
        refine .inr ⟨.of (.inr rfl) hdots.1, Finset.mem_insert_self x L, ?_⟩
        exact (h.new_mode.trans htype).symm
      · rw [h.new_dotdot htype]
        refine .inr ⟨.of (.inr rfl) hdots.2, Finset.mem_insert_of_mem he.dir.1, ?_⟩
        exact ((h.mode d he.dir.1).trans he.dir.2).symm
  · intro x hx i i' l e e' hi hi'
    replace hx := (h.isDir he).1 hx
    rcases hx with hx | ⟨rfl, htype⟩
    · rcases (h.names he hx).1 hi with hi | ⟨rfl, rfl, rfl, rfl⟩ <;>
        rcases (h.names he hx).1 hi' with hi' | ⟨heq, rfl, hl, rfl⟩
      · exact htree.unique x hx i i' l e e' hi hi'
      · subst heq hl
        exact absurd hi (he.unused i e)
      · exact absurd hi' (he.unused i' e')
      · rfl
    · rcases (h.names_of_new he htype).1 hi with ⟨rfl, rfl, -⟩ | ⟨rfl, rfl, -⟩ <;>
        rcases (h.names_of_new he htype).1 hi' with ⟨rfl, hl, -⟩ | ⟨rfl, hl, -⟩
      · rfl
      · cases hl
      · cases hl
      · rfl
  · intro x hx
    replace hx := (h.isDir he).1 hx
    rcases hx with hx | ⟨rfl, htype⟩
    · obtain ⟨i, hi⟩ := htree.dot x hx
      exact ⟨i, (h.names he hx).2 (.inl hi)⟩
    · exact ⟨0, (h.names_of_new he htype).2 (.inl ⟨rfl, rfl, rfl⟩)⟩
  · intro x hx
    replace hx := (h.isDir he).1 hx
    rcases hx with hx | ⟨rfl, htype⟩
    · obtain ⟨i, hi⟩ := htree.dotdot x hx
      rw [Function.update_of_ne (hold hx)]
      exact ⟨i, (h.names he hx).2 (.inl hi)⟩
    · rw [Function.update_self]
      exact ⟨1, (h.names_of_new he htype).2 (.inr ⟨rfl, rfl, rfl⟩)⟩
  · intro x hx i l e hi hl hdir
    replace hx := (h.isDir he).1 hx
    rcases hx with hx | ⟨rfl, htype⟩
    · rcases (h.names he hx).1 hi with hi | ⟨rfl, rfl, rfl, rfl⟩
      · have hne := hmem hx hi
        have hdir' : v.IsDir L e :=
          ((h.isDir he).1 hdir).resolve_right fun habs => hne habs.1
        rw [Function.update_of_ne hne, Function.update_of_ne hne, Function.update_of_ne (hold hx)]
        exact htree.child x hx i l e hi hl hdir'
      · refine ⟨fun hroot => he.fresh (hroot ▸ htree.root.1), Function.update_self .., ?_⟩
        rw [Function.update_self, Function.update_of_ne (hold hx)]
        exact Nat.lt_succ_self _
    · rcases (h.names_of_new he htype).1 hi with ⟨-, rfl, -⟩ | ⟨-, rfl, -⟩
      · exact absurd rfl hl.1
      · exact absurd rfl hl.2
  · intro x hx i i' l l' e hi hi' hl hl' hdir
    replace hx := (h.isDir he).1 hx
    rcases hx with hx | ⟨rfl, htype⟩
    · rcases (h.names he hx).1 hi with hi | ⟨rfl, rfl, rfl, rfl⟩ <;>
        rcases (h.names he hx).1 hi' with hi' | ⟨-, rfl, -, hec⟩
      · have hdir' : v.IsDir L e :=
          ((h.isDir he).1 hdir).resolve_right fun habs => hmem hx hi habs.1
        exact htree.one_name x hx i i' l l' e hi hi' hl hl' hdir'
      · exact absurd hec (hmem hx hi)
      · exact absurd rfl (hmem hx hi')
      · rfl
    · rcases (h.names_of_new he htype).1 hi with ⟨-, rfl, -⟩ | ⟨-, rfl, -⟩
      · exact absurd rfl hl.1
      · exact absurd rfl hl.2

/-- The references of the new inode's own entries. -/
theorem refsIn_new : w.refsIn c n =
    if type = 2 then (if n = c then 1 else 0) + (if n = d then 1 else 0) else 0 := by
  rcases he.type_eq with rfl | rfl
  · exact refsIn_file (by rw [h.new_mode]; decide)
  · rw [refsIn_eq h.new_mode, h.new_count rfl, Finset.sum_range_succ, Finset.sum_range_one,
      h.new_dot rfl, h.new_dotdot rfl, refersTo_of (by decide), refersTo_of (by decide), if_pos rfl]

/-- The references to each inode once the name is entered. -/
theorem refs : w.refs (insert c L) n = v.refs L n + (if n = c then 1 else 0) +
    if type = 2 then (if n = c then 1 else 0) + (if n = d then 1 else 0) else 0 := by
  have hd := he.dir.1
  have hmode := he.dir.2
  have hother : ∀ x ∈ L.erase d, w.refsIn x n = v.refsIn x n := by
    intro x hx
    obtain ⟨hne, hx⟩ := Finset.mem_erase.1 hx
    unfold Vol.refsIn
    rw [h.mode x hx]
    split
    · next hdir =>
      rw [h.count x ⟨hx, hdir⟩ hne]
      refine congrArg _ (List.filter_congr fun i hi => ?_)
      rw [h.entry x ⟨hx, hdir⟩ hne i (List.mem_range.1 hi)]
    · rfl
  have hplaced := h.placed.refsIn (n := n) h.hole.le hmode (by rw [h.mode d hd]; exact hmode)
  -- the hole referred to nothing
  have hhole : (if j < v.entryCount d then refersTo (v.entry d j) n else 0) = 0 := by
    split
    · next hlt => rw [h.hole.blank hlt, refersTo_blank]
    · rfl
  have hrefers : refersTo (Entry.of c type name) n = if n = c then 1 else 0 := by
    have htype : type ≠ 0 := by
      rcases he.type_eq with rfl | rfl <;> decide
    exact refersTo_of htype
  rw [hhole, hrefers] at hplaced
  rw [Vol.refs, Vol.refs, Finset.sum_insert he.fresh, h.refsIn_new he,
    ← Finset.sum_erase_add L _ hd, ← Finset.sum_erase_add L _ hd, Finset.sum_congr rfl hother]
  omega

end Linked

/-! ## Removing a name -/

/-- Entry `j` of directory `d`, which named `c`, is blank in `w`. -/
structure Unlinked (v w : Vol) (L : Finset Nat) (d j c : Nat) : Prop where
  mode : ∀ n ∈ L, n ≠ c → (w.ino n).mode = (v.ino n).mode
  count : ∀ x, v.IsDir L x → x ≠ d → x ≠ c → w.entryCount x = v.entryCount x
  entry : ∀ x, v.IsDir L x → x ≠ d → x ≠ c → ∀ i < v.entryCount x, w.entry x i = v.entry x i
  placed : Placed v w d j .blank

/-- What must hold of a name to be removed with its inode: it is the last one. -/
structure Removable (v : Vol) (sb : Superblock) (L : Finset Nat) (parent depth : Nat → Nat)
    (d j c : Nat) (name : List UInt8) : Prop where
  tree : v.Tree sb L parent depth
  dir : v.IsDir L d
  names : v.Names d j name c
  proper : Proper name
  not_root : c ≠ sb.rootInode
  last : ∀ x, v.IsDir L x → x ≠ c → ∀ i l, v.Names x i l c → x = d ∧ i = j

/-- The directory is not the one removed. -/
theorem Removable.dir_ne (h : v.Removable sb L parent depth d j c name) : d ≠ c :=
  (h.tree.names_ne h.dir h.names h.proper).symm

namespace Unlinked

/-- The directories are the old ones but the one removed. -/
theorem isDir (h : Unlinked v w L d j c) : w.IsDir (L.erase c) x ↔ v.IsDir L x ∧ x ≠ c := by
  unfold IsDir
  rw [Finset.mem_erase]
  constructor
  · rintro ⟨⟨hne, hx⟩, hmode⟩
    exact ⟨⟨hx, by rw [← h.mode x hx hne]; exact hmode⟩, hne⟩
  · rintro ⟨⟨hx, hmode⟩, hne⟩
    exact ⟨⟨hne, hx⟩, by rw [h.mode x hx hne]; exact hmode⟩

variable (h : Unlinked v w L d j c) (hr : v.Removable sb L parent depth d j c name)
include h hr

/-- The directory has as many entries as before. -/
theorem count_dir : w.entryCount d = v.entryCount d := by
  have hcount := h.placed.count
  have hlt := hr.names.1
  omega

/-- The entries are the old ones but the one cleared. -/
theorem entry_ne (hx : v.IsDir L x) (hxc : x ≠ c) (hne : ¬ (x = d ∧ i = j))
    (hi : i < v.entryCount x) : w.entry x i = v.entry x i := by
  by_cases hxd : x = d
  · subst hxd
    rw [h.placed.entry i (by rw [h.count_dir hr]; exact hi), if_neg fun heq => hne ⟨rfl, heq⟩]
  · exact h.entry x hx hxd hxc i hi

theorem count_eq (hx : v.IsDir L x) (hxc : x ≠ c) : w.entryCount x = v.entryCount x := by
  by_cases hxd : x = d
  · rw [hxd]
    exact h.count_dir hr
  · exact h.count x hx hxd hxc

/-- The names in a directory are the old ones but the one removed. -/
theorem names (hx : v.IsDir L x) (hxc : x ≠ c) :
    w.Names x i l e ↔ v.Names x i l e ∧ ¬ (x = d ∧ i = j) := by
  by_cases hne : x = d ∧ i = j
  · obtain ⟨rfl, rfl⟩ := hne
    refine iff_of_false (fun hnames => hnames.not_blank ?_) fun hnames => hnames.2 ⟨rfl, rfl⟩
    rw [h.placed.entry i hnames.1, if_pos rfl]
  · unfold Names
    rw [h.count_eq hr hx hxc]
    constructor
    · rintro ⟨hi, hrest⟩
      rw [h.entry_ne hr hx hxc hne hi] at hrest
      exact ⟨⟨hi, hrest⟩, hne⟩
    · rintro ⟨⟨hi, hrest⟩, -⟩
      rw [h.entry_ne hr hx hxc hne hi]
      exact ⟨hi, hrest⟩

/-- A name other than the one removed is still there. -/
theorem names_of_ne (hx : v.IsDir L x) (hxc : x ≠ c) (hi : v.Names x i l e) (hec : e ≠ c) :
    w.Names x i l e := by
  refine (h.names hr hx hxc).2 ⟨hi, ?_⟩
  rintro ⟨rfl, rfl⟩
  exact hec (hi.2.2.2.symm.trans hr.names.2.2.2)

/-- Without the entry and its inode the directories form a tree. -/
theorem tree : w.Tree sb (L.erase c) parent depth := by
  have htree := hr.tree
  constructor
  · exact h.isDir.2 ⟨htree.root, hr.not_root.symm⟩
  · exact htree.parent_root
  · intro x hx i hi
    obtain ⟨hx, hxc⟩ := h.isDir.1 hx
    by_cases hne : x = d ∧ i = j
    · obtain ⟨rfl, rfl⟩ := hne
      rw [h.placed.entry i hi, if_pos rfl]
      exact .inl rfl
    · rw [h.count_eq hr hx hxc] at hi
      rw [h.entry_ne hr hx hxc hne hi]
      rcases htree.entry x hx i hi with hblank | ⟨hused, hmem, htype⟩
      · exact .inl hblank
      · -- an entry for the removed inode would be the one cleared
        have hec : (v.entry x i).inode ≠ c := fun heq =>
          hne (hr.last x hx hxc i _ ⟨hi, hused, rfl, heq⟩)
        exact .inr ⟨hused, Finset.mem_erase.2 ⟨hec, hmem⟩, by rw [h.mode _ hmem hec]; exact htype⟩
  · intro x hx i i' l e e' hi hi'
    obtain ⟨hx, hxc⟩ := h.isDir.1 hx
    exact htree.unique x hx i i' l e e' ((h.names hr hx hxc).1 hi).1 ((h.names hr hx hxc).1 hi').1
  · intro x hx
    obtain ⟨hx, hxc⟩ := h.isDir.1 hx
    obtain ⟨i, hi⟩ := htree.dot x hx
    exact ⟨i, h.names_of_ne hr hx hxc hi hxc⟩
  · intro x hx
    obtain ⟨hx, hxc⟩ := h.isDir.1 hx
    obtain ⟨i, hi⟩ := htree.dotdot x hx
    refine ⟨i, (h.names hr hx hxc).2 ⟨hi, ?_⟩⟩
    rintro ⟨rfl, rfl⟩
    exact hr.proper.2 (hr.names.2.2.1.symm.trans hi.2.2.1)
  · intro x hx i l e hi hl hdir
    obtain ⟨hx, hxc⟩ := h.isDir.1 hx
    exact htree.child x hx i l e ((h.names hr hx hxc).1 hi).1 hl (h.isDir.1 hdir).1
  · intro x hx i i' l l' e hi hi' hl hl' hdir
    obtain ⟨hx, hxc⟩ := h.isDir.1 hx
    exact htree.one_name x hx i i' l l' e ((h.names hr hx hxc).1 hi).1 ((h.names hr hx hxc).1 hi').1
      hl hl' (h.isDir.1 hdir).1

/-- The references to each inode once the name is removed: those of the entry and of the removed
inode are gone. -/
theorem refs : v.refs L n = w.refs (L.erase c) n + (if c = n then 1 else 0) + v.refsIn c n := by
  have hc : c ∈ L := hr.tree.names_mem hr.dir hr.names
  have hd : d ∈ L.erase c := Finset.mem_erase.2 ⟨hr.dir_ne, hr.dir.1⟩
  have hmode := hr.dir.2
  have hother : ∀ x ∈ (L.erase c).erase d, w.refsIn x n = v.refsIn x n := by
    intro x hx
    obtain ⟨hxd, hx⟩ := Finset.mem_erase.1 hx
    obtain ⟨hxc, hx⟩ := Finset.mem_erase.1 hx
    unfold Vol.refsIn
    rw [h.mode x hx hxc]
    split
    · next hdir =>
      rw [h.count x ⟨hx, hdir⟩ hxd hxc]
      refine congrArg _ (List.filter_congr fun i hi => ?_)
      rw [h.entry x ⟨hx, hdir⟩ hxd hxc i (List.mem_range.1 hi)]
    · rfl
  have hplaced := h.placed.refsIn (n := n) hr.names.1.le hmode
    (by rw [h.mode d hr.dir.1 hr.dir_ne]; exact hmode)
  rw [if_pos hr.names.1, hr.names.refersTo, refersTo_blank] at hplaced
  rw [Vol.refs, Vol.refs, ← Finset.sum_erase_add L _ hc, ← Finset.sum_erase_add (L.erase c) _ hd,
    ← Finset.sum_erase_add (L.erase c) _ hd, Finset.sum_congr rfl hother]
  omega

end Unlinked

/-! ### The last name -/

/-- The one proper name of an empty directory is the last entry for it. -/
theorem Tree.last_dir (htree : v.Tree sb L parent depth)
    (hnamed : ∀ n ∈ L, n ≠ sb.rootInode → ∃ d j l, v.IsDir L d ∧ v.Names d j l n ∧ Proper l)
    (hd : v.IsDir L d) (hj : v.Names d j name c) (hproper : Proper name) (hc : v.IsDir L c)
    (hroot : c ≠ sb.rootInode) (hempty : ∀ i l e, v.Names c i l e → ¬ Proper l) :
    ∀ x, v.IsDir L x → x ≠ c → ∀ i l, v.Names x i l c → x = d ∧ i = j := by
  intro x hx hxc i l hi
  by_cases hl : Proper l
  · exact htree.dir_named_once hx hd hc hi hj hl hproper
  -- `.` names the directory itself, and `..` its parent, which would have it as an entry
  rcases not_and_or.1 hl with hdot | hdotdot
  · obtain ⟨i', hi'⟩ := htree.dot x hx
    rw [not_not.1 hdot] at hi
    exact absurd (htree.name_unique hx hi' hi) hxc
  · obtain ⟨i', hi'⟩ := htree.dotdot x hx
    rw [not_not.1 hdotdot] at hi
    have hparent : parent x = c := htree.name_unique hx hi' hi
    have hxroot : x ≠ sb.rootInode := by
      rintro rfl
      exact hroot (hparent.symm.trans htree.parent_root)
    obtain ⟨d', j', l', hd', hj', hl'⟩ := hnamed x hx.1 hxroot
    obtain ⟨-, hparent', -⟩ := htree.child d' hd' j' l' x hj' hl' hx
    obtain rfl : d' = c := hparent'.symm.trans hparent
    exact absurd hl' (hempty j' l' x hj')

/-- The name of a file with one reference is the last entry for it. -/
theorem last_file (hd : v.IsDir L d) (hj : v.Names d j name c) (hrefs : v.refs L c = 1) :
    ∀ x, v.IsDir L x → ∀ i l, v.Names x i l c → x = d ∧ i = j := by
  intro x hx i l hi
  by_cases hxd : x = d
  · subst hxd
    refine ⟨rfl, ?_⟩
    by_contra hij
    -- two entries of one directory
    have hpair := Finset.add_le_sum (f := fun k => Vol.refersTo (v.entry x k) c)
      (fun _ _ => Nat.zero_le _) (Finset.mem_range.2 hi.1) (Finset.mem_range.2 hj.1) hij
    rw [hi.refersTo, hj.refersTo, if_pos rfl, ← refsIn_eq hx.2] at hpair
    have hle : v.refsIn x c ≤ v.refs L c :=
      Finset.single_le_sum (f := fun x => v.refsIn x c) (fun _ _ => Nat.zero_le _) hx.1
    omega
  · -- entries of two directories
    have hpair : v.refsIn x c + v.refsIn d c ≤ v.refs L c :=
      Finset.add_le_sum (f := fun y => v.refsIn y c) (fun _ _ => Nat.zero_le _) hx.1 hd.1 hxd
    have hx1 := hi.one_le_refsIn hx.2
    have hd1 := hj.one_le_refsIn hd.2
    omega

/-- An inode whose only entry is one of a directory has one reference. -/
theorem Tree.refs_of_last (htree : v.Tree sb L parent depth) (hd : v.IsDir L d) (hj : v.Names d j name c)
    (hlast : ∀ x, v.IsDir L x → ∀ i l, v.Names x i l c → x = d ∧ i = j) : v.refs L c = 1 := by
  -- an entry that refers to the inode names it
  have hrefers : ∀ x, v.IsDir L x → ∀ i < v.entryCount x, (x ≠ d ∨ i ≠ j) → refersTo (v.entry x i) c = 0 := by
    intro x hx i hi hother
    refine if_neg ?_
    rintro ⟨htype, hinode⟩
    rcases htree.entry x hx i hi with hblank | ⟨hused, -, -⟩
    · rw [hblank] at htype
      exact htype rfl
    · obtain ⟨rfl, rfl⟩ := hlast x hx i _ ⟨hi, hused, rfl, hinode⟩
      exact hother.elim (fun h => h rfl) fun h => h rfl
  have hself : v.refsIn d c = 1 := by
    rw [refsIn_eq hd.2, Finset.sum_eq_single_of_mem j (Finset.mem_range.2 hj.1), hj.refersTo, if_pos rfl]
    exact fun i hi hij => hrefers d hd i (Finset.mem_range.1 hi) (.inr hij)
  rw [refs, Finset.sum_eq_single_of_mem d hd.1, hself]
  intro x hx hxd
  by_cases hmode : (v.ino x).mode = 2
  · rw [refsIn_eq hmode]
    exact Finset.sum_eq_zero fun i hi => hrefers x ⟨hx, hmode⟩ i (Finset.mem_range.1 hi) (.inl hxd)
  · exact refsIn_file hmode

end Vol

end MiniOrange
