import MiniOrange.Fs.Tree

/-!
# Searching a directory of the tree

On a directory whose entries are blank or in use, and whose entry for the name leads to an inode of
its type (`Vol.Searchable`), the search of `directory_find_internal` is exact: it returns an entry
that bears the name, and `ENOENT` when there is none (`find_searched`). The kernel looks at the bytes
of each entry in turn, and no check of the loop fails before the entry is found. Every directory of
the tree is such a one (`Tree.searchable`).
-/

namespace MiniOrange

namespace Vol

variable {v : Vol} {sb : Superblock} {L : Finset Nat} {parent depth : Nat → Nat}

/-- The record that `directory_find_internal` returns for entry `j`. -/
def record (v : Vol) (d j : Nat) : DirectoryRecord :=
  ⟨(v.entry d j).inode, j * 64, (v.entry d j).type, (v.entry d j).name⟩

variable {d : Nat} {component l : List UInt8}

/-- An entry lies in its block. -/
theorem entry_block {fileBlock index : Nat} (hi : index < 64) :
    v.entry d (fileBlock * 64 + index) =
      Entry.ofBytes ((v.data (v.fileBlock d fileBlock)).ptr (index * 64)) := by
  unfold entry
  rw [show (fileBlock * 64 + index) / 64 = fileBlock by omega,
    show (fileBlock * 64 + index) % 64 = index by omega]

/-- The mode of an inode matches the type of its entries. -/
theorem typeMatches_self {type : Nat} : typeMatches type type = true := by
  unfold typeMatches
  by_cases h1 : type = 1
  · simp [h1]
  · by_cases h2 : type = 2 <;> simp [h1, h2]

/-- The entries of a directory are blank or in use, and one with the name leads to an inode of its
type. -/
def Searchable (v : Vol) (sb : Superblock) (d : Nat) (component : List UInt8) : Prop :=
  ∀ j < v.entryCount d, v.entry d j = .blank ∨
    ((v.entry d j).Used ∧ (v.entry d j).inode < sb.totalInodes ∧
      ((v.entry d j).label = component →
        v.readInode sb (v.entry d j).inode = .ok (v.ino (v.entry d j).inode) ∧
        (v.entry d j).type = (v.ino (v.entry d j).inode).mode))

/-- A directory of the tree can be searched for any name. -/
theorem Tree.searchable (htree : v.Tree sb L parent depth) (hown : v.Owns sb L)
    (hd : v.IsDir L d) (component : List UInt8) : v.Searchable sb d component := by
  intro j hj
  rcases htree.entry d hd j hj with hblank | ⟨hused, hmem, htype⟩
  · exact .inl hblank
  · exact .inr ⟨hused, hown.inode_lt _ hmem, fun _ => ⟨hown.readInode hmem, htype⟩⟩

/-- What a search of the entries from `first` to `last` has found: the record of an entry with the
name, or that there is none. -/
def Searched (v : Vol) (d : Nat) (component : List UInt8) (first last : Nat)
    (r : Option DirectoryRecord) : Prop :=
  (∃ j c, first ≤ j ∧ j < last ∧ v.Names d j component c ∧ r = some (v.record d j)) ∨
  ((∀ j c, first ≤ j → j < last → ¬ v.Names d j component c) ∧ r = none)

namespace Searched

variable {d first middle last : Nat} {component : List UInt8} {r : Option DirectoryRecord}

/-- Nothing is found among no entries. -/
theorem nil (h : last ≤ first) : Searched v d component first last none :=
  .inr ⟨fun j c _ _ => by omega, rfl⟩

/-- After entries without the name, the rest decides. -/
theorem append (h : Searched v d component first middle none)
    (h' : Searched v d component middle last r) (hle : first ≤ middle) :
    Searched v d component first last r := by
  rcases h with ⟨j, c, -, -, -, hnone⟩ | ⟨hno, -⟩
  · cases hnone
  rcases h' with ⟨j, c, h1, h2, h3, h4⟩ | ⟨hno', hr⟩
  · exact .inl ⟨j, c, by omega, h2, h3, h4⟩
  · refine .inr ⟨fun j c h1 h2 => ?_, hr⟩
    rcases Nat.lt_or_ge j middle with hlt | hge
    · exact hno j c h1 hlt
    · exact hno' j c hge h2

/-- What the first entries have found, all have. -/
theorem stop {x : DirectoryRecord} (h : Searched v d component first middle (some x))
    (hle : middle ≤ last) : Searched v d component first last (some x) := by
  rcases h with ⟨j, c, h1, h2, h3, h4⟩ | ⟨-, hnone⟩
  · exact .inl ⟨j, c, h1, by omega, h3, h4⟩
  · cases hnone

end Searched

/-- What one iteration of the search makes of an entry: it passes a blank entry or another name, and
returns the record at the name. -/
theorem findEntries_step {fileBlock index count : Nat}
    (hs : v.Searchable sb d component) (hc : ∀ x ∈ component, x ≠ 0) (hi : index < 64)
    (hj : fileBlock * 64 + index < v.entryCount d) :
    v.findEntries sb component fileBlock (v.data (v.fileBlock d fileBlock)) (count + 1) index =
      if v.entry d (fileBlock * 64 + index) ≠ .blank ∧
          (v.entry d (fileBlock * 64 + index)).label = component then
        some (.ok (v.record d (fileBlock * 64 + index)))
      else v.findEntries sb component fileBlock (v.data (v.fileBlock d fileBlock)) count
        (index + 1) := by
  have hentry : v.entry d (fileBlock * 64 + index) = _ := entry_block hi
  generalize hp : (v.data (v.fileBlock d fileBlock)).ptr (index * 64) = p at hentry
  rw [findEntries, hp]
  rcases hs _ hj with hblank | ⟨hused, hlt, hnamed⟩
  · -- a blank entry has type 0 and is unused
    have hzero := Entry.ofBytes_eq_blank.1 (hentry.symm.trans hblank)
    have hunused : directoryEntryUnused p = true := directoryEntryUnused_iff.2 hzero
    rw [if_pos (by rw [hzero 4 (by omega)]; rfl), hunused, if_neg (by simp), if_neg]
    exact fun h => h.1 hblank
  · have ht : (p 4).toNat = (v.entry d (fileBlock * 64 + index)).type := by rw [hentry]; rfl
    have hchild : readLe32 p = (v.entry d (fileBlock * 64 + index)).inode := by rw [hentry]; rfl
    have hvalid : directoryNameValid (fun i => p (5 + i)) = true :=
      Entry.directoryNameValid_iff_label.2 (by rw [← hentry]; exact ⟨hused.label, hused.padded⟩)
    have hnot : ¬ (((p 4).toNat ≠ 1 ∧ (p 4).toNat ≠ 2) ∨ readLe32 p ≥ sb.totalInodes ∨
        directoryNameValid (fun i => p (5 + i)) = false) := by
      rintro (⟨h1, h2⟩ | hge | hbad)
      · rw [ht] at h1 h2
        rcases hused.type with h | h
        · exact h1 h
        · exact h2 h
      · exact absurd hlt (by rw [← hchild]; omega)
      · rw [hvalid] at hbad
        cases hbad
    have hne : v.entry d (fileBlock * 64 + index) ≠ .blank := by
      intro hblank
      have hu := hused.type
      rw [hblank] at hu
      rcases hu with hu | hu <;> cases hu
    rw [if_neg (by rw [ht]; rcases hused.type with h | h <;> omega), if_neg hnot]
    have hequal := Entry.directoryNameEqual_iff_label hvalid hc
    rw [← hentry] at hequal
    by_cases hname : (v.entry d (fileBlock * 64 + index)).label = component
    · obtain ⟨hread, htype⟩ := hnamed hname
      rw [if_pos (hequal.2 hname), if_pos ⟨hne, hname⟩, hchild, hread]
      dsimp only
      rw [ht, htype, typeMatches_self, if_neg (by simp), ← hentry, ← htype]
      congr 3
      omega
    · rw [if_neg fun h => hname (hequal.1 h), if_neg fun h => hname h.2]

/-- The inner loop. -/
theorem findEntries_searched (fileBlock : Nat) (hs : v.Searchable sb d component) (hc : ∀ x ∈ component, x ≠ 0) :
    ∀ count index, index + count ≤ 64 → fileBlock * 64 + (index + count) ≤ v.entryCount d →
      ∃ r, Searched v d component (fileBlock * 64 + index) (fileBlock * 64 + (index + count)) r ∧
        v.findEntries sb component fileBlock (v.data (v.fileBlock d fileBlock)) count index =
          r.map .ok
  | 0, _, _, _ => ⟨none, .nil le_rfl, rfl⟩
  | count + 1, index, hblock, hcount => by
    have hj : fileBlock * 64 + index < v.entryCount d := by omega
    rw [findEntries_step hs hc (by omega) hj]
    split
    · next hfound =>
      -- an entry that is not blank is in use, so it names its inode
      have hnames : v.Names d (fileBlock * 64 + index) component
          (v.entry d (fileBlock * 64 + index)).inode := by
        rcases hs _ hj with hblank | ⟨hused, -, -⟩
        · exact absurd hblank hfound.1
        · exact ⟨hj, hused, hfound.2, rfl⟩
      exact ⟨_, .inl ⟨_, _, le_rfl, by omega, hnames, rfl⟩, rfl⟩
    · next hother =>
      obtain ⟨r, hr, heq⟩ := findEntries_searched fileBlock hs hc count (index + 1) (by omega)
        (by omega)
      have hno : Searched v d component (fileBlock * 64 + index) (fileBlock * 64 + (index + 1))
          none := by
        refine .inr ⟨fun j c h1 h2 hnames => ?_, rfl⟩
        obtain rfl : j = fileBlock * 64 + index := by omega
        refine hother ⟨fun hblank => ?_, hnames.2.2.1⟩
        have hu := hnames.2.1.type
        rw [hblank] at hu
        rcases hu with hu | hu <;> cases hu
      refine ⟨r, hno.append ?_ (by omega), heq⟩
      rwa [show index + (count + 1) = index + 1 + count by omega]

/-- The outer loop. -/
theorem findBlocks_searched (hown : v.Owns sb L) (hd : v.IsDir L d)
    (hs : v.Searchable sb d component) (hc : ∀ x ∈ component, x ≠ 0) :
    ∀ fuel remaining fileBlock, remaining ≤ fuel → remaining = v.entryCount d - fileBlock * 64 →
      ∃ r, Searched v d component (fileBlock * 64) (v.entryCount d) r ∧
        v.findBlocks sb (v.ino d) component fuel remaining fileBlock =
          match r with
          | some x => .ok x
          | none => .error .enoent
  | 0, remaining, fileBlock, hfuel, hcount => ⟨none, .nil (by omega), rfl⟩
  | fuel + 1, remaining, fileBlock, hfuel, hcount => by
    rw [findBlocks]
    rcases Nat.eq_zero_or_pos remaining with rfl | hpos
    · exact ⟨none, .nil (by omega), if_pos rfl⟩
    rw [if_neg (by omega)]
    -- the directory has the block, since it has an entry in it
    have hk : fileBlock < blocksOf (v.ino d).size := by
      rw [lt_blocksOf]
      unfold entryCount at hcount
      omega
    rw [hown.inodeBlockAt hd.1 hk]
    dsimp only
    obtain ⟨r, hr, heq⟩ := findEntries_searched fileBlock hs hc (min remaining 64) 0 (by omega)
      (by omega)
    rw [heq]
    cases r with
    | some x => exact ⟨some x, hr.stop (by omega), rfl⟩
    | none =>
      obtain ⟨r, hr', heq'⟩ := findBlocks_searched hown hd hs hc fuel
        (remaining - min remaining 64) (fileBlock + 1) (by omega) (by omega)
      refine ⟨r, ?_, heq'⟩
      rcases Nat.lt_or_ge remaining 64 with hlast | hmore
      · -- the last block: the rest of the search has no entry left
        have hend : fileBlock * 64 + (0 + min remaining 64) = v.entryCount d := by omega
        rw [hend] at hr
        rcases hr' with ⟨j, c, h1, h2, -⟩ | ⟨-, rfl⟩
        · omega
        · exact hr
      · have hnext : fileBlock * 64 + (0 + min remaining 64) = (fileBlock + 1) * 64 := by omega
        rw [hnext] at hr
        exact hr.append hr' (by omega)

/-- `directory_find_internal` on a directory that can be searched. -/
theorem find_searched (hown : v.Owns sb L) (hd : v.IsDir L d)
    (hs : v.Searchable sb d component) (hl : Entry.GoodLabel component) :
    ∃ r, Searched v d component 0 (v.entryCount d) r ∧
      v.find sb (v.ino d) component =
        match r with
        | some x => .ok x
        | none => .error .enoent := by
  have hpos := List.length_pos_iff.2 hl.pos
  have hle := hl.length_le
  have hmode := hd.2
  unfold find
  rw [if_neg (by omega)]
  have hsearch := findBlocks_searched hown hd hs (fun x hx => (hl.good x hx).1) (v.entryCount d)
    (v.entryCount d) 0 le_rfl (by omega)
  rwa [Nat.zero_mul] at hsearch

/-- The search finds a name that is there. -/
theorem Tree.find_names (htree : v.Tree sb L parent depth) (hown : v.Owns sb L) {j c : Nat}
    (hd : v.IsDir L d) (hl : Entry.GoodLabel l) (hj : v.Names d j l c) :
    v.find sb (v.ino d) l = .ok (v.record d j) := by
  obtain ⟨r, ⟨j', c', -, -, hj', rfl⟩ | ⟨hno, -⟩, heq⟩ := find_searched hown hd (htree.searchable hown hd l) hl
  · obtain rfl := htree.unique d hd j j' l c c' hj hj'
    exact heq
  · exact absurd hj (hno j c (Nat.zero_le _) hj.1)

/-- The search misses a name that is not there. -/
theorem Tree.find_none (htree : v.Tree sb L parent depth) (hown : v.Owns sb L)
    (hd : v.IsDir L d) (hl : Entry.GoodLabel l)
    (hno : ∀ j c, ¬ v.Names d j l c) : v.find sb (v.ino d) l = .error .enoent := by
  obtain ⟨r, ⟨j, c, -, -, hj, -⟩ | ⟨-, rfl⟩, heq⟩ := find_searched hown hd (htree.searchable hown hd l) hl
  · exact absurd hj (hno j c)
  · exact heq

end Vol

end MiniOrange
