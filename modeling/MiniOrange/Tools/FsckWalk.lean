import MiniOrange.Tools.FsckLoad
import MiniOrange.Fs.Preserve
import MiniOrange.Logic.Sweep

/-!
# What the checker accepts of the directories

`_check_directories` reads the directories from the root on, breadth first. A directory is accepted
when its entries are in order and its `.` and `..` name it and the directory it was found in (`DirOk`);
the walk as a whole is a `Sweep`. With every allocated inode reached and every link count equal to the
number of references, that is `Vol.Counted`, so that `fsck` accepts a volume exactly when it is
consistent and its root is inode 0 (`accepts_iff`).
-/

namespace MiniOrange

namespace Tools

open Check

variable {c : Checker} {sb : MiniOrange.Superblock} {v : Vol} {L : Finset Nat} {b d j k n p : Nat}
  {l : List UInt8}

/-! ## The bytes of a file -/

/-- The bytes of equal blocks, one block after the other. -/
theorem flatMap_blocks {g : Nat → Nat → UInt8} {f : Nat → Nat} (m : Nat) :
    ((List.range m).map f).flatMap (fun block => (List.range 4096).map (g block)) =
      (List.range (m * 4096)).map fun o => g (f (o / 4096)) (o % 4096) := by
  induction m with
  | zero => simp
  | succ m ih =>
    rw [List.range_succ (n := m), List.map_append, List.flatMap_append, ih, show (m + 1) * 4096 = m * 4096 + 4096 by omega,
      List.range_add, List.map_append, List.map_map, List.map_singleton, List.flatMap_singleton]
    refine congrArg (_ ++ ·) (List.map_congr_left fun i hi => ?_)
    have := List.mem_range.1 hi
    rw [Function.comp_apply, show (m * 4096 + i) / 4096 = m by omega, show (m * 4096 + i) % 4096 = i by omega]

/-- `_read_inode_content` returns the bytes of the file. -/
theorem readInodeContent_eq (hload : Loaded c sb v sb.totalInodes) (hown : v.Owns sb (v.alloc sb))
    (hn : n ∈ v.alloc sb) : c.readInodeContent n (v.ino n) = v.content n := by
  unfold Checker.readInodeContent Vol.content
  have hsize : (v.ino n).size ≤ blocksOf (v.ino n).size * 4096 := blocksOf_le.1 le_rfl
  rw [hload.fileBlocks n hn, flatMap_blocks, ← List.map_take, List.take_range, Nat.min_eq_left hsize]
  refine List.map_congr_left fun o ho => ?_
  have hlt : o / 4096 < blocksOf (v.ino n).size := Vol.div_lt_blocksOf (List.mem_range.1 ho)
  obtain ⟨hge, htotal⟩ := hown.slot_valid hn (show (v.ino n).Needs (.data (o / 4096)) from hlt)
  simp only [Vol.slotBlock] at hge htotal
  unfold sliceOf Vol.byteAt
  rw [byteOf_block (Nat.mod_lt _ (by decide)), ← hload.views.volume, Vol.data_ofDisk, hload.views.volume]
  · rw [hload.views.volume]; exact hge
  · rw [hload.views.volume]; exact htotal

/-- The bytes of an entry of a directory. -/
theorem entry_content (hdir : (v.ino d).size % 64 = 0) (hj : j < v.entryCount d) :
    Entry.ofBytes (fun i => (v.content d).getD (j * 64 + i) 0) = v.entry d j := by
  unfold Vol.entryCount at hj
  refine Entry.ofBytes_congr fun i hi => ?_
  have hlt : j * 64 + i < (v.ino d).size := by omega
  rw [Vol.content, List.getD_eq_getElem _ _ (by simpa using hlt), List.getElem_map, List.getElem_range]
  unfold Vol.byteAt
  rw [Block.ptr_apply, show (j * 64 + i) / 4096 = j / 64 by omega,
    show (j * 64 + i) % 4096 = j % 64 * 64 + i by omega]

/-! ## The entries of a directory -/

/-- An entry of a directory is unused or names an inode of `L` with its type. -/
def EntryOk (v : Vol) (L : Finset Nat) (d j : Nat) : Prop :=
  v.entry d j = .blank ∨ ((v.entry d j).Used ∧ (v.entry d j).inode ∈ L ∧
    (v.entry d j).type = (v.ino (v.entry d j).inode).mode)

/-- The name an entry has for the checker. -/
def nameOf (v : Vol) (d j : Nat) : Checker.Name :=
  ⟨(v.entry d j).label, (v.entry d j).inode, (v.entry d j).type⟩

/-- Those of the entries `js` that are in use. -/
def usedOf (v : Vol) (d : Nat) (js : List Nat) : List Nat := js.filter fun j => (v.entry d j).type ≠ 0

/-- The first NUL of a list of bytes. -/
theorem findIdx_nul (raw : List UInt8) :
    (raw.findIdx? (· = 0) = none ∧ raw.takeWhile (· ≠ 0) = raw) ∨
      ∃ rest, raw = raw.takeWhile (· ≠ 0) ++ 0 :: rest ∧
        raw.findIdx? (· = 0) = some (raw.takeWhile (· ≠ 0)).length := by
  induction raw with
  | nil => exact .inl ⟨rfl, rfl⟩
  | cons x raw ih =>
    by_cases hx : x = 0
    · subst hx
      exact .inr ⟨raw, by simp, by simp [List.findIdx?_cons]⟩
    · rw [List.takeWhile_cons_of_pos (by simpa using hx), List.findIdx?_cons, if_neg (by simpa using hx)]
      rcases ih with ⟨hnone, hall⟩ | ⟨rest, hsplit, hsome⟩
      · exact .inl ⟨by rw [hnone]; rfl, by rw [hall]⟩
      · exact .inr ⟨rest, by rw [List.cons_append, ← hsplit], by rw [hsome]; rfl⟩

/-- `_decode_name` accepts a good name padded with NULs, and returns the name. -/
theorem decodeName_eq_ok {e : Entry} {owner : Nat} (hlen : e.name.length = 59) :
    Checker.decodeName e.name owner = .ok l ↔
      (Entry.GoodLabel e.label ∧ e.name = e.label ++ List.replicate (59 - e.label.length) 0) ∧
        l = e.label := by
  unfold Checker.decodeName
  rcases findIdx_nul e.name with ⟨hnone, hall⟩ | ⟨rest, hsplit, hsome⟩
  · rw [hnone]
    refine iff_of_false nofun ?_
    rintro ⟨⟨hgood, -⟩, -⟩
    have hle := hgood.length_le
    rw [Entry.label, hall] at hle
    omega
  · rw [hsome]
    change e.name = e.label ++ 0 :: rest at hsplit
    have hnul : ∀ x ∈ e.label, x ≠ 0 := fun x hx => by simpa using List.mem_takeWhile_imp hx
    have htake : e.name.take e.label.length = e.label := by rw [hsplit, List.take_left]
    have hdrop : e.name.drop (e.label.length + 1) = rest := by
      rw [hsplit, ← List.drop_drop, List.drop_left]
      rfl
    have hrest : e.label.length + (rest.length + 1) = 59 := by
      rw [← hlen, hsplit, List.length_append, List.length_cons]
    have hpad : e.name = e.label ++ List.replicate (59 - e.label.length) 0 ↔ ∀ x ∈ rest, x = 0 := by
      rw [hsplit, List.append_cancel_left_eq, show 59 - e.label.length = rest.length + 1 by omega,
        List.replicate_succ, List.cons_inj_right, List.eq_replicate_iff]
      exact and_iff_right rfl
    change (do
      failIf (e.label.length = 0 ∨ e.label.length > 58) (MiniFsError.nameNotTerminated owner)
      failIf ((e.name.drop (e.label.length + 1)).any (· ≠ 0) = true) (.namePadding owner)
      failIf (0x2F ∈ e.name.take e.label.length) (.nameSlash owner)
      failIf (∃ x ∈ e.name.take e.label.length, x > 0x7F) (.entryNameNotAscii owner)
      return e.name.take e.label.length) = Except.ok l ↔ _
    rw [htake, hdrop, failIf_bind_eq_ok, failIf_bind_eq_ok, failIf_bind_eq_ok, failIf_bind_eq_ok, hpad]
    constructor
    · rintro ⟨hlength, hzero, hslash, hascii, hl⟩
      refine ⟨⟨⟨fun hnil => hlength (.inl (by rw [hnil]; rfl)), by omega, fun x hx => ⟨hnul x hx, ?_, ?_⟩⟩, ?_⟩,
        (Except.ok.inj hl).symm⟩
      · exact UInt8.not_lt.1 fun hlt => hascii ⟨x, hx, hlt⟩
      · rintro rfl
        exact hslash hx
      · simpa using hzero
    · rintro ⟨⟨hgood, hzero⟩, rfl⟩
      have hpos := List.length_pos_iff.2 hgood.pos
      have hle := hgood.length_le
      refine ⟨by omega, by simpa using hzero, fun hx => (hgood.good _ hx).2.2 rfl, ?_, rfl⟩
      rintro ⟨x, hx, hlt⟩
      exact UInt8.not_lt.2 (hgood.good x hx).2.1 hlt

/-- A name that is not in the dictionary. -/
theorem getName_eq_none {names : List Checker.Name} :
    Checker.getName names l = none ↔ ∀ item ∈ names, item.name ≠ l := by
  simp [Checker.getName]

variable {js : List Nat} {references : Nat → Nat} {volume : Disk} {blocks : Nat}

section
variable {rest : List Nat} {names : List Checker.Name} {references : Nat → Nat} {B : Prop}
  {R : List Checker.Name × (Nat → Nat) → Prop}
variable (hload : Loaded c sb v sb.totalInodes) (hown : v.Owns sb (v.alloc sb))
  (hdir : (v.ino d).size % 64 = 0)
include hdir

/-- One round of the loop over the entries, at an unused one. -/
theorem checkEntries_unused (hj : j < v.entryCount d) (hzero : (v.entry d j).type = 0)
    (hrest : Yields (c.checkEntries d (v.content d) rest names references) B R) :
    Yields (c.checkEntries d (v.content d) (j * 64 :: rest) names references) (EntryOk v L d j ∧ B) R := by
  have hentry := entry_content hdir hj
  have hok : EntryOk v L d j ↔ ¬ ∃ i ∈ List.range 64, (v.content d).getD (j * 64 + i) 0 ≠ 0 := by
    refine Iff.trans (or_iff_left fun h => ?_) ?_
    · have := h.1.type
      omega
    · rw [← hentry, Entry.ofBytes_eq_blank]
      simp
  rw [Checker.checkEntries, hok]
  simp only [hentry]
  rw [if_pos hzero]
  exact Yields.failIf fun _ => hrest

include hload hown

/-- One round of the loop over the entries, at one in use. -/
theorem checkEntries_used (hj : j < v.entryCount d) (hzero : (v.entry d j).type ≠ 0)
    (hrest : Yields (c.checkEntries d (v.content d) rest (names ++ [nameOf v d j])
      (Function.update references (v.entry d j).inode (references (v.entry d j).inode + 1))) B R) :
    Yields (c.checkEntries d (v.content d) (j * 64 :: rest) names references)
      (EntryOk v (v.alloc sb) d j ∧ (∀ item ∈ names, item.name ≠ (v.entry d j).label) ∧ B) R := by
  have hentry := entry_content hdir hj
  have hnot : v.entry d j ≠ .blank := fun heq => hzero (by rw [heq]; rfl)
  have hlen : (v.entry d j).name.length = 59 := by
    rw [← hentry]
    simp [Entry.ofBytes]
  have hchild : c.inodes (v.entry d j).inode =
      if (v.entry d j).inode ∈ v.alloc sb then some (v.ino (v.entry d j).inode) else none :=
    hload.inodes _
  rw [Checker.checkEntries]
  simp only [hentry, hchild, if_neg hzero, ← getName_eq_none]
  by_cases hmem : (v.entry d j).inode ∈ v.alloc sb
  · simp only [if_pos hmem]
    refine Yields.congr (Yields.failIf fun _ => Yields.bind_eq (fun name => decodeName_eq_ok hlen) fun _ =>
      Yields.failIf fun _ => Yields.failIf fun _ => hrest) ⟨?_, ?_⟩
    · rintro ⟨htype, ⟨hgood, hpad⟩, hnew, hexpected, hB⟩
      refine ⟨.inr ⟨⟨by omega, hgood, hpad⟩, hmem, ?_⟩, not_not.1 hnew, hB⟩
      rw [not_not.1 hexpected]
      rcases (hown.ok _ hmem).mode with hmode | hmode
      · simp [hmode]
      · simp [hmode]
    · rintro ⟨heq | ⟨hused, -, hmode⟩, hnew, hB⟩
      · exact absurd heq hnot
      · have htype := hused.type
        refine ⟨by omega, ⟨hused.label, hused.padded⟩, not_not.2 hnew, not_not.2 ?_, hB⟩
        rcases (hown.ok _ hmem).mode with hm | hm
        · simp [hmode, hm]
        · simp [hmode, hm]
  · simp only [if_neg hmem]
    refine Yields.congr (Yields.failIf fun _ => Yields.bind_eq (fun name => decodeName_eq_ok hlen) fun _ =>
      Yields.failIf fun _ => Yields.error) (iff_of_false (fun h => h.2.2.2) ?_)
    rintro ⟨heq | ⟨-, h, -⟩, -⟩
    · exact hnot heq
    · exact hmem h

/-- The loop over the entries accepts entries that are in order, with names that differ. It returns the
names, and counts the references. -/
theorem checkEntries_yields : (∀ j ∈ js, j < v.entryCount d) → ∀ {names references},
    Yields (c.checkEntries d (v.content d) (js.map (· * 64)) names references)
      ((∀ j ∈ js, EntryOk v (v.alloc sb) d j) ∧
        ((usedOf v d js).map fun j => (v.entry d j).label).Nodup ∧
        ∀ j ∈ usedOf v d js, ∀ item ∈ names, item.name ≠ (v.entry d j).label)
      (· = (names ++ (usedOf v d js).map (nameOf v d), fun x => references x +
        (js.filter fun j => (v.entry d j).type ≠ 0 ∧ (v.entry d j).inode = x).length)) := by
  induction js with
  | nil =>
    intro _ names references
    exact .of_eq_ok rfl ⟨by simp, by simp [usedOf], by simp [usedOf]⟩ (by simp [usedOf])
  | cons j js ih =>
    intro hjs names references
    obtain ⟨hj, hjs⟩ := List.forall_mem_cons.1 hjs
    rw [List.map_cons, List.forall_mem_cons]
    by_cases hzero : (v.entry d j).type = 0
    · have hused : usedOf v d (j :: js) = usedOf v d js := List.filter_cons_of_neg (by simpa using hzero)
      rw [hused, and_assoc]
      refine checkEntries_unused hdir hj hzero ((ih hjs).mono fun r _ hr => ?_)
      simp [hr, hzero]
    · have hused : usedOf v d (j :: js) = j :: usedOf v d js := List.filter_cons_of_pos (by simpa using hzero)
      rw [hused, List.map_cons, List.nodup_cons, List.forall_mem_cons]
      refine Yields.congr (checkEntries_used hload hown hdir hj hzero ((ih hjs).mono fun r _ hr => ?_)) ?_
      · rw [hr, List.map_cons, List.append_assoc]
        refine Prod.ext rfl (funext fun x => ?_)
        dsimp only
        by_cases hx : (v.entry d j).inode = x
        · subst hx
          rw [Function.update_self, List.filter_cons_of_pos (by simpa using hzero), List.length_cons]
          omega
        · rw [Function.update_of_ne (Ne.symm hx), List.filter_cons_of_neg (by simp [hx])]
      · simp only [List.mem_append, List.mem_singleton, List.mem_map, not_exists, not_and]
        constructor
        · rintro ⟨hok, hnew, hoks, hnodup, hother⟩
          exact ⟨⟨hok, hoks⟩, ⟨fun i hi heq => hother i hi _ (.inr rfl) heq.symm, hnodup⟩, hnew,
            fun i hi item hitem => hother i hi item (.inl hitem)⟩
        · rintro ⟨⟨hok, hoks⟩, ⟨hfirst, hnodup⟩, hnew, hother⟩
          refine ⟨hok, hnew, hoks, hnodup, fun i hi item hitem => ?_⟩
          rcases hitem with hitem | rfl
          · exact hother i hi item hitem
          · exact fun heq => hfirst i hi heq.symm

end

/-! ## A directory -/

/-- The entries of a directory are in order, its names differ, and its `.` and `..` name it and the
directory `p`. -/
structure DirOk (v : Vol) (L : Finset Nat) (d p : Nat) : Prop where
  mem : d ∈ L
  entry : ∀ j < v.entryCount d, EntryOk v L d j
  unique : ∀ j j' l c c', v.Names d j l c → v.Names d j' l c' → j = j'
  dot : (v.ino d).mode = 2 ∧ ∃ j, v.Names d j [0x2E] d
  dotdot : (v.ino p).mode = 2 ∧ ∃ j, v.Names d j [0x2E, 0x2E] p

/-- The names of a directory that are not `.` or `..`. -/
def childEntries (v : Vol) (d : Nat) : List Checker.Name :=
  Checker.children ((usedOf v d (List.range (v.entryCount d))).map (nameOf v d))

/-- The directories a directory names. -/
def kids (v : Vol) (d : Nat) : List Nat := ((childEntries v d).filter (·.type = 2)).map (·.child)

/-- An entry in use names what it holds. -/
theorem names_iff_used (hok : ∀ j < v.entryCount d, EntryOk v L d j) {c : Nat} :
    v.Names d j l c ↔ j ∈ usedOf v d (List.range (v.entryCount d)) ∧
      (v.entry d j).label = l ∧ (v.entry d j).inode = c := by
  rw [usedOf, List.mem_filter, List.mem_range, decide_eq_true_eq]
  constructor
  · rintro ⟨hlt, hused, hl, hc⟩
    have := hused.type
    exact ⟨⟨hlt, by omega⟩, hl, hc⟩
  · rintro ⟨⟨hlt, htype⟩, hl, hc⟩
    rcases hok j hlt with hblank | ⟨hused, -, -⟩
    · exact absurd (by rw [hblank]; rfl) htype
    · exact ⟨hlt, hused, hl, hc⟩

/-- The names of a directory differ when the labels of its entries in use do. -/
theorem unique_iff_nodup (hok : ∀ j < v.entryCount d, EntryOk v L d j) :
    (∀ j j' l c c', v.Names d j l c → v.Names d j' l c' → j = j') ↔
      ((usedOf v d (List.range (v.entryCount d))).map fun j => (v.entry d j).label).Nodup := by
  have hused : (usedOf v d (List.range (v.entryCount d))).Nodup := List.nodup_range.filter _
  rw [List.nodup_map_iff_inj_on hused]
  constructor
  · intro h j hj j' hj' heq
    exact h j j' _ _ _ ((names_iff_used hok).2 ⟨hj, heq, rfl⟩) ((names_iff_used hok).2 ⟨hj', rfl, rfl⟩)
  · intro h j j' l c c' hj hj'
    obtain ⟨hj, hl, -⟩ := (names_iff_used hok).1 hj
    obtain ⟨hj', hl', -⟩ := (names_iff_used hok).1 hj'
    exact h j hj j' hj' (hl.trans hl'.symm)

/-- What the dictionary of names holds. -/
theorem getName_map (hnodup : (js.map fun j => (v.entry d j).label).Nodup) {x type : Nat} :
    Checker.getName (js.map (nameOf v d)) l = some (x, type) ↔
      ∃ j ∈ js, (v.entry d j).label = l ∧ (v.entry d j).inode = x ∧ (v.entry d j).type = type := by
  induction js with
  | nil => simp [Checker.getName]
  | cons j js ih =>
    obtain ⟨hfirst, hnodup⟩ := List.nodup_cons.1 hnodup
    unfold Checker.getName at ih ⊢
    rw [List.map_cons, List.find?_cons, List.exists_mem_cons_iff]
    by_cases hl : (v.entry d j).label = l
    · have hrest : ¬ ∃ i ∈ js, (v.entry d i).label = l ∧ (v.entry d i).inode = x ∧
          (v.entry d i).type = type := by
        rintro ⟨i, hi, hli, -⟩
        exact hfirst (List.mem_map.2 ⟨i, hi, hli.trans hl.symm⟩)
      simp [nameOf, hl, hrest]
    · rw [show decide ((nameOf v d j).name = l) = false from decide_eq_false hl, ih hnodup]
      simp [hl]

/-- With the entries in order, `.` or `..` is in the dictionary as a directory. -/
theorem getName_dir (hok : ∀ j < v.entryCount d, EntryOk v L d j)
    (hnodup : ((usedOf v d (List.range (v.entryCount d))).map fun j => (v.entry d j).label).Nodup) {x : Nat} :
    Checker.getName ((usedOf v d (List.range (v.entryCount d))).map (nameOf v d)) l = some (x, 2) ↔
      (v.ino x).mode = 2 ∧ ∃ j, v.Names d j l x := by
  have htype : ∀ j ∈ usedOf v d (List.range (v.entryCount d)),
      (v.entry d j).type = (v.ino (v.entry d j).inode).mode := by
    intro j hj
    obtain ⟨hlt, hzero⟩ := List.mem_filter.1 hj
    rcases hok j (List.mem_range.1 hlt) with hblank | ⟨-, -, heq⟩
    · rw [hblank] at hzero
      cases hzero
    · exact heq
  rw [getName_map hnodup]
  constructor
  · rintro ⟨j, hj, hl, rfl, heq⟩
    exact ⟨(htype j hj).symm.trans heq, j, (names_iff_used hok).2 ⟨hj, hl, rfl⟩⟩
  · rintro ⟨hmode, j, hj⟩
    obtain ⟨hused, hl, rfl⟩ := (names_iff_used hok).1 hj
    exact ⟨j, hused, hl, rfl, (htype j hused).trans hmode⟩

/-- The walk after a directory. -/
def Walk.next (v : Vol) (w : Checker.Walk) (d : Nat) : Checker.Walk where
  queue := w.queue ++ (kids v d).map fun k => (k, d)
  visited := insert d w.visited
  reachable := w.reachable ∪ ((childEntries v d).map (·.child)).toFinset
  references x := w.references x + v.refsIn d x

/-- The entries of a directory, as the checker goes through them. -/
theorem dirEntries_yields (hload : Loaded c sb v sb.totalInodes) (hown : v.Owns sb (v.alloc sb))
    (hd : v.IsDir (v.alloc sb) d) :
    Yields (c.checkEntries d (c.readInodeContent d (v.ino d))
        ((List.range (((c.readInodeContent d (v.ino d)).length + 63) / 64)).map (· * 64)) [] references)
      ((∀ j < v.entryCount d, EntryOk v (v.alloc sb) d j) ∧
        ((usedOf v d (List.range (v.entryCount d))).map fun j => (v.entry d j).label).Nodup)
      (· = ((usedOf v d (List.range (v.entryCount d))).map (nameOf v d),
        fun x => references x + v.refsIn d x)) := by
  have hsize := ((hown.ok d hd.1).dir_size hd.2).2
  have hcount : ((v.content d).length + 63) / 64 = v.entryCount d := by
    rw [show (v.content d).length = (v.ino d).size by simp [Vol.content], Vol.entryCount]
    omega
  rw [readInodeContent_eq hload hown hd.1, hcount]
  refine ((checkEntries_yields hload hown hsize fun j => List.mem_range.1).congr ?_).mono fun r _ hr => ?_
  · simp
  · rw [hr]
    refine Prod.ext rfl (funext fun x => ?_)
    show _ = references x + v.refsIn d x
    rw [Vol.refsIn, if_pos hd.2]

/-- `_check_directories` accepts a directory that is in order and not visited. -/
theorem checkDirectory_eq_ok (hload : Loaded c sb v sb.totalInodes) (hown : v.Owns sb (v.alloc sb))
    (hd : v.IsDir (v.alloc sb) d) {w w' : Checker.Walk} :
    c.checkDirectory w d p = .ok w' ↔
      d ∉ w.visited ∧ DirOk v (v.alloc sb) d p ∧ w' = Walk.next v w d := by
  have hqueue : ((Checker.children ((usedOf v d (List.range (v.entryCount d))).map (nameOf v d))).filter
      (·.type = 2)).map (fun item => (item.child, d)) = (kids v d).map fun k => (k, d) := by
    rw [kids, List.map_map]
    rfl
  unfold Checker.checkDirectory
  rw [(hload.inodes d).trans (if_pos hd.1), ← and_assoc]
  refine Yields.eq_ok (Yields.failIf fun _ => (dirEntries_yields hload hown hd).bind (fun h => ?_)
    fun r hentries hr => ?_)
  · exact ⟨h.entry, (unique_iff_nodup h.entry).1 h.unique⟩
  · subst hr
    refine Yields.congr (Yields.failIf fun _ => Yields.failIf fun _ => Yields.ok ?_) ?_
    · rw [hqueue]
      rfl
    · obtain ⟨hok, hnodup⟩ := hentries
      rw [not_not, not_not, getName_dir hok hnodup, getName_dir hok hnodup, and_true]
      exact ⟨fun h => ⟨hd.1, hok, (unique_iff_nodup hok).2 hnodup, h.1, h.2⟩, fun h => ⟨h.dot, h.dotdot⟩⟩

/-! ## The children of a directory -/

/-- The entries of a directory with proper names. -/
def properOf (v : Vol) (d : Nat) : List Nat :=
  (usedOf v d (List.range (v.entryCount d))).filter fun j =>
    (v.entry d j).label ≠ [0x2E] ∧ (v.entry d j).label ≠ [0x2E, 0x2E]

theorem childEntries_eq : childEntries v d = (properOf v d).map (nameOf v d) := by
  rw [childEntries, Checker.children, List.filter_map]
  rfl

theorem kids_eq : kids v d = ((properOf v d).filter fun j => (v.entry d j).type = 2).map fun j =>
    (v.entry d j).inode := by
  rw [kids, childEntries_eq, List.filter_map, List.map_map]
  rfl

section
variable (hok : ∀ j < v.entryCount d, EntryOk v L d j)
include hok

theorem mem_properOf : j ∈ properOf v d ↔
    v.Names d j (v.entry d j).label (v.entry d j).inode ∧ Vol.Proper (v.entry d j).label := by
  rw [properOf, List.mem_filter, decide_eq_true_eq, names_iff_used hok]
  exact and_congr_left fun _ => ⟨fun h => ⟨h, rfl, rfl⟩, fun h => h.1⟩

/-- The inodes with a proper name in a directory. -/
theorem mem_children : n ∈ (childEntries v d).map (·.child) ↔ ∃ j l, v.Names d j l n ∧ Vol.Proper l := by
  rw [childEntries_eq, List.map_map, List.mem_map]
  constructor
  · rintro ⟨j, hj, rfl⟩
    obtain ⟨hnames, hproper⟩ := (mem_properOf hok).1 hj
    exact ⟨j, _, hnames, hproper⟩
  · rintro ⟨j, l, hnames, hproper⟩
    obtain ⟨-, -, rfl, rfl⟩ := id hnames
    exact ⟨j, (mem_properOf hok).2 ⟨hnames, hproper⟩, rfl⟩

/-- An entry in use has the type of what it names. -/
theorem type_of_names (hj : v.Names d j l n) : n ∈ L ∧ (v.entry d j).type = (v.ino n).mode := by
  obtain ⟨hlt, hused, -, rfl⟩ := id hj
  rcases hok j hlt with hblank | ⟨-, hmem, htype⟩
  · exact absurd hblank hj.not_blank
  · exact ⟨hmem, htype⟩

/-- The directories with a proper name in a directory. -/
theorem mem_kids : n ∈ kids v d ↔ (v.ino n).mode = 2 ∧ ∃ j l, v.Names d j l n ∧ Vol.Proper l := by
  rw [kids_eq, List.mem_map]
  constructor
  · rintro ⟨j, hj, rfl⟩
    obtain ⟨hj, htype⟩ := List.mem_filter.1 hj
    obtain ⟨hnames, hproper⟩ := (mem_properOf hok).1 hj
    rw [decide_eq_true_eq, (type_of_names hok hnames).2] at htype
    exact ⟨htype, j, _, hnames, hproper⟩
  · rintro ⟨hmode, j, l, hnames, hproper⟩
    have htype := (type_of_names hok hnames).2
    obtain ⟨-, -, rfl, rfl⟩ := id hnames
    exact ⟨j, List.mem_filter.2 ⟨(mem_properOf hok).2 ⟨hnames, hproper⟩,
      decide_eq_true (htype.trans hmode)⟩, rfl⟩

/-- No directory has two proper names in a directory. -/
theorem nodup_kids_iff : (kids v d).Nodup ↔ ∀ j j' l l' c, v.Names d j l c → v.Names d j' l' c →
    Vol.Proper l → Vol.Proper l' → (v.ino c).mode = 2 → j = j' := by
  have hused : ((properOf v d).filter fun j => (v.entry d j).type = 2).Nodup :=
    ((List.nodup_range.filter _).filter _).filter _
  have hmem : ∀ j, j ∈ ((properOf v d).filter fun j => (v.entry d j).type = 2) ↔
      v.Names d j (v.entry d j).label (v.entry d j).inode ∧ Vol.Proper (v.entry d j).label ∧
        (v.ino (v.entry d j).inode).mode = 2 := by
    intro j
    rw [List.mem_filter, mem_properOf hok, decide_eq_true_eq, and_assoc]
    refine and_congr_right fun hnames => ?_
    rw [(type_of_names hok hnames).2]
  rw [kids_eq, List.nodup_map_iff_inj_on hused]
  constructor
  · intro h j j' l l' c hj hj' hl hl' hmode
    obtain ⟨-, -, rfl, rfl⟩ := id hj
    obtain ⟨-, -, rfl, heq⟩ := id hj'
    refine h j ((hmem j).2 ⟨hj, hl, hmode⟩) j' ((hmem j').2 ⟨?_, hl', ?_⟩) heq.symm
    · rwa [heq]
    · rwa [heq]
  · intro h j hj j' hj' heq
    obtain ⟨hnames, hproper, hmode⟩ := (hmem j).1 hj
    obtain ⟨hnames', hproper', -⟩ := (hmem j').1 hj'
    rw [← heq] at hnames'
    exact h j j' _ _ _ hnames hnames' hproper hproper' hmode

end

/-! ## The walk -/

/-- Where the walk is once the directories of `done` are behind it. -/
structure At (v : Vol) (sb : MiniOrange.Superblock) (w : Checker.Walk) (done : List (Nat × Nat)) : Prop where
  queue : ∀ q ∈ w.queue, v.IsDir (v.alloc sb) q.1
  visited : w.visited = (done.map Prod.fst).toFinset
  reachable : ∀ n, n ∈ w.reachable ↔ n = sb.rootInode ∨ ∃ q ∈ done, n ∈ (childEntries v q.1).map (·.child)
  references : ∀ n, w.references n = (done.map fun q => v.refsIn q.1 n).sum

/-- One directory further. -/
theorem At.next {w : Checker.Walk} {done queue : List (Nat × Nat)} (h : At v sb w done)
    (hqueue : w.queue = (d, p) :: queue) (hdir : DirOk v (v.alloc sb) d p) :
    At v sb (Walk.next v { w with queue } d) (done ++ [(d, p)]) := by
  refine ⟨fun q hq => ?_, ?_, fun n => ?_, fun n => ?_⟩
  · rcases List.mem_append.1 hq with hq | hq
    · exact h.queue q (by rw [hqueue]; exact List.mem_cons_of_mem _ hq)
    · obtain ⟨k, hk, rfl⟩ := List.mem_map.1 hq
      obtain ⟨hmode, j, l, hnames, -⟩ := (mem_kids hdir.entry).1 hk
      exact ⟨(type_of_names hdir.entry hnames).1, hmode⟩
  · show insert d w.visited = _
    rw [h.visited]
    ext n
    simp
  · show n ∈ w.reachable ∪ _ ↔ _
    rw [Finset.mem_union, h.reachable, List.mem_toFinset]
    simp [or_and_right, exists_or, or_assoc]
  · show w.references n + _ = _
    rw [h.references, List.map_append, List.sum_append]
    simp

section
variable (hload : Loaded c sb v sb.totalInodes) (hown : v.Owns sb (v.alloc sb))
include hload hown

/-- A walk the checker accepts is a sweep. -/
theorem sweep_of_walk : ∀ {rounds w w' done}, At v sb w done → c.walkDirectories rounds w = .ok w' →
    ∃ all, Sweep (kids v) (DirOk v (v.alloc sb)) w.queue done all ∧ At v sb w' all := by
  intro rounds
  induction rounds with
  | zero =>
    intro w w' done hat h
    unfold Checker.walkDirectories at h
    split at h
    · next hqueue =>
      obtain rfl := Except.ok.inj h
      exact ⟨done, hqueue ▸ .nil done, hat⟩
    · cases h
  | succ rounds ih =>
    intro w w' done hat h
    unfold Checker.walkDirectories at h
    split at h
    · next hqueue =>
      obtain rfl := Except.ok.inj h
      exact ⟨done, hqueue ▸ .nil done, hat⟩
    · next d p queue hqueue =>
      obtain ⟨w₁, hdirectory, h⟩ := bind_eq_ok.1 h
      have hd := hat.queue (d, p) (by rw [hqueue]; exact List.mem_cons_self ..)
      obtain ⟨hnew, hdir, rfl⟩ := (checkDirectory_eq_ok hload hown hd).1 hdirectory
      obtain ⟨all, hsweep, hend⟩ := ih (hat.next hqueue hdir) h
      refine ⟨all, ?_, hend⟩
      rw [hqueue]
      refine .cons ?_ hdir hsweep
      intro hmem
      refine hnew ?_
      show d ∈ w.visited
      rw [hat.visited]
      exact List.mem_toFinset.2 hmem

/-- A sweep is a walk the checker accepts, given enough rounds. -/
theorem walk_of_sweep {queue done all : List (Nat × Nat)}
    (h : Sweep (kids v) (DirOk v (v.alloc sb)) queue done all) :
    ∀ {rounds w}, w.queue = queue → At v sb w done → all.length ≤ done.length + rounds →
      ∃ w', c.walkDirectories rounds w = .ok w' ∧ At v sb w' all := by
  induction h with
  | nil done =>
    intro rounds w hqueue hat _
    refine ⟨w, ?_, hat⟩
    unfold Checker.walkDirectories
    rw [hqueue]
    rfl
  | @cons d p queue done all hnew hdir hrest ih =>
    intro rounds w hqueue hat hle
    have hlen := hrest.done_prefix.length_le
    rw [List.length_append, List.length_singleton] at hlen
    cases rounds with
    | zero => omega
    | succ rounds =>
      have hd := hat.queue (d, p) (by rw [hqueue]; exact List.mem_cons_self ..)
      obtain ⟨w', hwalk, hend⟩ : ∃ w', c.walkDirectories rounds (Walk.next v { w with queue } d) = .ok w' ∧
          At v sb w' all :=
        ih rfl (hat.next hqueue hdir) (by rw [List.length_append, List.length_singleton]; omega)
      refine ⟨w', ?_, hend⟩
      unfold Checker.walkDirectories
      rw [hqueue]
      refine bind_eq_ok.2 ⟨_, (checkDirectory_eq_ok hload hown hd).2 ⟨?_, hdir, rfl⟩, hwalk⟩
      show d ∉ w.visited
      rw [hat.visited]
      exact fun hmem => hnew (List.mem_toFinset.1 hmem)

omit hown in
theorem allocated_eq : c.allocated = v.alloc sb := by
  ext n
  rw [Checker.allocated, Finset.mem_filter, Finset.mem_range, hload.views.superblock, hload.inodes,
    Vol.mem_alloc]
  refine and_congr_right fun hlt => ?_
  rw [Option.isSome_ite, mem_allocBelow]
  exact and_iff_right hlt

omit hown in
/-- The comparison of the link counts with the references. -/
theorem linkCounts_ok_iff {u : Unit} : ((List.range sb.totalInodes).forM fun number =>
      match c.inodes number with
      | none => (pure () : Except MiniFsError Unit)
      | some inode => failIf (references number ≠ inode.linkCount)
        (.linkCount number inode.linkCount (references number))) = .ok u ↔
      ∀ n ∈ v.alloc sb, (v.ino n).linkCount = references n := by
  rw [forM_eq_ok]
  have hround : ∀ n, (match c.inodes n with
      | none => (pure () : Except MiniFsError Unit)
      | some inode => failIf (references n ≠ inode.linkCount)
        (.linkCount n inode.linkCount (references n))) = .ok () ↔
      (n ∈ v.alloc sb → (v.ino n).linkCount = references n) := by
    intro n
    by_cases hn : n ∈ v.alloc sb
    · rw [(hload.inodes n).trans (if_pos hn)]
      refine failIf_eq_ok.trans ?_
      rw [not_not, eq_comm]
      exact ⟨fun h _ => h, fun h => h hn⟩
    · rw [(hload.inodes n).trans (if_neg hn)]
      exact iff_of_true rfl fun h => absurd h hn
  simp only [hround, List.mem_range]
  exact ⟨fun h n hn => h n (Vol.mem_alloc.1 hn).1 hn, fun h n _ hn => h n hn⟩

/-- `_check_directories` accepts directories that are swept from the root, with every allocated inode
reached and every link count right. -/
theorem checkDirectories_ok_iff (hroot : v.IsDir (v.alloc sb) sb.rootInode) :
    (∃ r, c.checkDirectories = .ok r) ↔
      ∃ all, Sweep (kids v) (DirOk v (v.alloc sb)) [(sb.rootInode, sb.rootInode)] [] all ∧
        (∀ n, n ∈ v.alloc sb ↔ n = sb.rootInode ∨
          ∃ q ∈ all, n ∈ (childEntries v q.1).map (·.child)) ∧
        ∀ n ∈ v.alloc sb, (v.ino n).linkCount = (all.map fun q => v.refsIn q.1 n).sum := by
  have hstart : At v sb ⟨[(sb.rootInode, sb.rootInode)], ∅, {sb.rootInode}, fun _ => 0⟩ [] := by
    refine ⟨fun q hq => ?_, rfl, fun n => by simp, fun n => rfl⟩
    obtain rfl := List.mem_singleton.1 hq
    exact hroot
  unfold Checker.checkDirectories
  rw [hload.views.superblock, allocated_eq hload]
  constructor
  · rintro ⟨r, h⟩
    obtain ⟨w, hwalk, h⟩ := bind_eq_ok.1 h
    obtain ⟨hreach, h⟩ := failIf_bind_eq_ok.1 h
    obtain ⟨_, hlinks, -⟩ := bind_eq_ok.1 h
    obtain ⟨all, hsweep, hat⟩ := sweep_of_walk hload hown hstart hwalk
    refine ⟨all, hsweep, fun n => ?_, fun n hn => ?_⟩
    · rw [← hat.reachable, not_not.1 hreach]
    · rw [← hat.references, (linkCounts_ok_iff hload).1 hlinks n hn]
  · rintro ⟨all, hsweep, hreach, hlinks⟩
    have hlen : all.length ≤ (v.alloc sb).card := by
      have hsub : (all.map Prod.fst).toFinset ⊆ v.alloc sb := by
        intro n hn
        obtain ⟨q, hq, rfl⟩ := List.mem_map.1 (List.mem_toFinset.1 hn)
        rcases hsweep.ok_of_mem q hq with habs | hok
        · exact absurd habs List.not_mem_nil
        · exact hok.mem
      have hcard := Finset.card_le_card hsub
      rw [List.toFinset_card_of_nodup (hsweep.nodup List.nodup_nil)] at hcard
      simpa using hcard
    obtain ⟨w, hwalk, hat⟩ := walk_of_sweep hload hown hsweep rfl hstart (by simpa using hlen)
    refine ⟨_, bind_eq_ok.2 ⟨w, hwalk, failIf_bind_eq_ok.2 ⟨not_not.2 ?_, bind_eq_ok.2 ⟨(), ?_, rfl⟩⟩⟩⟩
    · ext n
      rw [hat.reachable, hreach]
    · refine (linkCounts_ok_iff hload).2 fun n hn => ?_
      rw [hat.references, hlinks n hn]

end

/-! ## Sweeps and trees -/

section
variable {all : List (Nat × Nat)} {root : Nat}

/-- The directories a sweep has met are those of the volume. -/
theorem mem_swept_iff (h : Sweep (kids v) (DirOk v L) [(root, root)] [] all)
    (hreach : ∀ n ∈ L, n = root ∨ ∃ q ∈ all, n ∈ (childEntries v q.1).map (·.child)) :
    n ∈ all.map Prod.fst ↔ v.IsDir L n := by
  have hok : ∀ q ∈ all, DirOk v L q.1 q.2 := fun q hq =>
    (h.ok_of_mem q hq).resolve_left List.not_mem_nil
  constructor
  · intro hn
    obtain ⟨q, hq, rfl⟩ := List.mem_map.1 hn
    exact ⟨(hok q hq).mem, (hok q hq).dot.1⟩
  · rintro ⟨hn, hmode⟩
    rcases hreach n hn with rfl | ⟨q, hq, hchild⟩
    · exact List.mem_map.2 ⟨_, h.queue_subset _ (List.mem_singleton_self _), rfl⟩
    · obtain ⟨j, l, hnames, hproper⟩ := (mem_children (hok q hq).entry).1 hchild
      have hkid := (mem_kids (hok q hq).entry).2 ⟨hmode, j, l, hnames, hproper⟩
      exact List.mem_map.2 ⟨_, (h.closed q hq).resolve_left List.not_mem_nil n hkid, rfl⟩

/-- The references of the directories met are all there are. -/
theorem sum_refsIn_eq (hnodup : (all.map Prod.fst).Nodup) (hmem : ∀ n, n ∈ all.map Prod.fst ↔ v.IsDir L n) :
    (all.map fun q => v.refsIn q.1 n).sum = v.refs L n := by
  have hmap : (all.map fun q => v.refsIn q.1 n) = (all.map Prod.fst).map fun d => v.refsIn d n := by
    rw [List.map_map]
    rfl
  rw [hmap, ← List.sum_toFinset _ hnodup, Vol.refs]
  refine Finset.sum_subset (fun d hd => ?_) fun d hd hout => Vol.refsIn_file fun hmode => hout ?_
  · exact ((hmem d).1 (List.mem_toFinset.1 hd)).1
  · exact List.mem_toFinset.2 ((hmem d).2 ⟨hd, hmode⟩)

/-- A sweep that reaches every inode shows that names and link counts are right. -/
theorem counted_of_sweep (h : Sweep (kids v) (DirOk v L) [(sb.rootInode, sb.rootInode)] [] all)
    (hreach : ∀ n, n ∈ L ↔ n = sb.rootInode ∨ ∃ q ∈ all, n ∈ (childEntries v q.1).map (·.child))
    (hlinks : ∀ n ∈ L, (v.ino n).linkCount = (all.map fun q => v.refsIn q.1 n).sum) :
    v.Counted sb L := by
  have hmem : ∀ n, n ∈ all.map Prod.fst ↔ v.IsDir L n := fun n =>
    mem_swept_iff h fun n hn => (hreach n).1 hn
  have hnodup := h.nodup List.nodup_nil
  obtain ⟨parent, hparent⟩ := Sweep.exists_parent hnodup
  have hroot : (sb.rootInode, sb.rootInode) ∈ all := h.queue_subset _ (List.mem_singleton_self _)
  have hok : ∀ d, v.IsDir L d → DirOk v L d (parent d) ∧ (d, parent d) ∈ all := by
    intro d hd
    obtain ⟨q, hq, rfl⟩ := List.mem_map.1 ((hmem d).2 hd)
    rw [hparent q hq]
    exact ⟨(h.ok_of_mem q hq).resolve_left List.not_mem_nil, hq⟩
  have hkids := h.nodup_kids
  have hdistinct : ∀ q ∈ all, (kids v q.1).Nodup := (List.nodup_flatMap.1 hkids.of_cons).1
  refine ⟨⟨parent, fun n => (all.map Prod.fst).idxOf n, ?_⟩, fun n hn hne => ?_, fun n hn => ?_⟩
  · refine
      { root := (hmem _).1 (List.mem_map.2 ⟨_, hroot, rfl⟩)
        parent_root := hparent _ hroot
        entry := fun d hd => (hok d hd).1.entry
        unique := fun d hd => (hok d hd).1.unique
        dot := fun d hd => (hok d hd).1.dot.2
        dotdot := fun d hd => (hok d hd).1.dotdot.2
        child := fun d hd j l c hnames hproper hc => ?_
        one_name := fun d hd j j' l l' c hj hj' hl hl' hc => ?_ }
    · obtain ⟨hdir, hq⟩ := hok d hd
      have hkid : c ∈ kids v d := (mem_kids hdir.entry).2 ⟨hc.2, j, l, hnames, hproper⟩
      refine ⟨?_, ?_, ?_⟩
      · rintro rfl
        exact (List.nodup_cons.1 hkids).1 (List.mem_flatMap.2 ⟨_, hq, hkid⟩)
      · exact hparent (c, d) ((h.closed _ hq).resolve_left List.not_mem_nil c hkid)
      · exact (h.rank hnodup _ hq).resolve_left List.not_mem_nil c hkid
    · obtain ⟨hdir, hq⟩ := hok d hd
      exact (nodup_kids_iff hdir.entry).1 (hdistinct (d, parent d) hq) j j' l l' c hj hj' hl hl' hc.2
  · rcases (hreach n).1 hn with rfl | ⟨q, hq, hchild⟩
    · exact absurd rfl hne
    · have hdir := (h.ok_of_mem q hq).resolve_left List.not_mem_nil
      obtain ⟨j, l, hnames, hproper⟩ := (mem_children hdir.entry).1 hchild
      exact ⟨q.1, j, l, ⟨hdir.mem, hdir.dot.1⟩, hnames, hproper⟩
  · rw [hlinks n hn, sum_refsIn_eq hnodup hmem]

/-- Where names and link counts are right, the directories are swept and every inode is reached. -/
theorem sweep_of_counted (h : v.Counted sb L) :
    ∃ all, Sweep (kids v) (DirOk v L) [(sb.rootInode, sb.rootInode)] [] all ∧
      (∀ n, n ∈ L ↔ n = sb.rootInode ∨ ∃ q ∈ all, n ∈ (childEntries v q.1).map (·.child)) ∧
      ∀ n ∈ L, (v.ino n).linkCount = (all.map fun q => v.refsIn q.1 n).sum := by
  obtain ⟨parent, depth, htree⟩ := h.tree
  have hdir : ∀ d, v.IsDir L d → DirOk v L d (parent d) := by
    intro d hd
    obtain ⟨j, hj⟩ := htree.dotdot d hd
    have htype : (v.ino (parent d)).mode = 2 := by
      by_cases hroot : d = sb.rootInode
      · rw [hroot, htree.parent_root]
        exact htree.root.2
      · obtain ⟨d', j', l, hd', hnames, hproper⟩ := h.named d hd.1 hroot
        rw [(htree.child d' hd' j' l d hnames hproper hd).2.1]
        exact hd'.2
    exact ⟨hd.1, htree.entry d hd, htree.unique d hd, ⟨hd.2, htree.dot d hd⟩, ⟨htype, j, hj⟩⟩
  have hD : ∀ d, d ∈ L.filter (fun d => (v.ino d).mode = 2) ↔ v.IsDir L d := fun d => Finset.mem_filter
  have hrooted : Sweep.Rooted (kids v) (L.filter fun d => (v.ino d).mode = 2) sb.rootInode parent := by
    refine ⟨(hD _).2 htree.root, fun d hd k hk => ?_, fun d hd => ?_⟩
    · rw [hD] at hd
      obtain ⟨hmode, j, l, hnames, hproper⟩ := (mem_kids (hdir d hd).entry).1 hk
      have hkdir : v.IsDir L k := ⟨htree.names_mem hd hnames, hmode⟩
      obtain ⟨hne, hpar, -⟩ := htree.child d hd j l k hnames hproper hkdir
      exact ⟨(hD k).2 hkdir, hpar, hne⟩
    · rw [hD] at hd
      refine (nodup_kids_iff (hdir d hd).entry).2 fun j j' l l' c hj hj' hl hl' hmode => ?_
      exact htree.one_name d hd j j' l l' c hj hj' hl hl' ⟨htree.names_mem hd hj, hmode⟩
  obtain ⟨all, hsweep, -⟩ := Sweep.exists_of_tree hrooted fun d hd => hdir d ((hD d).1 hd)
  rw [htree.parent_root] at hsweep
  have hbelow : ∀ d ∈ L.filter (fun d => (v.ino d).mode = 2), d ≠ sb.rootInode →
      ∃ m ∈ L.filter (fun d => (v.ino d).mode = 2), d ∈ kids v m ∧ depth m < depth d := by
    intro d hd hne
    rw [hD] at hd
    obtain ⟨m, j, l, hm, hnames, hproper⟩ := h.named d hd.1 hne
    exact ⟨m, (hD m).2 hm, (mem_kids (hdir m hm).entry).2 ⟨hd.2, j, l, hnames, hproper⟩,
      (htree.child m hm j l d hnames hproper hd).2.2⟩
  have hmet := hsweep.mem_of_tree hbelow
  have hok : ∀ q ∈ all, DirOk v L q.1 q.2 := fun q hq =>
    (hsweep.ok_of_mem q hq).resolve_left List.not_mem_nil
  have hreach : ∀ n, n ∈ L ↔ n = sb.rootInode ∨ ∃ q ∈ all, n ∈ (childEntries v q.1).map (·.child) := by
    intro n
    constructor
    · intro hn
      by_cases hroot : n = sb.rootInode
      · exact .inl hroot
      · obtain ⟨d, j, l, hd, hnames, hproper⟩ := h.named n hn hroot
        obtain ⟨q, hq, rfl⟩ := List.mem_map.1 (hmet d ((hD d).2 hd))
        exact .inr ⟨q, hq, (mem_children (hok q hq).entry).2 ⟨j, l, hnames, hproper⟩⟩
    · rintro (rfl | ⟨q, hq, hchild⟩)
      · exact htree.root.1
      · obtain ⟨j, l, hnames, -⟩ := (mem_children (hok q hq).entry).1 hchild
        exact (type_of_names (hok q hq).entry hnames).1
  refine ⟨all, hsweep, hreach, fun n hn => ?_⟩
  rw [sum_refsIn_eq (hsweep.nodup List.nodup_nil) fun n => mem_swept_iff hsweep fun n hn => (hreach n).1 hn,
    h.links n hn]

end

/-! ## The checker -/

/-- The regions of a superblock are where `make_superblock` puts them. -/
theorem geometry_iff {value : Superblock} (hblocks : value.totalBlocks < 2 ^ 32)
    (hinodes : value.totalInodes < 2 ^ 32) :
    (∃ expected, makeSuperblock value.totalBlocks value.totalInodes = .ok expected ∧
      Checker.geometryOf value = Checker.geometryOf expected) ↔
      value.toSuperblock.Geometry ∧ value.rootInode = 0 := by
  unfold makeSuperblock
  constructor
  · rintro ⟨expected, h, hregions⟩
    obtain ⟨hpos, h⟩ := failIf_bind_eq_ok.1 h
    obtain ⟨hdata, h⟩ := failIf_bind_eq_ok.1 h
    obtain rfl := Except.ok.inj h
    rw [blocksForBytes_eq (by decide), blocksForBytes_eq (by decide), blocksForBytes_eq (by decide)] at hdata hregions
    simp only [Checker.geometryOf, List.cons.injEq, and_true] at hregions
    obtain ⟨h1, h2, h3, h4, h5, h6, h7, h8⟩ := hregions
    refine ⟨⟨h1, by rw [h3, h2], by rw [h5, h3, h4], by rw [h7, h5, h6], h2, h4, h6, ?_, hblocks, ?_,
      hinodes⟩, h8⟩
    · rw [h7]
      omega
    · rw [h8]
      omega
  · rintro ⟨hgeo, hroot⟩
    have hrootlt := hgeo.rootInode_lt
    have hdata := hgeo.dataStart_lt
    have h1 := hgeo.inodeBitmapStart
    have h2 := hgeo.inodeTableStart
    have h3 := hgeo.dataStart
    have h4 := hgeo.blockBitmapBlocks
    have h5 := hgeo.inodeBitmapBlocks
    have h6 := hgeo.inodeTableBlocks
    rw [blocksForBytes_eq (by decide), blocksForBytes_eq (by decide), blocksForBytes_eq (by decide),
      show divideRoundUp value.totalBlocks (4096 * 8) = value.blockBitmapBlocks from h4.symm,
      show divideRoundUp value.totalInodes (4096 * 8) = value.inodeBitmapBlocks from h5.symm,
      show divideRoundUp (value.totalInodes * 64) 4096 = value.inodeTableBlocks from h6.symm]
    dsimp only
    rw [← h1, ← h2, ← h3]
    refine ⟨_, failIf_bind_eq_ok.2 ⟨by omega, failIf_bind_eq_ok.2 ⟨by omega, rfl⟩⟩, ?_⟩
    simp [Checker.geometryOf, hroot, hgeo.blockBitmapStart]

/-- `Checker.__init__` accepts a block 0 with a header, the size and the regions of the volume. -/
theorem init_eq_ok :
    Checker.init volume blocks = .ok c ↔
      (Headed (volume 0) ∧ (Superblock.unpack (volume 0)).totalBlocks = blocks ∧
        (Superblock.unpack (volume 0)).toSuperblock.Geometry ∧ (Superblock.unpack (volume 0)).rootInode = 0) ∧
      c = ⟨volume, Superblock.unpack (volume 0), fun _ => none, fun _ => [], fun block =>
        if block < (Superblock.unpack (volume 0)).dataStart then some .metadata else none⟩ := by
  have hgeo := @geometry_iff (Superblock.unpack (volume 0)) (readLe32_lt _) (readLe32_lt _)
  unfold Checker.init
  constructor
  · intro h
    obtain ⟨value, hvalue, h⟩ := bind_eq_ok.1 h
    obtain ⟨hhead, rfl⟩ := decodeSuperblock_eq_ok.1 hvalue
    obtain ⟨htotal, h⟩ := failIf_bind_eq_ok.1 h
    obtain ⟨expected, hexpected, h⟩ := bind_eq_ok.1 h
    obtain ⟨hregions, h⟩ := failIf_bind_eq_ok.1 h
    obtain ⟨-, h⟩ := failIf_bind_eq_ok.1 h
    obtain ⟨hg, hroot⟩ := hgeo.1 ⟨expected, hexpected, not_not.1 hregions⟩
    exact ⟨⟨hhead, not_not.1 htotal, hg, hroot⟩, (Except.ok.inj h).symm⟩
  · rintro ⟨⟨hhead, htotal, hg, hroot⟩, rfl⟩
    obtain ⟨expected, hexpected, hregions⟩ := hgeo.2 ⟨hg, hroot⟩
    have hlt := hg.rootInode_lt
    exact bind_eq_ok.2 ⟨_, decodeSuperblock_eq_ok.2 ⟨hhead, rfl⟩, failIf_bind_eq_ok.2 ⟨not_not.2 htotal,
      bind_eq_ok.2 ⟨expected, hexpected, failIf_bind_eq_ok.2 ⟨not_not.2 hregions,
        failIf_bind_eq_ok.2 ⟨by omega, rfl⟩⟩⟩⟩⟩

/-- The checker starts with nothing loaded. -/
theorem init_loaded (h : Checker.init volume blocks = .ok c) :
    Loaded c (Superblock.unpack (volume 0)).toSuperblock
      (Vol.ofDisk (Superblock.unpack (volume 0)).toSuperblock volume) 0 := by
  obtain ⟨⟨-, -, hg, -⟩, rfl⟩ := init_eq_ok.1 h
  have hnone : ∀ v n, n ∉ allocBelow v 0 := fun v n hn => Nat.not_lt_zero n (mem_allocBelow.1 hn).1
  refine ⟨⟨rfl, rfl, hg⟩, fun n => (if_neg (hnone _ n)).symm, fun n hn => absurd hn (hnone _ n), fun b => ?_⟩
  have huses : ∀ v : Vol, ¬ v.Uses (allocBelow v 0) b := fun v ⟨n, hn, _⟩ => hnone v n hn
  simp [huses]

/-- The volume on a disk has the header of `sb`, and inode 0 is the root. -/
structure Formatted (blocks : Nat) (volume : Disk) (sb : MiniOrange.Superblock) : Prop where
  headed : Headed (volume 0)
  superblock : (Superblock.unpack (volume 0)).toSuperblock = sb
  totalBlocks : sb.totalBlocks = blocks
  geometry : sb.Geometry
  root : sb.rootInode = 0

/-- **`fsck` accepts a volume exactly when it is consistent**, by the superblock in its block 0. -/
theorem accepts_iff :
    Accepts blocks volume ↔ ∃ sb, Formatted blocks volume sb ∧ (Vol.ofDisk sb volume).Consistent sb := by
  unfold Accepts fsck
  constructor
  · rintro ⟨r, h⟩
    obtain ⟨c, hinit, h⟩ := bind_eq_ok.1 h
    have hload := init_loaded hinit
    obtain ⟨⟨hhead, htotal, hgeo, hroot⟩, -⟩ := init_eq_ok.1 hinit
    obtain ⟨c', hinodes, h⟩ := bind_eq_ok.1 h
    obtain ⟨_, hcover, h⟩ := bind_eq_ok.1 h
    obtain ⟨r', hdirs, -⟩ := bind_eq_ok.1 h
    obtain ⟨hsolid, hrootdir⟩ := (storage_ok_iff hload).1 ⟨c', hinodes, hcover⟩
    have hload' := (loadInodes_yields hload).2 c' hinodes
    obtain ⟨all, hsweep, hreach, hlinks⟩ :=
      (checkDirectories_ok_iff hload' hsolid.owns hrootdir).1 ⟨r', hdirs⟩
    exact ⟨_, ⟨hhead, rfl, htotal, hgeo, hroot⟩,
      hsolid.consistent (counted_of_sweep hsweep hreach hlinks)⟩
  · rintro ⟨_, ⟨hhead, rfl, htotal, hgeo, hroot⟩, hcons⟩
    have hinit := init_eq_ok.2 ⟨⟨hhead, htotal, hgeo, hroot⟩, rfl⟩
    have hload := init_loaded hinit
    obtain ⟨parent, depth, htree⟩ := hcons.tree
    obtain ⟨c', hinodes, hcover⟩ := (storage_ok_iff hload).2 ⟨hcons.solid, htree.root⟩
    have hload' := (loadInodes_yields hload).2 c' hinodes
    obtain ⟨r', hdirs⟩ := (checkDirectories_ok_iff hload' hcons.owns htree.root).2
      (sweep_of_counted hcons.counted)
    exact ⟨_, bind_eq_ok.2 ⟨_, hinit, bind_eq_ok.2 ⟨c', hinodes, bind_eq_ok.2 ⟨(), hcover,
      bind_eq_ok.2 ⟨r', hdirs, rfl⟩⟩⟩⟩⟩

/-- What `fsck` makes of a volume with a known superblock. -/
theorem Formatted.accepts_iff {sb : MiniOrange.Superblock}
    (h : Formatted blocks volume sb) : Accepts blocks volume ↔ (Vol.ofDisk sb volume).Consistent sb := by
  rw [Tools.accepts_iff]
  constructor
  · rintro ⟨sb', h', hcons⟩
    obtain rfl : sb = sb' := h.superblock.symm.trans h'.superblock
    exact hcons
  · exact fun hcons => ⟨sb, h, hcons⟩

end Tools

end MiniOrange
