import MiniOrange.Fs.Format

/-!
# Directory entries

A directory entry is 64 bytes: the child's inode number, a type byte and a name field of 59 bytes
that a NUL ends. The kernel's checks of the name field (`directoryNameValid`,
`directoryNameEqual`, `directoryEntryUnused`) read it byte by byte; the lemmas below say what they
decide about the name as a list of bytes (`Entry.label`).
-/

namespace MiniOrange

/-- A directory entry as it lies on disk. -/
@[ext] structure Entry where
  inode : Nat
  type : Nat
  /-- The 59 bytes of the name field. -/
  name : List UInt8
  deriving DecidableEq

variable {l component : List UInt8} {name p : Bytes}

namespace Entry

/-- The entry at a pointer. -/
def ofBytes (p : Bytes) : Entry where
  inode := readLe32 p
  type := (p 4).toNat
  name := (List.range 59).map fun i => p (5 + i)

/-- The unused, all-zero entry. -/
def blank : Entry := ⟨0, 0, List.replicate 59 0⟩

/-- The name: the bytes before the first NUL. -/
def label (e : Entry) : List UInt8 := e.name.takeWhile (· ≠ 0)

/-- A byte that may stand in a name. -/
def GoodByte (x : UInt8) : Prop := x ≠ 0 ∧ x ≤ 0x7F ∧ x ≠ 0x2F

instance (x : UInt8) : Decidable (GoodByte x) := inferInstanceAs (Decidable (_ ∧ _ ∧ _))

/-- A name of 1 to 58 bytes that may stand in a directory. -/
structure GoodLabel (l : List UInt8) : Prop where
  pos : l ≠ []
  length_le : l.length ≤ 58
  good : ∀ x ∈ l, GoodByte x

instance (l : List UInt8) : Decidable (GoodLabel l) :=
  decidable_of_iff (l ≠ [] ∧ l.length ≤ 58 ∧ l.all fun x => GoodByte x)
    ⟨fun h => ⟨h.1, h.2.1, by simpa using h.2.2⟩, fun h => ⟨h.pos, h.length_le, by simpa using h.good⟩⟩

theorem GoodLabel.ascii (h : GoodLabel l) : l.any (· > 0x7F) = false := by
  simp only [List.any_eq_false, decide_eq_true_eq]
  exact fun x hx => UInt8.not_lt.2 (h.good x hx).2.1

/-- The entry with a given name, padded with NULs. -/
def of (inode type : Nat) (label : List UInt8) : Entry :=
  ⟨inode, type, label ++ List.replicate (59 - label.length) 0⟩

end Entry

/-- `directory_name_valid`: the loop over the name field, from `index`, with its `terminated`
flag. -/
def directoryNameValidFrom (name : Bytes) : Nat → Nat → Bool → Bool
  | 0, _, terminated => terminated
  | count + 1, index, terminated =>
    let value := name index
    if !terminated then
      if value = 0 then
        if index = 0 then false else directoryNameValidFrom name count (index + 1) true
      else if value > 0x7F ∨ value = 0x2F then false
      else directoryNameValidFrom name count (index + 1) terminated
    else if value ≠ 0 then false
    else directoryNameValidFrom name count (index + 1) terminated

/-- `directory_name_valid`. -/
def directoryNameValid (name : Bytes) : Bool := directoryNameValidFrom name 59 0 false

/-- `directory_name_equal`. -/
def directoryNameEqual (entryName : Bytes) (component : List UInt8) : Bool :=
  if component.length > 58 ∨ entryName component.length ≠ 0 then false else
  (List.range component.length).all fun index => entryName index == component.getD index 0

/-- `directory_entry_unused`. -/
def directoryEntryUnused (entry : Bytes) : Bool := (List.range 64).all fun index => entry index == 0

/-- `encode_directory_entry`: the 64 bytes of an entry. -/
def encodeDirectoryEntry (childNumber entryType : Nat) (name : List UInt8) : Bytes := fun index =>
  if index < 4 then leByte childNumber index
  else if index = 4 then UInt8.ofNat entryType
  else name.getD (index - 5) 0

/-! ## What the checks decide -/

theorem directoryNameValidFrom_true {count index : Nat} :
    directoryNameValidFrom name count index true = true ↔
      ∀ i, index ≤ i → i < index + count → name i = 0 := by
  induction count generalizing index with
  | zero => simp [directoryNameValidFrom]; omega
  | succ count ih =>
    simp only [directoryNameValidFrom, Bool.not_true, Bool.false_eq_true, if_false]
    by_cases h : name index = 0
    · rw [if_neg (by simpa using h), ih]
      constructor
      · intro h' i h1 h2
        rcases Nat.eq_or_lt_of_le h1 with rfl | h1
        · exact h
        · exact h' i h1 (by omega)
      · exact fun h' i h1 h2 => h' i (by omega) (by omega)
    · rw [if_pos (by simpa using h)]
      simp only [Bool.false_eq_true, false_iff]
      exact fun h' => h (h' index le_rfl (by omega))

theorem directoryNameValidFrom_false {count index : Nat} :
    directoryNameValidFrom name count index false = true ↔
      ∃ k, index ≤ k ∧ k < index + count ∧ k ≠ 0 ∧
        (∀ i, index ≤ i → i < k → Entry.GoodByte (name i)) ∧
        ∀ i, k ≤ i → i < index + count → name i = 0 := by
  induction count generalizing index with
  | zero => simp [directoryNameValidFrom]; omega
  | succ count ih =>
    simp only [directoryNameValidFrom, Bool.not_false, if_true]
    by_cases h : name index = 0
    · rw [if_pos h]
      split
      · next h0 =>
        simp only [Bool.false_eq_true, false_iff]
        rintro ⟨k, h1, -, h3, h4, -⟩
        exact (h4 index le_rfl (by omega)).1 h
      · next h0 =>
        rw [directoryNameValidFrom_true]
        constructor
        · intro h'
          refine ⟨index, le_rfl, by omega, h0, fun i h1 h2 => by omega, fun i h1 h2 => ?_⟩
          rcases Nat.eq_or_lt_of_le h1 with rfl | h1
          · exact h
          · exact h' i h1 (by omega)
        · rintro ⟨k, h1, h2, h3, h4, h5⟩ i h6 h7
          have : k = index := by
            by_contra hk
            exact (h4 index le_rfl (by omega)).1 h
          exact h5 i (by omega) (by omega)
    · rw [if_neg h]
      split
      · next hbad =>
        simp only [Bool.false_eq_true, false_iff]
        rintro ⟨k, h1, h2, h3, h4, h5⟩
        have hk : index ≠ k := by rintro rfl; exact h (h5 index le_rfl (by omega))
        have hg := h4 index le_rfl (by omega)
        rcases hbad with hb | hb
        · exact absurd hg.2.1 (by simpa using hb)
        · exact hg.2.2 hb
      · next hgood =>
        push Not at hgood
        rw [ih]
        constructor
        · rintro ⟨k, h1, h2, h3, h4, h5⟩
          refine ⟨k, by omega, by omega, h3, fun i h6 h7 => ?_, fun i h6 h7 => h5 i h6 (by omega)⟩
          rcases Nat.eq_or_lt_of_le h6 with rfl | h6
          · exact ⟨h, by simpa using hgood.1, hgood.2⟩
          · exact h4 i h6 h7
        · rintro ⟨k, h1, h2, h3, h4, h5⟩
          have hk : index ≠ k := by rintro rfl; exact h (h5 index le_rfl (by omega))
          exact ⟨k, by omega, by omega, h3, fun i h6 h7 => h4 i (by omega) h7,
            fun i h6 h7 => h5 i h6 (by omega)⟩

/-- A valid name field is a good name padded with NULs. -/
theorem directoryNameValid_iff : directoryNameValid name = true ↔
    ∃ l, Entry.GoodLabel l ∧ ∀ i < 59, name i = l.getD i 0 := by
  rw [directoryNameValid, directoryNameValidFrom_false]
  constructor
  · rintro ⟨k, -, h2, h3, h4, h5⟩
    refine ⟨(List.range k).map name, ⟨by simpa using h3, by simp; omega, ?_⟩, fun i hi => ?_⟩
    · intro x hx
      obtain ⟨i, hi, rfl⟩ := List.mem_map.1 hx
      exact h4 i (by omega) (List.mem_range.1 hi)
    · by_cases hk : i < k
      · simp [List.getD, hk]
      · simp [List.getD, hk, h5 i (by omega) (by omega)]
  · rintro ⟨l, hl, h⟩
    have hpos := List.length_pos_iff.2 hl.pos
    have hle := hl.length_le
    refine ⟨l.length, by omega, by omega, by omega, fun i _ hi => ?_, fun i h1 h2 => ?_⟩
    · rw [h i (by omega), List.getD_eq_getElem _ _ hi]
      exact hl.good _ (List.getElem_mem hi)
    · rw [h i (by omega), List.getD_eq_default _ _ h1]

/-- A name field compares equal to the name it holds and to no other. -/
theorem directoryNameEqual_iff (hl : Entry.GoodLabel l)
    (h : ∀ i < 59, name i = l.getD i 0) (hc : ∀ x ∈ component, x ≠ 0) :
    directoryNameEqual name component = true ↔ component = l := by
  have hle := hl.length_le
  unfold directoryNameEqual
  split
  · next hbad =>
    simp only [Bool.false_eq_true, false_iff]
    rintro rfl
    rcases hbad with hb | hb
    · omega
    · exact hb (by rw [h _ (by omega), List.getD_eq_default _ _ le_rfl])
  · next hgood =>
    push Not at hgood
    simp only [List.all_eq_true, List.mem_range, beq_iff_eq]
    constructor
    · intro heq
      have hlen : component.length = l.length := by
        rcases Nat.lt_trichotomy component.length l.length with hlt | heq' | hgt
        · have := hgood.2
          rw [h _ (by omega), List.getD_eq_getElem _ _ hlt] at this
          exact absurd this (hl.good _ (List.getElem_mem hlt)).1
        · exact heq'
        · have := heq _ hgt
          rw [h _ (by omega), List.getD_eq_default _ _ le_rfl,
            List.getD_eq_getElem _ _ hgt] at this
          exact absurd this.symm (hc _ (List.getElem_mem hgt))
      refine List.ext_getElem hlen fun i h1 h2 => ?_
      have := heq i h1
      rw [h _ (by omega), List.getD_eq_getElem _ _ h2, List.getD_eq_getElem _ _ h1] at this
      exact this.symm
    · rintro rfl i hi
      rw [h _ (by omega)]

theorem directoryEntryUnused_iff : directoryEntryUnused p = true ↔
    ∀ i < 64, p i = 0 := by
  simp [directoryEntryUnused]

namespace Entry

/-- An entry is determined by its 64 bytes. -/
theorem ofBytes_congr {q : Bytes} (h : ∀ i < 64, p i = q i) : ofBytes p = ofBytes q := by
  ext1
  · exact readLe32_congr fun i hi => h i (by omega)
  · simp only [ofBytes, h 4 (by omega)]
  · simp only [ofBytes]
    refine List.map_congr_left fun i hi => h _ ?_
    have := List.mem_range.1 hi
    omega

/-- An entry determines its 64 bytes. -/
theorem ofBytes_inj {q : Bytes} : ofBytes p = ofBytes q ↔ ∀ i < 64, p i = q i := by
  refine ⟨fun h i hi => ?_, ofBytes_congr⟩
  have h1 : readLe32 p = readLe32 q := congrArg Entry.inode h
  have h2 : (p 4).toNat = (q 4).toNat := congrArg Entry.type h
  have h3 : (List.range 59).map (fun i => p (5 + i)) = (List.range 59).map fun i => q (5 + i) :=
    congrArg Entry.name h
  by_cases hi4 : i < 4
  · exact readLe32_inj.1 h1 i hi4
  by_cases hi5 : i = 4
  · exact hi5 ▸ UInt8.toNat_inj.1 h2
  · have := List.map_inj_left.1 h3 (i - 5) (List.mem_range.2 (by omega))
    rwa [show 5 + (i - 5) = i by omega] at this

/-- An entry is blank exactly when its bytes are zero. -/
theorem ofBytes_eq_blank : ofBytes p = blank ↔ ∀ i < 64, p i = 0 := by
  have hzero : ofBytes (fun _ => 0) = blank := by
    simp [ofBytes, readLe32_eq_zero.2 fun _ _ => rfl, blank, List.map_const']
  rw [← hzero, ofBytes_inj]

/-- The name field of an entry with a good name. -/
theorem name_getD {i : Nat} (hi : i < 59) : (ofBytes p).name.getD i 0 = p (5 + i) := by
  simp [ofBytes, List.getD, hi]

/-- The name of a padded name field. -/
theorem label_of {inode type : Nat} (h : ∀ x ∈ l, x ≠ 0) : (of inode type l).label = l := by
  simp only [label, of]
  rw [List.takeWhile_append_of_pos (by simpa using h)]
  cases hn : 59 - l.length with
  | zero => simp
  | succ n => simp [List.replicate_succ]

/-- The bytes of a padded name. -/
theorem getD_padded (l : List UInt8) (n i : Nat) :
    (l ++ List.replicate n 0).getD i 0 = l.getD i 0 := by
  by_cases hi : i < l.length
  · rw [List.getD_append _ _ _ _ hi]
  · rw [List.getD_append_right _ _ _ _ (by omega), List.getD_eq_default l _ (by omega)]
    simp [List.getD, List.getElem?_replicate]
    split <;> rfl

/-- Encoding then reading gives the padded entry. -/
theorem ofBytes_encodeDirectoryEntry {child type : Nat} (hc : child < 2 ^ 32)
    (ht : type < 256) (hl : l.length ≤ 59) :
    ofBytes (encodeDirectoryEntry child type l) = of child type l := by
  ext1
  · have hread : readLe32 (encodeDirectoryEntry child type l) = child % 2 ^ 32 :=
      readLe32_leByte fun i hi => by simp [encodeDirectoryEntry, hi]
    exact hread.trans (Nat.mod_eq_of_lt hc)
  · simp [ofBytes, encodeDirectoryEntry, of, Nat.mod_eq_of_lt ht]
  · refine List.ext_getElem (by simp [ofBytes, of]; omega) fun i h1 h2 => ?_
    have hi : i < 59 := by simpa [ofBytes] using h1
    rw [← List.getD_eq_getElem _ 0 h1, ← List.getD_eq_getElem _ 0 h2, name_getD hi, of,
      getD_padded, encodeDirectoryEntry, if_neg (by omega), if_neg (by omega),
      Nat.add_sub_cancel_left]

/-- An entry in use that the kernel's checks accept. -/
structure Used (e : Entry) : Prop where
  type : e.type = 1 ∨ e.type = 2
  label : GoodLabel e.label
  padded : e.name = e.label ++ List.replicate (59 - e.label.length) 0

theorem Used.of {inode type : Nat} (ht : type = 1 ∨ type = 2)
    (hl : GoodLabel l) : (Entry.of inode type l).Used := by
  have : (Entry.of inode type l).label = l := label_of fun x hx => (hl.good x hx).1
  exact ⟨ht, by rwa [this], by rw [this]; rfl⟩

/-- The name check on an entry's bytes. -/
theorem directoryNameValid_iff_label :
    directoryNameValid (fun i => p (5 + i)) = true ↔
      GoodLabel (ofBytes p).label ∧
        (ofBytes p).name = (ofBytes p).label ++ List.replicate (59 - (ofBytes p).label.length) 0 := by
  rw [directoryNameValid_iff]
  constructor
  · rintro ⟨l, hl, h⟩
    have hle := hl.length_le
    have hn : (ofBytes p).name = l ++ List.replicate (59 - l.length) 0 := by
      refine List.ext_getElem (by simp [ofBytes]; omega) fun i h1 h2 => ?_
      have hi : i < 59 := by simpa [ofBytes] using h1
      rw [← List.getD_eq_getElem _ 0 h1, ← List.getD_eq_getElem _ 0 h2, name_getD hi,
        getD_padded, h i hi]
    have hlab : (ofBytes p).label = l := by
      have : (of 0 0 l).label = l := label_of fun x hx => (hl.good x hx).1
      simpa only [label, of, hn] using this
    rw [hlab]
    exact ⟨hl, hn⟩
  · rintro ⟨hl, hn⟩
    refine ⟨_, hl, fun i hi => ?_⟩
    have := name_getD (p := p) hi
    rw [hn, getD_padded] at this
    exact this.symm

/-- The name comparison on an entry's bytes. -/
theorem directoryNameEqual_iff_label
    (h : directoryNameValid (fun i => p (5 + i)) = true) (hc : ∀ x ∈ component, x ≠ 0) :
    directoryNameEqual (fun i => p (5 + i)) component = true ↔ (ofBytes p).label = component := by
  obtain ⟨hl, hn⟩ := directoryNameValid_iff_label.1 h
  rw [directoryNameEqual_iff hl (fun i hi => ?_) hc, eq_comm]
  have := name_getD (p := p) hi
  rw [hn, getD_padded] at this
  exact this.symm

end Entry

end MiniOrange
