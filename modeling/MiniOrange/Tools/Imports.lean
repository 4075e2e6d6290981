import MiniOrange.Tools.Image

/-!
# What `mkfs.py` lets through

`_parse_imports` takes arguments `/bin/name=source`. The files it returns have distinct names that fit
an entry, and between 1 and 1034 blocks of bytes (`parseImports_accepted`). It does not look for the names
`.` and `..`, which `/bin` has already, and these are the only ones that spoil the volume: what
`_build_volume` makes of its result passes `fsck.py` exactly when no import has one of them.
-/

namespace MiniOrange

namespace Tools

open Check

variable {imports : List ImportedFile} {read : List Nat → Option (List UInt8)} {values : List (List Nat)}

theorem split_ne_nil (separator : Nat) (value : List Nat) : split separator value ≠ [] := by
  cases value with
  | nil => exact List.cons_ne_nil _ _
  | cons x rest =>
    rw [split]
    split
    · exact List.cons_ne_nil _ _
    · split <;> exact List.cons_ne_nil _ _

/-- The pieces of a split, put together again. -/
theorem intercalate_split (separator : Nat) (value : List Nat) :
    [separator].intercalate (split separator value) = value := by
  induction value with
  | nil => rfl
  | cons x rest ih =>
    rw [split]
    split
    · next hx =>
      subst hx
      cases hrest : split x rest with
      | nil => exact absurd hrest (split_ne_nil x rest)
      | cons part parts =>
        rw [hrest] at ih
        rw [List.intercalate_cons_cons, ih]
        rfl
    · cases hrest : split separator rest with
      | nil => exact absurd hrest (split_ne_nil separator rest)
      | cons part parts =>
        rw [hrest] at ih
        cases parts with
        | nil => simpa using ih
        | cons next parts =>
          rw [List.intercalate_cons_cons] at ih ⊢
          rw [← ih]
          rfl

/-- The destination of an import, as an argument gives it. -/
def destinationOf (file : ImportedFile) : List Nat :=
  [0x2F, 0x62, 0x69, 0x6E, 0x2F] ++ file.name.map UInt8.toNat

/-- What `_parse_imports` checks of the files. -/
structure Accepted (imports : List ImportedFile) : Prop where
  distinct : (imports.map (·.name)).Nodup
  named : ∀ file ∈ imports, Entry.GoodLabel file.name
  size : ∀ file ∈ imports, 0 < file.payload.length ∧ file.payload.length ≤ 1034 * 4096

/-- The state of the loop: the destinations are those of the files, and there are no two of one name. -/
structure Parsing (state : List ImportedFile × List (List Nat)) : Prop where
  destinations : state.2 = state.1.map destinationOf
  accepted : Accepted state.1

/-- A name that was encoded is read back from its bytes. -/
theorem encodeAscii_eq_ok {name : List Nat} {bytes : List UInt8} (h : encodeAscii name = .ok bytes) :
    bytes.map UInt8.toNat = name := by
  obtain ⟨hascii, h⟩ := failIf_bind_eq_ok.1 h
  obtain rfl := Except.ok.inj h
  rw [List.map_map]
  refine (List.map_congr_left fun x hx => ?_).trans (List.map_id _)
  have hlt : x < 0x80 := Nat.lt_of_not_le fun hge => hascii ⟨x, hx, hge⟩
  rw [Function.comp_apply, UInt8.toNat_ofNat', Nat.mod_eq_of_lt (by omega), id]

/-- One argument. -/
theorem Parsing.parseImport {state state' : List ImportedFile × List (List Nat)} {value : List Nat}
    (h : Parsing state) (hr : parseImport read state value = .ok state') : Parsing state' := by
  obtain ⟨result, destinations⟩ := state
  unfold Tools.parseImport at hr
  dsimp only at hr
  split at hr
  · next source first second name hsource hsplit =>
    obtain ⟨hform, hr⟩ := failIf_bind_eq_ok.1 hr
    obtain ⟨bytes, hbytes, hr⟩ := bind_eq_ok.1 hr
    obtain ⟨entry, hentry, hr⟩ := bind_eq_ok.1 hr
    obtain ⟨hnew, hr⟩ := failIf_bind_eq_ok.1 hr
    obtain ⟨payload, hpayload, hr⟩ := bind_eq_ok.1 hr
    obtain ⟨-, hr⟩ := failIf_bind_eq_ok.1 hr
    obtain rfl := Except.ok.inj hr
    obtain ⟨-, -, hgood, -⟩ := ofBytes_encodeDirectoryEntry hentry
    obtain ⟨rfl, rfl⟩ : first = [] ∧ second = [0x62, 0x69, 0x6E] := by
      rwa [not_or, not_not, not_not] at hform
    -- the pieces of the destination are those of the path of the name
    have hdestination : (partition 0x3D value).1 = destinationOf ⟨bytes, payload⟩ := by
      have hjoin := intercalate_split 0x2F (partition 0x3D value).1
      rw [hsplit, List.intercalate_cons_cons, List.intercalate_cons_cons, List.intercalate_singleton,
        ← encodeAscii_eq_ok hbytes] at hjoin
      exact hjoin.symm
    have hsize : 0 < payload.length ∧ payload.length ≤ 1034 * 4096 := by
      unfold readStableFile at hpayload
      split at hpayload
      · cases hpayload
      · obtain ⟨hsize, hpayload⟩ := failIf_bind_eq_ok.1 hpayload
        obtain rfl := Except.ok.inj hpayload
        omega
    have hlist : destinations = result.map destinationOf := h.destinations
    refine ⟨?_, ?_, fun file hfile => ?_, fun file hfile => ?_⟩
    · simp only [List.map_append, hdestination, hlist, List.map_cons, List.map_nil]
    · rw [List.map_append, List.map_cons, List.map_nil]
      refine List.Nodup.append h.accepted.distinct (List.nodup_singleton _) fun name hold hname => ?_
      obtain rfl := List.mem_singleton.1 hname
      obtain ⟨file, hfile, heq⟩ := List.mem_map.1 hold
      refine hnew ?_
      rw [hdestination, hlist]
      exact List.mem_map.2 ⟨file, hfile, by rw [destinationOf, destinationOf, heq]⟩
    · rcases List.mem_append.1 hfile with hold | hnew
      · exact h.accepted.named file hold
      · obtain rfl := List.mem_singleton.1 hnew
        exact hgood
    · rcases List.mem_append.1 hfile with hold | hnew
      · exact h.accepted.size file hold
      · obtain rfl := List.mem_singleton.1 hnew
        exact hsize
  · cases hr

/-- What `_parse_imports` returns. -/
theorem parseImports_accepted (h : parseImports read values = .ok imports) : Accepted imports := by
  obtain ⟨state, hstate, h⟩ := bind_eq_ok.1 h
  have hparsed : Parsing state := foldlM_invariant (P := Parsing) hstate
    ⟨rfl, List.nodup_nil, nofun, nofun⟩ fun _ _ _ _ h hr => h.parseImport hr
  obtain ⟨result, destinations⟩ := state
  obtain ⟨-, h⟩ := failIf_bind_eq_ok.1 h
  obtain ⟨-, h⟩ := failIf_bind_eq_ok.1 h
  obtain rfl := Except.ok.inj h
  have hperm := List.mergeSort_perm result fun a b => a.name ≤ b.name
  refine ⟨(hperm.map _).nodup_iff.2 hparsed.accepted.distinct, fun file hfile => ?_, fun file hfile => ?_⟩
  · exact hparsed.accepted.named file (hperm.mem_iff.1 hfile)
  · exact hparsed.accepted.size file (hperm.mem_iff.1 hfile)

/-! ## What is built from them -/

variable {blocks : Nat} {volume : Disk}

/-- A volume built from distinct imports passes `fsck.py` when none of them is named `.` or `..`. -/
theorem buildVolume_accepts_iff (hnodup : (imports.map (·.name)).Nodup)
    (hbuild : buildVolume blocks imports = .ok volume) :
    Accepts blocks volume ↔ ∀ file ∈ imports, Vol.Proper file.name := by
  obtain ⟨sb, hformat, -, hbuilt⟩ := buildVolume_built hnodup hbuild
  exact hformat.accepts_iff.trans (hbuilt.consistent_iff hformat.root hnodup)

/-- What `mkfs.py` makes of its arguments passes `fsck.py` exactly when none of them asks for `/bin/.` or
`/bin/..`. -/
theorem parsedImports_accepts_iff (hparse : parseImports read values = .ok imports)
    (hbuild : buildVolume blocks imports = .ok volume) :
    Accepts blocks volume ↔ ∀ file ∈ imports, Vol.Proper file.name :=
  buildVolume_accepts_iff (parseImports_accepted hparse).distinct hbuild

/-- The first bytes of an ELF file, as the smallest import. -/
def elfMagic : List UInt8 := [0x7F, 0x45, 0x4C, 0x46]

/-- The argument `/bin/c=x`. -/
def importOf (c : Nat) : List Nat := [0x2F, 0x62, 0x69, 0x6E, 0x2F, c, 0x3D, 0x78]

/-- A volume of 24 blocks has room for one file of a few bytes. -/
theorem buildable_one {c : UInt8} (hc : Entry.GoodLabel [c]) : Buildable 24 [⟨[c], elfMagic⟩] where
  distinct := List.nodup_singleton _
  named := by simpa using hc
  count := Nat.le_of_ble_eq_true rfl
  size := by simp [elfMagic]; decide
  blocks_lt := by decide
  room := by
    have hblocks : blocksFor [⟨[c], elfMagic⟩] = 1 := by
      simp only [blocksFor, List.map_cons, List.map_nil, List.sum_singleton]
      decide
    rw [hblocks]
    exact ⟨_, rfl, by decide⟩

/-- With `/bin/.=x` the arguments are taken and a volume is made, and `fsck.py` rejects it. -/
theorem dotImport_not_accepts : ∃ imports volume,
    parseImports (fun _ => some elfMagic) [importOf 0x2E] = .ok imports ∧
      buildVolume 24 imports = .ok volume ∧ ¬ Accepts 24 volume := by
  obtain ⟨volume, hbuild⟩ := (buildable_one (c := 0x2E) Vol.goodLabel_dots.1).exists_volume
  refine ⟨_, volume, ?_, hbuild, ?_⟩
  · refine bind_eq_ok.2 ⟨([⟨[0x2E], elfMagic⟩], [[0x2F, 0x62, 0x69, 0x6E, 0x2F, 0x2E]]), rfl, ?_⟩
    dsimp only
    rw [List.mergeSort_singleton]
    rfl
  · intro haccepts
    have hproper := (buildVolume_accepts_iff (buildable_one Vol.goodLabel_dots.1).distinct hbuild).1 haccepts
    exact (hproper _ (List.mem_singleton_self _)).1 rfl

/-- With `/bin/a=x` the volume passes. -/
theorem parsedImports_accepts_one : ∃ volume, Accepts 24 volume := by
  have hgood : Entry.GoodLabel [0x61] := by decide
  obtain ⟨volume, hbuild⟩ := (buildable_one hgood).exists_volume
  have hparse : parseImports (fun _ => some elfMagic) [importOf 0x61] = .ok [⟨[0x61], elfMagic⟩] := by
    refine bind_eq_ok.2 ⟨([⟨[0x61], elfMagic⟩], [[0x2F, 0x62, 0x69, 0x6E, 0x2F, 0x61]]), rfl, ?_⟩
    dsimp only
    rw [List.mergeSort_singleton]
    rfl
  refine ⟨volume, (parsedImports_accepts_iff hparse hbuild).2 fun file hfile => ?_⟩
  obtain rfl := List.mem_singleton.1 hfile
  exact ⟨by decide, by decide⟩

end Tools

end MiniOrange
