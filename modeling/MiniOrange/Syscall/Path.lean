import MiniOrange.Bytes.Block
import MiniOrange.Fs.Machine
import MiniOrange.Logic.Lexical

/-!
# Paths of system calls

A path that a system call gets from a process is made absolute and loses its dots in the kernel's own buffer
(`normalize_path` of `syscall.c`), before the file system sees it. The buffer is a function of its offsets: nothing in the
model keeps the code from writing past its 256 bytes. A source string is the list of its bytes before the NUL.

The names in the buffer are a place in the sense of `Lexical`, and each round of the loop of `append_path_components`
enters one name (`appendPathComponents_spec`).
-/

namespace MiniOrange

namespace Syscall

open Lexical

/-- The loop of `remove_last_path_component`. -/
def nameStart (path : Bytes) : Nat → Nat
  | 0 => 0
  | length + 1 => if length + 1 > 1 ∧ path length ≠ 0x2F then nameStart path length else length + 1

/-- `remove_last_path_component`. -/
def removeLastPathComponent (path : Bytes) (length : Nat) : Bytes × Nat :=
  let length := nameStart path length
  let length := if length > 1 then length - 1 else length
  (Function.update path length 0, length)

/-- The loop of `append_path_components` that copies a component. -/
def copyAt (path : Bytes) : Nat → List UInt8 → Bytes
  | _, [] => path
  | offset, x :: xs => copyAt (Function.update path offset x) (offset + 1) xs

/-- A round of the loop of `append_path_components`: the buffer and the length of its string. -/
def appendComponent (path : Bytes) (pathLength : Nat) (component : List UInt8) : Except Errno (Bytes × Nat) :=
  if component = [0x2E] then .ok (path, pathLength)
  else if component = [0x2E, 0x2E] then .ok (removeLastPathComponent path pathLength)
  else
    let separator := if pathLength > 1 then 1 else 0
    if component.length ≥ 256 ∨ separator + component.length ≥ 256 - pathLength then .error .einval
    else
      let (path, pathLength) :=
        if separator ≠ 0 then (Function.update path pathLength 0x2F, pathLength + 1) else (path, pathLength)
      let path := copyAt path pathLength component
      let pathLength := pathLength + component.length
      .ok (Function.update path pathLength 0, pathLength)

/-- `append_path_components`, with `source` from the cursor on. -/
def appendPathComponents : Nat → Bytes → Nat → List UInt8 → Except Errno (Bytes × Nat)
  | 0, path, pathLength, _ => .ok (path, pathLength)
  | fuel + 1, path, pathLength, source =>
    let source := source.dropWhile (· = 0x2F)
    if source = [] then .ok (path, pathLength) else
    match appendComponent path pathLength (source.takeWhile (· ≠ 0x2F)) with
    | .error e => .error e
    | .ok (path, pathLength) => appendPathComponents fuel path pathLength (source.dropWhile (· ≠ 0x2F))

/-- The first part of `normalize_path`: the path starts at the root, or with the working directory. -/
def startPath (currentWorkingDirectory input : List UInt8) (path : Bytes) : Except Errno (Bytes × Nat) :=
  let path := Function.update (Function.update path 0 0x2F) 1 0
  if input.head? = some 0x2F then .ok (path, 1)
  -- `scheduler_get_current_working_directory` looks for the NUL in 256 bytes
  else if currentWorkingDirectory.length ≥ 256 then .error .eio
  else appendPathComponents currentWorkingDirectory.length path 1 currentWorkingDirectory

/-- `normalize_path`. -/
def normalizePath (currentWorkingDirectory input : List UInt8) (path : Bytes) : Except Errno Bytes :=
  match startPath currentWorkingDirectory input path with
  | .error e => .error e
  | .ok (path, pathLength) =>
    match appendPathComponents input.length path pathLength input with
    | .error e => .error e
    | .ok (path, pathLength) =>
      if input.length > 1 ∧ input.getLast? = some 0x2F ∧ pathLength > 1 then
        if pathLength + 1 ≥ 256 then .error .einval
        else .ok (Function.update (Function.update path pathLength 0x2F) (pathLength + 1) 0)
      else .ok path

/-! ## The buffer and the place it holds -/

/-- The string in a buffer of 256 bytes. -/
def cString (path : Bytes) : List UInt8 := ((List.range 256).map path).takeWhile (· ≠ 0)

/-- The buffer holds this string and a NUL behind it. -/
def Spells (path : Bytes) (text : List UInt8) : Prop := 0 ∉ text ∧ ∀ i ≤ text.length, path i = text.getD i 0

/-- The buffer holds the path of a place, which has this length. -/
structure Holds (path : Bytes) (length : Nat) (place : List (List UInt8)) : Prop where
  spells : Spells path (spell 0x2F place)
  length_eq : length = (spell 0x2F place).length
  length_lt : length < 256
  plain : ∀ name ∈ place, Plain 0x2F 0x2E name

/-- Only the 256 bytes of the buffer are written. -/
def Within (path path' : Bytes) : Prop := ∀ i ≥ 256, path' i = path i

variable {path path' : Bytes} {length : Nat} {place : List (List UInt8)} {text name : List UInt8}

theorem Within.refl (path : Bytes) : Within path path := fun _ _ => rfl

theorem Within.trans {path'' : Bytes} (h : Within path path') (h' : Within path' path'') : Within path path'' :=
  fun i hi => (h' i hi).trans (h i hi)

theorem Within.update {i : Nat} (hi : i < 256) (x : UInt8) : Within path (Function.update path i x) := fun j hj =>
  Function.update_of_ne (by omega) ..

theorem copyAt_apply (path : Bytes) (offset : Nat) (xs : List UInt8) (i : Nat) :
    copyAt path offset xs i = if offset ≤ i ∧ i < offset + xs.length then xs.getD (i - offset) 0 else path i := by
  induction xs generalizing path offset with
  | nil =>
    rw [if_neg (by simp)]
    rfl
  | cons x xs ih =>
    rw [copyAt, ih]
    rcases Nat.lt_trichotomy i offset with hlt | rfl | hgt
    · rw [if_neg (by omega), if_neg (by omega), Function.update_of_ne (by omega)]
    · rw [if_neg (by omega), if_pos (by simp), Function.update_self, Nat.sub_self]
      rfl
    · have hsub : i - offset = i - (offset + 1) + 1 := by omega
      simp only [List.length_cons, hsub, List.getD_cons_succ]
      rw [Function.update_of_ne (by omega)]
      exact if_congr (by omega) rfl rfl

theorem Within.copyAt {offset : Nat} {xs : List UInt8} (h : offset + xs.length ≤ 256) :
    Within path (copyAt path offset xs) := fun i hi => by
  rw [copyAt_apply, if_neg (by omega)]

/-- The string of the buffer is what the buffer spells. -/
theorem Spells.cString_eq (h : Spells path text) (hlt : text.length < 256) : cString path = text := by
  obtain ⟨hnul, hbytes⟩ := h
  have hmap : (List.range 256).map path =
      text ++ 0 :: (List.range' (text.length + 1) (255 - text.length)).map path := by
    have hrange : List.range 256 =
        List.range text.length ++ text.length :: List.range' (text.length + 1) (255 - text.length) := by
      have happend : List.range' 0 text.length ++ List.range' (0 + text.length) (255 - text.length + 1) = _ :=
        List.range'_append_1
      rw [Nat.zero_add, show text.length + (255 - text.length + 1) = 256 by omega] at happend
      rw [List.range_eq_range', List.range_eq_range', ← List.range'_succ, happend]
    rw [hrange, List.map_append, List.map_cons, hbytes _ (Nat.le_refl _), List.getD_eq_default _ _ (Nat.le_refl _)]
    congr 1
    refine List.ext_getElem (by simp) fun i hi hi' => ?_
    rw [List.getElem_map, List.getElem_range, hbytes i (by omega), List.getD_eq_getElem _ _ hi']
  have hbefore : ∀ x ∈ text, decide (x ≠ 0) = true := fun x hx => decide_eq_true fun heq => hnul (heq ▸ hx)
  rw [cString, hmap, List.takeWhile_append_of_pos hbefore]
  simp

/-- A string that is cut off by a NUL. -/
theorem Spells.take {n : Nat} (h : Spells path text) (hn : n ≤ text.length) :
    Spells (Function.update path n 0) (text.take n) := by
  refine ⟨fun hmem => h.1 (List.mem_of_mem_take hmem), fun i hi => ?_⟩
  rw [List.length_take, Nat.min_eq_left hn] at hi
  rcases Nat.lt_or_eq_of_le hi with hlt | rfl
  · rw [Function.update_of_ne (by omega), h.2 i (by omega), List.getD_eq_getElem?_getD, List.getD_eq_getElem?_getD,
      List.getElem?_take_of_lt hlt]
  · rw [Function.update_self, List.getD_eq_default]
    simp

/-- A string with more behind it. -/
theorem Spells.append {xs : List UInt8} (h : Spells path text) (hxs : 0 ∉ xs) :
    Spells (Function.update (copyAt path text.length xs) (text.length + xs.length) 0) (text ++ xs) := by
  refine ⟨fun hmem => (List.mem_append.1 hmem).elim h.1 hxs, fun i hi => ?_⟩
  rw [List.length_append] at hi
  rcases Nat.lt_or_eq_of_le hi with hlt | rfl
  · rw [Function.update_of_ne (by omega), copyAt_apply]
    split
    · next hin => rw [List.getD_append_right _ _ _ _ hin.1]
    · next hout => rw [h.2 i (by omega), List.getD_append _ _ _ _ (by omega)]
  · rw [Function.update_self, List.getD_eq_default]
    simp

/-- The search for the last name ends behind its separator. -/
theorem nameStart_eq {start : Nat} (hstart : start = 0 ∨ path start = 0x2F) : ∀ n,
    (∀ i, start < i → i ≤ start + n → path i ≠ 0x2F) → nameStart path (start + 1 + n) = start + 1
  | 0, _ => by
    show (if start + 1 > 1 ∧ path start ≠ 0x2F then _ else _) = _
    exact if_neg fun h => hstart.elim (by omega) h.2
  | n + 1, hname => by
    show (if start + 1 + n + 1 > 1 ∧ path (start + 1 + n) ≠ 0x2F then _ else _) = _
    rw [if_pos ⟨by omega, hname _ (by omega) (by omega)⟩]
    exact nameStart_eq hstart n fun i hi hle => hname i hi (by omega)

theorem spell_concat (place : List (List UInt8)) (name : List UInt8) :
    spell 0x2F (place ++ [name]) = trail 0x2F place ++ 0x2F :: name := by
  rw [spell, if_neg (by simp), trail_concat]

/-- A root has a separator and every other place the names behind theirs. -/
theorem length_spell (place : List (List UInt8)) :
    (spell 0x2F place).length = if place = [] then 1 else (trail 0x2F place).length := by
  unfold spell
  split
  · rfl
  · rfl

theorem Holds.root (path : Bytes) : Holds (Function.update (Function.update path 0 0x2F) 1 0) 1 [] where
  spells := by
    refine ⟨by decide, fun i hi => ?_⟩
    have hi : i ≤ 1 := hi
    interval_cases i
    · rfl
    · rfl
  length_eq := rfl
  length_lt := by decide
  plain := nofun

/-- `remove_last_path_component` goes up. -/
theorem Holds.pop (h : Holds path length place) :
    Holds (removeLastPathComponent path length).1 (removeLastPathComponent path length).2 place.dropLast ∧
      Within path (removeLastPathComponent path length).1 := by
  have hlt := h.length_lt
  have hlength := h.length_eq
  rcases List.eq_nil_or_concat' place with rfl | ⟨init, name, rfl⟩
  · rw [show length = 1 from hlength]
    exact ⟨⟨h.spells.take (Nat.le_refl 1), rfl, Nat.lt_of_sub_pos (by decide : 0 < 256 - 1), nofun⟩,
      .update (Nat.lt_of_sub_pos (by decide : 0 < 256 - 1)) 0⟩
  · have hinit : ∀ n ∈ init, Plain 0x2F 0x2E n := fun n hn => h.plain n (List.mem_append_left _ hn)
    have hname := h.plain name (List.mem_append_right _ (List.mem_singleton_self name))
    have hspells := h.spells
    rw [spell_concat] at hlength hspells
    rw [List.length_append, List.length_cons] at hlength
    -- the last separator, and no other behind it
    have hsep : path (trail 0x2F init).length = 0x2F := by
      rw [hspells.2 _ (by simp), List.getD_append_right _ _ _ _ (Nat.le_refl _), Nat.sub_self]
      rfl
    have hbytes : ∀ i, (trail 0x2F init).length < i → i ≤ (trail 0x2F init).length + name.length → path i ≠ 0x2F := by
      intro i hi hle heq
      refine hname.notMem ?_
      rw [hspells.2 i (by simp; omega), List.getD_append_right _ _ _ _ (by omega),
        show i - (trail 0x2F init).length = i - (trail 0x2F init).length - 1 + 1 by omega, List.getD_cons_succ,
        List.getD_eq_getElem _ _ (by omega)] at heq
      exact heq ▸ List.getElem_mem _
    have hstart := nameStart_eq (.inr hsep) name.length hbytes
    have hshorter : (if (trail 0x2F init).length + 1 > 1 then (trail 0x2F init).length + 1 - 1
        else (trail 0x2F init).length + 1) = (spell 0x2F init).length := by
      rw [length_spell]
      split
      · next hlong =>
        rw [if_neg fun hnil => by simp [hnil, trail] at hlong]
        omega
      · next hshort =>
        have hzero : (trail 0x2F init).length = 0 := by omega
        rw [if_pos (trail_eq_nil.1 (List.length_eq_zero_iff.1 hzero)), hzero]
    have hremove : removeLastPathComponent path length =
        (Function.update path (spell 0x2F init).length 0, (spell 0x2F init).length) := by
      rw [removeLastPathComponent, show length = (trail 0x2F init).length + 1 + name.length by omega, hstart,
        hshorter]
    have htake : (trail 0x2F init ++ 0x2F :: name).take (spell 0x2F init).length = spell 0x2F init := by
      unfold spell
      split
      · next hnil => rw [hnil]; rfl
      · exact List.take_left' rfl
    have hle : (spell 0x2F init).length ≤ (trail 0x2F init).length + 1 := by
      rw [length_spell]
      split
      · omega
      · omega
    rw [List.dropLast_concat, hremove]
    refine ⟨⟨?_, rfl, by omega, hinit⟩, .update (by omega) 0⟩
    have htaken := hspells.take (n := (spell 0x2F init).length) (by simp; omega)
    rwa [htake] at htaken

/-- The path of a place other than the root is longer than that of the root. -/
theorem one_lt_length_spell (hplain : ∀ n ∈ place, Plain 0x2F 0x2E n) : 1 < (spell 0x2F place).length ↔ place ≠ [] := by
  rw [length_spell]
  cases place with
  | nil => exact iff_of_false (by decide) (by simp)
  | cons name place =>
    refine iff_of_true ?_ nofun
    have hpos := List.length_pos_iff.2 (hplain name List.mem_cons_self).ne_nil
    simp [trail]
    omega

/-- The end of a round of `append_path_components` goes down. -/
theorem Holds.push (h : Holds path length place) (hname : Plain 0x2F 0x2E name) (hnul : 0 ∉ name)
    (hroom : (if length > 1 then 1 else 0) + name.length < 256 - length) :
    let start := if length > 1 then (Function.update path length 0x2F, length + 1) else (path, length)
    let path' := Function.update (copyAt start.1 start.2 name) (start.2 + name.length) 0
    Holds path' (start.2 + name.length) (place ++ [name]) ∧ Within path path' := by
  have hplain : ∀ n ∈ place ++ [name], Plain 0x2F 0x2E n := fun n hn =>
    (List.mem_append.1 hn).elim (h.plain n) fun heq => List.mem_singleton.1 heq ▸ hname
  have hlength := h.length_eq
  have hlong := one_lt_length_spell h.plain
  rw [← hlength] at hlong
  by_cases hplace : place = []
  · -- the separator of the root is there
    have hone : length = 1 := by rw [hlength, hplace]; rfl
    have hspells := h.spells
    rw [hplace] at hspells
    rw [hone] at hroom ⊢
    dsimp only
    rw [if_neg (Nat.lt_irrefl 1)] at hroom ⊢
    refine ⟨⟨?_, ?_, by omega, hplain⟩, (Within.copyAt (by omega)).trans (.update (by omega) 0)⟩
    · rw [spell_concat, hplace]
      exact hspells.append hnul
    · rw [spell_concat, hplace]
      exact Nat.add_comm _ _
  · have hmore : length > 1 := hlong.2 hplace
    have hspells := h.spells
    have hnul' : 0 ∉ 0x2F :: name := List.not_mem_cons_of_ne_of_not_mem (by decide) hnul
    have hspell : spell 0x2F place = trail 0x2F place := if_neg hplace
    rw [if_pos hmore] at hroom
    dsimp only
    rw [if_pos hmore]
    dsimp only
    have happend := hspells.append hnul'
    rw [← hlength, List.length_cons, hspell, ← spell_concat, ← Nat.add_assoc, Nat.add_right_comm] at happend
    refine ⟨⟨happend, ?_, by omega, hplain⟩, ?_⟩
    · rw [spell_concat, ← hspell, List.length_append, ← hlength, List.length_cons]
      omega
    · exact ((Within.update (by omega) _).trans (.copyAt (by omega))).trans (.update (by omega) 0)

/-- The buffer holds the path of a place, or there was no room for so many bytes. -/
def Arrives (path : Bytes) (place : List (List UInt8)) (need : Nat) : Except Errno (Bytes × Nat) → Prop
  | .ok (path', length) => Holds path' length place ∧ Within path path'
  | .error e => e = .einval ∧ 256 ≤ need

theorem Arrives.mono {need need' : Nat} {r : Except Errno (Bytes × Nat)} (h : Arrives path' place need r)
    (hwithin : Within path path') (hle : need ≤ need') : Arrives path place need' r := by
  cases r with
  | error e => exact ⟨h.1, h.2.trans hle⟩
  | ok r => exact ⟨h.1, hwithin.trans h.2⟩

/-- A round of `append_path_components` enters the component, or finds no room for it. -/
theorem appendComponent_spec (h : Holds path length place) (hname : name ≠ [] ∧ 0x2F ∉ name) (hnul : 0 ∉ name) :
    Arrives path (enter 0x2E place name) ((trail 0x2F place).length + (name.length + 1))
      (appendComponent path length name) := by
  unfold appendComponent enter
  by_cases hdot : name = [0x2E]
  · rw [if_pos hdot, if_pos hdot]
    exact ⟨h, .refl path⟩
  rw [if_neg hdot, if_neg hdot]
  by_cases hdots : name = [0x2E, 0x2E]
  · rw [if_pos hdots, if_pos hdots]
    exact h.pop
  rw [if_neg hdots, if_neg hdots]
  have hlength := h.length_eq
  have hlong := one_lt_length_spell h.plain
  rw [← hlength] at hlong
  rw [length_spell] at hlength
  dsimp only
  by_cases hfull : name.length ≥ 256 ∨ (if length > 1 then 1 else 0) + name.length ≥ 256 - length
  · rw [if_pos hfull]
    refine ⟨rfl, ?_⟩
    by_cases hplace : place = []
    · rw [if_pos hplace] at hlength
      rw [if_neg (by omega)] at hfull
      omega
    · rw [if_neg hplace] at hlength
      rw [if_pos (hlong.2 hplace)] at hfull
      omega
  · rw [if_neg hfull]
    have hpush := h.push ⟨hname.1, hname.2, hdot, hdots⟩ hnul (Nat.lt_of_not_le fun hle => hfull (.inr hle))
    by_cases hmore : length > 1
    · simp only [if_pos hmore] at hpush ⊢
      exact hpush
    · simp only [if_neg hmore] at hpush ⊢
      exact hpush

/-- `append_path_components` enters the components, or finds no room. -/
theorem appendPathComponents_spec {fuel : Nat} {source : List UInt8} (hfuel : source.length ≤ fuel) (hnul : 0 ∉ source)
    (h : Holds path length place) :
    Arrives path (resolve 0x2E place (names 0x2F source))
      ((trail 0x2F place).length + (trail 0x2F (names 0x2F source)).length)
      (appendPathComponents fuel path length source) := by
  induction fuel generalizing path length place source with
  | zero =>
    rw [List.length_eq_zero_iff.1 (Nat.le_zero.1 hfuel)]
    exact ⟨h, .refl path⟩
  | succ fuel ih =>
    rw [appendPathComponents, ← names_dropWhile]
    have hsuffix := List.dropWhile_suffix (l := source) (fun x => decide (x = 0x2F))
    have hlen := hsuffix.length_le
    have hnul : 0 ∉ source.dropWhile (· = 0x2F) := fun hmem => hnul (hsuffix.subset hmem)
    have hhead := List.head?_dropWhile_not (fun x : UInt8 => decide (x = 0x2F)) source
    generalize source.dropWhile (· = 0x2F) = source at hnul hlen hhead ⊢
    cases source with
    | nil => exact ⟨h, .refl path⟩
    | cons x xs =>
      have hx : x ≠ 0x2F := by simpa using hhead
      have hrest := List.dropWhile_suffix (l := x :: xs) (fun x => decide (x ≠ 0x2F))
      have hshorter : ((x :: xs).dropWhile (· ≠ 0x2F)).length ≤ xs.length := by
        rw [List.dropWhile_cons_of_pos (by simpa using hx)]
        exact (List.dropWhile_suffix _).length_le
      rw [List.length_cons] at hlen
      rw [if_neg nofun]
      have hnames : names 0x2F (x :: xs) = _ := names_cons hx
      have hfirst := mem_names (hnames ▸ List.mem_cons_self : (x :: xs).takeWhile (· ≠ 0x2F) ∈ names 0x2F (x :: xs))
      rw [hnames]
      have hnul' : 0 ∉ (x :: xs).takeWhile (· ≠ 0x2F) := fun hmem => hnul ((List.takeWhile_prefix _).subset hmem)
      have hround := appendComponent_spec h hfirst hnul'
      have hneed : ∀ (name : List UInt8) (ns : List (List UInt8)),
          (trail 0x2F (name :: ns)).length = name.length + 1 + (trail 0x2F ns).length := fun name ns => by
        simp [trail]
        omega
      cases hstep : appendComponent path length ((x :: xs).takeWhile (· ≠ 0x2F)) with
      | error e =>
        rw [hstep] at hround
        refine ⟨hround.1, hround.2.trans ?_⟩
        rw [hneed]
        omega
      | ok r =>
        obtain ⟨path₁, length₁⟩ := r
        rw [hstep] at hround
        have hih : Arrives path₁ _ _ (appendPathComponents fuel path₁ length₁ ((x :: xs).dropWhile (· ≠ 0x2F))) :=
          ih (by omega) (fun hmem => hnul (hrest.subset hmem)) hround.1
        refine hih.mono hround.2 ?_
        have henter := length_trail_enter 0x2F 0x2E place ((x :: xs).takeWhile (· ≠ 0x2F))
        rw [hneed]
        omega

/-! ## Normalised paths -/

/-- Where a path leads, from the working directory if it is relative. -/
def destination (currentWorkingDirectory input : List UInt8) : List (List UInt8) :=
  resolve 0x2E [] ((if input.head? = some 0x2F then [] else names 0x2F currentWorkingDirectory) ++ names 0x2F input)

/-- The path of the destination, with a separator at the end if the input has one. -/
def normalized (currentWorkingDirectory input : List UInt8) : List UInt8 :=
  spell 0x2F (destination currentWorkingDirectory input) ++
    if input.length > 1 ∧ input.getLast? = some 0x2F ∧ destination currentWorkingDirectory input ≠ [] then [0x2F] else []

variable {cwd input : List UInt8}

theorem plain_destination (cwd input : List UInt8) : ∀ name ∈ destination cwd input, Plain 0x2F 0x2E name := by
  refine plain_resolve nofun fun n hn => ?_
  rcases List.mem_append.1 hn with hn | hn
  · split at hn
    · cases hn
    · exact mem_names hn
  · exact mem_names hn

theorem Within.root (path : Bytes) : Within path (Function.update (Function.update path 0 0x2F) 1 0) :=
  (Within.update (by decide) _).trans (.update (by decide) 0)

/-- Where `normalize_path` starts. -/
theorem startPath_spec {result : Bytes × Nat} (hcwd : 0 ∉ cwd) (hok : startPath cwd input path = .ok result) :
    Holds result.1 result.2 (resolve 0x2E [] (if input.head? = some 0x2F then [] else names 0x2F cwd)) ∧
      Within path result.1 := by
  unfold startPath at hok
  dsimp only at hok
  split at hok
  · next habsolute =>
    cases hok
    rw [if_pos habsolute]
    exact ⟨.root path, .root path⟩
  · next hrelative =>
    split at hok
    · cases hok
    · have hspec := appendPathComponents_spec (Nat.le_refl cwd.length) hcwd (Holds.root path)
      rw [hok] at hspec
      rw [if_neg hrelative]
      exact ⟨hspec.1, (Within.root path).trans hspec.2⟩

/-- What `normalize_path` leaves in the buffer. -/
theorem normalizePath_spec (hcwd : 0 ∉ cwd) (hnul : 0 ∉ input) (hok : normalizePath cwd input path = .ok path') :
    Spells path' (normalized cwd input) ∧ (normalized cwd input).length < 256 ∧ Within path path' := by
  unfold normalizePath at hok
  cases hstart : startPath cwd input path with
  | error e =>
    rw [hstart] at hok
    cases hok
  | ok start =>
    obtain ⟨hholds, hwithin⟩ := startPath_spec hcwd hstart
    have happend := appendPathComponents_spec (Nat.le_refl input.length) hnul hholds
    rw [← resolve_append] at happend
    rw [hstart] at hok
    dsimp only at hok
    cases hinput : appendPathComponents input.length start.1 start.2 input with
    | error e =>
      rw [hinput] at hok
      cases hok
    | ok result =>
      rw [hinput] at hok happend
      obtain ⟨hholds, hwithin'⟩ : Holds result.1 result.2 (destination cwd input) ∧ Within start.1 result.1 := happend
      have hlength := hholds.length_eq
      have hlong := one_lt_length_spell hholds.plain
      rw [← hlength] at hlong
      dsimp only at hok
      unfold normalized
      split at hok
      · next hslash =>
        rw [if_pos ⟨hslash.1, hslash.2.1, hlong.1 hslash.2.2⟩]
        split at hok
        · cases hok
        · next hroom =>
          cases hok
          have happend := hholds.spells.append (show (0 : UInt8) ∉ [0x2F] by decide)
          rw [← hlength] at happend
          refine ⟨happend, ?_, ?_⟩
          · rw [List.length_append, ← hlength, List.length_singleton]
            omega
          · exact ((hwithin.trans hwithin').trans (.update (by omega) _)).trans (.update (by omega) 0)
      · next hnot =>
        cases hok
        rw [if_neg fun h => hnot ⟨h.1, h.2.1, hlong.2 h.2.2⟩, List.append_nil]
        exact ⟨hholds.spells, hlength ▸ hholds.length_lt, hwithin.trans hwithin'⟩

/-- The names of an absolute path do not need more room than the path. -/
theorem length_trail_absolute (habsolute : input.head? = some 0x2F) :
    (trail 0x2F (names 0x2F input)).length ≤ input.length := by
  obtain ⟨rest, rfl⟩ := List.head?_eq_some_iff.1 habsolute
  rw [names_cons_sep, List.length_cons]
  exact length_trail_names 0x2F rest

theorem destination_absolute (cwd : List UInt8) (habsolute : input.head? = some 0x2F) :
    destination cwd input = resolve 0x2E [] (names 0x2F input) := by
  rw [destination, if_pos habsolute, List.nil_append]

/-- A place is not longer than an absolute path to it. -/
theorem length_trail_destination (cwd : List UInt8) (habsolute : input.head? = some 0x2F) :
    (trail 0x2F (destination cwd input)).length ≤ input.length := by
  rw [destination_absolute cwd habsolute]
  exact (length_trail_resolve 0x2F 0x2E [] _).trans (by simpa [trail] using length_trail_absolute habsolute)

/-- An absolute path of at most 255 bytes can be normalised. -/
theorem normalizePath_absolute (cwd : List UInt8) (path : Bytes) (hnul : 0 ∉ input) (habsolute : input.head? = some 0x2F)
    (hlength : input.length ≤ 255) : ∃ path', normalizePath cwd input path = .ok path' := by
  have hstart : startPath cwd input path = .ok (Function.update (Function.update path 0 0x2F) 1 0, 1) := if_pos habsolute
  have happend := appendPathComponents_spec (Nat.le_refl input.length) hnul (Holds.root path)
  unfold normalizePath
  rw [hstart]
  dsimp only
  cases hinput : appendPathComponents input.length (Function.update (Function.update path 0 0x2F) 1 0) 1 input with
  | error e =>
    rw [hinput] at happend
    have hneed : 256 ≤ 0 + (trail 0x2F (names 0x2F input)).length := happend.2
    have hle := length_trail_absolute habsolute
    omega
  | ok result =>
    rw [hinput, ← destination_absolute cwd habsolute] at happend
    have hholds : Holds result.1 result.2 (destination cwd input) := happend.1
    dsimp only
    split
    · next hslash =>
      -- the last separator of the path is not needed for its names
      have hroom : result.2 + 1 < 256 := by
        obtain ⟨init, rfl⟩ := List.getLast?_eq_some_iff.1 hslash.2.1
        have hinit : init.head? = some 0x2F := by
          cases init with
          | nil => exact absurd hslash.1 (by simp)
          | cons x xs => exact habsolute
        have hsame : destination cwd (init ++ [0x2F]) = destination cwd init := by
          rw [destination_absolute cwd habsolute, destination_absolute cwd hinit, names_concat_sep]
        have hle := length_trail_destination cwd hinit
        have heq := hholds.length_eq
        rw [length_spell, hsame] at heq
        rw [List.length_append, List.length_singleton] at hlength
        split at heq
        · omega
        · omega
      rw [if_neg (Nat.not_le.2 hroom)]
      exact ⟨_, rfl⟩
    · exact ⟨_, rfl⟩

/-- The working directory does not matter to an absolute path. -/
theorem normalizePath_spec_absolute (habsolute : input.head? = some 0x2F) (hnul : 0 ∉ input)
    (hok : normalizePath cwd input path = .ok path') :
    Spells path' (normalized cwd input) ∧ (normalized cwd input).length < 256 ∧ Within path path' := by
  have hstart : startPath cwd input path = startPath [] input path := by
    unfold startPath
    rw [if_pos habsolute, if_pos habsolute]
  have hsame : normalized cwd input = normalized [] input := by
    rw [normalized, normalized, destination_absolute cwd habsolute, destination_absolute [] habsolute]
  unfold normalizePath at hok
  rw [hstart] at hok
  rw [hsame]
  exact normalizePath_spec (List.not_mem_nil : 0 ∉ ([] : List UInt8)) hnul hok

theorem head?_spell (place : List (List UInt8)) : (spell 0x2F place).head? = some 0x2F := by
  cases place with
  | nil => rfl
  | cons name place => rfl

theorem head?_normalized (cwd input : List UInt8) : (normalized cwd input).head? = some 0x2F := by
  rw [normalized, List.head?_append, head?_spell]
  rfl

/-- A place that is not the root does not end with a separator. -/
theorem getLast?_spell (hplain : ∀ name ∈ place, Plain 0x2F 0x2E name) (hne : place ≠ []) :
    (spell 0x2F place).getLast? ≠ some 0x2F := by
  rcases List.eq_nil_or_concat' place with rfl | ⟨init, name, rfl⟩
  · exact absurd rfl hne
  · have hname := hplain name (List.mem_append_right _ (List.mem_singleton_self name))
    rw [spell_concat, List.getLast?_append, List.getLast?_cons, List.getLast?_eq_some_getLast hname.ne_nil]
    intro hlast
    have hlast : name.getLast hname.ne_nil = 0x2F := Option.some.inj hlast
    exact hname.notMem (hlast ▸ List.getLast_mem hname.ne_nil)

theorem names_normalized (cwd input : List UInt8) : names 0x2F (normalized cwd input) = destination cwd input := by
  have hplain := plain_destination cwd input
  unfold normalized
  split
  · rw [names_concat_sep, names_spell hplain]
  · rw [List.append_nil, names_spell hplain]

/-- A normalised path ends with a separator if the path does and does not lead to the root. -/
theorem slash_normalized (cwd input : List UInt8) :
    (normalized cwd input).length > 1 ∧ (normalized cwd input).getLast? = some 0x2F ↔
      input.length > 1 ∧ input.getLast? = some 0x2F ∧ destination cwd input ≠ [] := by
  have hplain := plain_destination cwd input
  have hlong := one_lt_length_spell hplain
  unfold normalized
  split
  · next hends =>
    refine iff_of_true ⟨?_, ?_⟩ hends
    · have hmore := hlong.2 hends.2.2
      rw [List.length_append]
      omega
    · rw [List.getLast?_append]
      rfl
  · next hends =>
    rw [List.append_nil]
    exact iff_of_false (fun h => getLast?_spell hplain (hlong.1 h.1) h.2) hends

/-- A normalised path stays as it is. -/
theorem normalized_normalized (cwd cwd' input : List UInt8) :
    normalized cwd' (normalized cwd input) = normalized cwd input := by
  have hplain := plain_destination cwd input
  have hsame : destination cwd' (normalized cwd input) = destination cwd input := by
    rw [destination_absolute cwd' (head?_normalized cwd input), names_normalized, resolve_of_plain hplain, List.nil_append]
  have hslash := slash_normalized cwd input
  rw [normalized, hsame]
  unfold normalized at hslash ⊢
  refine congrArg _ (if_congr ⟨fun h => hslash.1 ⟨h.1, h.2.1⟩, fun h => ?_⟩ rfl rfl)
  exact ⟨(hslash.2 h).1, (hslash.2 h).2, h.2.2⟩

end Syscall

end MiniOrange
