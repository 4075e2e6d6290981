import Mathlib

/-!
# Reading through places that change

Places hold items that are told apart by a key. A reader goes through the places with a cursor, taking the next item each time,
while items are put into places and taken out. If a change moves no item (`Steadies`), an item whose key is there all the
time is read once (`Reader.Sound`).
-/

namespace MiniOrange

variable {α κ : Type} {key : α → κ}

/-- Places and how many there are. -/
structure Shelf (α : Type) where
  slot : Nat → Option α
  count : Nat

namespace Shelf

variable {x y : Shelf α} {i j : Nat} {a b : α} {k : κ}

/-- The key is on the shelf. -/
def Has (key : α → κ) (x : Shelf α) (k : κ) : Prop := ∃ i a, x.slot i = some a ∧ key a = k

/-- There is nothing past the end, and no key is there twice. -/
structure Ordered (key : α → κ) (x : Shelf α) : Prop where
  lt_count : ∀ {i a}, x.slot i = some a → i < x.count
  unique : ∀ {i j a b}, x.slot i = some a → x.slot j = some b → key a = key b → i = j

/-- What is found from place `j` on: the first item, or nothing. -/
def Finds (x : Shelf α) (j : Nat) : Option (Nat × α) → Prop
  | none => ∀ k, j ≤ k → x.slot k = none
  | some (i, a) => j ≤ i ∧ x.slot i = some a ∧ ∀ k, j ≤ k → k < i → x.slot k = none

/-- Places are not taken away, and an item stays where it is or its key is gone. -/
structure Steadies (key : α → κ) (x y : Shelf α) : Prop where
  ordered : y.Ordered key
  count_le : x.count ≤ y.count
  stays : ∀ {i a}, x.slot i = some a → y.slot i = some a ∨ ¬ y.Has key (key a)

end Shelf

open Shelf

/-- A reader: where it is, what it has read and whether it has come to the end; and the shelves there have been. -/
structure Reader (α : Type) where
  shelf : Shelf α
  place : Nat
  read : List α
  ended : Bool
  seen : List (Shelf α)

namespace Reader

variable {x y : Reader α} {k : κ} {i : Nat} {a : α}

/-- A key that has been there all the time. -/
def Lasting (key : α → κ) (x : Reader α) (k : κ) : Prop := ∀ y ∈ x.seen, y.Has key k

/-- An item that has been at its place all the time. -/
def Stands (x : Reader α) (i : Nat) (a : α) : Prop := ∀ y ∈ x.seen, y.slot i = some a

/-- The item has been read once if the cursor is past it, and not at all otherwise. -/
structure Once [DecidableEq κ] (key : α → κ) (x : Reader α) (i : Nat) (a : α) : Prop where
  past : i < x.place → a ∈ x.read ∧ x.read.countP (key · = key a) = 1
  ahead : x.place ≤ i → x.read.countP (key · = key a) = 0
  ended : x.ended = true → i < x.place

/-- What a reader has read. -/
structure Sound [DecidableEq κ] (key : α → κ) (x : Reader α) : Prop where
  ordered : x.shelf.Ordered key
  current : x.shelf ∈ x.seen
  length_le : x.read.length ≤ x.place
  place_le : x.place ≤ x.shelf.count
  from_seen : ∀ a ∈ x.read, ∃ y ∈ x.seen, ∃ i, y.slot i = some a
  lasting : ∀ k, x.Lasting key k → ∃ i a, key a = k ∧ x.Stands i a ∧ Once key x i a

/-- A step of the reader, or a change beside it. -/
inductive Step (key : α → κ) (x : Reader α) : Reader α → Prop
  | next {i : Nat} {a : α} : x.ended = false → x.shelf.Finds x.place (some (i, a)) →
      Step key x { x with place := i + 1, read := x.read ++ [a], seen := x.shelf :: x.seen }
  | last : x.ended = false → x.shelf.Finds x.place none →
      Step key x { x with place := max x.place x.shelf.count, ended := true, seen := x.shelf :: x.seen }
  | change {y : Shelf α} : Steadies key x.shelf y → Step key x { x with shelf := y, seen := y :: x.seen }

variable [DecidableEq κ]

/-- Before the first step. -/
theorem sound_start {y : Shelf α} (h : y.Ordered key) : Sound key ⟨y, 0, [], false, [y]⟩ where
  ordered := h
  current := List.mem_singleton_self y
  length_le := le_rfl
  place_le := Nat.zero_le _
  from_seen := nofun
  lasting k hk := by
    obtain ⟨i, a, hslot, hkey⟩ := hk y (List.mem_singleton_self y)
    refine ⟨i, a, hkey, fun z hz => ?_, ⟨fun h => absurd h (Nat.not_lt_zero i), fun _ => rfl, nofun⟩⟩
    rw [List.mem_singleton.1 hz]
    exact hslot

theorem Stands.cons (h : x.Stands i a) {y : Shelf α} (hy : y.slot i = some a) :
    ∀ z ∈ y :: x.seen, z.slot i = some a := List.forall_mem_cons.2 ⟨hy, h⟩

namespace Sound

/-- The reader takes the next item. -/
theorem next (h : Sound key x) (hended : x.ended = false) (hfinds : x.shelf.Finds x.place (some (i, a))) :
    Sound key { x with place := i + 1, read := x.read ++ [a], seen := x.shelf :: x.seen } := by
  obtain ⟨hle, hslot, hskip⟩ := hfinds
  have hlt := h.ordered.lt_count hslot
  refine ⟨h.ordered, List.mem_cons_self, ?_, hlt, ?_, fun k hk => ?_⟩
  · have hlength := h.length_le
    simp only [List.length_append, List.length_singleton]
    omega
  · intro b hb
    rcases List.mem_append.1 hb with hb | hb
    · obtain ⟨y, hy, hslot⟩ := h.from_seen b hb
      exact ⟨y, List.mem_cons_of_mem _ hy, hslot⟩
    · rw [List.mem_singleton.1 hb]
      exact ⟨x.shelf, List.mem_cons_self, i, hslot⟩
  · obtain ⟨i', a', rfl, hstands, honce⟩ := h.lasting k fun y hy => hk y (List.mem_cons_of_mem _ hy)
    have hslot' := hstands x.shelf h.current
    have hcount : (x.read ++ [a]).countP (key · = key a') =
        x.read.countP (key · = key a') + if key a = key a' then 1 else 0 := by
      simp [List.countP_append, List.countP_cons]
    refine ⟨i', a', rfl, hstands.cons hslot', fun hpast => ?_, fun hahead => ?_, fun h => ?_⟩
    · have hpast' : i' < i + 1 := hpast
      -- the item that stands is the one just read, or it was read before
      by_cases heq : i' = i
      · subst heq
        obtain rfl : a = a' := Option.some.inj (hslot.symm.trans hslot')
        rw [hcount, honce.ahead hle, if_pos rfl]
        exact ⟨List.mem_append_right _ (List.mem_singleton_self a), rfl⟩
      · have hbefore : i' < x.place := by
          by_contra hnot
          have hnone := hskip i' (Nat.not_lt.1 hnot) (by omega)
          rw [hslot'] at hnone
          cases hnone
        obtain ⟨hmem, hone⟩ := honce.past hbefore
        have hne : key a ≠ key a' := fun hkey => heq (h.ordered.unique hslot' hslot hkey.symm)
        rw [hcount, hone, if_neg hne]
        exact ⟨List.mem_append_left _ hmem, rfl⟩
    · have hahead' : i + 1 ≤ i' := hahead
      have hne : key a ≠ key a' := fun hkey => by
        have := h.ordered.unique hslot' hslot hkey.symm
        omega
      rw [hcount, honce.ahead (by omega), if_neg hne]
    · rw [hended] at h
      cases h

/-- The reader comes to the end. -/
theorem last (h : Sound key x) (hfinds : x.shelf.Finds x.place none) :
    Sound key { x with place := max x.place x.shelf.count, ended := true, seen := x.shelf :: x.seen } := by
  refine ⟨h.ordered, List.mem_cons_self, h.length_le.trans (le_max_left _ _), max_le h.place_le le_rfl, ?_, fun k hk => ?_⟩
  · intro b hb
    obtain ⟨y, hy, hslot⟩ := h.from_seen b hb
    exact ⟨y, List.mem_cons_of_mem _ hy, hslot⟩
  · obtain ⟨i, a, rfl, hstands, honce⟩ := h.lasting k fun y hy => hk y (List.mem_cons_of_mem _ hy)
    have hslot := hstands x.shelf h.current
    have hbefore : i < x.place := by
      by_contra hnot
      have hnone := hfinds i (Nat.not_lt.1 hnot)
      rw [hslot] at hnone
      cases hnone
    have hpast : i < max x.place x.shelf.count := hbefore.trans_le (le_max_left _ _)
    exact ⟨i, a, rfl, hstands.cons hslot, fun _ => honce.past hbefore, fun hahead => absurd hpast (Nat.not_lt.2 hahead),
      fun _ => hpast⟩

/-- Items are put in or taken out. -/
theorem change (h : Sound key x) {y : Shelf α} (hy : Steadies key x.shelf y) :
    Sound key { x with shelf := y, seen := y :: x.seen } := by
  refine ⟨hy.ordered, List.mem_cons_self, h.length_le, h.place_le.trans hy.count_le, ?_, fun k hk => ?_⟩
  · intro b hb
    obtain ⟨z, hz, hslot⟩ := h.from_seen b hb
    exact ⟨z, List.mem_cons_of_mem _ hz, hslot⟩
  · obtain ⟨i, a, rfl, hstands, honce⟩ := h.lasting k fun z hz => hk z (List.mem_cons_of_mem _ hz)
    rcases hy.stays (hstands x.shelf h.current) with hslot | hgone
    · exact ⟨i, a, rfl, hstands.cons hslot, honce.past, honce.ahead, honce.ended⟩
    · exact absurd (hk y List.mem_cons_self) hgone

/-- At the end what has been there all the time has been read once. -/
theorem read_once (h : Sound key x) (hended : x.ended = true) {k : κ} (hk : x.Lasting key k) :
    ∃ i, ∃ a ∈ x.read, key a = k ∧ x.Stands i a ∧ x.read.countP (key · = k) = 1 := by
  obtain ⟨i, a, rfl, hstands, honce⟩ := h.lasting k hk
  obtain ⟨hmem, hone⟩ := honce.past (honce.ended hended)
  exact ⟨i, a, hmem, rfl, hstands, hone⟩

end Sound

end Reader

end MiniOrange
