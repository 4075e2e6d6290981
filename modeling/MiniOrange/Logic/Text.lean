import Mathlib

/-!
# Texts as lists of lines, and copies inside a buffer

A text is split into lines at a separator, where a separator at the very end opens no line. The lemmas
say how lines behave when texts are joined. A buffer is the function of its cells; a run of cells can be
copied onto an overlapping one, upwards or downwards, as long as the copy goes the right way.
-/

namespace MiniOrange

section
variable {α : Type*} [DecidableEq α] {sep : α} {line text other : List α}

/-- The lines of a text. -/
def lines (sep : α) : List α → List (List α)
  | [] => []
  | x :: text => if x = sep then [] :: lines sep text else
    match lines sep text with
    | [] => [[x]]
    | line :: rest => (x :: line) :: rest

/-- The text is empty or ends with a separator. -/
def EndsIn (sep : α) (text : List α) : Prop := text.getLast?.getD sep = sep

instance : Decidable (EndsIn sep text) := inferInstanceAs (Decidable (_ = _))

omit [DecidableEq α] in
theorem endsIn_cons {x : α} : EndsIn sep (x :: text) ↔ if text = [] then x = sep else EndsIn sep text := by
  cases text <;> simp [EndsIn, List.getLast?_cons]

omit [DecidableEq α] in
theorem endsIn_concat : EndsIn sep (text ++ [sep]) := by
  simp [EndsIn]

theorem lines_eq_nil : lines sep text = [] ↔ text = [] := by
  cases text with
  | nil => simp [lines]
  | cons x text =>
    simp only [lines, reduceCtorEq, iff_false]
    split
    · exact nofun
    · split <;> exact nofun

/-- A line with its separator comes first. -/
theorem lines_line (h : sep ∉ line) : lines sep (line ++ sep :: text) = line :: lines sep text := by
  induction line with
  | nil => simp [lines]
  | cons x line ih =>
    rw [List.mem_cons, not_or] at h
    rw [List.cons_append, lines, if_neg (Ne.symm h.1), ih h.2]

/-- The last line may lack its separator. -/
theorem lines_last (h : sep ∉ line) (hne : line ≠ []) : lines sep line = [line] := by
  induction line with
  | nil => exact absurd rfl hne
  | cons x line ih =>
    rw [List.mem_cons, not_or] at h
    rw [lines, if_neg (Ne.symm h.1)]
    cases line with
    | nil => rfl
    | cons y line => rw [ih h.2 (List.cons_ne_nil _ _)]

/-- Behind whole lines the lines of a text begin anew. -/
theorem lines_append (h : EndsIn sep text) : lines sep (text ++ other) = lines sep text ++ lines sep other := by
  induction text with
  | nil => rfl
  | cons x text ih =>
    rw [endsIn_cons] at h
    rw [List.cons_append, lines, lines]
    split at h
    · next hnil => rw [if_pos h, if_pos h, hnil]; rfl
    · next hne =>
      rw [ih h]
      split
      · rfl
      · cases hl : lines sep text with
        | nil => exact absurd (lines_eq_nil.1 hl) hne
        | cons line rest => rfl

/-- A missing separator can be added. -/
theorem lines_concat (h : ¬ EndsIn sep text) : lines sep (text ++ [sep]) = lines sep text := by
  induction text with
  | nil => exact absurd rfl h
  | cons x text ih =>
    rw [endsIn_cons] at h
    rw [List.cons_append, lines, lines]
    split at h
    · next hnil => simp [hnil, lines, h]
    · rw [ih h]

/-- There are as many lines as separators, and one more if the last is missing. -/
theorem length_lines : (lines sep text).length = text.count sep + if EndsIn sep text then 0 else 1 := by
  induction text with
  | nil => simp [lines, EndsIn]
  | cons x text ih =>
    have hcons := @endsIn_cons _ sep text x
    rw [lines, List.count_cons]
    by_cases hx : x = sep
    · have hend : EndsIn sep (x :: text) ↔ EndsIn sep text := by
        rw [hcons]
        split
        · next hnil => exact iff_of_true hx (hnil ▸ rfl)
        · rfl
      simp only [List.length_cons, ih, hx, beq_self_eq_true, if_true] at hend ⊢
      simp only [hend]
      omega
    · rw [if_neg hx, if_neg (by simpa using hx)]
      cases hl : lines sep text with
      | nil =>
        obtain rfl := lines_eq_nil.1 hl
        simp [hcons, hx]
      | cons line rest =>
        have hne : text ≠ [] := fun hnil => by simp [hnil, lines] at hl
        rw [hl, List.length_cons] at ih
        simp only [List.length_cons, hcons, if_neg hne]
        omega

/-- A text is its first line, and then nothing or a separator and the other lines. -/
theorem exists_line (text : List α) : ∃ line rest, text = line ++ rest ∧ sep ∉ line ∧
    (rest = [] ∨ ∃ other, rest = sep :: other) := by
  induction text with
  | nil => exact ⟨[], [], rfl, List.not_mem_nil, .inl rfl⟩
  | cons x text ih =>
    by_cases hx : x = sep
    · exact ⟨[], x :: text, rfl, List.not_mem_nil, .inr ⟨text, by rw [hx]⟩⟩
    · obtain ⟨line, rest, rfl, hline, hrest⟩ := ih
      exact ⟨x :: line, rest, rfl, List.not_mem_cons_of_ne_of_not_mem (Ne.symm hx) hline, hrest⟩

end

section
variable {α : Type*} {b : Nat → α} {dst src count start i : Nat} {l : List α}

/-- A run of cells copied onto one that begins lower, the first cell first. -/
def copyForward (dst src : Nat) : Nat → (Nat → α) → Nat → α
  | 0, b => b
  | count + 1, b =>
    let b := copyForward dst src count b
    Function.update b (dst + count) (b (src + count))

/-- A run of cells copied onto one that begins higher, the last cell first. -/
def copyBackward (dst src : Nat) : Nat → (Nat → α) → Nat → α
  | 0, b => b
  | count + 1, b => copyBackward dst src count (Function.update b (dst + count) (b (src + count)))

/-- The cells from `start` on get the values of a list. -/
def storeList (start : Nat) : List α → (Nat → α) → Nat → α
  | [], b => b
  | x :: l, b => storeList (start + 1) l (Function.update b start x)

theorem copyForward_apply (h : dst ≤ src) :
    copyForward dst src count b i = if dst ≤ i ∧ i < dst + count then b (src + (i - dst)) else b i := by
  induction count generalizing i with
  | zero => rw [if_neg (by omega)]; rfl
  | succ count ih =>
    simp only [copyForward, Function.update_apply, ih]
    split
    · next hi => rw [if_neg (by omega), if_pos (by omega), hi, Nat.add_sub_cancel_left]
    · exact if_congr (by omega) rfl rfl

theorem copyBackward_apply (h : src ≤ dst) :
    copyBackward dst src count b i = if dst ≤ i ∧ i < dst + count then b (src + (i - dst)) else b i := by
  induction count generalizing b with
  | zero => rw [if_neg (by omega)]; rfl
  | succ count ih =>
    simp only [copyBackward, ih, Function.update_apply]
    by_cases hi : i = dst + count
    · rw [if_neg (by omega), if_pos hi, if_pos (by omega), hi, Nat.add_sub_cancel_left]
    · rw [if_neg hi]
      split
      · rw [if_neg (by omega), if_pos (by omega)]
      · rw [if_neg (by omega)]

theorem storeList_apply : storeList start l b i = if start ≤ i then (l[i - start]?).getD (b i) else b i := by
  induction l generalizing start b with
  | nil => simp [storeList]
  | cons x l ih =>
    rw [storeList, ih]
    rcases Nat.lt_trichotomy i start with h | rfl | h
    · rw [if_neg (by omega), if_neg (by omega), Function.update_of_ne (by omega)]
    · rw [if_neg (by omega), Function.update_self, if_pos le_rfl, Nat.sub_self]; rfl
    · rw [if_pos (by omega), if_pos (by omega), Function.update_of_ne (by omega),
        show i - start = i - (start + 1) + 1 by omega, List.getElem?_cons_succ]

end

/-! ## The pieces between separators -/

section
variable {α : Type*} [DecidableEq α] {a : α} {text other : List α}

/-- A text is a line without separator, or a line with its separator in front of a text. -/
theorem lines_induction {P : List α → Prop} (last : ∀ line, a ∉ line → P line)
    (line : ∀ line rest, a ∉ line → P rest → P (line ++ a :: rest)) (text : List α) : P text := by
  by_cases h : a ∈ text
  · obtain ⟨first, rest, htext, hfirst⟩ := List.eq_append_cons_of_mem h
    have hlt : rest.length < text.length := by rw [htext, List.length_append, List.length_cons]; omega
    exact htext ▸ line first rest hfirst (lines_induction last line rest)
  · exact last text h
termination_by text.length

/-- What follows a text belongs to its last piece. -/
theorem splitOn_append : (text ++ other).splitOn a =
    (text.splitOn a).dropLast ++ ((text.splitOn a).getLastD [] ++ other).splitOn a := by
  induction text using lines_induction (a := a) with
  | last line h => rw [List.splitOn_eq_singleton h]; rfl
  | line line rest h ih =>
    obtain ⟨piece, pieces, hrest⟩ := List.exists_cons_of_ne_nil (List.splitOn_ne_nil a rest)
    rw [List.append_assoc, List.cons_append, List.splitOn_append_cons_self_of_not_mem h, ih,
      List.splitOn_append_cons_self_of_not_mem h, hrest]
    rfl

theorem notMem_of_mem_splitOn {piece : List α} (h : piece ∈ text.splitOn a) : a ∉ piece := by
  induction text using lines_induction (a := a) with
  | last line hline =>
    rw [List.splitOn_eq_singleton hline, List.mem_singleton] at h
    exact h ▸ hline
  | line line rest hline ih =>
    rw [List.splitOn_append_cons_self_of_not_mem hline] at h
    rcases List.mem_cons.1 h with rfl | h
    · exact hline
    · exact ih h

/-- The pieces of a text are no longer than those of a text that goes on. -/
theorem length_le_of_splitOn_append {n : Nat} (h : ∀ piece ∈ (text ++ other).splitOn a, piece.length ≤ n) :
    ∀ piece ∈ text.splitOn a, piece.length ≤ n := by
  induction text using lines_induction (a := a) with
  | line line rest hline ih =>
    rw [List.append_assoc, List.cons_append, List.splitOn_append_cons_self_of_not_mem hline,
      List.forall_mem_cons] at h
    rw [List.splitOn_append_cons_self_of_not_mem hline, List.forall_mem_cons]
    exact ⟨h.1, ih h.2⟩
  | last line hline =>
    -- the first piece of the longer text begins with the line
    have hfirst : ∃ piece ∈ (line ++ other).splitOn a, line.length ≤ piece.length := by
      induction other using lines_induction (a := a) with
      | last rest hrest =>
        rw [List.splitOn_eq_singleton (by simp [hline, hrest])]
        exact ⟨_, List.mem_singleton_self _, by simp⟩
      | line rest more hrest _ =>
        rw [← List.append_assoc, List.splitOn_append_cons_self_of_not_mem (by simp [hline, hrest])]
        exact ⟨_, List.mem_cons_self .., by simp⟩
    obtain ⟨piece, hpiece, hle⟩ := hfirst
    rw [List.splitOn_eq_singleton hline, List.forall_mem_singleton]
    exact hle.trans (h piece hpiece)

end

end MiniOrange
