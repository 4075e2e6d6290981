import MiniOrange.Logic.Text

/-!
# Paths as texts

The names of a path stand between separators (`names`). Names lead from one place to another: one dot stays, two dots go up,
and any other name goes down (`resolve`). A place has one text (`spell`), and a text is canonical if it is that of
a place (`canonical_iff`).
-/

namespace MiniOrange

namespace Lexical

variable {α : Type} {sep dot : α} {text rest name : List α} {place ns : List (List α)}

/-- The names of a place, each behind a separator. -/
def trail (sep : α) (place : List (List α)) : List α := place.flatMap (sep :: ·)

theorem trail_append (sep : α) (place ns : List (List α)) : trail sep (place ++ ns) = trail sep place ++ trail sep ns :=
  List.flatMap_append

theorem trail_concat (sep : α) (place : List (List α)) (name : List α) :
    trail sep (place ++ [name]) = trail sep place ++ sep :: name := by
  rw [trail_append]
  simp [trail]

theorem trail_sublist (sep : α) (h : place.Sublist ns) : (trail sep place).Sublist (trail sep ns) := by
  induction h with
  | slnil => exact .slnil
  | cons name _ ih => exact ih.trans (List.sublist_append_right (sep :: name) _)
  | cons_cons name _ ih => exact ih.append_left (sep :: name)

theorem trail_eq_nil : trail sep place = [] ↔ place = [] := by
  cases place with
  | nil => exact iff_of_true rfl rfl
  | cons name place => exact iff_of_false nofun nofun

theorem trail_eq_intercalate (sep : α) (h : place ≠ []) : trail sep place = sep :: [sep].intercalate place := by
  induction place with
  | nil => exact absurd rfl h
  | cons name place ih =>
    cases place with
    | nil => simp [trail]
    | cons name' place =>
      rw [trail, List.flatMap_cons, ← trail, ih nofun]
      simp

variable [DecidableEq α]

/-- The names between the separators. -/
def names (sep : α) (text : List α) : List (List α) := (text.splitOn sep).filter (· ≠ [])

/-- Where a name leads. -/
def enter (dot : α) (place : List (List α)) (name : List α) : List (List α) :=
  if name = [dot] then place else if name = [dot, dot] then place.dropLast else place ++ [name]

/-- Where names lead, one after the other. -/
def resolve (dot : α) (place ns : List (List α)) : List (List α) := ns.foldl (enter dot) place

/-- The text of a place; that of the root is the separator. -/
def spell (sep : α) (place : List (List α)) : List α := if place = [] then [sep] else trail sep place

/-- A name that goes down. -/
structure Plain (sep dot : α) (name : List α) : Prop where
  ne_nil : name ≠ []
  notMem : sep ∉ name
  ne_dot : name ≠ [dot]
  ne_dots : name ≠ [dot, dot]

/-- The text starts with a separator, and what stands behind each is not empty and not made of dots; or it is the root. -/
def Canonical (sep dot : α) (text : List α) : Prop :=
  text.head? = some sep ∧
    (text = [sep] ∨ ∀ name ∈ text.tail.splitOn sep, name ≠ [] ∧ name ≠ [dot] ∧ name ≠ [dot, dot])

/-! ## Names -/

@[simp] theorem names_nil : names sep [] = [] := rfl

/-- A separator ends one name and starts another. -/
theorem names_append (sep : α) (text rest : List α) :
    names sep (text ++ sep :: rest) = names sep text ++ names sep rest := by
  rw [names, List.splitOn_append_cons_self, List.filter_append]
  rfl

@[simp] theorem names_cons_sep : names sep (sep :: text) = names sep text := names_append sep [] text

/-- Separators at the end do not count. -/
@[simp] theorem names_concat_sep : names sep (text ++ [sep]) = names sep text := by
  rw [names_append, names_nil, List.append_nil]

theorem names_of_notMem (h : sep ∉ name) (hne : name ≠ []) : names sep name = [name] := by
  rw [names, List.splitOn_eq_singleton h]
  simp [hne]

theorem names_dropWhile (sep : α) (text : List α) : names sep (text.dropWhile (· = sep)) = names sep text := by
  induction text with
  | nil => rfl
  | cons x xs ih =>
    rw [List.dropWhile_cons]
    split
    · next hx => rw [ih, of_decide_eq_true hx, names_cons_sep]
    · rfl

/-- A text that does not start with a separator starts with its first name. -/
theorem names_cons {x : α} (hx : x ≠ sep) : names sep (x :: rest) =
    (x :: rest).takeWhile (· ≠ sep) :: names sep ((x :: rest).dropWhile (· ≠ sep)) := by
  have hsplit := List.takeWhile_append_dropWhile (p := fun x => decide (x ≠ sep)) (l := x :: rest)
  have hnotMem : sep ∉ (x :: rest).takeWhile (· ≠ sep) := fun hmem => by simpa using List.mem_takeWhile_imp hmem
  have hfirst : (x :: rest).takeWhile (· ≠ sep) ≠ [] := by simp [hx]
  cases hrest : (x :: rest).dropWhile (· ≠ sep) with
  | nil =>
    rw [hrest, List.append_nil] at hsplit
    conv_lhs => rw [← hsplit]
    exact names_of_notMem hnotMem hfirst
  | cons y ys =>
    have hy : y = sep := by
      have hhead := List.head?_dropWhile_not (fun x => decide (x ≠ sep)) (x :: rest)
      rw [hrest] at hhead
      simpa using hhead
    rw [hrest, hy] at hsplit
    conv_lhs => rw [← hsplit]
    rw [names_append, names_of_notMem hnotMem hfirst, hy, names_cons_sep]
    rfl

theorem mem_names (h : name ∈ names sep text) : name ≠ [] ∧ sep ∉ name := by
  obtain ⟨hmem, hne⟩ := List.mem_filter.1 h
  exact ⟨of_decide_eq_true hne, notMem_of_mem_splitOn hmem⟩

/-- The last name of a text that does not end in a separator is what follows the last separator. -/
theorem names_eq_concat (hne : text ≠ []) (hlast : text.getLast? ≠ some sep) :
    ∃ init, names sep text = init ++ [(text.splitOn sep).getLastD []] := by
  induction text using lines_induction (a := sep) with
  | last line hline => exact ⟨[], by rw [names_of_notMem hline hne, List.splitOn_eq_singleton hline]; rfl⟩
  | line line rest hline ih =>
    have hrest : rest ≠ [] := by
      rintro rfl
      exact hlast (by simp)
    rw [List.getLast?_append_of_ne_nil _ (List.cons_ne_nil _ _), List.getLast?_cons_of_ne_nil hrest] at hlast
    obtain ⟨init, hinit⟩ := ih hrest hlast
    refine ⟨names sep line ++ init, ?_⟩
    rw [names_append, hinit, List.splitOn_append_cons_self_of_not_mem hline, List.append_assoc]
    obtain ⟨piece, pieces, hpieces⟩ := List.exists_cons_of_ne_nil (List.splitOn_ne_nil sep rest)
    rw [hpieces]
    rfl

/-! ## Places -/

theorem resolve_append (dot : α) (place ns ms : List (List α)) :
    resolve dot place (ns ++ ms) = resolve dot (resolve dot place ns) ms := List.foldl_append

/-- Plain names go down. -/
theorem resolve_of_plain (h : ∀ name ∈ ns, Plain sep dot name) : resolve dot place ns = place ++ ns := by
  induction ns generalizing place with
  | nil => exact (List.append_nil place).symm
  | cons name ns ih =>
    have hname := h name List.mem_cons_self
    rw [resolve, List.foldl_cons, ← resolve, ih fun n hn => h n (List.mem_cons_of_mem _ hn), enter,
      if_neg hname.ne_dot, if_neg hname.ne_dots, List.append_assoc]
    rfl

theorem plain_enter (hplace : ∀ n ∈ place, Plain sep dot n) (hname : name ≠ [] ∧ sep ∉ name) :
    ∀ n ∈ enter dot place name, Plain sep dot n := by
  unfold enter
  split
  · exact hplace
  · next hdot =>
    split
    · exact fun n hn => hplace n ((List.dropLast_subset place hn))
    · next hdots =>
      intro n hn
      rcases List.mem_append.1 hn with hn | hn
      · exact hplace n hn
      · rw [List.mem_singleton.1 hn]
        exact ⟨hname.1, hname.2, hdot, hdots⟩

/-- Names lead from places to places. -/
theorem plain_resolve (hplace : ∀ n ∈ place, Plain sep dot n) (hns : ∀ n ∈ ns, n ≠ [] ∧ sep ∉ n) :
    ∀ n ∈ resolve dot place ns, Plain sep dot n := by
  induction ns generalizing place with
  | nil => exact hplace
  | cons name ns ih =>
    exact ih (plain_enter hplace (hns name List.mem_cons_self)) fun n hn => hns n (List.mem_cons_of_mem _ hn)

/-! ## Texts -/

/-- A separator behind each name of a text takes one more character than the text has, or fewer. -/
theorem length_trail_names (sep : α) (text : List α) : (trail sep (names sep text)).length ≤ text.length + 1 := by
  have htrail := trail_eq_intercalate sep (List.splitOn_ne_nil sep text)
  rw [List.intercalate_splitOn] at htrail
  calc (trail sep (names sep text)).length
      ≤ (trail sep (text.splitOn sep)).length := (trail_sublist sep List.filter_sublist).length_le
    _ = text.length + 1 := by rw [htrail, List.length_cons]

theorem length_trail_enter (sep dot : α) (place : List (List α)) (name : List α) :
    (trail sep (enter dot place name)).length ≤ (trail sep place).length + (name.length + 1) := by
  unfold enter
  split
  · exact Nat.le_add_right _ _
  · split
    · exact (trail_sublist sep (List.dropLast_sublist place)).length_le.trans (Nat.le_add_right _ _)
    · rw [trail_concat, List.length_append, List.length_cons]

/-- A place is not longer than the way to it. -/
theorem length_trail_resolve (sep dot : α) (place ns : List (List α)) :
    (trail sep (resolve dot place ns)).length ≤ (trail sep place).length + (trail sep ns).length := by
  induction ns generalizing place with
  | nil => exact Nat.le_add_right _ _
  | cons name ns ih =>
    have hstep := length_trail_enter sep dot place name
    have hrest := ih (enter dot place name)
    have hcons : (trail sep (name :: ns)).length = name.length + 1 + (trail sep ns).length := by
      simp [trail]
      omega
    rw [resolve, List.foldl_cons, ← resolve]
    omega

theorem names_spell (h : ∀ name ∈ place, Plain sep dot name) : names sep (spell sep place) = place := by
  unfold spell
  split
  · next hnil => rw [hnil, names_cons_sep, names_nil]
  · next hne =>
    rw [trail_eq_intercalate sep hne, names_cons_sep, names, List.splitOn_intercalate sep (fun n hn => (h n hn).notMem) hne]
    exact List.filter_eq_self.2 fun n hn => decide_eq_true (h n hn).ne_nil

/-- The canonical texts are those of places. -/
theorem canonical_iff : Canonical sep dot text ↔ ∃ place, (∀ name ∈ place, Plain sep dot name) ∧ text = spell sep place := by
  constructor
  · rintro ⟨hhead, rfl | hnames⟩
    · exact ⟨[], nofun, rfl⟩
    · have hne := List.splitOn_ne_nil sep text.tail
      refine ⟨text.tail.splitOn sep, fun n hn => ?_, ?_⟩
      · obtain ⟨h₁, h₂, h₃⟩ := hnames n hn
        exact ⟨h₁, notMem_of_mem_splitOn hn, h₂, h₃⟩
      · rw [spell, if_neg hne, trail_eq_intercalate sep hne, List.intercalate_splitOn]
        exact (List.cons_head?_tail hhead).symm
  · rintro ⟨place, hplace, rfl⟩
    unfold spell
    split
    · exact ⟨rfl, .inl rfl⟩
    · next hne =>
      rw [trail_eq_intercalate sep hne]
      refine ⟨rfl, .inr ?_⟩
      rw [List.tail_cons, List.splitOn_intercalate sep (fun n hn => (hplace n hn).notMem) hne]
      exact fun n hn => ⟨(hplace n hn).ne_nil, (hplace n hn).ne_dot, (hplace n hn).ne_dots⟩

end Lexical

end MiniOrange
