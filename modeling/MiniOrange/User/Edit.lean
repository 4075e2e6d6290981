import MiniOrange.Logic.Text

/-!
# The line editor

`user/programs/edit.c` keeps its text in one flat buffer of 32768 bytes and finds lines by scanning for
newlines; a last line may lack its newline. `line_bounds` cuts the text around a line (`Buffer.At`), and
`replace_range` moves the tail, up or down, and puts new bytes between. Over the lines of the text the
operations are insertion, removal and, with one exception, replacement of a line.
-/

namespace MiniOrange

namespace Edit

/-- `edit_buffer` and `edit_length`. -/
structure Buffer where
  bytes : Nat → UInt8
  length : Nat
  length_le : length ≤ 32768

namespace Buffer

variable (b : Buffer)

/-- The bytes in use. -/
def text : List UInt8 := (List.range b.length).map b.bytes

/-- The buffer with a given text. -/
def ofText (l : List UInt8) (h : l.length ≤ 32768) : Buffer := ⟨fun i => l.getD i 0, l.length, h⟩

/-- `line_count`. -/
def lineCount : Nat :=
  if b.length = 0 then 0 else
  let count := (List.range b.length).countP fun index => b.bytes index = 10
  if b.bytes (b.length - 1) ≠ 10 then count + 1 else count

/-- The loops of `line_bounds` to the end of a line. -/
def skipLine : Nat → Nat → Nat
  | 0, position => position
  | fuel + 1, position =>
    if position < b.length ∧ b.bytes position ≠ 10 then skipLine fuel (position + 1) else position

/-- The loop of `line_bounds` over the lines before the one asked for. -/
def seekLine : Nat → Nat → Option Nat
  | 0, position => some position
  | left + 1, position =>
    let position := b.skipLine b.length position
    if position = b.length then none else seekLine left (position + 1)

/-- `line_bounds`: `start`, `content_end` and `full_end`. -/
def lineBounds (number : Nat) : Option (Nat × Nat × Nat) :=
  if number = 0 ∨ b.length = 0 then none else
  match b.seekLine (number - 1) 0 with
  | none => none
  | some start =>
    if start ≥ b.length then none else
    let contentEnd := b.skipLine b.length start
    some (start, contentEnd, if contentEnd < b.length then contentEnd + 1 else contentEnd)

/-- `replace_range`, with what it returns. -/
def replaceRange (start stop : Nat) (replacement : List UInt8) : Bool × Buffer :=
  if start > stop ∨ stop > b.length then (false, b) else
  let removed := stop - start
  if h : replacement.length > 32768 - (b.length - removed) then (false, b) else
  let tail := b.length - stop
  let bytes := if replacement.length > removed
    then copyBackward (start + replacement.length) stop tail b.bytes
    else copyForward (start + replacement.length) stop tail b.bytes
  (true, ⟨storeList start replacement bytes, b.length - removed + replacement.length,
    by have := b.length_le; omega⟩)

/-- `build_line_payload`. -/
def buildLinePayload (capacity : Nat) (leadingNewline : Bool) (text : List UInt8) : Option (List UInt8) :=
  if text.length + (if leadingNewline then 2 else 1) > capacity then none else
  some ((if leadingNewline then [10] else []) ++ text ++ [10])

/-- `append_line`. -/
def appendLine (text : List UInt8) : Bool × Buffer :=
  let needsSeparator := decide (b.length > 0 ∧ b.bytes (b.length - 1) ≠ 10)
  match buildLinePayload 258 needsSeparator text with
  | none => (false, b)
  | some payload => b.replaceRange b.length b.length payload

/-- `insert_line`. -/
def insertLine (number : Nat) (text : List UInt8) : Bool × Buffer :=
  let count := b.lineCount
  if number = count + 1 then b.appendLine text else
  if number = 0 ∨ number > count then (false, b) else
  match b.lineBounds number with
  | none => (false, b)
  | some (start, _, _) =>
    match buildLinePayload 258 false text with
    | none => (false, b)
    | some payload => b.replaceRange start start payload

/-- `replace_line`. -/
def replaceLine (number : Nat) (text : List UInt8) : Bool × Buffer :=
  match b.lineBounds number with
  | none => (false, b)
  | some (start, contentEnd, _) => b.replaceRange start contentEnd text

/-- `delete_line`. -/
def deleteLine (number : Nat) : Bool × Buffer :=
  match b.lineBounds number with
  | none => (false, b)
  | some (start, _, fullEnd) => b.replaceRange start fullEnd []

variable {b} {a line rest s t : List UInt8} {k n : Nat}

/-! ## Counting and finding lines -/

@[simp] theorem length_text : b.text.length = b.length := by
  simp [text]

theorem bytes_eq {i : Nat} (h : i < b.length) : b.text[i]? = some (b.bytes i) := by
  simp [text, h]

/-- The last byte tells whether the text ends with whole lines. -/
theorem endsIn_text : EndsIn 10 b.text ↔ ¬ (b.length > 0 ∧ b.bytes (b.length - 1) ≠ 10) := by
  rw [EndsIn, List.getLast?_eq_getElem?, length_text]
  by_cases h : b.length = 0
  · simp [h, List.length_eq_zero_iff.1 (length_text.trans h)]
  · rw [bytes_eq (by omega), Option.getD_some]
    exact ⟨fun hlast hn => hn.2 hlast, fun hn => by_contra fun hlast => hn ⟨by omega, hlast⟩⟩

theorem lineCount_eq : b.lineCount = (lines 10 b.text).length := by
  have hcount : (List.range b.length).countP (fun index => b.bytes index = 10) = b.text.count 10 := by
    rw [text, List.count, List.countP_map]
    rfl
  rw [length_lines, lineCount, hcount]
  by_cases h : b.length = 0
  · simp [h, EndsIn, List.length_eq_zero_iff.1 (length_text.trans h)]
  · have hend := @endsIn_text b
    by_cases hlast : b.bytes (b.length - 1) = 10
    · rw [if_neg h, if_neg (not_not.2 hlast), if_pos (hend.2 fun hn => hn.2 hlast), Nat.add_zero]
    · rw [if_neg h, if_pos hlast, if_neg fun he => hend.1 he ⟨by omega, hlast⟩]

/-- The text cut around its line `n`: whole lines, the line, and nothing or the newline and the rest. -/
structure At (b : Buffer) (n : Nat) (a line rest : List UInt8) : Prop where
  text : b.text = a ++ line ++ rest
  ended : EndsIn 10 a
  index : (lines 10 a).length = n
  clean : 10 ∉ line
  tail : (rest = [] ∧ line ≠ []) ∨ ∃ other, rest = 10 :: other

theorem skipLine_eq (htext : b.text = a ++ line ++ rest) (hline : 10 ∉ line)
    (hrest : rest = [] ∨ ∃ other, rest = 10 :: other) (fuel : Nat) (hfuel : line.length ≤ fuel) :
    b.skipLine fuel a.length = a.length + line.length := by
  have hlength := congrArg List.length htext
  simp only [length_text, List.length_append] at hlength
  have hget : ∀ i x, (a ++ line ++ rest)[i]? = some x → b.bytes i = x := fun i x hx => by
    obtain ⟨hi, -⟩ := List.getElem?_eq_some_iff.1 (htext ▸ hx)
    exact Option.some.inj ((bytes_eq (length_text ▸ hi)).symm.trans (htext ▸ hx))
  induction fuel generalizing a line with
  | zero => simp [skipLine, List.length_eq_zero_iff.1 (Nat.le_zero.1 hfuel)]
  | succ fuel ih =>
    cases line with
    | nil =>
      refine if_neg fun hand => ?_
      obtain rfl | ⟨other, rfl⟩ := hrest
      · simp only [List.length_nil] at hlength
        omega
      · exact hand.2 (hget _ 10 (by simp))
    | cons x line =>
      rw [List.mem_cons, not_or] at hline
      rw [List.length_cons] at hlength hfuel ⊢
      have hx : b.bytes a.length = x := hget _ x (by simp)
      rw [skipLine, if_pos ⟨by omega, hx ▸ Ne.symm hline.1⟩]
      have := @ih (a ++ [x]) line (by simpa using htext) hline.2 (by omega) (by simp; omega) (by simpa using hget)
      rw [List.length_append] at this
      exact this.trans (by simp; omega)

/-- The scan over `k` lines from the start of a line finds the line there, or the end of the text. -/
theorem seekLine_eq (htext : b.text = a ++ s) (hend : EndsIn 10 a) :
    (k < (lines 10 s).length → ∃ a' line rest, At b ((lines 10 a).length + k) a' line rest ∧
      b.seekLine k a.length = some a'.length) ∧
    ((lines 10 s).length ≤ k → ∀ p, b.seekLine k a.length = some p → b.length ≤ p) := by
  have hlength := congrArg List.length htext
  simp only [length_text, List.length_append] at hlength
  obtain ⟨line, rest, rfl, hline, hrest⟩ := @exists_line _ _ 10 s
  rw [← List.append_assoc] at htext
  induction k generalizing a line rest with
  | zero =>
    refine ⟨fun hpos => ⟨a, line, rest, ⟨htext, hend, rfl, hline, hrest.imp_left fun hnil => ⟨hnil, ?_⟩⟩, rfl⟩,
      fun hnone p hp => ?_⟩
    · rintro rfl
      simp [hnil, lines] at hpos
    · have hnil := lines_eq_nil.1 (List.length_eq_zero_iff.1 (Nat.le_zero.1 hnone))
      rw [hnil, List.length_nil] at hlength
      exact Option.some.inj hp ▸ hlength.le
  | succ k ih =>
    rw [List.length_append] at hlength
    have hskip := skipLine_eq htext hline hrest b.length (by omega)
    rw [seekLine, hskip]
    obtain rfl | ⟨other, rfl⟩ := hrest
    · rw [List.length_nil] at hlength
      rw [if_pos (by omega)]
      refine ⟨fun hlt => ?_, fun _ _ hp => absurd hp (by simp)⟩
      by_cases hne : line = []
      · simp [hne, lines] at hlt
      · rw [List.append_nil, lines_last hline hne, List.length_singleton] at hlt
        omega
    · rw [List.length_cons] at hlength
      rw [if_neg (by omega), lines_line hline, List.length_cons]
      have hwhole : lines 10 (a ++ line ++ [10]) = lines 10 a ++ [line] := by
        rw [List.append_assoc, lines_append hend, lines_line hline]
        rfl
      obtain ⟨line', rest', rfl, hline', hrest'⟩ := @exists_line _ _ 10 other
      have := @ih (a ++ line ++ [10]) endsIn_concat line' rest' (by simpa using htext)
        (by simp at hlength ⊢; omega) hline' hrest'
      rw [hwhole] at this
      simp only [List.length_append, List.length_singleton, Nat.add_assoc, Nat.add_comm 1 k] at this ⊢
      exact ⟨fun hlt => this.1 (by omega), fun hle => this.2 (by omega)⟩

/-- `line_bounds` finds the lines there are. -/
theorem lineBounds_of_lt (h : n < (lines 10 b.text).length) : ∃ a line rest, At b n a line rest ∧
    b.lineBounds (n + 1) = some (a.length, a.length + line.length, a.length + line.length + (rest.take 1).length) := by
  obtain ⟨a, line, rest, hat, hseek⟩ := (@seekLine_eq b [] b.text n rfl rfl).1 h
  rw [lines, List.length_nil, Nat.zero_add] at hat
  have hlength := congrArg List.length hat.text
  simp only [length_text, List.length_append] at hlength
  have hskip := skipLine_eq hat.text hat.clean (hat.tail.imp_left And.left) b.length (by omega)
  have hpos : a.length < b.length := by
    obtain ⟨-, hne⟩ | ⟨other, rfl⟩ := hat.tail
    · have := List.length_pos_iff.2 hne
      omega
    · rw [List.length_cons] at hlength
      omega
  refine ⟨a, line, rest, hat, ?_⟩
  rw [lineBounds, if_neg (by omega), Nat.add_sub_cancel, show b.seekLine n 0 = _ from hseek]
  dsimp only
  rw [if_neg (by omega), hskip]
  obtain ⟨rfl, -⟩ | ⟨other, rfl⟩ := hat.tail
  · rw [List.length_nil] at hlength
    rw [if_neg (by omega)]
    rfl
  · rw [List.length_cons] at hlength
    rw [if_pos (by omega)]
    rfl

/-- `line_bounds` refuses every other number. -/
theorem lineBounds_eq_none (h : n = 0 ∨ (lines 10 b.text).length < n) : b.lineBounds n = none := by
  unfold lineBounds
  split
  · rfl
  · next hn =>
    have hle := (@seekLine_eq b [] b.text (n - 1) rfl rfl).2 (by omega)
    cases hseek : b.seekLine (n - 1) 0 with
    | none => rfl
    | some p => exact if_pos (hle p hseek)

/-! ## What the operations do -/

namespace At

variable (h : At b n a line rest)
include h

theorem lines_text : lines 10 b.text = lines 10 a ++ line :: lines 10 (rest.drop 1) := by
  rw [h.text, List.append_assoc, lines_append h.ended]
  obtain ⟨rfl, hne⟩ | ⟨other, rfl⟩ := h.tail
  · rw [List.append_nil, lines_last h.clean hne]
    rfl
  · rw [lines_line h.clean]
    rfl

/-- The line is the last one and lacks its newline. -/
theorem rest_eq_nil : rest = [] ↔ n + 1 = (lines 10 b.text).length ∧ ¬ EndsIn 10 b.text := by
  have hcount := congrArg List.length h.lines_text
  rw [List.length_append, List.length_cons, h.index] at hcount
  obtain ⟨rfl, hne⟩ | ⟨other, rfl⟩ := h.tail
  · refine iff_of_true rfl ⟨hcount.symm, fun hend => ?_⟩
    rw [h.text, EndsIn, List.append_nil, List.getLast?_append, List.getLast?_eq_some_getLast hne] at hend
    exact h.clean (hend ▸ List.getLast_mem hne)
  · refine iff_of_false (List.cons_ne_nil _ _) fun hlast => ?_
    have hnil : other = [] := lines_eq_nil.1 (List.length_eq_zero_iff.1 (show (lines 10 other).length = 0 by
      have : (lines 10 (List.drop 1 (10 :: other))).length = (lines 10 other).length := rfl
      omega))
    exact hlast.2 (by rw [h.text, hnil]; exact endsIn_concat)

end At

/-- `replace_range` puts a text between two parts, if there is room. -/
theorem replaceRange_eq {p m q r : List UInt8} (htext : b.text = p ++ m ++ q) :
    ((p ++ r ++ q).length ≤ 32768 ∧ ∃ b', b.replaceRange p.length (p.length + m.length) r = (true, b') ∧
      b'.text = p ++ r ++ q) ∨
    32768 < (p ++ r ++ q).length ∧ b.replaceRange p.length (p.length + m.length) r = (false, b) := by
  have hlength := congrArg List.length htext
  have hle := b.length_le
  simp only [length_text, List.length_append] at hlength ⊢
  unfold replaceRange
  rw [if_neg (by omega)]
  dsimp only
  split
  · exact .inr ⟨by omega, rfl⟩
  · refine .inl ⟨by omega, _, rfl, List.ext_getElem? fun i => ?_⟩
    have hbytes : ∀ j < b.length, some (b.bytes j) = (p ++ m ++ q)[j]? := fun j hj => by rw [← htext, bytes_eq hj]
    -- both copies move the tail to its place and leave the part before
    have hmoved : ∀ j, (if r.length > p.length + m.length - p.length
        then copyBackward (p.length + r.length) (p.length + m.length) (b.length - (p.length + m.length)) b.bytes
        else copyForward (p.length + r.length) (p.length + m.length) (b.length - (p.length + m.length)) b.bytes) j =
        if p.length + r.length ≤ j ∧ j < p.length + r.length + q.length
          then b.bytes (p.length + m.length + (j - (p.length + r.length))) else b.bytes j := by
      intro j
      split
      · rw [copyBackward_apply (by omega)]
        exact if_congr (by omega) rfl rfl
      · rw [copyForward_apply (by omega)]
        exact if_congr (by omega) rfl rfl
    rw [text, List.getElem?_map]
    by_cases hi : i < p.length + r.length + q.length
    · rw [List.getElem?_range (by dsimp only; omega), Option.map_some]
      dsimp only
      rw [storeList_apply, hmoved]
      rcases Nat.lt_or_ge i p.length with h | h
      · rw [if_neg (by omega), if_neg (by omega), hbytes i (by omega)]
        simp [h, Nat.lt_add_right _ h]
      rcases Nat.lt_or_ge i (p.length + r.length) with h' | h'
      · rw [if_pos h, if_neg (by omega)]
        simp [List.getElem?_append, Nat.not_lt.2 h, show i - p.length < r.length by omega]
      · rw [if_pos h, if_pos ⟨h', hi⟩, List.getElem?_eq_none (by omega), Option.getD_none, hbytes _ (by omega)]
        rw [List.getElem?_append_right (by simp), List.getElem?_append_right (by simpa using h')]
        exact congrArg _ (by simp)
    · rw [List.getElem?_eq_none (by simp; omega), List.getElem?_eq_none (by simp; omega)]
      rfl

/-- What an operation returns and leaves: the new lines on success, and the old buffer on failure, which
is for a number out of range or a text that would be too long. -/
structure Outcome (b : Buffer) (r : Bool × Buffer) (inRange : Prop) (new : List (List UInt8)) (size : Nat) : Prop where
  success : r.1 = true → lines 10 r.2.text = new ∧ r.2.length = size
  refused : r.1 = false ↔ ¬ inRange ∨ 32768 < size
  unchanged : r.1 = false → r.2 = b

theorem outcome_replaceRange {p m q r : List UInt8} {new : List (List UInt8)} {inRange : Prop}
    (htext : b.text = p ++ m ++ q) (hin : inRange) (hnew : lines 10 (p ++ r ++ q) = new) :
    Outcome b (b.replaceRange p.length (p.length + m.length) r) inRange new (p ++ r ++ q).length := by
  obtain ⟨hle, b', heq, htext'⟩ | ⟨hgt, heq⟩ := replaceRange_eq htext
  · rw [heq]
    exact ⟨fun _ => ⟨htext' ▸ hnew, by rw [← htext', length_text]⟩, iff_of_false nofun (by
      rintro (hout | hgt)
      exacts [hout hin, absurd hgt (by omega)]), nofun⟩
  · rw [heq]
    exact ⟨nofun, iff_of_true rfl (.inr hgt), fun _ => rfl⟩

theorem outcome_refused {new : List (List UInt8)} {size : Nat} {inRange : Prop} (hout : ¬ inRange) :
    Outcome b (false, b) inRange new size :=
  ⟨nofun, iff_of_true rfl (.inl hout), fun _ => rfl⟩

/-- The bytes of the text with one more line behind it. -/
def appendSize (b : Buffer) (t : List UInt8) : Nat := b.length + t.length + if EndsIn 10 b.text then 1 else 2

theorem outcome_appendLine {inRange : Prop} (hin : inRange) (ht : 10 ∉ t) (hlength : t.length ≤ 255) :
    Outcome b (b.appendLine t) inRange (lines 10 b.text ++ [t]) (b.appendSize t) := by
  have hline : lines 10 (t ++ [10]) = [t] := lines_line ht
  unfold appendLine appendSize
  have hout := fun r => @outcome_replaceRange b b.text [] [] r (lines 10 b.text ++ [t]) _ (by simp) hin
  rw [length_text] at hout
  by_cases hend : EndsIn 10 b.text
  · rw [decide_eq_false (endsIn_text.1 hend), if_pos hend]
    have := hout (t ++ [10]) (by rw [List.append_nil, lines_append hend, hline])
    simpa [buildLinePayload, show ¬ t.length + 1 > 258 by omega, Nat.add_assoc] using this
  · rw [decide_eq_true (not_not.1 fun hn => hend (endsIn_text.2 hn)), if_neg hend]
    have := hout (10 :: (t ++ [10])) (by
      rw [List.append_nil, List.append_cons, lines_append endsIn_concat, lines_concat hend, hline])
    simpa [buildLinePayload, show ¬ t.length + 2 > 258 by omega, Nat.add_assoc] using this

theorem outcome_insertLine (ht : 10 ∉ t) (hlength : t.length ≤ 255) :
    Outcome b (b.insertLine n t) (1 ≤ n ∧ n ≤ b.lineCount + 1)
      ((lines 10 b.text).take (n - 1) ++ t :: (lines 10 b.text).drop (n - 1))
      (if n = b.lineCount + 1 then b.appendSize t else b.length + t.length + 1) := by
  have hcount := @lineCount_eq b
  unfold insertLine
  dsimp only
  split
  · next hn =>
    rw [hn, Nat.add_sub_cancel, hcount, List.take_length, List.drop_length]
    exact outcome_appendLine ⟨by omega, le_rfl⟩ ht hlength
  split
  · exact outcome_refused (by omega)
  · obtain ⟨k, rfl⟩ : ∃ k, n = k + 1 := ⟨n - 1, by omega⟩
    obtain ⟨a, line, rest, hat, hbounds⟩ := @lineBounds_of_lt b k (by omega)
    have hold : lines 10 b.text = lines 10 a ++ lines 10 (line ++ rest) := by
      rw [hat.text, List.append_assoc, lines_append hat.ended]
    have hsize := congrArg List.length hat.text
    rw [hbounds, hold, Nat.add_sub_cancel, List.take_left' hat.index, List.drop_left' hat.index]
    have := @outcome_replaceRange b a [] (line ++ rest) (t ++ [10]) _ (1 ≤ k + 1 ∧ k + 1 ≤ b.lineCount + 1)
      (by rw [hat.text]; simp) (by omega) rfl
    rw [List.append_assoc a, lines_append hat.ended, List.append_assoc t, List.singleton_append, lines_line ht] at this
    simp only [length_text, List.length_append, List.length_nil, List.length_cons, Nat.add_zero] at hsize this
    simpa [buildLinePayload, show ¬ t.length + 1 > 258 by omega,
      show b.length + t.length + 1 = a.length + (t.length + (line.length + rest.length + 1)) by omega] using this

theorem outcome_deleteLine : Outcome b (b.deleteLine n) (1 ≤ n ∧ n ≤ b.lineCount)
    ((lines 10 b.text).take (n - 1) ++ (lines 10 b.text).drop n) (b.deleteLine n).2.length := by
  have hcount := @lineCount_eq b
  unfold deleteLine
  by_cases hn : 1 ≤ n ∧ n ≤ b.lineCount
  · obtain ⟨k, rfl⟩ : ∃ k, n = k + 1 := ⟨n - 1, by omega⟩
    obtain ⟨a, line, rest, hat, hbounds⟩ := @lineBounds_of_lt b k (by omega)
    have := @outcome_replaceRange b a (line ++ rest.take 1) (rest.drop 1) [] _ _
      (by rw [hat.text, List.append_assoc a, List.append_assoc a, List.append_assoc, List.take_append_drop]) hn rfl
    rw [List.append_nil, lines_append hat.ended, List.length_append, ← Nat.add_assoc] at this
    rw [hat.lines_text, hbounds, Nat.add_sub_cancel, List.take_left' hat.index, ← List.drop_drop,
      List.drop_left' hat.index]
    refine ⟨fun h => ⟨(this.success h).1, rfl⟩, this.refused.trans (or_congr_right ?_), this.unchanged⟩
    have hle := (b.replaceRange a.length (a.length + line.length + (rest.take 1).length) []).2.length_le
    have hsize := congrArg List.length hat.text
    have hdrop := List.length_drop (i := 1) (l := rest)
    have hb := b.length_le
    simp only [length_text, List.length_append] at hsize ⊢
    omega
  · rw [lineBounds_eq_none (by omega)]
    exact outcome_refused hn

/-- The operations on lines, for every buffer, number and text without a newline. -/
theorem line_operations (b : Buffer) (n : Nat) (t : List UInt8) (ht : 10 ∉ t) (hlength : t.length ≤ 255) :
    b.lineCount = (lines 10 b.text).length ∧
    Outcome b (b.appendLine t) True (lines 10 b.text ++ [t]) (b.appendSize t) ∧
    Outcome b (b.insertLine n t) (1 ≤ n ∧ n ≤ b.lineCount + 1)
      ((lines 10 b.text).take (n - 1) ++ t :: (lines 10 b.text).drop (n - 1))
      (if n = b.lineCount + 1 then b.appendSize t else b.length + t.length + 1) ∧
    Outcome b (b.deleteLine n) (1 ≤ n ∧ n ≤ b.lineCount)
      ((lines 10 b.text).take (n - 1) ++ (lines 10 b.text).drop n) (b.deleteLine n).2.length :=
  ⟨lineCount_eq, outcome_appendLine trivial ht hlength, outcome_insertLine ht hlength, outcome_deleteLine⟩

/-- A second line for a text of one line without a newline. -/
theorem line_operations_a : lines 10 ((ofText [0x61] (by decide)).insertLine 2 [0x62]).2.text = [[0x61], [0x62]] :=
  ((line_operations (ofText [0x61] (by decide)) 2 [0x62] (by decide) (by decide)).2.2.1.success (by decide)).1

/-- `replace_line` sets the line, except that an empty text in place of a last line without its newline
removes that line. -/
theorem replace_line_sets (b : Buffer) (n : Nat) (t : List UInt8) (ht : 10 ∉ t) (hpos : 1 ≤ n)
    (hn : n ≤ b.lineCount) (hok : (b.replaceLine n t).1 = true) :
    lines 10 (b.replaceLine n t).2.text = (lines 10 b.text).set (n - 1) t ↔
      ¬ (t = [] ∧ n = b.lineCount ∧ ¬ EndsIn 10 b.text) := by
  rw [lineCount_eq] at hn ⊢
  obtain ⟨k, rfl⟩ : ∃ k, n = k + 1 := ⟨n - 1, by omega⟩
  obtain ⟨a, line, rest, hat, hbounds⟩ := @lineBounds_of_lt b k (by omega)
  rw [← hat.rest_eq_nil]
  unfold replaceLine at hok ⊢
  rw [hbounds] at hok ⊢
  rw [((outcome_replaceRange hat.text trivial rfl).success hok).1, hat.lines_text, Nat.add_sub_cancel,
    List.append_assoc, lines_append hat.ended, List.set_append_right _ _ hat.index.le, hat.index, Nat.sub_self,
    List.set_cons_zero, List.append_cancel_left_eq]
  obtain ⟨rfl, -⟩ | ⟨other, rfl⟩ := hat.tail
  · by_cases hnil : t = []
    · simp [hnil, lines]
    · simp [hnil, lines_last ht hnil, lines]
  · simp [lines_line ht]

/-- Line 1 of `a`, replaced by the text `b`. -/
theorem replace_line_sets_b : lines 10 ((ofText [0x61] (by decide)).replaceLine 1 [0x62]).2.text = [[0x62]] :=
  (replace_line_sets (ofText [0x61] (by decide)) 1 [0x62] (by decide) (by decide) (by decide) (by decide)).2
    (by decide)

/-- Line 1 of `a`, replaced by the empty text: no line is left. -/
theorem replace_line_empties : ((ofText [0x61] (by decide)).replaceLine 1 []).1 = true ∧
    lines 10 ((ofText [0x61] (by decide)).replaceLine 1 []).2.text ≠ [[]] := by
  decide

/-- An inserted line can be deleted, and the lines are those of before. -/
theorem deleteLine_insertLine (ht : 10 ∉ t) (hlength : t.length ≤ 255) (hok : (b.insertLine n t).1 = true) :
    ((b.insertLine n t).2.deleteLine n).1 = true ∧
      lines 10 ((b.insertLine n t).2.deleteLine n).2.text = lines 10 b.text := by
  have hinsert := outcome_insertLine (b := b) (n := n) ht hlength
  generalize b.insertLine n t = r at *
  have hlines := (hinsert.success hok).1
  have hn : 1 ≤ n ∧ n ≤ b.lineCount + 1 := by simpa using (not_or.1 (mt hinsert.refused.2 (by simp [hok]))).1
  obtain ⟨m, rfl⟩ := Nat.exists_eq_add_of_le' hn.1
  rw [lineCount_eq] at hn
  have htake : ((lines 10 b.text).take m).length = m := List.length_take_of_le (by omega)
  have hdone : (r.2.deleteLine (m + 1)).1 = true := by
    have hle := (r.2.deleteLine (m + 1)).2.length_le
    rw [← Bool.not_eq_false, outcome_deleteLine.refused, lineCount_eq, hlines, Nat.add_sub_cancel, List.length_append,
      htake, List.length_cons]
    omega
  rw [(outcome_deleteLine.success hdone).1, hlines, Nat.add_sub_cancel, List.take_left' htake, ← List.drop_drop,
    List.drop_left' htake]
  exact ⟨hdone, List.take_append_drop m _⟩

/-- The line `b` behind the line `a`. -/
theorem deleteLine_insertLine_a :
    lines 10 (((ofText [0x61] (by decide)).insertLine 2 [0x62]).2.deleteLine 2).2.text = [[0x61]] :=
  (deleteLine_insertLine (by decide) (by decide) (by decide)).2

end Buffer

end Edit

end MiniOrange
