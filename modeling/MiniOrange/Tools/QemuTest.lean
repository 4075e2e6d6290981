import MiniOrange.Logic.Text

/-!
# The protocol of the serial tests

`ProtocolParser` of `qemu_test.py` reads what the kernel writes to its serial port, in pieces of any
size. It splits the stream into lines and takes each line that starts with `[TEST]` through a state
machine. `Protocol` holds the variables of the state machine, and `ProtocolParser` adds the bytes of
the line that is not complete. A line the machine takes without failing is a `Step`, and the steps from
the initial state to a total PASS spell the words of the grammar (`Word`).
-/

namespace MiniOrange

namespace QemuTest

/-! ## The lines -/

/-- A byte string of the source. -/
def ascii (text : String) : List UInt8 := text.toList.map fun c => c.toNat.toUInt8

/-- `[A-Za-z0-9_.-]`. -/
def nameByte (x : UInt8) : Bool :=
  (0x41 ≤ x && x ≤ 0x5A) || (0x61 ≤ x && x ≤ 0x7A) || (0x30 ≤ x && x ≤ 0x39) || x ∈ ascii "_.-"

/-- The white space of `bytes.split`. -/
def isSpace (x : UInt8) : Bool := x = 0x20 || (0x09 ≤ x && x ≤ 0x0D)

/-- `line.split()`. -/
def split (line : List UInt8) : List (List UInt8) := (line.splitOnP isSpace).filter (· ≠ [])

/-- The name a pattern `head([A-Za-z0-9_.-]+)tail` finds in a line, by `fullmatch`. -/
def fullmatch (head tail line : List UInt8) : Option (List UInt8) :=
  let name := (line.drop head.length).take (line.length - head.length - tail.length)
  if line = head ++ name ++ tail ∧ name ≠ [] ∧ name.all nameByte = true then some name else none

/-- `SUITE_BEGIN.fullmatch`. -/
def suiteBegin : List UInt8 → Option (List UInt8) := fullmatch (ascii "[TEST] suite=") (ascii " begin")

/-- `SUITE_PASS.fullmatch`. -/
def suitePass : List UInt8 → Option (List UInt8) := fullmatch (ascii "[TEST] suite=") (ascii " PASS")

/-- `CASE_PASS.fullmatch`. -/
def casePass : List UInt8 → Option (List UInt8) := fullmatch (ascii "[TEST] case=") (ascii " PASS")

/-- `PASS_LINE`. -/
def passLine : List UInt8 := ascii "[TEST] all PASS"

/-- `LINE_LIMIT`. -/
def lineLimit : Nat := 262144

/-! ## The parser -/

/-- The reasons of `_fail`. -/
inductive Reason
  | lineTooLong | unterminated | afterPass | reported | nestedBegin | caseOutside | suiteMismatch
  | noCase | incomplete | unknown
  deriving DecidableEq

/-- The variables of `_parse_line`. -/
structure Protocol where
  activeSuite : Option (List UInt8) := none
  casePasses : Nat := 0
  completedSuites : Nat := 0
  passed : Bool := false
  failed : Bool := false
  failureReason : Option Reason := none
  deriving DecidableEq

/-- `_fail`. -/
def Protocol.fail (p : Protocol) (reason : Reason) : Protocol :=
  { p with failureReason := if p.failed then p.failureReason else some reason, failed := true }

/-- The line starts with `[TEST]`. -/
abbrev IsTest (line : List UInt8) : Prop := ascii "[TEST]" <+: line

/-- `_parse_line`. -/
def Protocol.parseLine (p : Protocol) (line : List UInt8) : Protocol :=
  if ¬ IsTest line then p
  else if p.passed then p.fail .afterPass
  else if ascii "FAIL" ∈ split line then p.fail .reported
  else match suiteBegin line with
  | some name =>
    if p.activeSuite ≠ none then p.fail .nestedBegin
    else { p with activeSuite := some name, casePasses := 0 }
  | none => match casePass line with
  | some _ =>
    if p.activeSuite = none then p.fail .caseOutside
    else { p with casePasses := p.casePasses + 1 }
  | none => match suitePass line with
  | some name =>
    if p.activeSuite ≠ some name then p.fail .suiteMismatch
    else if p.casePasses < 1 then p.fail .noCase
    else { p with activeSuite := none, casePasses := 0, completedSuites := p.completedSuites + 1 }
  | none =>
    if line = passLine then
      if p.activeSuite ≠ none ∨ p.completedSuites < 1 then p.fail .incomplete
      else { p with passed := true }
    else p.fail .unknown

/-- A `ProtocolParser`. -/
structure ProtocolParser extends Protocol where
  pending : List UInt8 := []

/-- `rstrip(b"\r")`. -/
def rstrip (line : List UInt8) : List UInt8 := line.rdropWhile (· = 0x0D)

/-- The loop of `feed`. -/
def feedLoop (p : Protocol) (pending : List UInt8) : ProtocolParser :=
  match h : pending.findIdx? (· = 0x0A) with
  | none =>
    if pending.length > lineLimit then
      { if IsTest pending then p.fail .lineTooLong else p with
        pending := pending.drop (pending.length - lineLimit) }
    else { p with pending }
  | some newline =>
    have : newline < pending.length := (List.findIdx?_eq_some_iff_getElem.1 h).1
    feedLoop (p.parseLine (rstrip (pending.take newline))) (pending.drop (newline + 1))
termination_by pending.length

/-- `feed`. -/
def ProtocolParser.feed (p : ProtocolParser) (data : List UInt8) : ProtocolParser :=
  feedLoop p.toProtocol (p.pending ++ data)

/-- `finish`. -/
def ProtocolParser.finish (p : ProtocolParser) : ProtocolParser :=
  { if IsTest p.pending then p.toProtocol.fail .unterminated else p.toProtocol with pending := [] }

/-! ## The stream -/

/-- The terminated lines of a stream, without their carriage returns. -/
def streamLines (stream : List UInt8) : List (List UInt8) := (stream.splitOn 0x0A).dropLast.map rstrip

/-- What is behind the last newline. -/
def remainder (stream : List UInt8) : List UInt8 := (stream.splitOn 0x0A).getLastD []

/-- The lines of a stream, the last one included, are shorter than the limit. -/
abbrev ShortLines (stream : List UInt8) : Prop := ∀ line ∈ stream.splitOn 0x0A, line.length < lineLimit

/-- The lines that start with `[TEST]`. -/
def testLines (stream : List UInt8) : List (List UInt8) := (streamLines stream).filter fun line => IsTest line

theorem findIdx?_newline {line : List UInt8} (h : 0x0A ∉ line) : line.findIdx? (· = 0x0A) = none := by
  rw [List.findIdx?_eq_none_iff]
  rintro x hx
  simpa using fun heq : x = 0x0A => h (heq ▸ hx)

/-- The loop takes the lines one after the other and keeps what is behind them. -/
theorem feedLoop_eq {pending : List UInt8} : ∀ {p : Protocol}, feedLoop p pending =
    feedLoop ((streamLines pending).foldl Protocol.parseLine p) (remainder pending) := by
  induction pending using lines_induction (a := (0x0A : UInt8)) with
  | last line h =>
    unfold streamLines remainder
    rw [List.splitOn_eq_singleton h]
    exact rfl
  | line line rest h ih =>
    intro p
    obtain ⟨piece, pieces, hrest⟩ := List.exists_cons_of_ne_nil (List.splitOn_ne_nil 0x0A rest)
    have hindex : (line ++ 0x0A :: rest).findIdx? (· = 0x0A) = some line.length := by
      rw [List.findIdx?_append, findIdx?_newline h]
      simp [List.findIdx?_cons]
    conv_lhs => unfold feedLoop
    split
    · next hnone => rw [hindex] at hnone; cases hnone
    · next newline hsome =>
      obtain rfl := Option.some.inj (hindex.symm.trans hsome)
      rw [List.take_left, ← List.drop_drop, List.drop_left, List.drop_one, List.tail_cons, ih]
      unfold streamLines remainder
      rw [List.splitOn_append_cons_self_of_not_mem h, hrest]
      rfl

/-- What is not terminated is kept, up to the limit. -/
theorem feedLoop_rest {p : Protocol} {line : List UInt8} (h : 0x0A ∉ line) : feedLoop p line =
    if line.length > lineLimit then
      { if IsTest line then p.fail .lineTooLong else p with pending := line.drop (line.length - lineLimit) }
    else { p with pending := line } := by
  unfold feedLoop
  split
  · rfl
  · next newline hsome =>
    rw [findIdx?_newline h] at hsome
    cases hsome

theorem remainder_mem (stream : List UInt8) : remainder stream ∈ stream.splitOn 0x0A := by
  have hne := List.splitOn_ne_nil 0x0A stream
  rw [remainder, List.getLastD_eq_getLast?, List.getLast?_eq_some_getLast hne]
  exact List.getLast_mem hne

/-- Whatever pieces the stream comes in, the parser takes its lines. -/
theorem feed_eq {chunks : List (List UInt8)} (h : ∀ line ∈ chunks.flatten.splitOn 0x0A, line.length ≤ lineLimit) :
    chunks.foldl ProtocolParser.feed {} =
      { (streamLines chunks.flatten).foldl Protocol.parseLine {} with
        pending := remainder chunks.flatten } := by
  induction chunks using List.reverseRecOn with
  | nil => rfl
  | append_singleton chunks data ih =>
    rw [List.flatten_append, List.flatten_singleton] at h ⊢
    rw [List.foldl_append, ih (length_le_of_splitOn_append h), List.foldl_cons, List.foldl_nil,
      ProtocolParser.feed, feedLoop_eq]
    have hlines : streamLines (chunks.flatten ++ data) =
        streamLines chunks.flatten ++ streamLines (remainder chunks.flatten ++ data) := by
      unfold streamLines remainder
      rw [splitOn_append, List.dropLast_append_of_ne_nil (List.splitOn_ne_nil _ _), List.map_append]
    have hrest : remainder (chunks.flatten ++ data) = remainder (remainder chunks.flatten ++ data) := by
      unfold remainder
      rw [splitOn_append]
      simp only [List.getLastD_eq_getLast?, List.getLast?_append_of_ne_nil _ (List.splitOn_ne_nil _ _)]
    have hmem := remainder_mem (chunks.flatten ++ data)
    rw [hlines, List.foldl_append, ← hrest, feedLoop_rest (notMem_of_mem_splitOn hmem), if_neg (Nat.not_lt.2 (h _ hmem))]

/-! ## The grammar and the steps of the state machine -/

/-- A name of a suite or a case. -/
abbrev IsName (name : List UInt8) : Prop := name ≠ [] ∧ name.all nameByte = true

/-- The line that begins a suite. -/
def beginLine (suite : List UInt8) : List UInt8 := ascii "[TEST] suite=" ++ suite ++ ascii " begin"

/-- The line of a case that passed. -/
def caseLine (name : List UInt8) : List UInt8 := ascii "[TEST] case=" ++ name ++ ascii " PASS"

/-- The line of a suite that passed. -/
def suiteLine (suite : List UInt8) : List UInt8 := ascii "[TEST] suite=" ++ suite ++ ascii " PASS"

/-- `begin(s) casePASS+ suitePASS(s)`: the names of a suite and of its cases. -/
structure Suite where
  name : List UInt8
  cases : List (List UInt8)
  isName : IsName name
  ne_nil : cases ≠ []
  isNames : ∀ case ∈ cases, IsName case

/-- The lines of a suite. -/
def Suite.lines (suite : Suite) : List (List UInt8) :=
  beginLine suite.name :: (suite.cases.map caseLine ++ [suiteLine suite.name])

/-- `(begin(s) casePASS+ suitePASS(s))+ allPASS`. -/
def Word (lines : List (List UInt8)) : Prop :=
  ∃ suites : List Suite, suites ≠ [] ∧ lines = suites.flatMap Suite.lines ++ [passLine]

/-- A step of the machine that does not fail. -/
inductive Step (p : Protocol) : List UInt8 → Protocol → Prop
  | begin {name} : p.activeSuite = none → IsName name →
    Step p (beginLine name) { p with activeSuite := some name, casePasses := 0 }
  | case {suite name} : p.activeSuite = some suite → IsName name →
    Step p (caseLine name) { p with casePasses := p.casePasses + 1 }
  | pass {suite} : p.activeSuite = some suite → IsName suite → 0 < p.casePasses →
    Step p (suiteLine suite)
      { p with activeSuite := none, casePasses := 0, completedSuites := p.completedSuites + 1 }
  | all : p.activeSuite = none → 0 < p.completedSuites → Step p passLine { p with passed := true }

/-- The lines of steps up to the total PASS. -/
inductive Spells : Protocol → List (List UInt8) → Prop
  | nil {p} : p.passed = true → p.failed = false → Spells p []
  | cons {p line q lines} : p.passed = false → Step p line q → Spells q lines → Spells p (line :: lines)

variable {p q : Protocol} {line name suite : List UInt8} {lines : List (List UInt8)}

theorem fullmatch_eq_some {head tail : List UInt8} :
    fullmatch head tail line = some name ↔ line = head ++ name ++ tail ∧ IsName name := by
  unfold fullmatch IsName
  constructor
  · intro h
    dsimp only at h
    split at h
    · next hmatch =>
      obtain rfl := Option.some.inj h
      exact hmatch
    · cases h
  · rintro ⟨rfl, hname⟩
    have hmiddle : ((head ++ name ++ tail).drop head.length).take
        ((head ++ name ++ tail).length - head.length - tail.length) = name := by
      rw [List.append_assoc, List.drop_left, List.length_append, List.length_append,
        show head.length + (name.length + tail.length) - head.length - tail.length = name.length by omega,
        List.take_left]
    dsimp only
    rw [hmiddle, if_pos ⟨rfl, hname⟩]

/-- The eighth byte tells a suite, a case and the total apart. -/
theorem fullmatch_case (tail : List UInt8) (h : line.getD 7 0 ≠ 0x63) :
    fullmatch (ascii "[TEST] case=") tail line = none := by
  refine Option.eq_none_iff_forall_ne_some.2 fun name hname => h ?_
  obtain ⟨rfl, -⟩ := fullmatch_eq_some.1 hname
  rfl

theorem fullmatch_suite (tail : List UInt8) (h : line.getD 7 0 ≠ 0x73) :
    fullmatch (ascii "[TEST] suite=") tail line = none := by
  refine Option.eq_none_iff_forall_ne_some.2 fun name hname => h ?_
  obtain ⟨rfl, -⟩ := fullmatch_eq_some.1 hname
  rfl

/-- The machine takes a step. -/
theorem Step.parseLine (h : Step p line q) (hp : p.passed = false) (hfail : ascii "FAIL" ∉ split line) :
    p.parseLine line = q := by
  cases h with
  | @begin name hactive hname =>
    have htest : IsTest (beginLine name) := ⟨_, rfl⟩
    have hbegin : suiteBegin (beginLine name) = some name := fullmatch_eq_some.2 ⟨rfl, hname⟩
    simp [Protocol.parseLine, htest, hp, hfail, hbegin, hactive]
  | @case suite name hactive hname =>
    have htest : IsTest (caseLine name) := ⟨_, rfl⟩
    have hbegin : suiteBegin (caseLine name) = none := fullmatch_suite _ (show (0x63 : UInt8) ≠ 0x73 by decide)
    have hcase : casePass (caseLine name) = some name := fullmatch_eq_some.2 ⟨rfl, hname⟩
    simp [Protocol.parseLine, htest, hp, hfail, hbegin, hcase, hactive]
  | @pass suite hactive hname hcases =>
    have htest : IsTest (suiteLine suite) := ⟨_, rfl⟩
    have hbegin : suiteBegin (suiteLine suite) = none := by
      refine Option.eq_none_iff_forall_ne_some.2 fun other hother => ?_
      have hlast := congrArg List.getLast? (fullmatch_eq_some.1 hother).1
      simp only [suiteLine, List.getLast?_append] at hlast
      exact absurd (show some (0x53 : UInt8) = some 0x6E from hlast) (by decide)
    have hcase : casePass (suiteLine suite) = none := fullmatch_case _ (show (0x73 : UInt8) ≠ 0x63 by decide)
    have hpass : suitePass (suiteLine suite) = some suite := fullmatch_eq_some.2 ⟨rfl, hname⟩
    simp [Protocol.parseLine, htest, hp, hfail, hbegin, hcase, hpass, hactive, Nat.ne_of_gt hcases]
  | all hactive hcompleted =>
    have htest : IsTest passLine := by decide
    have hbegin : suiteBegin passLine = none := by decide
    have hcase : casePass passLine = none := by decide
    have hpass : suitePass passLine = none := by decide
    simp [Protocol.parseLine, htest, hp, hfail, hbegin, hcase, hpass, hactive, Nat.ne_of_gt hcompleted]

/-- Whatever else it takes is a failure. -/
theorem step_of_parseLine (hline : IsTest line) (h : (p.parseLine line).failed = false) :
    p.passed = false ∧ ascii "FAIL" ∉ split line ∧ Step p line (p.parseLine line) := by
  revert h
  rw [Protocol.parseLine, if_neg (not_not.2 hline)]
  split
  · exact nofun
  next hpassed =>
  rw [Bool.not_eq_true] at hpassed
  split
  · exact nofun
  next hfail =>
  split
  · next name hmatch =>
    obtain ⟨rfl, hname⟩ := fullmatch_eq_some.1 hmatch
    split
    · exact nofun
    · next hactive => exact fun _ => ⟨hpassed, hfail, .begin (not_not.1 hactive) hname⟩
  split
  · next name hmatch =>
    obtain ⟨rfl, hname⟩ := fullmatch_eq_some.1 hmatch
    split
    · exact nofun
    · next hactive =>
      obtain ⟨suite, hsuite⟩ := Option.ne_none_iff_exists'.1 hactive
      exact fun _ => ⟨hpassed, hfail, .case hsuite hname⟩
  split
  · next name hmatch =>
    obtain ⟨rfl, hname⟩ := fullmatch_eq_some.1 hmatch
    split
    · exact nofun
    next hactive =>
    split
    · exact nofun
    · next hcases => exact fun _ => ⟨hpassed, hfail, .pass (not_not.1 hactive) hname (by omega)⟩
  split
  · next hall =>
    subst hall
    split
    · exact nofun
    · next hdone =>
      obtain ⟨hactive, hcompleted⟩ := not_or.1 hdone
      exact fun _ => ⟨hpassed, hfail, .all (not_not.1 hactive) (by omega)⟩
  · exact nofun

/-- A failure stays. -/
theorem Protocol.parseLine_failed (h : p.failed = true) : (p.parseLine line).failed = true := by
  unfold Protocol.parseLine
  repeat' split
  all_goals first | exact h | rfl

/-- A machine ends with a PASS and without failure when its lines are those of steps and none reports a
failure. -/
theorem spells_iff (hlines : ∀ line ∈ lines, IsTest line) :
    ∀ {p : Protocol}, ((lines.foldl Protocol.parseLine p).passed = true ∧
      (lines.foldl Protocol.parseLine p).failed = false) ↔
        Spells p lines ∧ ∀ line ∈ lines, ascii "FAIL" ∉ split line := by
  induction lines with
  | nil =>
    intro p
    refine ⟨fun h => ⟨.nil h.1 h.2, nofun⟩, ?_⟩
    rintro ⟨⟨hpassed, hok⟩, -⟩
    exact ⟨hpassed, hok⟩
  | cons line lines ih =>
    intro p
    rw [List.forall_mem_cons] at hlines ⊢
    rw [List.foldl_cons]
    constructor
    · intro h
      have hok : (p.parseLine line).failed = false := by
        refine Bool.eq_false_iff.2 fun hfailed => Bool.eq_false_iff.1 h.2 ?_
        exact List.foldlRecOn (motive := fun q => q.failed = true) lines Protocol.parseLine hfailed
          fun _ hq _ _ => Protocol.parseLine_failed hq
      obtain ⟨hpassed, hfail, hstep⟩ := step_of_parseLine hlines.1 hok
      obtain ⟨hrest, hfails⟩ := (ih hlines.2).1 h
      exact ⟨.cons hpassed hstep hrest, hfail, hfails⟩
    · rintro ⟨hspells, hfail, hfails⟩
      cases hspells with
      | cons hpassed hstep hrest =>
        rw [hstep.parseLine hpassed hfail]
        exact (ih hlines.2).2 ⟨hrest, hfails⟩

/-! ## Steps spell the words of the grammar -/

/-- What is left to be read, by whether the machine is in a suite. -/
theorem completes_of_spells (h : Spells p lines) (hp : p.passed = false) :
    ∃ suites : List Suite, match p.activeSuite with
      | none => 0 < p.completedSuites + suites.length ∧ lines = suites.flatMap Suite.lines ++ [passLine]
      | some suite => ∃ cases : List (List UInt8), (∀ case ∈ cases, IsName case) ∧
        0 < p.casePasses + cases.length ∧
        lines = cases.map caseLine ++ suiteLine suite :: (suites.flatMap Suite.lines ++ [passLine]) := by
  induction h with
  | nil hpassed =>
    rw [hp] at hpassed
    cases hpassed
  | cons _ hstep hrest ih =>
    cases hstep with
    | @begin suite hactive hname =>
      obtain ⟨suites, cases, hcases, hpos, rfl⟩ := ih hp
      have hne : cases ≠ [] := by
        rintro rfl
        exact Nat.lt_irrefl 0 hpos
      rw [hactive]
      exact ⟨⟨suite, cases, hname, hne, hcases⟩ :: suites, Nat.succ_pos _, by simp [Suite.lines]⟩
    | @case suite name hactive hname =>
      obtain ⟨suites, hrest⟩ := ih hp
      rw [hactive] at hrest ⊢
      obtain ⟨cases, hcases, -, rfl⟩ := hrest
      exact ⟨suites, name :: cases, List.forall_mem_cons.2 ⟨hname, hcases⟩, Nat.succ_pos _, rfl⟩
    | @pass suite hactive _ hpos =>
      obtain ⟨suites, -, rfl⟩ := ih hp
      rw [hactive]
      exact ⟨suites, [], nofun, hpos, rfl⟩
    | all hactive hpos =>
      rw [hactive]
      cases hrest with
      | nil => exact ⟨[], hpos, rfl⟩
      | cons hpassed => cases hpassed

/-- The cases of a suite and its PASS are spelled. -/
theorem spells_cases {cases : List (List UInt8)} (hcases : ∀ case ∈ cases, IsName case) (hname : IsName suite) :
    ∀ {p : Protocol}, p.passed = false → p.activeSuite = some suite → 0 < p.casePasses + cases.length →
      Spells { p with activeSuite := none, casePasses := 0, completedSuites := p.completedSuites + 1 } lines →
      Spells p (cases.map caseLine ++ suiteLine suite :: lines) := by
  induction cases with
  | nil => exact fun hp hactive hpos h => .cons hp (.pass hactive hname hpos) h
  | cons name cases ih =>
    intro p hp hactive hpos h
    rw [List.forall_mem_cons] at hcases
    exact .cons hp (.case hactive hcases.1) (ih hcases.2 hp hactive (by dsimp only; omega) h)

theorem spells_suites {suites : List Suite} :
    ∀ {p : Protocol}, p.passed = false → p.failed = false → p.activeSuite = none →
      0 < p.completedSuites + suites.length → Spells p (suites.flatMap Suite.lines ++ [passLine]) := by
  induction suites with
  | nil => exact fun hp hok hactive hpos => .cons hp (.all hactive hpos) (.nil rfl hok)
  | cons suite suites ih =>
    intro p hp hok hactive _
    have hpos := List.length_pos_iff.2 suite.ne_nil
    have hlines : (suite :: suites).flatMap Suite.lines ++ [passLine] = beginLine suite.name ::
        (suite.cases.map caseLine ++ suiteLine suite.name :: (suites.flatMap Suite.lines ++ [passLine])) := by
      simp [Suite.lines]
    rw [hlines]
    exact .cons hp (.begin hactive suite.isName) (spells_cases suite.isNames suite.isName hp rfl
      (by dsimp only; omega) (ih hp hok rfl (by dsimp only; omega)))

theorem spells_iff_word : Spells {} lines ↔ Word lines := by
  constructor
  · intro h
    obtain ⟨suites, hpos, hword⟩ := completes_of_spells h rfl
    exact ⟨suites, by rintro rfl; exact Nat.lt_irrefl 0 hpos, hword⟩
  · rintro ⟨suites, hne, rfl⟩
    exact spells_suites rfl rfl rfl (by simpa using List.length_pos_iff.2 hne)

/-! ## The verdict -/

/-- The machine passes over the other lines. -/
theorem foldl_parseLine (lines : List (List UInt8)) :
    lines.foldl Protocol.parseLine p = (lines.filter fun line => IsTest line).foldl Protocol.parseLine p := by
  rw [List.foldl_filter]
  congr 1
  funext p line
  by_cases hline : IsTest line
  · simp [hline]
  · simp [hline, Protocol.parseLine]

/-- What is left of a stream after `feed` and `finish`. -/
theorem finish_eq {chunks : List (List UInt8)} (h : ShortLines chunks.flatten) :
    ((chunks.foldl ProtocolParser.feed {}).finish).toProtocol =
      if IsTest (remainder chunks.flatten) then
        ((testLines chunks.flatten).foldl Protocol.parseLine {}).fail .unterminated
      else (testLines chunks.flatten).foldl Protocol.parseLine {} := by
  rw [feed_eq fun line hline => (h line hline).le, ProtocolParser.finish, foldl_parseLine]
  rfl

/-- **The parser accepts the words of the grammar**: in whatever pieces a stream of short lines comes,
it ends with a PASS and without failure exactly when the `[TEST]` lines of the stream form a word, none
of them reports FAIL, and none is left without its newline. The other lines do not matter. -/
theorem protocol_accepts (chunks : List (List UInt8)) (h : ShortLines chunks.flatten) :
    (((chunks.foldl ProtocolParser.feed {}).finish.passed = true ∧
        (chunks.foldl ProtocolParser.feed {}).finish.failed = false) ↔
      Word (testLines chunks.flatten) ∧ (∀ line ∈ testLines chunks.flatten, ascii "FAIL" ∉ split line) ∧
        ¬ IsTest (remainder chunks.flatten)) ∧
    ∀ other : List (List UInt8), ShortLines other.flatten → testLines other.flatten = testLines chunks.flatten →
      (IsTest (remainder other.flatten) ↔ IsTest (remainder chunks.flatten)) →
      (other.foldl ProtocolParser.feed {}).finish.toProtocol =
        (chunks.foldl ProtocolParser.feed {}).finish.toProtocol := by
  refine ⟨?_, fun other hother hlines hrest => ?_⟩
  · have htest : ∀ line ∈ testLines chunks.flatten, IsTest line :=
      fun line hline => of_decide_eq_true (List.mem_filter.1 hline).2
    rw [finish_eq h]
    split
    · next hrest => exact iff_of_false (fun hok => nomatch hok.2) fun hok => hok.2.2 hrest
    · next hrest => rw [spells_iff htest, spells_iff_word, and_iff_left hrest]
  · rw [finish_eq h, finish_eq hother, hlines]
    simp only [hrest]

/-- A stream in two pieces, with noise. -/
theorem protocol_accepts_stream :
    let chunks := [ascii "boot\n[TEST] suite=a begin\n[TEST] case=b PA",
      ascii "SS\r\n[TEST] suite=a PASS\n[TEST] all PASS\n"]
    (chunks.foldl ProtocolParser.feed {}).finish.passed = true ∧
      (chunks.foldl ProtocolParser.feed {}).finish.failed = false := by
  intro chunks
  have hshort : ShortLines chunks.flatten := by decide
  have hlines : testLines chunks.flatten = [beginLine (ascii "a"), caseLine (ascii "b"),
    suiteLine (ascii "a"), passLine] := by decide
  refine (protocol_accepts chunks hshort).1.2 ⟨⟨[⟨ascii "a", [ascii "b"], by decide, by decide, by decide⟩],
    by decide, hlines⟩, by decide, by decide⟩

/-! ## The pieces of the stream -/

theorem Step.getD_six (h : Step p line q) : line.getD 6 0 = 0x20 := by cases h <;> rfl

/-- A terminated line, and nothing behind it. -/
theorem feedLoop_line (h : 0x0A ∉ line) :
    (feedLoop p (line ++ [0x0A])).finish.failed = (p.parseLine (rstrip line)).failed := by
  have hsplit := List.splitOn_append_cons_self_of_not_mem h []
  rw [List.splitOn_nil] at hsplit
  rw [feedLoop_eq, streamLines, remainder, hsplit]
  show (feedLoop (p.parseLine (rstrip line)) []).finish.failed = _
  rw [feedLoop_rest (List.not_mem_nil), if_neg (by decide)]
  rfl

/-- A line of noise that is longer than the limit loses its beginning if a piece ends before its newline, and what is left may
be a line of the protocol. -/
theorem verdict_of_noise (hlength : line.length = lineLimit) (htest : ascii "[TEST]a" <+: line) (hline : 0x0A ∉ line)
    (hreturn : 0x0D ∉ line) :
    ([0x61 :: line ++ [0x0A]].foldl ProtocolParser.feed {}).finish.failed = false ∧
      ([0x61 :: line, [0x0A]].foldl ProtocolParser.feed {}).finish.failed = true := by
  have hnoise : ∀ rest, rest <+: 0x61 :: line → ¬ IsTest rest := fun rest hrest hprefix => by
    obtain ⟨t, ht⟩ := hprefix.trans hrest
    exact absurd (List.cons.inj ht).1 (by decide)
  have hline' : 0x0A ∉ 0x61 :: line := by simp [hline]
  constructor
  · show (feedLoop {} (0x61 :: line ++ [0x0A])).finish.failed = false
    rw [feedLoop_line hline', Protocol.parseLine, if_pos (hnoise (rstrip _) (List.rdropWhile_prefix _ _))]
  · have hcut : ProtocolParser.feed {} (0x61 :: line) = { pending := line } := by
      show feedLoop {} (0x61 :: line) = _
      rw [feedLoop_rest hline', if_pos (by simp [hlength]), if_neg (hnoise _ List.prefix_rfl), List.length_cons, hlength,
        Nat.add_sub_cancel_left, List.drop_one, List.tail_cons]
    have hstrip : rstrip line = line := List.rdropWhile_eq_self_iff.2 fun hne hlast =>
      hreturn (of_decide_eq_true hlast ▸ List.getLast_mem hne)
    show ((ProtocolParser.feed {} (0x61 :: line)).feed [0x0A]).finish.failed = true
    rw [hcut]
    show (feedLoop {} (line ++ [0x0A])).finish.failed = true
    rw [feedLoop_line hline, hstrip]
    -- the seventh byte is no space, so the line is none of the protocol
    by_contra hnot
    obtain ⟨-, -, hstep⟩ := step_of_parseLine ((by decide : ascii "[TEST]" <+: ascii "[TEST]a").trans htest)
      (Bool.eq_false_of_not_eq_true hnot)
    obtain ⟨t, rfl⟩ := htest
    exact absurd hstep.getD_six (show (0x61 : UInt8) ≠ 0x20 by decide)

end QemuTest

end MiniOrange
