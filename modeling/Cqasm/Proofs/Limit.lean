import Cqasm.Proofs.Diagnosis
import Cqasm.Proofs.Recovery.Complaints

/-!
# What a limit cuts off

Reading with a limit is reading without one that breaks off: the second goes on where the first has
given up (`readStatements_resume`), and whatever it comes upon there is reported behind all the
first has reported (`Reading.BreaksOff.report_prefix`). So a limit keeps a beginning of the messages
and of the statements, and nothing else changes (`parse_limited`).
-/

set_option autoImplicit false

namespace Cqasm

variable {file text : String}

/-! ## Reports -/

namespace Reading

/-- Diagnostics about characters that come up only after some complaints come after these in the
report, too. -/
theorem interleave_append {early late complaints more : List Diagnostic}
    (hearly : ∀ d ∈ early, ∀ e ∈ more, d.offset ≤ e.offset)
    (hlate : ∀ d ∈ late, ∀ e ∈ complaints, e.offset < d.offset) :
    interleave (early ++ late) (complaints ++ more) =
      interleave early complaints ++ interleave late more := by
  -- The first complaint takes all that comes before it, none of which is late.
  induction complaints generalizing early with
  | nil =>
    cases more with
    | nil => rfl
    | cons e more =>
      have hall : ∀ d ∈ early, decide (d.offset ≤ e.offset) :=
        fun d hd => decide_eq_true (hearly d hd e List.mem_cons_self)
      rw [List.nil_append, interleave, interleave, interleave,
        List.takeWhile_append_of_pos hall, List.dropWhile_append_of_pos hall, List.append_assoc]
  | cons e complaints ih =>
    have hnone : ∀ d ∈ late, ¬decide (d.offset ≤ e.offset) := by
      intro d hd
      rw [decide_eq_true_iff]
      exact Nat.not_le.2 (hlate d hd e List.mem_cons_self)
    have htake : (early ++ late).takeWhile (·.offset ≤ e.offset) =
        early.takeWhile (·.offset ≤ e.offset) := by
      rw [List.takeWhile_append]
      split
      · next hlength =>
        have hlate : late.takeWhile (·.offset ≤ e.offset) = [] := by
          cases late with
          | nil => rfl
          | cons d late => exact List.takeWhile_cons_of_neg (hnone d List.mem_cons_self)
        rw [hlate, List.append_nil]
        exact ((List.takeWhile_prefix _).eq_of_length hlength).symm
      · rfl
    have hdrop : (early ++ late).dropWhile (·.offset ≤ e.offset) =
        early.dropWhile (·.offset ≤ e.offset) ++ late := by
      have hsplit := (early ++ late).takeWhile_append_dropWhile (p := (·.offset ≤ e.offset))
      rw [htake] at hsplit
      refine List.append_cancel_left (hsplit.trans ?_)
      rw [← List.append_assoc, List.takeWhile_append_dropWhile]
    rw [List.cons_append, interleave, interleave, htake, hdrop, ih, List.append_assoc,
      List.cons_append]
    · exact fun d hd => hearly d ((List.dropWhile_sublist _).mem hd)
    · exact fun d hd e' he' => hlate d hd e' (List.mem_cons_of_mem _ he')

end Reading

/-- Diagnostics in order are those up to an offset and then those behind it. -/
theorem eq_append_of_offset {ds : List Diagnostic}
    (h : ds.Pairwise fun a b => a.offset ≤ b.offset) (n : Nat) :
    ds = ds.filter (·.offset ≤ n) ++ ds.filter (n < ·.offset) := by
  induction h with
  | nil => rfl
  | @cons d ds hd _ ih =>
    by_cases hn : d.offset ≤ n
    · rw [List.filter_cons_of_pos (by simpa using hn),
        List.filter_cons_of_neg (by simpa using hn), List.cons_append, ← ih]
    · have hnone : ds.filter (·.offset ≤ n) = [] := by
        rw [List.filter_eq_nil_iff]
        intro e he
        have := hd e he
        simp only [decide_eq_true_eq]
        omega
      have hall : ds.filter (n < ·.offset) = ds := by
        rw [List.filter_eq_self]
        intro e he
        have := hd e he
        simp only [decide_eq_true_eq]
        omega
      rw [List.filter_cons_of_neg (by simpa using hn),
        List.filter_cons_of_pos (by simpa using Nat.lt_of_not_le hn), hnone, hall, List.nil_append]

/-! ## Trees -/

/-- One tree is the beginning of another one: neither has anything behind a version it could not
read, or both have the same head and the one has the first statements of the other. -/
inductive Root.Beginning : Root → Root → Prop
  | erroneous (range : Location) :
      Beginning (Reading.rootOf (.erroneous range)) (Reading.rootOf (.erroneous range))
  | program (version : Version) (qubits : Option Expr) (statements later : List Statement)
      (range range' : Location) :
      Beginning (Reading.rootOf (.program version qubits statements range))
        (Reading.rootOf (.program version qubits (statements ++ later) range'))

/-! ## Readings -/

/-- One reading breaks off where another one goes on: the tree is a beginning of the other one, and
the complaints that it lacks are about tokens that it did not pass. -/
structure Reading.BreaksOff (limited whole : Reading) : Prop where
  root : limited.root.Beginning whole.root
  errors : ∃ later, whole.errors = limited.errors ++ later ∧
    ∀ e ∈ later, limited.stop.start.offset ≤ e.offset

variable {patience : Patience} {c : Cursor}

/-- Where patience is exhausted, reading without an end goes on. -/
theorem readStatements_resume (patience : Patience) (file : String) (complaints : Nat)
    (c : Cursor) :
    readStatements patience.endless file complaints c =
      let limited := readStatements patience file complaints c
      let later := readStatements patience.endless file (complaints + limited.errors.length)
        limited.cursor
      { statements := limited.statements ++ later.statements
        errors := limited.errors ++ later.errors
        cursor := later.cursor } := by
  fun_induction readStatements patience file complaints c with
  | case1 complaints c h => exact (readStatements_pastSeparators c).symm
  | case2 complaints c token tokens h hexhausted => exact (readStatements_pastSeparators c).symm
  | case3 complaints c token tokens h hexhausted read rest ih =>
    rw [readStatements_of_cons h rfl]
    dsimp only
    rw [show readStatements patience.endless file (complaints + read.error.toList.length)
      read.cursor = _ from ih]
    dsimp only
    rw [List.length_append, Nat.add_assoc, List.append_assoc]
    rfl

namespace Reading

theorem breaksOff_ofVersion {start : Location} {version : Version} (hc : c.Ordered)
    (hended : c.Ended) :
    (ofVersion patience file start version c).BreaksOff
      (ofVersion patience.endless file start version c) := by
  have hhead := complaints_head file (fun range => [.erroneous range]) hc hended
  obtain ⟨ts, hts⟩ := hhead.passes
  unfold ofVersion
  dsimp only at hts ⊢
  -- The head of the program is read in the same way, so only the statements have to be compared.
  generalize Parser.versionEnd.recover _ file c = broken at hts ⊢
  generalize readQubits file broken.cursor.pastSeparators = qubits at hts ⊢
  generalize broken.error.toList ++ qubits.error.toList = errors
  obtain ⟨us, hus⟩ :=
    (complaints_readStatements patience file errors.length (hts.ordered hc)).passes
  have hlimited := hus.ordered (hts.ordered hc)
  rw [readStatements_resume]
  dsimp only
  generalize readStatements patience file errors.length qubits.cursor = limited at hlimited ⊢
  have hlater := complaints_readStatements patience.endless file
    (errors.length + limited.errors.length) hlimited
  refine ⟨?_, _, (List.append_assoc ..).symm, fun e he => hlater.le_offset hlimited he⟩
  rw [← List.append_assoc]
  exact .program ..

theorem breaksOff_ofBrokenVersion {start : Location} {failure : Failure} :
    (ofBrokenVersion patience file start failure c).BreaksOff
      (ofBrokenVersion patience.endless file start failure c) :=
  ⟨.erroneous _, [], (List.append_nil _).symm, by simp⟩

theorem breaksOff_ofCursor (patience : Patience) (file : String) (hc : c.Ordered)
    (hended : c.Ended) :
    (ofCursor patience file c).BreaksOff (ofCursor patience.endless file c) := by
  have hpast := c.passes_pastSeparators
  obtain ⟨ts, hts⟩ := Parser.version.passes file c.pastSeparators
  unfold ofCursor
  dsimp only
  cases hrun : Parser.version.run file c.pastSeparators with
  | ok version behind =>
    rw [hrun] at hts
    exact breaksOff_ofVersion ((hpast.trans hts).ordered hc) ((hpast.trans hts).ended hended)
  | failed failure stuck => exact breaksOff_ofBrokenVersion

end Reading

/-- A limited reading of a text breaks off where the whole reading goes on. -/
theorem breaksOff_limitedReading (limit : Nat) (file text : String) :
    (limitedReading limit file text).BreaksOff (wholeReading file text) :=
  Reading.breaksOff_ofCursor _ file (ordered_ofStream text) (ended_ofStream text)

/-- What is reported of a limited reading is reported of the whole one, and at first nothing
else. -/
theorem report_limitedReading_prefix (limit : Nat) (file text : String) :
    (limitedReading limit file text).report (streamOf text) <+:
      (wholeReading file text).report (streamOf text) := by
  obtain ⟨-, later, herrors, hlater⟩ := breaksOff_limitedReading limit file text
  obtain ⟨habout, -⟩ := Reading.errors_ofCursor file
    (Reading.patienceFor (streamOf text) (ErrorLog.empty limit).isExhaustedBy)
    (ordered_ofStream text) (ended_ofStream text)
  let stop := (limitedReading limit file text).stop.start.offset
  rw [report_wholeReading, herrors,
    eq_append_of_offset (TokenStream.sorted_diagnostics text.toList) stop,
    Reading.interleave_append]
  · exact List.prefix_append _ _
  · intro d hd e he
    exact Nat.le_trans (of_decide_eq_true (List.mem_filter.1 hd).2) (hlater e he)
  · intro d hd e he
    obtain ⟨token, complaint, rfl, -, hle⟩ := habout e he
    exact Nat.lt_of_le_of_lt hle (of_decide_eq_true (List.mem_filter.1 hd).2)

/-! ## Results -/

/-- Every text has a limit that it does not reach. -/
theorem exists_limit_not_aborted (file text : String) :
    ∃ limit, ∀ settings : Settings, limit ≤ settings.limit →
      (parseSession settings (.string text file)).errors.aborted = false := by
  exact ⟨_, fun _ => aborted_of_length_le⟩

/-- How many complaints there are can be told from the number of messages as long as the limit
leaves room for them: beyond it there is a notice. -/
theorem length_errors_parseText_le_iff {settings : Settings} {n : Nat}
    (h : (streamOf text).diagnostics.length + n ≤ settings.limit) :
    (parseText settings file text).errors.length ≤ (streamOf text).diagnostics.length + n ↔
      (wholeReading file text).errors.length ≤ n := by
  have hwhole := length_messagesOf_wholeReading file text
  rw [length_errors_parseText settings file text rfl]
  split
  · next hlimit =>
    rw [limitedReading_eq_of_length_le hlimit, hwhole]
    omega
  · next hlimit =>
    have hmore : settings.limit <
        (wholeReading file text).errors.length + (streamOf text).diagnostics.length := by
      refine Nat.lt_of_not_le fun hle => hlimit ?_
      rw [limitedReading_eq_of_errors_le hle, hwhole]
      omega
    omega

variable {unlimited : Settings}

/-- A limit keeps the first of the messages that there are without one, and puts a notice in place
of the rest; of the tree it keeps the head and the first statements. If there are no more messages
than the limit, it changes nothing. -/
theorem parse_limited (settings : Settings)
    (h : (parseSession unlimited (.string text file)).errors.aborted = false) :
    let limited := parseText settings file text
    let whole := parseText unlimited file text
    (whole.errors.length ≤ settings.limit → limited = whole) ∧
      (settings.limit < whole.errors.length →
        limited.errors =
          whole.errors.take settings.limit ++ [ErrorLog.notice settings.limit] ∧
        ∃ root root', limited.root = some root ∧ whole.root = some root' ∧
          root.Beginning root') := by
  intro limited whole
  obtain ⟨hreading, herrors⟩ := parse_of_not_aborted h
  have hwhole : whole =
      { root := some (wholeReading file text).root
        errors := messagesOf file text (wholeReading file text) } := by
    rw [← herrors, ← hreading, ← parseText_root]
  obtain ⟨more, hmore⟩ := report_limitedReading_prefix settings.limit file text
  have hmessages : messagesOf file text (wholeReading file text) =
      messagesOf file text (limitedReading settings.limit file text) ++
        more.map (·.message file) := by
    rw [messagesOf, ← hmore, List.map_append]
    rfl
  rw [hwhole]
  dsimp only
  constructor
  · intro hle
    have hlength : (messagesOf file text (limitedReading settings.limit file text)).length ≤
        settings.limit := by
      rw [hmessages, List.length_append] at hle
      omega
    have heq := limitedReading_eq_of_length_le hlength
    rw [← heq, ← parseText_root, ← ErrorLog.messages_foldl_add_of_le hlength,
      ← parseSession_errors_eq, ← parseText_errors]
  · intro hlt
    -- If the limited reading had come upon no more than the limit, it would be the whole one.
    have hlength : settings.limit <
        (messagesOf file text (limitedReading settings.limit file text)).length := by
      refine Nat.lt_of_not_le fun hle => ?_
      rw [← limitedReading_eq_of_length_le hle] at hlt
      exact Nat.not_lt.2 hle hlt
    refine ⟨?_, _, _, parseText_root .., rfl, (breaksOff_limitedReading ..).root⟩
    rw [show limited.errors = _ from parseText_errors .., parseSession_errors_eq,
      ErrorLog.messages_foldl_add_of_lt hlength, hmessages,
      List.take_append_of_le_length (Nat.le_of_lt hlength)]

/-- Of four messages, one of them about a character, a limit of two keeps the first half. -/
theorem parse_limited_two_of_four :
    let unlimited : Settings := { logger := .silent, limit := 9, files := .empty }
    let settings : Settings := { logger := .silent, limit := 2, files := .empty }
    let text := "version 1.0\nx ]\ny $\nz ]\nw ]"
    (parseSession unlimited (.string text "f")).errors.aborted = false ∧
      (parseText unlimited "f" text).errors.length = 4 ∧
      (parseText settings "f" text).errors =
        ["f:2:3: syntax error, unexpected ']', expecting newline or ';'",
          "f:3:3: unexpected character '$'",
          "too many errors, giving up after 2"] := by
  intro unlimited settings text
  have h : (parseSession unlimited (.string text "f")).errors.aborted = false := by
    decide +kernel
  have hlength : (parseText unlimited "f" text).errors.length = 4 := by decide +kernel
  obtain ⟨-, hbeyond⟩ := parse_limited settings h
  obtain ⟨herrors, -⟩ := hbeyond (by rw [hlength]; decide)
  refine ⟨h, hlength, herrors.trans ?_⟩
  decide +kernel

end Cqasm
