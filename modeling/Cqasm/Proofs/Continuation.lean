import Cqasm.Proofs.Agreement.Program
import Cqasm.Proofs.Diagnosis
import Cqasm.Proofs.Lexical.Displacement

/-!
# What follows an accepted text

An accepted text does not influence how what follows on the next line is read: the statements behind
it and everything there is to report are those of the same text behind a bare version, some lines
further down (`parse_append_newline`). This holds however broken that text is, as long as it does
not begin with a qubits clause.

What follows is read twice, further down in one text than in the other. Its tokens are alike
(`TokenStream.forall₂_tokens`), and of tokens that are alike reading makes parts that are alike
(`IsRest.bodies`). Behind the accepted text the grammar is where it would be behind a bare version
(`wholeReading_append_newline`).
-/

set_option autoImplicit false

namespace Cqasm

open Grammar

/-! ## Lines -/

namespace Position

/-- Each newline that is walked over leads one line down. -/
theorem line_after (here : Position) (text : List Char) :
    (here.after text).line = here.line + text.count '\n' := by
  induction text generalizing here with
  | nil => rfl
  | cons c text ih =>
    rw [after_cons, ih, List.count_cons]
    unfold next
    by_cases hc : c = '\n'
    · simp only [hc, ↓reduceIte, beq_self_eq_true]
      omega
    · simp only [hc, ↓reduceIte, beq_iff_eq]
      omega

theorem below_eq (text : List Char) : below text = ⟨text.length + 1, text.count '\n' + 2, 0⟩ := by
  unfold below next
  rw [if_pos rfl, offset_after, line_after]
  simp only [start, Nat.zero_add, mk.injEq, and_true, true_and]
  omega

/-- Behind one text and a newline is so many lines further down than behind another on one line. -/
theorem below_below (text line : List Char) (hline : '\n' ∉ line) :
    (below text).Below (text.count '\n') (text.length + 1) (line.length + 1) (below line) := by
  rw [below_eq, below_eq, List.count_eq_zero_of_not_mem hline]
  constructor <;> dsimp only <;> omega

theorem below_start (text : List Char) :
    (below text).Below (text.count '\n' + 1) (text.length + 1) 0 start := by
  rw [below_eq]
  constructor <;> simp only [start] <;> omega

end Position

/-! ## The same text further down -/

variable {file : String} {lines a b : Nat} {here there : Position}

namespace TokenStream

theorem forall₂_tokens (h : here.Below lines a b there) (text : List Char) :
    List.Forall₂ (Token.Below lines a b) (ofTextAt here text).tokens
      (ofTextAt there text).tokens :=
  Item.forall₂_tokens (Item.forall₂_ofLexemes h _)

theorem forall₂_diagnostics (h : here.Below lines a b there) (text : List Char) :
    List.Forall₂ (Diagnostic.Below lines a b) (ofTextAt here text).diagnostics
      (ofTextAt there text).diagnostics :=
  Item.forall₂_diagnostics (Item.forall₂_ofLexemes h _)

theorem last_below (h : here.Below lines a b there) (text : List Char) :
    (ofTextAt here text).last.Below lines a b (ofTextAt there text).last :=
  ⟨rfl, rfl, rfl, h.after text⟩

end TokenStream

namespace Likeness

/-- Tokens are alike if the first is the second so many lines further down. -/
def below (file : String) (lines a b : Nat) : Likeness file file where
  like := Token.Below lines a b
  left := id
  right := Location.moveDown lines
  kind_eq h := h.kind_eq
  text_eq h := h.text_eq
  location_eq h := h.location_eq file
  through_eq := by
    intro start stop start' stop' hstart hstop
    rw [Location.moveDown_through, ← hstart, ← hstop]
    rfl

theorem eq_map_of_statements {statements statements' : List Statement}
    (h : List.Forall₂ (below file lines a b).Statements statements statements') :
    statements = statements'.map (·.relocate (Location.moveDown lines)) := by
  have hmap : statements.map (·.relocate id) =
      statements'.map (·.relocate (Location.moveDown lines)) :=
    map_eq_of_forall₂ h
  rwa [map_eq_self fun s _ => s.relocate_id] at hmap

/-- A complaint is about a token, and its token is further down. -/
theorem below_of_complaints {errors errors' : List Diagnostic}
    (h : List.Forall₂ (below file lines a b).Complaints errors errors') :
    List.Forall₂ (Diagnostic.Below lines a b) errors errors' := by
  apply h.imp
  rintro _ _ ⟨htoken⟩
  exact .misplaced htoken

end Likeness

/-! ## Reports further down -/

section

variable {p q : Diagnostic → Bool}

theorem forall₂_takeWhile_dropWhile {ds es : List Diagnostic}
    (h : List.Forall₂ (Diagnostic.Below lines a b) ds es)
    (hpq : ∀ d e, d.Below lines a b e → p d = q e) :
    List.Forall₂ (Diagnostic.Below lines a b) (ds.takeWhile p) (es.takeWhile q) ∧
      List.Forall₂ (Diagnostic.Below lines a b) (ds.dropWhile p) (es.dropWhile q) := by
  induction h with
  | nil => exact ⟨.nil, .nil⟩
  | @cons d e ds es hd hds ih =>
    rw [List.takeWhile_cons, List.takeWhile_cons, List.dropWhile_cons, List.dropWhile_cons,
      hpq d e hd]
    split
    · exact ⟨.cons hd ih.1, ih.2⟩
    · exact ⟨.nil, .cons hd hds⟩

/-- Moving down keeps the order in which diagnostics come up. -/
theorem forall₂_interleave {lexical lexical' complaints complaints' : List Diagnostic}
    (hlexical : List.Forall₂ (Diagnostic.Below lines a b) lexical lexical')
    (hcomplaints : List.Forall₂ (Diagnostic.Below lines a b) complaints complaints') :
    List.Forall₂ (Diagnostic.Below lines a b) (Reading.interleave lexical complaints)
      (Reading.interleave lexical' complaints') := by
  induction hcomplaints generalizing lexical lexical' with
  | nil => exact hlexical
  | @cons complaint complaint' _ _ hcomplaint _ ih =>
    have hoffset : ∀ d e : Diagnostic, d.Below lines a b e →
        decide (d.offset ≤ complaint.offset) = decide (e.offset ≤ complaint'.offset) := by
      intro d e hd
      have := hd.offset_eq
      have := hcomplaint.offset_eq
      rw [decide_eq_decide]
      omega
    obtain ⟨htake, hdrop⟩ := forall₂_takeWhile_dropWhile hlexical hoffset
    exact List.rel_append htake (.cons hcomplaint (ih hdrop))

end

/-! ## Behind an accepted text -/

variable {first rest : String}

/-- The newline between the two texts belongs to neither of them. -/
theorem streamOf_append_newline (first rest : String) :
    streamOf (first ++ "\n" ++ rest) = .ofText (first.toList ++ '\n' :: rest.toList) := by
  simp [streamOf]

theorem diagnostics_streamOf_append_newline (h : (streamOf first).diagnostics = []) :
    (streamOf (first ++ "\n" ++ rest)).diagnostics =
      (TokenStream.ofTextAt (.below first.toList) rest.toList).diagnostics := by
  rw [streamOf_append_newline, TokenStream.diagnostics_append_newline h]

/-- What is read of a stream to its end when statements are to come. -/
def IsRest (file : String) (stream : TokenStream) (body : Body) : Prop :=
  ∃ patience c, patience.Endless ∧ c.tokens = stream.tokens.dropWhile (·.kind.isSeparator) ∧
    c.last = stream.last ∧ body = readStatements patience file 0 c

theorem IsRest.bodies {k : Likeness file file} {stream stream' : TokenStream} {body body' : Body}
    (h : IsRest file stream body) (h' : IsRest file stream' body')
    (htokens : List.Forall₂ k.like stream.tokens stream'.tokens)
    (hlast : k.like stream.last stream'.last) : k.Bodies body body' := by
  obtain ⟨patience, c, hpatience, hc, hclast, rfl⟩ := h
  obtain ⟨patience', d, hpatience', hd, hdlast, rfl⟩ := h'
  apply Likeness.bodies_of_tokens hpatience hpatience' 0 0
  · rw [hc, hd]
    exact Likeness.forall₂_dropWhile Kind.isSeparator htokens
  · rwa [hclast, hdlast]

/-- The first token of a text that is no separator has the same kind further down. -/
theorem kind_pastSeparators_ofTextAt (h : here.Below lines a b .start) (rest : String) :
    (Cursor.ofStream (.ofTextAt here rest.toList)).pastSeparators.kind =
      (Cursor.ofStream (streamOf rest)).pastSeparators.kind := by
  have hcursors : (Likeness.below "" lines a b).Cursors
      (.ofStream (.ofTextAt here rest.toList)) (.ofStream (.ofTextAt .start rest.toList)) :=
    ⟨.none, TokenStream.forall₂_tokens h _, TokenStream.last_below h _⟩
  exact hcursors.pastSeparators.kind_eq

/-- Behind the tokens of a text there is a place that the next line is read from, whatever
separators the text ends in. -/
theorem exists_passes_append_newline {ts seps : List Token}
    (hlexical : (streamOf first).diagnostics = []) (htokens : (streamOf first).tokens = ts ++ seps)
    (hseps : Separators seps) (rest : String) :
    ∃ middle, (Cursor.ofStream (streamOf (first ++ "\n" ++ rest))).Passes ts middle ∧
      middle.kind.endsStatement ∧
      middle.pastSeparators.tokens =
        (TokenStream.ofTextAt (.below first.toList) rest.toList).tokens.dropWhile
          (·.kind.isSeparator) ∧
      middle.last = (TokenStream.ofTextAt (.below first.toList) rest.toList).last := by
  have htokens : (Cursor.ofStream (streamOf (first ++ "\n" ++ rest))).tokens =
      ts ++ (seps ++ .newline (Position.start.after first.toList) ::
        (TokenStream.ofTextAt (.below first.toList) rest.toList).tokens) := by
    rw [streamOf_append_newline, Cursor.ofStream, TokenStream.tokens_append_newline hlexical,
      htokens, List.append_assoc]
  obtain ⟨middle, hpasses, hmiddle⟩ := Cursor.exists_passes_of_append htokens
  refine ⟨middle, hpasses, ?_, ?_, ?_⟩
  · -- The text may end in separators of its own, and if it does not there is the newline.
    apply Kind.endsStatement_of_isSeparator
    rw [Cursor.kind, Cursor.current, hmiddle]
    cases seps with
    | nil => rfl
    | cons sep _ => exact hseps sep List.mem_cons_self
  · rw [Cursor.pastSeparators, hmiddle, List.dropWhile_append_of_pos hseps]
    rfl
  · rw [hpasses.last_eq, streamOf_append_newline, Cursor.ofStream,
      TokenStream.ofText_append_newline hlexical]

/-- Behind an accepted text and a newline, statements are read until the end. -/
theorem wholeReading_append_newline {program : Program}
    (hlexical : (streamOf first).diagnostics = [])
    (hprogram : IsProgram file (streamOf first).readAll.1 program)
    (hnext : (Cursor.ofStream (streamOf rest)).pastSeparators.kind ≠ .qubits) :
    ∃ version qubits statements range body range',
      program = .program version qubits statements range ∧
      IsRest file (.ofTextAt (.below first.toList) rest.toList) body ∧
      (wholeReading file (first ++ "\n" ++ rest)).root =
        Reading.rootOf (.program version qubits (statements ++ body.statements) range') ∧
      (wholeReading file (first ++ "\n" ++ rest)).errors = body.errors := by
  obtain ⟨before, qs, ss, seps, keyword, number, qubits, statements, htokens, hbefore, hkeyword,
    hnumber, hqubits, hstatements, hseps, -, rfl⟩ := exists_parts_of_isProgram hprogram
  obtain ⟨middle, hpasses, hend, hpast, hlast⟩ :=
    exists_passes_append_newline hlexical htokens hseps rest
  -- A clause could only come from what follows, which does not begin with one.
  have hnotQubits : middle.pastSeparators.kind ≠ .qubits := by
    have hkind : middle.pastSeparators.kind = (Cursor.ofStream
        (.ofTextAt (.below first.toList) rest.toList)).pastSeparators.kind := by
      rw [Cursor.kind, Cursor.current, hpast, show middle.pastSeparators.last = _ from hlast]
      rfl
    rwa [hkind, kind_pastSeparators_ofTextAt (Position.below_start _)]
  have hreading := Reading.ofCursor_append (endless_patience (first ++ "\n" ++ rest)) hpasses
    hbefore hkeyword hnumber hqubits hstatements hend fun _ _ => hnotQubits
  dsimp only at hreading
  rw [← readStatements_pastSeparators middle] at hreading
  exact ⟨_, _, _, _, _, _, rfl,
    ⟨_, _, endless_patience (first ++ "\n" ++ rest), hpast, hlast, rfl⟩,
    congrArg Reading.root hreading, congrArg Reading.errors hreading⟩

/-! ## Behind a bare version -/

/-- The least that is accepted. -/
def bareVersion : String :=
  "version 1.0"

/-- The shortest program is a version and nothing else. -/
theorem isProgram_bareVersion (file : String) :
    ∃ version range,
      IsProgram file (streamOf bareVersion).readAll.1 (.program version none [] range) := by
  have htokens : (streamOf bareVersion).readAll.1 =
      [{ kind := .version, text := "version".toList, start := ⟨0, 1, 0⟩, complete := true },
        { kind := .versionNumber, text := "1.0".toList, start := ⟨8, 1, 8⟩, complete := true },
        .atEnd ⟨11, 1, 11⟩] := by
    decide +kernel
  have hnone : Separators [] := by simp [Separators]
  rw [htokens]
  exact ⟨_, _, .mk hnone rfl rfl .none .nil hnone rfl⟩

/-- An accepted text does not influence how the text behind it is read. -/
theorem parse_append_newline {settings : Settings}
    (haccepted : (parseText settings file first).errors = [])
    (hnext : (Cursor.ofStream (streamOf rest)).pastSeparators.kind ≠ .qubits)
    (hwhole : (parseSession settings (.string (first ++ "\n" ++ rest) file)).errors.aborted = false)
    (hrest : (parseSession settings (.string ("version 1.0\n" ++ rest) file)).errors.aborted =
      false) :
    let lines := first.toList.count '\n'
    let whole := parseText settings file (first ++ "\n" ++ rest)
    let behind := parseText settings file ("version 1.0\n" ++ rest)
    let report := (limitedReading settings.limit file ("version 1.0\n" ++ rest)).report
      (streamOf ("version 1.0\n" ++ rest))
    ∃ version qubits statements range version' statements' range' range'',
      (parseText settings file first).root =
        some (Reading.rootOf (.program version qubits statements range)) ∧
      behind.root = some (Reading.rootOf (.program version' none statements' range')) ∧
      whole.root =
        some (Reading.rootOf (.program version qubits
          (statements ++ statements'.map (·.relocate (Location.moveDown lines))) range'')) ∧
      behind.errors = report.map (·.message file) ∧
      whole.errors = report.map (·.messageBelow lines file) := by
  have hbare : "version 1.0\n" ++ rest = bareVersion ++ "\n" ++ rest := by
    rw [show "version 1.0\n" = bareVersion ++ "\n" by decide +kernel]
  rw [hbare] at hrest ⊢
  intro lines whole behind report
  obtain ⟨hlexical, program, hprogram, hroot⟩ := isProgram_of_errors_eq_nil haccepted
  obtain ⟨version, qubits, statements, range, body, range'', rfl, hbody, hrootWhole,
    herrorsWhole⟩ :=
    wholeReading_append_newline hlexical hprogram hnext
  obtain ⟨version', range', hprogram'⟩ := isProgram_bareVersion file
  obtain ⟨_, _, _, _, body', range', heq, hbody', hrootBehind, herrorsBehind⟩ :=
    wholeReading_append_newline (by decide +kernel) hprogram' hnext
  cases heq
  have hbelow := Position.below_below first.toList bareVersion.toList (by decide +kernel)
  -- Both texts go on with the same characters, so the same is left to read some lines apart.
  have hbodies := hbody.bodies (k := .below file lines _ _) hbody'
    (TokenStream.forall₂_tokens hbelow _) (TokenStream.last_below hbelow _)
  obtain ⟨hreading, herrors⟩ := parse_of_not_aborted hwhole
  obtain ⟨hreading', herrors'⟩ := parse_of_not_aborted hrest
  refine ⟨version, qubits, statements, range, version', body'.statements, range', range'', hroot,
    ?_, ?_, ?_, ?_⟩
  · rw [show behind.root = _ from parseText_root .., hreading', hrootBehind]
    rfl
  · rw [show whole.root = _ from parseText_root .., hreading, hrootWhole,
      Likeness.eq_map_of_statements hbodies.statements]
  · rw [show behind.errors = _ from herrors', ← hreading']
    rfl
  · have hreport := forall₂_interleave (TokenStream.forall₂_diagnostics hbelow rest.toList)
      (Likeness.below_of_complaints hbodies.errors)
    have hmessages := map_eq_of_forall₂ (hreport.imp fun _ _ h => h.message_eq file)
    rw [← herrorsWhole, ← herrorsBehind, ← diagnostics_streamOf_append_newline hlexical,
      ← diagnostics_streamOf_append_newline (by decide +kernel), ← report_wholeReading,
      ← report_wholeReading, ← hreading'] at hmessages
    exact herrors.trans hmessages

/-- Two broken lines behind an accepted text, the last line of which ends in a comment. -/
theorem parse_append_newline_two_broken_lines :
    let settings : Settings := { logger := .silent, limit := 5, files := .empty }
    let first := "version 1.0\nqubits 2\nx q[0] # one"
    let rest := "y ]\nz $q[1]"
    (parseText settings "f" first).errors = [] ∧
      (Cursor.ofStream (streamOf rest)).pastSeparators.kind ≠ .qubits ∧
      (parseSession settings (.string (first ++ "\n" ++ rest) "f")).errors.aborted = false ∧
      (parseSession settings (.string ("version 1.0\n" ++ rest) "f")).errors.aborted = false ∧
      (parseText settings "f" ("version 1.0\n" ++ rest)).errors =
        ["f:2:3: syntax error, unexpected ']', expecting newline or ';'",
          "f:3:3: unexpected character '$'"] ∧
      (parseText settings "f" (first ++ "\n" ++ rest)).errors =
        ["f:4:3: syntax error, unexpected ']', expecting newline or ';'",
          "f:5:3: unexpected character '$'"] := by
  intro settings first rest
  have haccepted : (parseText settings "f" first).errors = [] := by decide +kernel
  have hnext : (Cursor.ofStream (streamOf rest)).pastSeparators.kind ≠ .qubits := by
    decide +kernel
  have hwhole : (parseSession settings (.string (first ++ "\n" ++ rest) "f")).errors.aborted =
      false := by
    decide +kernel
  have hrest : (parseSession settings (.string ("version 1.0\n" ++ rest) "f")).errors.aborted =
      false := by
    decide +kernel
  obtain ⟨_, _, _, _, _, _, _, _, -, -, -, hbehind, herrors⟩ :=
    parse_append_newline haccepted hnext hwhole hrest
  refine ⟨haccepted, hnext, hwhole, hrest, ?_, ?_⟩
  · rw [hbehind]
    decide +kernel
  · rw [herrors]
    decide +kernel

end Cqasm
