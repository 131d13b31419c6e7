import Cqasm.Proofs.Recovery.Braces
import Cqasm.Proofs.Recovery.Complaints

/-!
# Reading along a row

A statement is read along its row up to the end or, if there is something to complain about, up to
the next separator behind that (`rowRead_recover`). Such a separator may stand within brackets, with
a part of the row left behind it (`Cut`). That part is read next, and as it starts inside brackets,
there is more to complain about. But reading never gets past the end of the row, and goes on from
there as it would have anyway (`exists_readsOn_row`, `Leaves.exists_readsOn`).
-/

set_option autoImplicit false

namespace Cqasm

open Grammar

/-! ## Where a row ends -/

/-- Tokens that follow a row: none, or some that a separator sets off from it. -/
def SetOff (ts : List Token) : Prop :=
  ∀ token ∈ ts.head?, token.kind.isSeparator

section

variable {d : Nat} {c stuck behind : Cursor} {token : Token} {row rest ts us vs : List Token}

/-- Where a statement may end, what follows is set off. -/
theorem Cursor.Passes.setOff (h : c.Passes ts behind) (hc : c.Ended)
    (hend : c.kind.endsStatement) : SetOff ts := by
  intro token htoken
  obtain ⟨us, rfl⟩ := List.head?_eq_some_iff.1 htoken
  have hne := hc.kind_ne token (by simp [h.tokens_eq])
  rw [h.kind_eq] at hend
  generalize token.kind = kind at hend hne
  cases kind <;> first | rfl | cases hend; done | exact absurd rfl hne

theorem setOff_of_separators (h : Separators ts) : SetOff ts :=
  fun token htoken => h token (List.mem_of_mem_head? htoken)

theorem SetOff.left (h : SetOff (us ++ vs)) : SetOff us := by
  cases us with
  | nil => exact fun _ htoken => by cases htoken
  | cons first us => exact h

/-- Outside of brackets no row goes on with a separator. -/
theorem eq_nil_of_setOff (h : SetOff us) (hdepth : (depthBehind 0 us).isSome) : us = [] := by
  cases us with
  | nil => rfl
  | cons first us =>
    have hkind := h first rfl
    rw [depthBehind_cons] at hdepth
    generalize first.kind = kind at hkind hdepth
    cases kind <;> first | cases hkind; done | cases hdepth

theorem not_brace_of_depthBehind {e : Nat} (h : depthBehind d ts = some e) (htoken : token ∈ ts) :
    token.kind ≠ .leftBrace ∧ token.kind ≠ .rightBrace := by
  induction ts generalizing d with
  | nil => cases htoken
  | cons first ts ih =>
    obtain ⟨middle, hfirst, hrest⟩ := exists_depth_of_cons h
    rcases List.mem_cons.1 htoken with rfl | htoken
    · constructor <;> intro hkind <;> rw [hkind] at hfirst <;> cases hfirst
    · exact ih hrest htoken

theorem notMem_of_depthBehind (htoken : token.kind = .rightBrace)
    (h : (depthBehind d ts).isSome) : token ∉ ts := by
  intro hmem
  obtain ⟨e, he⟩ := Option.isSome_iff_exists.1 h
  exact (not_brace_of_depthBehind he hmem).2 htoken

/-- What is passed without leaving the brackets does not reach past a row that ends outside of
them. -/
theorem exists_eq_append_of_depthBehind (hrow : depthBehind d row = some 0) (hrest : SetOff rest)
    (h : row ++ rest = ts ++ us) (hts : (depthBehind 0 ts).isSome) : ∃ vs, row = ts ++ vs := by
  rcases List.append_eq_append_iff.1 h with ⟨more, hsplit, hmore⟩ | ⟨vs, hrow, -⟩
  · -- Behind the row the depth is at most the one in front of it, which leaves no bracket open.
    obtain ⟨e, he⟩ := Option.isSome_iff_exists.1 hts
    rw [hsplit] at he
    obtain ⟨middle, hmiddle, hbehind⟩ := exists_depth_of_append he
    have hzero := (depthBehind_add hmiddle d).symm.trans (Nat.zero_add d ▸ hrow)
    have hmiddle : middle = 0 := by
      have := Option.some.inj hzero
      omega
    subst hmiddle
    have hnil : more = [] := by
      rw [hmore] at hrest
      exact eq_nil_of_setOff hrest.left (by rw [hbehind]; rfl)
    exact ⟨[], by rw [hsplit, hnil]; simp⟩
  · exact ⟨vs, hrow⟩

/-! ## Skipping to the end of a row -/

theorem bracesBehind_of_ne {kind : Kind} (h : kind ≠ .leftBrace) :
    Cursor.bracesBehind 0 kind = 0 := by
  cases kind <;> first | rfl | exact absurd rfl h

theorem passes_skip (hrest : SetOff rest) (hus : ∀ token ∈ us, token.kind ≠ .leftBrace) (c : Cursor)
    (previous : Option Token) :
    ({ c with previous, tokens := us ++ rest } : Cursor).Passes
      (us.takeWhile (!·.kind.isSeparator))
      (Cursor.skipStatement.skip c 0 previous (us ++ rest)) := by
  induction us generalizing previous with
  | nil =>
    cases rest with
    | nil => exact Cursor.passes_nil _
    | cons sep rest =>
      rw [List.nil_append, Cursor.skipStatement.skip, hrest sep rfl]
      exact Cursor.passes_nil _
  | cons token us ih =>
    obtain ⟨htoken, hus⟩ := List.forall_mem_cons.1 hus
    rw [List.cons_append, Cursor.skipStatement.skip, List.takeWhile_cons]
    cases token.kind.isSeparator with
    | true => exact Cursor.passes_nil _
    | false =>
      rw [bracesBehind_of_ne htoken]
      exact (Cursor.passes_advance rfl).trans (ih hus _)

/-- Where no brace is open, the tokens up to the next separator are skipped. -/
theorem passes_skipStatement (h : c.tokens = us ++ rest) (hrest : SetOff rest)
    (hus : ∀ token ∈ us, token.kind ≠ .leftBrace) :
    c.Passes (us.takeWhile (!·.kind.isSeparator)) (c.skipStatement 0) := by
  have hskip := passes_skip hrest hus c c.previous
  rw [← h] at hskip
  exact hskip

theorem passes_skip_of_brace {closing : Token} (hclosing : closing.kind = .rightBrace)
    (hrest : SetOff rest)
    (hus : ∀ token ∈ us, token.kind ≠ .leftBrace ∧ token.kind ≠ .rightBrace) (c : Cursor)
    (previous : Option Token) :
    ({ c with previous, tokens := us ++ closing :: rest } : Cursor).Passes (us ++ [closing])
      (Cursor.skipStatement.skip c 1 previous (us ++ closing :: rest)) := by
  induction us generalizing previous with
  | nil =>
    rw [List.nil_append, Cursor.skipStatement.skip, hclosing]
    have hskip := @passes_skip rest [] hrest (by simp) c (Cursor.passed previous closing)
    exact (Cursor.passes_advance rfl).trans hskip
  | cons token us ih =>
    obtain ⟨htoken, hus⟩ := List.forall_mem_cons.1 hus
    have hbraces : Cursor.bracesBehind 1 token.kind = 1 := by
      obtain ⟨hleft, hright⟩ := htoken
      generalize token.kind = kind at hleft hright
      cases kind <;> first | rfl | exact absurd rfl hleft | exact absurd rfl hright
    rw [List.cons_append, Cursor.skipStatement.skip, hbraces]
    exact (Cursor.passes_advance rfl).trans (ih hus _)

/-- Where a brace is open, everything up to the brace that closes it is skipped. -/
theorem passes_skipStatement_of_brace {closing : Token} (h : c.tokens = us ++ closing :: rest)
    (hclosing : closing.kind = .rightBrace) (hrest : SetOff rest)
    (hus : ∀ token ∈ us, token.kind ≠ .leftBrace ∧ token.kind ≠ .rightBrace) :
    c.Passes (us ++ [closing]) (c.skipStatement 1) := by
  have hskip := passes_skip_of_brace hclosing hrest hus c c.previous
  rw [← h] at hskip
  exact hskip

end

/-! ## Reading at the start of a row -/

/-- How reading something with recovery ends at the start of a row: in front of a separator of the
row or where the row is over, and without brackets that are still open if it succeeds. A complaint
is about a token of the row or the one behind it. -/
inductive RowRead {α : Type} (c : Cursor) (row : List Token) (read : Recovered α) : Prop
  | whole {ts us : List Token} :
      row = ts ++ us → c.Passes ts read.cursor → depthBehind 0 ts = some 0 → SetOff us →
      read.error = none → RowRead c row read
  | broken {ts us vs : List Token} {stuck : Cursor} {complaint : Complaint} :
      row = ts ++ (us ++ vs) → c.Passes ts stuck → stuck.Passes us read.cursor →
      (∀ token ∈ us, token.kind.isSeparator = false) → SetOff vs →
      read.error = some (.misplaced stuck.current complaint) → RowRead c row read

section

variable {α : Type} {p : Parser α} {placeholder : Location → α} {file : String} {d : Nat}
  {c behind : Cursor} {row rest : List Token}

theorem setOff_dropWhile (ts : List Token) :
    SetOff (ts.dropWhile (!·.kind.isSeparator)) := by
  intro token htoken
  have hhead := List.head?_dropWhile_not (!·.kind.isSeparator) ts
  rw [Option.mem_def.1 htoken] at hhead
  simpa using hhead

/-- A failure in a row leads to the next separator of the row, or to its end. -/
theorem rowRead_of_failed {ts : List Token} {stuck : Cursor} {failure : Failure}
    (hpasses : c.Passes row behind) (hbehind : SetOff behind.tokens)
    (hdepth : depthBehind d row = some 0) (hts : c.Passes ts stuck)
    (hsome : (depthBehind 0 ts).isSome) (hbraces : failure.openBraces = 0)
    (hrun : p.run file c = .failed failure stuck) :
    RowRead c row (p.recover placeholder file c) := by
  obtain ⟨us, hrow⟩ := exists_eq_append_of_depthBehind hdepth hbehind
    (hpasses.tokens_eq.symm.trans hts.tokens_eq) hsome
  rw [hrow] at hpasses hdepth
  obtain ⟨_, hts', hus⟩ := Cursor.passes_append_iff.1 hpasses
  obtain rfl := hts.eq hts'
  obtain ⟨middle, -, hmiddle⟩ := exists_depth_of_append hdepth
  -- Skipping counts braces, and there is none in the row: it stops at the first separator.
  have hskip := passes_skipStatement hus.tokens_eq hbehind fun token htoken =>
    (not_brace_of_depthBehind hmiddle htoken).1
  have hread : p.recover placeholder file c =
      { value :=
          placeholder ((stuck.skipStatement failure.openBraces).rangeFrom file
            (c.current.location file))
        error := some (.misplaced stuck.current failure.complaint)
        cursor := stuck.skipStatement failure.openBraces } := by
    rw [Parser.recover, hrun]
  rw [hread, hbraces]
  refine .broken ?_ hts hskip ?_ (setOff_dropWhile us) rfl
  · rw [List.takeWhile_append_dropWhile]
    exact hrow
  · intro token htoken
    simpa using List.all_eq_true.1 List.all_takeWhile token htoken

/-- Whatever keeps to the depth it starts at is read along a row that ends outside of brackets. -/
theorem rowRead_recover (placeholder : Location → α) (hc : c.Ended)
    (hpasses : c.Passes row behind) (hbehind : SetOff behind.tokens)
    (hdepth : depthBehind d row = some 0) (h : Nested c 0 0 (p.run file c)) :
    RowRead c row ((Parser.terminated p).recover placeholder file c) := by
  have h := Parser.nested_terminated hc h
  cases hrun : (Parser.terminated p).run file c with
  | failed failure stuck =>
    rw [hrun] at h
    obtain - | ⟨hts, hsome, hbraces⟩ := h
    exact rowRead_of_failed hpasses hbehind hdepth hts hsome hbraces hrun
  | ok value stop =>
    rw [hrun] at h
    obtain ⟨hts, hzero⟩ | - := h
    obtain ⟨us, hrow⟩ := exists_eq_append_of_depthBehind hdepth hbehind
      (hpasses.tokens_eq.symm.trans hts.tokens_eq) (by rw [hzero]; rfl)
    rw [Parser.recover_of_ok _ hrun]
    refine .whole hrow hts hzero ?_ rfl
    obtain ⟨-, hend⟩ := Parser.run_terminated_eq_ok.1 hrun
    rw [hrow] at hpasses
    obtain ⟨_, hts', hus⟩ := Cursor.passes_append_iff.1 hpasses
    obtain rfl := hts.eq hts'
    exact hus.setOff (hts.ended hc) hend

end

/-! ## Reading what is left of a row -/

section

variable {patience : Patience} {file : String} {d : Nat} {c middle behind : Cursor}
  {row ts us : List Token}

theorem Cursor.Ended.isSeparator_pastSeparators (hc : c.Ended) :
    c.pastSeparators.kind.isSeparator = false := by
  cases h : c.pastSeparators.tokens with
  | nil =>
    have heof := ((c.passes_pastSeparators.ended hc).kind_eq_eof_iff).2 h
    rw [heof]
    rfl
  | cons token tokens =>
    rw [kind, current_of_cons h]
    exact isSeparator_of_pastSeparators h

/-- Reading statements leads from one place to another one, with the given statements and complaints
on the way. -/
def ReadsOn (patience : Patience) (file : String) (complaints : Nat) (c behind : Cursor)
    (statements : List Statement) (errors : List Diagnostic) : Prop :=
  readStatements patience file complaints c =
    let rest := readStatements patience file (complaints + errors.length) behind
    { rest with
      statements := statements ++ rest.statements
      errors := errors ++ rest.errors }

section

variable {complaints : Nat} {statements statements' : List Statement}
  {errors errors' : List Diagnostic} {first : Token} {rest : List Token}

theorem ReadsOn.refl (patience : Patience) (file : String) (complaints : Nat) (c : Cursor) :
    ReadsOn patience file complaints c c [] [] := rfl

theorem ReadsOn.trans (h : ReadsOn patience file complaints c middle statements errors)
    (h' : ReadsOn patience file (complaints + errors.length) middle behind statements' errors') :
    ReadsOn patience file complaints c behind (statements ++ statements') (errors ++ errors') := by
  unfold ReadsOn at h h' ⊢
  rw [h, h', List.length_append, Nat.add_assoc]
  dsimp only
  rw [List.append_assoc, List.append_assoc]

/-- Separators in front of what is read next make no difference. -/
theorem readsOn_of_separators (hc : c.Ended) (hpasses : c.Passes ts behind) (hts : Separators ts)
    (complaints : Nat) : ReadsOn patience file complaints c behind [] [] := by
  have hend := hpasses.ended hc
  have hpast := (hpasses.trans behind.passes_pastSeparators).pastSeparators_eq
    (List.forall_mem_append.2 ⟨hts, Cursor.separators_takeWhile _⟩)
    hend.isSeparator_pastSeparators
  have hsame : readStatements patience file complaints c =
      readStatements patience file complaints behind := by
    rw [← readStatements_pastSeparators c, hpast, readStatements_pastSeparators]
  exact hsame

/-- The next statement is read, broken or not. -/
theorem readsOn_statement (file : String) (hpatience : patience.Endless) (complaints : Nat)
    (h : c.tokens = first :: rest) (hfirst : first.kind.isSeparator = false) :
    let read := (Parser.terminated Parser.statement).recover .erroneous file c
    ReadsOn patience file complaints c read.cursor [read.value] read.error.toList := by
  have hpast : c.pastSeparators = c :=
    c.passes_nil.pastSeparators_eq (by simp [Separators])
      (by rw [Cursor.kind, Cursor.current_of_cons h, hfirst])
  have hread : readStatements patience file complaints c = _ :=
    readStatements_of_cons (hpast ▸ h) (hpatience _)
  rw [hpast] at hread
  exact hread

end

/-- Separators are passed at one and the same depth. -/
theorem eq_of_depthBehind_of_separators {e : Nat} (hts : Separators ts)
    (h : depthBehind d ts = some e) : e = d := by
  rcases Nat.eq_zero_or_pos d with rfl | hd
  · rw [eq_nil_of_setOff (setOff_of_separators hts) (by rw [h]; rfl)] at h
    exact (Option.some.inj h).symm
  · exact Option.some.inj (h.symm.trans (depthBehind_of_separators hts hd))

/-- A row is made of separators only, or has some in front of its first other token. -/
theorem separators_or_exists_cons (row : List Token) :
    Separators row ∨ ∃ seps first rest, row = seps ++ first :: rest ∧ Separators seps ∧
      first.kind.isSeparator = false := by
  cases h : row.dropWhile (·.kind.isSeparator) with
  | nil => exact .inl fun token htoken => List.dropWhile_eq_nil_iff.1 h token htoken
  | cons first rest =>
    refine .inr ⟨_, first, rest, ?_, Cursor.separators_takeWhile row,
      Cursor.isSeparator_of_pastSeparators (c := ⟨none, row, default⟩) h⟩
    rw [← h, List.takeWhile_append_dropWhile]

/-- One statement, broken or not, is read from the start of a row of which the brackets are all
closed at its end. So they are at the end of what is left, and that starts at the same depth unless
there was a complaint. -/
theorem exists_recover_statement (file : String) {first : Token} {rest : List Token}
    (hc : c.Ended) (hpasses : c.Passes (first :: rest) behind) (hbehind : SetOff behind.tokens)
    (hdepth : depthBehind d (first :: rest) = some 0) (hfirst : first.kind.isSeparator = false) :
    ∃ read e ts us, read = (Parser.terminated Parser.statement).recover .erroneous file c ∧
      first :: rest = ts ++ us ∧ ts ≠ [] ∧ c.Passes ts read.cursor ∧
      read.cursor.Passes us behind ∧ depthBehind e us = some 0 ∧ (read.error = none → e = d) := by
  let read := (Parser.terminated Parser.statement).recover .erroneous file c
  have hbrace : c.kind ≠ .leftBrace := by
    rw [hpasses.kind_eq]
    exact (not_brace_of_depthBehind hdepth List.mem_cons_self).1
  have hread : RowRead c (first :: rest) read :=
    rowRead_recover .erroneous hc hpasses hbehind hdepth (Parser.nested_statement file hc hbrace)
  have hprogress : read.cursor.size < c.size :=
    Parser.size_recover_statement_lt hpasses.tokens_eq hfirst
  have hleft {ts us : List Token} (hsplit : first :: rest = ts ++ us)
      (hts : c.Passes ts read.cursor) : ts ≠ [] ∧ read.cursor.Passes us behind := by
    rw [hsplit] at hpasses
    obtain ⟨_, hts', hus⟩ := Cursor.passes_append_iff.1 hpasses
    obtain rfl := hts.eq hts'
    refine ⟨fun hnil => ?_, hus⟩
    have hsize := hts.size_eq
    rw [hnil, List.length_nil] at hsize
    omega
  -- Nothing was wrong and the row was read as far as it went, or its rest up to a separator was
  -- skipped.
  cases hread with
  | whole hsplit hts hzero _ herror =>
    obtain ⟨hne, hus⟩ := hleft hsplit hts
    rw [hsplit, depthBehind_append, depthBehind_of_balanced hzero, Option.bind_some] at hdepth
    exact ⟨read, d, _, _, rfl, hsplit, hne, hts, hus, hdepth, fun _ => rfl⟩
  | broken hsplit hts hus _ _ herror =>
    rw [← List.append_assoc] at hsplit
    obtain ⟨hne, hvs⟩ := hleft hsplit (hts.trans hus)
    rw [hsplit] at hdepth
    obtain ⟨e, -, hdepth⟩ := exists_depth_of_append hdepth
    refine ⟨read, e, _, _, rfl, hsplit, hne, hts.trans hus, hvs, hdepth, fun hnone => ?_⟩
    rw [herror] at hnone
    cases hnone

/-- A row of which the brackets are all closed at its end is read on its own, wherever in the row
reading starts. If it starts inside brackets there is something to complain about. -/
theorem exists_readsOn_row (file : String) (hpatience : patience.Endless) (complaints : Nat)
    {d : Nat} {c : Cursor} {row : List Token} (hc : c.Ended) (hpasses : c.Passes row behind)
    (hbehind : SetOff behind.tokens) (hdepth : depthBehind d row = some 0) :
    ∃ statements errors, ReadsOn patience file complaints c behind statements errors ∧
      (0 < d → statements ≠ [] ∧ errors ≠ []) := by
  rcases separators_or_exists_cons row with hseps | ⟨seps, first, rest, hrow, hseps, hfirst⟩
  · refine ⟨[], [], readsOn_of_separators hc hpasses hseps complaints, fun hd => ?_⟩
    rw [depthBehind_of_separators hseps hd] at hdepth
    exact absurd (Option.some.inj hdepth) (by omega)
  · rw [hrow] at hpasses hdepth
    obtain ⟨start, hstart, hpasses⟩ := Cursor.passes_append_iff.1 hpasses
    obtain ⟨_, hsame, hdepth⟩ := exists_depth_of_append hdepth
    rw [eq_of_depthBehind_of_separators hseps hsame] at hdepth
    have hended := hstart.ended hc
    obtain ⟨read, e, ts, us, hread, hsplit, hne, hts, hus, hleft, hsameDepth⟩ :=
      exists_recover_statement file hended hpasses hbehind hdepth hfirst
    -- Each statement takes something off the row, so what is left is a shorter one.
    have hlength : us.length < row.length := by
      have := List.length_pos_iff.2 hne
      rw [hrow, hsplit, List.length_append, List.length_append]
      omega
    obtain ⟨statements, errors, hrest, hfound⟩ := exists_readsOn_row file hpatience
      (complaints + read.error.toList.length) (hts.ended hended) hus hbehind hleft
    have hstatement := readsOn_statement file hpatience complaints hpasses.tokens_eq hfirst
    rw [← hread] at hstatement
    refine ⟨read.value :: statements, read.error.toList ++ errors,
      (readsOn_of_separators hc hstart hseps complaints).trans (hstatement.trans hrest),
      fun hd => ⟨List.cons_ne_nil _ _, ?_⟩⟩
    cases herror : read.error with
    | none => exact (hfound (hsameDepth herror ▸ hd)).2
    | some error => exact List.cons_ne_nil _ _
termination_by row.length

end

/-! ## Reading a broken row -/

/-- A complaint leaves a separator of a row without braces ahead. -/
def Cut (row : List Token) (error : Option Diagnostic) : Prop :=
  (∀ token ∈ row.head?, token.kind ≠ .leftBrace) ∧
    ∃ e ∈ error, ∃ sep ∈ row, sep.kind.isSeparator ∧ e.offset ≤ sep.start.offset

/-- What reading with recovery at the start of a row leaves of it: nothing, or, if a complaint
leaves a separator ahead, something that starts inside brackets. -/
inductive Leaves {α : Type} (row : List Token) (behind : Cursor) (read : Recovered α) : Prop
  | nothing : read.cursor = behind → ¬Cut row read.error → Leaves row behind read
  | inside {d : Nat} {us : List Token} :
      Cut row read.error → 0 < d → read.cursor.Passes us behind → depthBehind d us = some 0 →
      Leaves row behind read

section

variable {α : Type} {patience : Patience} {file : String} {c behind : Cursor}
  {row ts : List Token} {opening closing : Token} {read : Recovered α}

/-- A row with balanced brackets is read to its end, unless a complaint leaves a separator ahead. -/
theorem RowRead.leaves (h : RowRead c row read) (hc : c.Ordered) (hpasses : c.Passes row behind)
    (hdepth : depthBehind 0 row = some 0) : Leaves row behind read := by
  cases h with
  | whole hrow hts hzero hus herror =>
    rw [hrow, depthBehind_append, hzero, Option.bind_some] at hdepth
    rw [hrow, eq_nil_of_setOff hus (by rw [hdepth]; rfl), List.append_nil] at hpasses
    refine .nothing (hts.eq hpasses) ?_
    rintro ⟨-, _, hsome, -⟩
    rw [herror] at hsome
    cases hsome
  | @broken ts us vs stuck complaint hrow hts hus hsolid hvs herror =>
    have hpassed := hts.trans hus
    rw [hrow, ← List.append_assoc] at hpasses hdepth
    obtain ⟨_, hpassed', hleft⟩ := Cursor.passes_append_iff.1 hpasses
    obtain rfl := hpassed.eq hpassed'
    obtain ⟨d, -, hd⟩ := exists_depth_of_append hdepth
    -- Skipping went to the end of the row, or stopped at a separator inside it, and that is what
    -- cuts the row.
    cases vs with
    | nil =>
      refine .nothing hleft.eq_of_nil.symm ?_
      rintro ⟨-, e, hsome, sep, hsep, hkind, hle⟩
      cases herror.symm.trans hsome
      rw [hrow, List.append_nil] at hsep
      rcases List.mem_append.1 hsep with hsep | hsep
      · exact absurd hle (Nat.not_le.2 (hts.before hc hsep stuck.current_mem).offset_lt)
      · rw [hsolid sep hsep] at hkind
        cases hkind
    | cons sep vs =>
      have hahead : sep ∈ stuck.tokens ++ [stuck.last] := by
        rw [(hus.trans hleft).tokens_eq]
        simp
      have hhead : ∀ token ∈ row.head?, token.kind ≠ .leftBrace := by
        intro token htoken
        rw [hrow, ← List.append_assoc] at htoken
        exact (not_brace_of_depthBehind hdepth (List.mem_of_mem_head? htoken)).1
      refine .inside ⟨hhead, _, herror, sep, by simp [hrow], hvs sep rfl,
        (hts.ordered hc).offset_current_le hahead⟩ (Nat.pos_of_ne_zero ?_) hleft hd
      rintro rfl
      cases eq_nil_of_setOff hvs (by rw [hd]; rfl)

theorem Cursor.Ended.endsStatement (hc : c.Ended) (h : SetOff c.tokens) :
    c.kind.endsStatement := by
  cases htokens : c.tokens with
  | nil =>
    rw [hc.kind_eq_eof_iff.2 htokens]
    rfl
  | cons token tokens =>
    rw [htokens] at h
    rw [kind, current_of_cons htokens]
    exact Kind.endsStatement_of_isSeparator (h token rfl)

/-- Tokens in front of a brace that have no such brace are a part of what stands there. -/
theorem exists_eq_append_of_notMem {rest us vs : List Token}
    (h : ts ++ closing :: rest = us ++ vs) (hclosing : closing ∉ us) :
    ∃ ws, ts = us ++ ws ∧ vs = ws ++ closing :: rest := by
  rcases List.append_eq_append_iff.1 h with ⟨more, rfl, hmore⟩ | ⟨ws, hts, hvs⟩
  · cases more with
    | nil => exact ⟨[], by simp, hmore.symm⟩
    | cons first more =>
      cases hmore
      exact absurd (by simp) hclosing
  · exact ⟨ws, hts, hvs⟩

/-- A bundle in braces is read to its end, whatever is broken inside. -/
theorem cursor_recover_of_braced (file : String) (hc : c.Ended)
    (hpasses : c.Passes (opening :: (ts ++ [closing])) behind) (hbehind : SetOff behind.tokens)
    (hopening : opening.kind = .leftBrace) (hdepth : depthBehind 1 ts = some 1)
    (hclosing : closing.kind = .rightBrace) :
    ((Parser.terminated Parser.statement).recover .erroneous file c).cursor = behind := by
  have hkind : c.kind = .leftBrace := hpasses.kind_eq.trans hopening
  have hbundle := Parser.run_statement_of_brace file hkind
  have htokens : c.tokens = opening :: (ts ++ closing :: behind.tokens) := by
    rw [hpasses.tokens_eq]
    simp
  rcases Parser.bracedBundle_cases file hc hkind with
    ⟨s, us, closing', stop, hok, hus, husDepth, hclosing'⟩ |
    ⟨failure, us, stuck, hfailed, hus, hsome, hbraces⟩
  -- Reading the bundle went up to its own closing brace, since the depth is down to nothing only
  -- there.
  · have hsplit := List.tail_eq_of_cons_eq (htokens.symm.trans hus.tokens_eq)
    obtain ⟨ws, hts, hws⟩ := exists_eq_append_of_notMem
      (hsplit.trans (List.append_assoc us [closing'] stop.tokens))
      (notMem_of_depthBehind hclosing (by rw [husDepth]; rfl))
    cases ws with
    | cons first ws =>
      obtain ⟨rfl, -⟩ := List.cons.inj hws
      have hnotMem : closing' ∉ ts := notMem_of_depthBehind hclosing' (by rw [hdepth]; rfl)
      exact absurd (by simp [hts]) hnotMem
    | nil =>
      rw [List.append_nil] at hts
      obtain ⟨rfl, -⟩ := List.cons.inj hws
      rw [hts, ← hpasses.current_eq] at hpasses
      obtain rfl := hus.eq hpasses
      have hrun := Parser.run_terminated_eq_ok.2
        ⟨hbundle.trans hok, (hus.ended hc).endsStatement hbehind⟩
      rw [Parser.recover_of_ok _ hrun]
  · have hsplit := List.tail_eq_of_cons_eq (htokens.symm.trans hus.tokens_eq)
    obtain ⟨ws, hts, hws⟩ :=
      exists_eq_append_of_notMem hsplit (notMem_of_depthBehind hclosing hsome)
    have hskip := passes_skipStatement_of_brace hws hclosing hbehind fun token htoken =>
      not_brace_of_depthBehind hdepth (by rw [hts]; exact List.mem_append_right _ htoken)
    have hrun : (Parser.terminated Parser.statement).run file c = .failed failure stuck := by
      rw [Parser.terminated, Parser.run_bind, hbundle, hfailed]
    have hrow := hus.trans hskip
    rw [hpasses.current_eq, List.cons_append, ← List.append_assoc, ← hts] at hrow
    rw [Parser.recover, hrun]
    dsimp only
    rw [hbraces]
    exact hrow.eq hpasses

theorem Bracketed.leaves (h : Bracketed row) (file : String) (hc : c.Ended) (hordered : c.Ordered)
    (hpasses : c.Passes row behind) (hbehind : SetOff behind.tokens) :
    Leaves row behind ((Parser.terminated Parser.statement).recover .erroneous file c) := by
  cases h with
  | braced hopening hdepth hclosing =>
    refine .nothing
      (cursor_recover_of_braced file hc hpasses hbehind hopening hdepth hclosing) ?_
    rintro ⟨hhead, -⟩
    exact hhead _ rfl hopening
  | plain hdepth =>
    have hbrace : c.kind ≠ .leftBrace := by
      cases row with
      | nil =>
        intro hkind
        obtain rfl := hpasses.eq_of_nil
        have hend := hc.endsStatement hbehind
        rw [hkind] at hend
        cases hend
      | cons first rest =>
        rw [hpasses.kind_eq]
        exact (not_brace_of_depthBehind hdepth List.mem_cons_self).1
    exact (rowRead_recover _ hc hpasses hbehind hdepth
      (Parser.nested_statement file hc hbrace)).leaves hordered hpasses hdepth

/-- Reading goes on behind a row as it would without it. Where a separator was left ahead, there is
more to be read and complained about in between. -/
theorem Leaves.exists_readsOn (h : Leaves row behind read) (file : String)
    (hpatience : patience.Endless) (complaints : Nat) (hended : read.cursor.Ended)
    (hbehind : SetOff behind.tokens) :
    ∃ statements errors, ReadsOn patience file complaints read.cursor behind statements errors ∧
      (Cut row read.error → statements ≠ [] ∧ errors ≠ []) ∧
      (¬Cut row read.error → statements = [] ∧ errors = []) := by
  cases h with
  | nothing hcursor hcut =>
    rw [hcursor]
    exact ⟨[], [], .refl .., fun h => absurd h hcut, fun _ => ⟨rfl, rfl⟩⟩
  | inside hcut hd hus hdepth =>
    obtain ⟨statements, errors, hrest, hfound⟩ :=
      exists_readsOn_row file hpatience complaints hended hus hbehind hdepth
    exact ⟨statements, errors, hrest, fun _ => hfound hd, fun h => absurd hcut h⟩

end

end Cqasm
