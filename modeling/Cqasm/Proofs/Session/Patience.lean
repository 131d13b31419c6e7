import Cqasm.Reader.Program

/-!
# Patience makes no difference until it is exhausted

A reading with a limit is the reading without one, unless as many diagnostics came up as exhaust its
patience (`Reading.ofStream_eq_or_exhausted`). How many come up can be told from either reading: all
that the limited one reports, and no more than there are at all.
-/

set_option autoImplicit false

namespace Cqasm

/-- Reading goes on however many diagnostics there are. -/
def Patience.Endless (patience : Patience) : Prop :=
  ∀ diagnostics, patience.isExhaustedBy diagnostics = false

/-- The same patience without an end. -/
def Patience.endless (patience : Patience) : Patience :=
  { patience with isExhaustedBy := fun _ => false }

theorem Patience.length_lexicalUpTo_le (patience : Patience) (token : Token) :
    (patience.lexicalUpTo token).length ≤ patience.lexical.length :=
  List.length_filter_le ..

theorem readStatements_eq_or_exhausted (patience : Patience) (file : String) (complaints : Nat)
    (c : Cursor) :
    readStatements patience file complaints c = readStatements patience.endless file complaints c ∨
      ∃ n, patience.isExhaustedBy n ∧
        n ≤ complaints + (readStatements patience file complaints c).errors.length +
          (patience.lexicalUpTo (readStatements patience file complaints c).cursor.current).length ∧
        n ≤ complaints + (readStatements patience.endless file complaints c).errors.length +
          patience.lexical.length := by
  fun_induction readStatements patience file complaints c with
  | case1 complaints c h =>
    left
    rw [readStatements]
    split
    · rfl
    · next htokens => cases h.symm.trans htokens
  | case2 complaints c token tokens h hexhausted =>
    -- Giving up counts what came up so far, and without an end no less comes up.
    right
    refine ⟨_, hexhausted, ?_, ?_⟩
    · rw [show c.pastSeparators.current = token by rw [Cursor.current, h]; rfl]
      exact Nat.le_refl _
    · have := patience.length_lexicalUpTo_le token
      omega
  | case3 complaints c token tokens h hexhausted read rest ih =>
    -- Patience has no say in how this statement is read, only in whether the next one is.
    have hendless : readStatements patience.endless file complaints c =
        let later := readStatements patience.endless file
          (complaints + read.error.toList.length) read.cursor
        { later with
          statements := read.value :: later.statements
          errors := read.error.toList ++ later.errors } := by
      rw [readStatements]
      split
      · next htokens => cases h.symm.trans htokens
      · next htokens =>
        cases h.symm.trans htokens
        rfl
    rw [hendless]
    rcases ih with heq | ⟨n, hn, hlimited, hall⟩
    · left
      rw [show rest = _ from heq]
    · right
      refine ⟨n, hn, ?_, ?_⟩
      · simpa [Nat.add_assoc] using hlimited
      · simpa [Nat.add_assoc] using hall

namespace Reading

theorem length_interleave (lexical complaints : List Diagnostic) :
    (interleave lexical complaints).length = lexical.length + complaints.length := by
  induction complaints generalizing lexical with
  | nil => rfl
  | cons complaint complaints ih =>
    have hsplit := congrArg List.length
      (List.takeWhile_append_dropWhile (p := (·.offset ≤ complaint.offset)) (l := lexical))
    rw [List.length_append] at hsplit
    rw [interleave, List.length_append, List.length_cons, ih, List.length_cons]
    omega

theorem ofVersion_eq_or_exhausted (patience : Patience) (file : String) (start : Location)
    (version : Version) (c : Cursor) :
    ofVersion patience file start version c = ofVersion patience.endless file start version c ∨
      ∃ n, patience.isExhaustedBy n ∧
        n ≤ (ofVersion patience file start version c).errors.length +
          (patience.lexicalUpTo (ofVersion patience file start version c).stop).length ∧
        n ≤ (ofVersion patience.endless file start version c).errors.length +
          patience.lexical.length := by
  unfold ofVersion
  dsimp only
  generalize Parser.versionEnd.recover _ file c = broken
  generalize readQubits file broken.cursor.pastSeparators = qubits
  rcases readStatements_eq_or_exhausted patience file
      (broken.error.toList ++ qubits.error.toList).length qubits.cursor
    with h | ⟨n, hn, hlimited, hall⟩
  · left
    rw [h]
  · right
    refine ⟨n, hn, ?_, ?_⟩
    · rw [List.length_append]
      exact hlimited
    · rw [List.length_append]
      exact hall

theorem ofCursor_eq_or_exhausted (patience : Patience) (file : String) (c : Cursor) :
    ofCursor patience file c = ofCursor patience.endless file c ∨
      ∃ n, patience.isExhaustedBy n ∧
        n ≤ (ofCursor patience file c).errors.length +
          (patience.lexicalUpTo (ofCursor patience file c).stop).length ∧
        n ≤ (ofCursor patience.endless file c).errors.length + patience.lexical.length := by
  unfold ofCursor
  dsimp only
  -- A reading without a version has one complaint, after which it asks once.
  cases Parser.version.run file c.pastSeparators with
  | ok version behind => exact ofVersion_eq_or_exhausted ..
  | failed failure stuck =>
    unfold ofBrokenVersion
    dsimp only
    by_cases hexhausted : patience.isExhausted 1 stuck.current
    · right
      have := patience.length_lexicalUpTo_le stuck.current
      refine ⟨_, hexhausted, ?_, Nat.add_le_add_left this 1⟩
      rw [if_pos hexhausted]
      exact Nat.le_refl _
    · left
      rw [if_neg hexhausted]
      rfl

/-- A reading with a limit is the reading without one, unless its patience is exhausted by what came
up. -/
theorem ofStream_eq_or_exhausted (isExhaustedBy : Nat → Bool) (file : String)
    (stream : TokenStream) :
    ofStream isExhaustedBy file stream = ofStream (fun _ => false) file stream ∨
      ∃ n, isExhaustedBy n ∧ n ≤ ((ofStream isExhaustedBy file stream).report stream).length ∧
        n ≤ (ofStream (fun _ => false) file stream).errors.length + stream.diagnostics.length := by
  rcases ofCursor_eq_or_exhausted (patienceFor stream isExhaustedBy) file (.ofStream stream)
    with h | ⟨n, hn, hlimited, hall⟩
  · exact .inl h
  · refine .inr ⟨n, hn, ?_, hall⟩
    rw [report, length_interleave, Nat.add_comm]
    exact hlimited

end Reading

end Cqasm
