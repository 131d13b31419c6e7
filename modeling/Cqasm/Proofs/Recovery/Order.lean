import Cqasm.Proofs.Grammar.Ranges
import Cqasm.Proofs.Lexical.Places
import Cqasm.Proofs.Points
import Cqasm.Proofs.Recognition.Program

/-!
# The order of tokens, and what recovery does to it

The tokens of a text come in the order of their places, and reading only ever moves on. So whatever
starts behind the place where recovery ended starts behind the token that was complained about
(`recover_cases`, `Cursor.Ordered.before_of_skipStatement`), although that token may be the very
separator at which recovery stopped.
-/

set_option autoImplicit false

namespace Cqasm

theorem Position.Before.firstPoint {a b : Token} (h : a.start.Before b.start) :
    a.firstPoint.Before b.firstPoint := by
  have hreading := h.reading
  unfold Point.Before Token.firstPoint
  dsimp only
  omega

/-! ## Cursors -/

namespace Cursor

/-- The tokens in front of a cursor come one behind the other, the end of the text last. -/
structure Ordered (c : Cursor) : Prop where
  pairwise : (c.tokens ++ [c.last]).Pairwise fun a b => a.start.Before b.start
  line_pos : ∀ token ∈ c.tokens ++ [c.last], 0 < token.start.line

variable {c behind stuck : Cursor} {ts : List Token} {token : Token} {opened : Nat}

theorem Passes.append_eq (h : c.Passes ts behind) :
    c.tokens ++ [c.last] = ts ++ (behind.tokens ++ [behind.last]) := by
  rw [h.tokens_eq, h.last_eq, List.append_assoc]

/-- What is left of a text in order is in order. -/
theorem Passes.ordered (h : c.Passes ts behind) (hc : c.Ordered) : behind.Ordered where
  pairwise := by
    have hpairwise := hc.pairwise
    rw [h.append_eq, List.pairwise_append] at hpairwise
    exact hpairwise.2.1
  line_pos token htoken := by
    apply hc.line_pos
    rw [h.append_eq]
    exact List.mem_append_right _ htoken

/-- What was passed comes before what is still to come. -/
theorem Passes.before (h : c.Passes ts behind) (hc : c.Ordered) {a b : Token} (ha : a ∈ ts)
    (hb : b ∈ behind.tokens ++ [behind.last]) : a.start.Before b.start := by
  have hpairwise := hc.pairwise
  rw [h.append_eq, List.pairwise_append] at hpairwise
  exact hpairwise.2.2 a ha b hb

theorem append_eq_cons (c : Cursor) : ∃ rest, c.tokens ++ [c.last] = c.current :: rest := by
  cases h : c.tokens with
  | nil => exact ⟨[], by rw [current, h]; rfl⟩
  | cons token tokens => exact ⟨tokens ++ [c.last], by rw [current_of_cons h]; rfl⟩

/-- The token at hand is one of those left, or the end of the text. -/
theorem current_mem (c : Cursor) : c.current ∈ c.tokens ++ [c.last] := by
  obtain ⟨rest, h⟩ := c.append_eq_cons
  rw [h]
  exact List.mem_cons_self

theorem Ordered.line_ne_zero (hc : c.Ordered) (file : String) :
    (c.current.location file).first.line ≠ 0 := by
  have := hc.line_pos _ c.current_mem
  rw [Token.first_location]
  show (c.current.start.line : Int) ≠ 0
  omega

/-- Nothing comes before the token at hand. -/
theorem Ordered.current_le (hc : c.Ordered) (h : token ∈ c.tokens ++ [c.last]) :
    c.current.firstPoint ≤ token.firstPoint := by
  obtain ⟨rest, hrest⟩ := c.append_eq_cons
  have hpairwise := hc.pairwise
  rw [hrest] at hpairwise h
  rcases List.mem_cons.1 h with rfl | h
  · exact Point.le_refl _
  · exact ((List.pairwise_cons.1 hpairwise).1 token h).firstPoint.le

/-- Everything else comes behind it. -/
theorem Ordered.current_before (hc : c.Ordered) (hne : c.tokens ≠ [])
    (h : token ∈ c.tokens.tail) : c.current.start.Before token.start := by
  have hpairwise := hc.pairwise
  cases ht : c.tokens with
  | nil => exact absurd ht hne
  | cons first tokens =>
    rw [ht] at hpairwise h
    rw [current_of_cons ht]
    exact (List.pairwise_cons.1 hpairwise).1 token (List.mem_append_left _ h)

theorem Passes.current_le (h : c.Passes ts behind) (hc : c.Ordered) :
    c.current.firstPoint ≤ behind.current.firstPoint := by
  refine hc.current_le ?_
  rw [h.append_eq]
  exact List.mem_append_right _ behind.current_mem

/-! ## Skipping -/

/-- Skipping stops at a separator or at the end of the text. -/
theorem skip_stops (c : Cursor) (opened : Nat) (previous : Option Token) (tokens : List Token) :
    (skipStatement.skip c opened previous tokens).tokens = [] ∨
      (skipStatement.skip c opened previous tokens).kind.isSeparator := by
  induction tokens generalizing opened previous with
  | nil => exact .inl rfl
  | cons token tokens ih =>
    unfold skipStatement.skip
    split
    · next h => exact .inr (Bool.and_eq_true_iff.1 h).2
    · exact ih _ _

/-- The rest of a broken statement ends at a separator or with the text. -/
theorem skipStatement_stops (opened : Nat) (c : Cursor) :
    (c.skipStatement opened).tokens = [] ∨ (c.skipStatement opened).kind.isSeparator :=
  c.skip_stops opened c.previous c.tokens

theorem mem_of_mem_pastSeparators (h : token ∈ c.pastSeparators.tokens) : token ∈ c.tokens :=
  (List.dropWhile_sublist _).mem h

/-- Behind the separators in front of it, a cursor is behind the separator at hand. -/
theorem mem_tail_of_mem_pastSeparators (hkind : c.kind.isSeparator)
    (h : token ∈ c.pastSeparators.tokens) : token ∈ c.tokens.tail := by
  cases ht : c.tokens with
  | nil =>
    rw [pastSeparators, ht] at h
    cases h
  | cons first tokens =>
    rw [kind, current_of_cons ht] at hkind
    rw [pastSeparators, ht] at h
    dsimp only at h
    rw [List.dropWhile_cons_of_pos (by simpa using hkind)] at h
    exact (List.dropWhile_sublist _).mem h

/-- What starts behind a skipped statement starts behind the token where skipping began, even if
nothing was skipped. -/
theorem Ordered.before_of_skipStatement (hc : stuck.Ordered)
    (h : token ∈ (stuck.skipStatement opened).pastSeparators.tokens) :
    stuck.current.start.Before token.start := by
  obtain ⟨skipped, hskipped⟩ := stuck.exists_passes_skipStatement opened
  have hmem := mem_of_mem_pastSeparators h
  cases skipped with
  | nil =>
    obtain heq := hskipped.eq_of_nil
    rcases skipStatement_stops opened stuck with hnil | hkind
    · rw [hnil] at hmem
      cases hmem
    · have htail := mem_tail_of_mem_pastSeparators hkind h
      rw [heq] at hmem htail
      exact hc.current_before (List.ne_nil_of_mem hmem) htail
  | cons first skipped =>
    rw [hskipped.current_eq]
    exact hskipped.before hc List.mem_cons_self (List.mem_append_left _ hmem)

end Cursor

/-- The tokens of a text come in the order of their places. -/
theorem ordered_ofStream (text : String) : (Cursor.ofStream (.ofText text.toList)).Ordered where
  pairwise := by
    rw [List.pairwise_append]
    refine ⟨?_, List.pairwise_singleton _ _, ?_⟩
    · refine (Item.pairwise_ofLexemes _ _).filterMap Item.token? ?_
      intro a b hbefore t ht u hu
      cases a <;> cases ht
      cases b <;> cases hu
      exact hbefore
    · intro t ht last hlast
      obtain rfl := List.mem_singleton.1 hlast
      exact TokenStream.before_last (TokenStream.mem_tokens_iff.1 ht)
  line_pos token htoken := by
    have hline {place : Position} (h : place = .start ∨ Position.start.Before place) :
        0 < place.line := by
      rcases h with rfl | h
      · exact Nat.one_pos
      · have hreading := h.reading
        have hstart : Position.start.line = 1 := rfl
        omega
    rcases List.mem_append.1 htoken with h | h
    · exact hline (Item.place_of_mem_ofLexemes (TokenStream.mem_tokens_iff.1 h)).1
    · obtain rfl := List.mem_singleton.1 h
      refine hline ?_
      cases text.toList with
      | nil => exact .inl rfl
      | cons c rest => exact .inr (Position.before_after _ c rest)

/-! ## Recovery -/

/-- Reading that may fail either succeeds or complains about a token further on, and then goes on
behind the rest of the statement. -/
theorem recover_cases {α : Type} (p : Parser α) (placeholder : Location → α) (file : String)
    (c : Cursor) :
    (∃ value behind, p.run file c = .ok value behind ∧
        p.recover placeholder file c = { value, error := none, cursor := behind }) ∨
      ∃ (failure : Failure) (stuck : Cursor) (ts : List Token), c.Passes ts stuck ∧
        p.recover placeholder file c =
          { value :=
              placeholder ((stuck.skipStatement failure.openBraces).rangeFrom file
                (c.current.location file))
            error := some (.misplaced stuck.current failure.complaint)
            cursor := stuck.skipStatement failure.openBraces } := by
  unfold Parser.recover
  have hpasses := p.passes file c
  cases hrun : p.run file c with
  | ok value behind => exact .inl ⟨value, behind, rfl, rfl⟩
  | failed failure stuck =>
    rw [hrun] at hpasses
    obtain ⟨ts, hts⟩ := hpasses
    exact .inr ⟨failure, stuck, ts, hts, rfl⟩

theorem first_rangeFrom {file : String} {c behind : Cursor} (hc : c.Ordered) :
    (behind.rangeFrom file (c.current.location file)).first = c.current.firstPoint := by
  rw [← Token.first_location file]
  unfold Cursor.rangeFrom
  split
  · exact Location.first_through (hc.line_ne_zero file)
  · rfl

end Cqasm
