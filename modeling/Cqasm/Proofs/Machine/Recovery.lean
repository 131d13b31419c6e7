import Cqasm.Proofs.Machine.Statement

/-!
# Recovery, followed

Between two statements nothing is open, whether the one before was read or skipped (`Reader.Idle`).
From there, reading a statement and recovering from a failure ends idle again, with what
`Parser.recover` yields (`ends_recovering`): the braces that a broken statement left open are handed
over to the loop that skips the rest of it.
-/

set_option autoImplicit false

namespace Cqasm.Machine

open Machine.Action Reader

variable {S α : Type} {k : Setting S} {c : Cursor} {r : Reader S} {errors : List Diagnostic}

/-! ## Skipping -/

/-- One count is an integer that never falls below zero, the other one a natural number. -/
theorem openedBehind_eq (opened : Nat) (kind : Kind) :
    openedBehind opened kind = (Cursor.bracesBehind opened kind : Nat) := by
  cases kind
  case rightBrace =>
    simp only [openedBehind, Cursor.bracesBehind]
    split <;> omega
  all_goals rfl

/-- Passing the rest of a broken statement. -/
def skipping (opened : Nat) : Parser Unit :=
  Parser.move (Cursor.skipStatement opened) (Cursor.exists_passes_skipStatement opened)

/-- What one turn of the loop passes. -/
def skipPart (opened : Int) : Parser (Int ⊕ Unit) := do
  let token ← Parser.current
  if token.kind = .eof || (opened = 0 && token.kind.endsStatement) then return .inr ()
  else
    Parser.advance
    return .inl (openedBehind opened token.kind)

/-- While a statement is being skipped, its braces do not count. -/
theorem behind_of_recovering {phase : Phase} (h : phase = .recovering) (kind : Kind) :
    phase.behind (.passes kind) = phase := by
  subst h
  cases kind <;> rfl

/-- Nothing is passed in the turn that sees the end of the statement. -/
theorem follows_skipTurn (hphase : k.phase = .recovering) (opened : Int) :
    Follows k (skipTurn k.host opened) (skipPart opened) := by
  refine fun c => .current ?_
  split
  · exact .pure _
  · next hover =>
    have hne : c.kind ≠ .eof := fun heof => hover (by
      rw [show c.current.kind = .eof from heof]
      rfl)
    exact ((followsAt_passing hne (behind_of_recovering hphase _) fun _ => .inr hphase).bind
      (g := fun _ => pure _) fun _ _ _ => .pure _).congr rfl

section

variable {file : String} {opened : Nat}

/-- A statement is over at the end of the text, and at a separator outside of braces. -/
theorem run_skipPart (opened : Int) :
    (skipPart opened).run file c =
      if c.kind = .eof || (opened = 0 && c.kind.endsStatement) then .ok (.inr ()) c
      else .ok (.inl (openedBehind opened c.kind)) c.advance := by
  rw [skipPart, Parser.run_current_bind]
  exact apply_ite (fun p : Parser (Int ⊕ Unit) => p.run file c) _ _ _

/-- Of the cursor that skipping starts from, only the end of the text is kept. -/
theorem skip_eq_of_last {d : Cursor} (h : d.last = c.last) (opened : Nat) (previous : Option Token)
    (tokens : List Token) :
    Cursor.skipStatement.skip c opened previous tokens =
      Cursor.skipStatement.skip d opened previous tokens := by
  induction tokens generalizing opened previous with
  | nil => rw [Cursor.skipStatement.skip, Cursor.skipStatement.skip, h]
  | cons token tokens ih => rw [Cursor.skipStatement.skip, Cursor.skipStatement.skip, ih, h]

/-- Behind a token the rest is skipped as from the statement on. -/
theorem run_skipping (hended : c.Ended) :
    (skipping opened).run file c =
      (skipPart opened >>= onward fun n => skipping n.toNat).run file c := by
  have hrun : (skipping opened).run file c =
      .ok () (Cursor.skipStatement.skip c opened c.previous c.tokens) := rfl
  rw [hrun, Parser.run_bind, run_skipPart]
  by_cases heof : c.kind = .eof
  · have htokens := hended.kind_eq_eof_iff.1 heof
    rw [if_pos (by simp [heof]), htokens, Cursor.skipStatement.skip, ← htokens]
    rfl
  · obtain ⟨token, tokens, htokens, hkind⟩ := exists_tokens_of_kind hended rfl heof
    have hends : c.kind.endsStatement = c.kind.isSeparator := by
      revert heof
      cases c.kind <;> decide
    rw [htokens, Cursor.skipStatement.skip, hkind]
    by_cases hover : opened = 0 ∧ c.kind.isSeparator
    · rw [if_pos (by simpa using hover), if_pos (by simp [hover.1, hends, hover.2]), ← htokens]
      rfl
    · rw [if_neg (by simpa using hover), if_neg (by simpa [heof, hends] using hover),
        openedBehind_eq]
      simp only [onward, Int.toNat_natCast]
      let d : Cursor := { c with previous := Cursor.passed c.previous token, tokens }
      have hadvance : c.advance = d := by
        rw [Cursor.advance, htokens]
      rw [hadvance]
      exact congrArg (Outcome.ok ()) (skip_eq_of_last (c := c) (d := d) rfl _ _ _)

end

theorem follows_skip (hphase : k.phase = .recovering) (opened : Nat) :
    Follows k (repeating (skipTurn k.host) (opened : Int)) (skipping opened) := by
  refine follows_repeating_of (fun b => 0 ≤ b) skipPart (fun b => skipping b.toNat)
    (fun b _ => follows_skipTurn hphase b) ?_ ?_ (Int.natCast_nonneg opened)
  · intro b c hb hended
    obtain ⟨n, rfl⟩ := Int.eq_ofNat_of_zero_le hb
    exact run_skipping hended
  · intro b c next behind hb hended hrun
    obtain ⟨n, rfl⟩ := Int.eq_ofNat_of_zero_le hb
    rw [run_skipPart] at hrun
    split at hrun
    · cases hrun
    · next hover =>
      cases hrun
      rw [openedBehind_eq]
      have hne : c.kind ≠ .eof := fun heof => hover (by simp [heof])
      exact ⟨Int.natCast_nonneg _, size_advance_lt_of_kind hended rfl hne⟩

/-! ## Between statements -/

/-- Nothing is open in the statement at work, if there is one. -/
def Reader.Idle (r : Reader S) (depth : Nat) : Prop :=
  ∃ phase, phase.opened = 0 ∧ r.Balanced depth phase

/-- The run is broken off because a diagnostic is not taken. -/
def BrokenOff (k : Setting S) (interrupt : Interrupt) (t : Reader S) : Prop :=
  interrupt = .refused ∧ t.Refused k.host k.depth

section

variable {m : Action (Reader S) α} {p : Parser α} {value : α} {behind : Cursor}

/-- What follows a parser that succeeds is only left if a diagnostic is not taken. -/
theorem FollowsAt.ends_of_ok {phase : Phase} (h : FollowsAt (k.during phase) c m p)
    (hrun : p.run k.host.file c = .ok value behind) (hat : At k r c errors)
    (hbalanced : r.Balanced k.depth phase) (hopened : phase.opened = 0) :
    Ends m r (fun v t => v = value ∧ At k t behind errors ∧ t.Idle k.depth) (BrokenOff k) := by
  refine (h (hat.of_setting rfl rfl) hbalanced).mono ?_ fun interrupt t hleaves => ?_
  · rintro v t ⟨_, hrun', hat, hbalanced⟩
    cases hrun.symm.trans hrun'
    exact ⟨rfl, hat.of_setting rfl rfl, phase, hopened, hbalanced⟩
  · cases hleaves with
    | misread hfailed => cases hrun.symm.trans hfailed
    | refused hrefused => exact ⟨rfl, hrefused⟩

/-- What only looks at tokens that open and close nothing, and cannot fail, leaves things idle. -/
theorem ends_idle (h : ∀ phase, FollowsAt (k.during phase) c m p)
    (hrun : p.run k.host.file c = .ok value behind) (hat : At k r c errors)
    (hidle : r.Idle k.depth) :
    Ends m r (fun v t => v = value ∧ At k t behind errors ∧ t.Idle k.depth) (BrokenOff k) := by
  obtain ⟨phase, hopened, hbalanced⟩ := hidle
  exact (h phase).ends_of_ok hrun hat hbalanced hopened

end

theorem ends_note {event : Event} {post : Unit → Reader S → Prop}
    {raised : Interrupt → Reader S → Prop} :
    Ends (note event) r post raised ↔ post () (r.noted event) := Iff.rfl

/-- Of the ways to be left, only a complaint is caught. -/
theorem ends_attempt {m : Action (Reader S) α} {post : Option α → Reader S → Prop}
    {raised : Interrupt → Reader S → Prop} :
    Ends (attempt m) r post raised ↔
      Ends m r (fun value t => post (some value) t) fun interrupt t =>
        match interrupt with
        | .misread => post none t
        | interrupt => raised interrupt t := by
  rw [attempt, ends_tryCatch, ends_bind]
  constructor
  all_goals
    refine fun h => h.mono (fun _ _ h => h) fun interrupt t h => ?_
    cases interrupt <;> exact h

/-- Where nothing is open a statement may begin. -/
theorem Reader.Idle.begun (h : r.Idle k.depth) :
    (r.noted .begins).Balanced k.depth (.reading 0) := by
  obtain ⟨phase, hopened, hbalanced⟩ := h
  exact hbalanced.noted .begins hopened.symm trivial

/-- Or what is left of the text may be given up. -/
theorem Reader.Idle.givenUp (h : r.Idle k.depth) :
    (r.noted .givesUp).Balanced k.depth .recovering := by
  obtain ⟨phase, hopened, hbalanced⟩ := h
  exact hbalanced.noted .givesUp hopened.symm trivial

/-- Once a broken statement is given up, the braces it left open do not count any more. -/
theorem Reader.Balanced.givenUp {depth : Nat} {phase : Phase} (h : r.Balanced depth phase) :
    { r.noted .givesUp with braceDepth := 0 }.Balanced depth .recovering where
  activations_eq := h.activations_eq
  expressionDepth_eq := h.expressionDepth_eq
  depth_le := h.depth_le
  phase_eq := rfl
  braceDepth_eq := rfl
  opened_le := Nat.zero_le 1
  allFair := h.allFair_noted .givesUp trivial

/-- The braces that were left open are handed to the loop, and not counted any more. -/
theorem ends_skipToSeparator {opened : Nat} (hat : At k r c errors) (herrors : errors ≠ [])
    (hbalanced : r.Balanced k.depth (.reading opened)) :
    Ends (skipToSeparator k.host) r
      (fun _ t => At k t (c.skipStatement opened) errors ∧ t.Idle k.depth) (BrokenOff k) := by
  have hat' : At k { r.noted .givesUp with braceDepth := 0 } c errors :=
    At.of_eq (r := r.noted .givesUp) (hat.givenUp herrors) rfl rfl rfl rfl rfl
  have hopened : (r.noted .givesUp).braceDepth = opened := hbalanced.braceDepth_eq
  rw [skipToSeparator, ends_bind, ends_note, ends_bind, ends_get, ends_bind, ends_modify, hopened]
  exact ((follows_skip (k := k.during .recovering) rfl opened c).ends_of_ok (k := k) rfl hat'
    hbalanced.givenUp rfl).mono_post fun _ _ h => h.2

/-- How reading with recovery ends: with what `Parser.recover` reads. -/
structure Recovers (k : Setting S) (errors : List Diagnostic) (read : Recovered α) (value : α)
    (t : Reader S) : Prop where
  value_eq : value = read.value
  standing : At k t read.cursor (errors ++ read.error.toList)
  idle : t.Idle k.depth

/-- A statement is read or given up, and then things are idle again. -/
theorem ends_recovering {m : Action (Reader S) α} {p : Parser α} (placeholder : Location → α)
    (h : FollowsAt (k.during (.reading 0)) c m p) (hat : At k r c errors)
    (hidle : r.Idle k.depth) :
    Ends (recovering k.host placeholder m) r
      (Recovers k errors (p.recover placeholder k.host.file c)) (BrokenOff k) := by
  rw [recovering, ends_bind]
  refine (ends_idle (fun phase => followsAt_here) rfl hat hidle).mono_post ?_
  rintro start s ⟨hstart, hat, hidle⟩
  rw [ends_bind, ends_note, ends_bind, ends_attempt]
  refine (h ((hat.noted .begins nofun nofun).of_setting rfl rfl) hidle.begun).mono ?_
    fun interrupt t hleaves => ?_
  · rintro value t ⟨behind, hrun, hat, hbalanced⟩
    have hrecover : p.recover placeholder k.host.file c =
        { value, error := none, cursor := behind } := by
      rw [Parser.recover, show p.run k.host.file c = _ from hrun]
    rw [hrecover]
    exact ⟨rfl, (List.append_nil errors).symm ▸ hat.of_setting rfl rfl, _, rfl, hbalanced⟩
  · cases hleaves with
    | refused hrefused => exact ⟨rfl, hrefused⟩
    | @misread _ failure stuck hfailed hat hbalanced =>
      have hrecover : p.recover placeholder k.host.file c =
          { value := placeholder ((stuck.skipStatement failure.openBraces).rangeFrom k.host.file
              (c.current.location k.host.file))
            error := some (.misplaced stuck.current failure.complaint)
            cursor := stuck.skipStatement failure.openBraces } := by
        rw [Parser.recover, show p.run k.host.file c = _ from hfailed]
      have hphase : (k.during (.reading 0)).phase.plus failure.openBraces =
          .reading failure.openBraces := congrArg Phase.reading (Nat.zero_add _)
      have hat : At k t stuck _ := hat.of_setting rfl rfl
      rw [hphase] at hbalanced
      rw [hrecover, ends_bind]
      refine (ends_skipToSeparator hat (by simp) hbalanced).mono_post ?_
      rintro _ u ⟨hat, hidle⟩
      rw [ends_bind]
      refine (ends_idle (fun phase => followsAt_rangeFrom start) rfl hat hidle).mono_post ?_
      rintro _ v ⟨rfl, hat, hidle⟩
      exact ⟨by rw [hstart], hat, hidle⟩

end Cqasm.Machine
