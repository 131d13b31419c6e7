import Cqasm.Proofs.Recovery.Nesting

/-!
# Braces around a row

A bundle in braces is the one statement that has braces, and they stand around all of it. Behind the
first brace, reading does not get past the one that closes it (`Parser.bracedBundle_cases`). So the
row of any statement has balanced brackets, or is such a row between two braces
(`bracketed_of_isStatement`).
-/

set_option autoImplicit false

namespace Cqasm

open Grammar

/-! ## Bundles in braces -/

/-- Reading behind an opening brace either passes the brace that closes it, with nothing but
balanced brackets in front of that, or fails before. -/
inductive Enclosed {α : Type} (c : Cursor) : Outcome α → Prop
  | closed {value : α} {ts : List Token} {middle : Cursor} :
      c.Passes ts middle → depthBehind 1 ts = some 1 → middle.kind = .rightBrace →
      Enclosed c (.ok value middle.advance)
  | failed {failure : Failure} {ts : List Token} {stuck : Cursor} :
      c.Passes ts stuck → (depthBehind 1 ts).isSome → failure.openBraces = 0 →
      Enclosed c (.failed failure stuck)

namespace Parser

/-- A parser reads up to a closing brace wherever it starts. -/
def Encloses {α : Type} (p : Parser α) : Prop :=
  ∀ file c, c.Ended → Enclosed c (p.run file c)

section

variable {α β : Type} {p : Parser α} {file : String} {c middle : Cursor} {ts : List Token}
  {outcome : Outcome α}

/-- What was passed inside the braces keeps them open. -/
theorem Enclosed.behind (hts : c.Passes ts middle) (hdepth : depthBehind 1 ts = some 1)
    (h : Enclosed middle outcome) : Enclosed c outcome := by
  cases h with
  | closed hus hdepth' hkind =>
    refine .closed (hts.trans hus) ?_ hkind
    rw [depthBehind_append, hdepth]
    exact hdepth'
  | failed hus hsome hbraces =>
    refine .failed (hts.trans hus) ?_ hbraces
    rw [depthBehind_append, hdepth]
    exact hsome

theorem encloses_bind {f : α → Parser β} (h : p.Nests 1 1) (hf : ∀ value, (f value).Encloses) :
    (p >>= f).Encloses := by
  intro file c hc
  rw [run_bind]
  have houtcome := h file c hc
  generalize p.run file c = outcome at houtcome ⊢
  cases houtcome with
  | ok hts hdepth => exact Enclosed.behind hts hdepth (hf _ file _ (hts.ended hc))
  | failed hts hsome hbraces => exact .failed hts hsome hbraces

theorem encloses_bundleEnd : bundleEnd.Encloses := by
  intro file c hc
  rw [bundleEnd, run_isAt_bind]
  split
  · exact .failed c.passes_nil rfl rfl
  · rw [run_bind, expect, run_expectOneOf]
    by_cases hkind : c.kind = .rightBrace
    · rw [if_pos hkind]
      exact .closed c.passes_nil rfl hkind
    · rw [if_neg hkind]
      exact .failed c.passes_nil rfl rfl

theorem encloses_bundleEnd_bind (value : α) : (bundleEnd >>= fun _ => pure value).Encloses := by
  intro file c hc
  rw [run_bind]
  have houtcome := encloses_bundleEnd file c hc
  generalize bundleEnd.run file c = outcome at houtcome ⊢
  cases houtcome with
  | closed hts hdepth hkind => exact .closed hts hdepth hkind
  | failed hts hsome hbraces => exact .failed hts hsome hbraces

theorem nests_bundleItem (joint : BundleJoint) : (bundleItem joint).Nests 1 1 := by
  apply nests_bind (nests_pastSeparators Nat.one_pos)
  intro _
  apply nests_bind (nests_look _)
  intro isOver
  split
  · exact nests_pure _
  · exact nests_bind nests_instruction fun _ => nests_pure _

/-- Reading the items of a bundle ends at its brace or stays inside. -/
theorem encloses_bracedItems : bracedItems.Encloses := by
  apply encloses_bind (nests_pastSeparators Nat.one_pos)
  intro _
  apply encloses_bind nests_instruction
  intro first
  apply encloses_bind (nests_many ?_) fun rest => encloses_bundleEnd_bind _
  intro kind joint hstart
  refine ⟨1, ?_, fun _ => nests_bundleItem joint⟩
  cases kind <;> first | cases hstart; done | rfl

theorem run_statement_of_brace (file : String) (hkind : c.kind = .leftBrace) :
    statement.run file c = bracedBundle.run file c := by
  rw [statement, run_current_bind, show c.current.kind = _ from hkind]
  rfl

/-- A bundle in braces is read up to the brace that closes it, or fails in front of that and leaves
one brace open. -/
theorem bracedBundle_cases (file : String) (hc : c.Ended) (hkind : c.kind = .leftBrace) :
    (∃ s ts closing behind, bracedBundle.run file c = .ok s behind ∧
        c.Passes (c.current :: (ts ++ [closing])) behind ∧ depthBehind 1 ts = some 1 ∧
        closing.kind = .rightBrace) ∨
      ∃ failure ts stuck, bracedBundle.run file c = .failed failure stuck ∧
        c.Passes (c.current :: ts) stuck ∧ (depthBehind 1 ts).isSome ∧ failure.openBraces = 1 := by
  have hopening := Cursor.passes_current hc hkind (by decide)
  have hitems := encloses_bracedItems file c.advance (hopening.ended hc)
  rw [bracedBundle, run_here_bind, run_advance_bind, run_bind, insideBraces]
  dsimp only
  generalize bracedItems.run file c.advance = outcome at hitems ⊢
  cases hitems with
  | @closed items ts middle hts hdepth hclosing =>
    have hpast := hts.trans
      (Cursor.passes_current (hts.ended (hopening.ended hc)) hclosing (by decide))
    exact .inl ⟨_, ts, _, _, rfl, hopening.trans hpast, hdepth, hclosing⟩
  | failed hts hsome hbraces =>
    refine .inr ⟨_, _, _, rfl, hopening.trans hts, hsome, ?_⟩
    dsimp only
    rw [hbraces]

end

end Parser

/-! ## Rows of statements -/

/-- Where brackets and braces stand in the row of a statement: either there are no braces and the
brackets are balanced, or a pair of braces stands around such a row. -/
inductive Bracketed : List Token → Prop
  | plain {ts : List Token} : depthBehind 0 ts = some 0 → Bracketed ts
  | braced {opening closing : Token} {ts : List Token} :
      opening.kind = .leftBrace → depthBehind 1 ts = some 1 → closing.kind = .rightBrace →
      Bracketed (opening :: (ts ++ [closing]))

section

variable {file : String} {c behind : Cursor} {ts : List Token} {s : Statement}

/-- The rows of statements are balanced, whatever statements they are. -/
theorem bracketed_of_isStatement (hc : c.Ended) (hpasses : c.Passes ts behind)
    (hend : behind.kind.endsStatement) (h : IsStatement file ts s) : Bracketed ts := by
  have hrun := Parser.statement_recognises.complete hpasses h hend
  have hrow {us : List Token} (hus : c.Passes us behind) : ts = us :=
    List.append_cancel_right (hpasses.tokens_eq.symm.trans hus.tokens_eq)
  by_cases hkind : c.kind = .leftBrace
  · rw [Parser.run_statement_of_brace file hkind] at hrun
    rcases Parser.bracedBundle_cases file hc hkind with
      ⟨_, us, closing, _, hok, hus, hdepth, hclosing⟩ | ⟨_, _, _, hfailed, -⟩
    · cases hrun.symm.trans hok
      rw [hrow hus]
      exact .braced hkind hdepth hclosing
    · cases hrun.symm.trans hfailed
  · have hnested := Parser.nested_statement file (i := 0) hc hkind
    rw [hrun] at hnested
    cases hnested with
    | ok hus hdepth =>
      rw [hrow hus]
      exact .plain hdepth

end

end Cqasm
