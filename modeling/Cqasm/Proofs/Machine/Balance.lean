import Cqasm.Proofs.Machine.Grammar

/-!
# Counters in balance

What the two counters of the grammar ought to be can be read off the account of a run: how many
calls for expressions are in progress stands in every moment, and how many braces are open follows
from the tokens that have been passed since the statement at work began (`phaseOf`). `Balanced` says
that the counters are what they ought to be, and have been all along.

The account itself can be checked against the text: the tokens passed are those of the text, in
order (`passedKinds`), and literals are only passed inside of expressions, as long as nothing is
being skipped (`Event.Fits`).
-/

set_option autoImplicit false

namespace Cqasm.Machine

/-- Where the grammar is with a statement. -/
inductive Phase where
  /-- The statement is being read. So many more left braces than right braces of it have been
  passed. -/
  | reading (opened : Nat)
  /-- What is left of it is being skipped. -/
  | recovering
  deriving DecidableEq, Repr

namespace Phase

/-- How many braces the statement being read has left open so far. -/
def opened : Phase → Nat
  | reading opened => opened
  | recovering => 0

/-- The phase behind an event. -/
def behind (phase : Phase) : Event → Phase
  | .begins => reading 0
  | .givesUp => recovering
  | .passes .leftBrace =>
    match phase with
    | reading opened => reading (opened + 1)
    | recovering => recovering
  | .passes .rightBrace =>
    match phase with
    | reading opened => reading (opened - 1)
    | recovering => recovering
  | _ => phase

/-- The phase with more braces open. -/
def plus (phase : Phase) (more : Nat) : Phase :=
  match phase with
  | reading opened => reading (opened + more)
  | recovering => recovering

@[simp] theorem plus_zero (phase : Phase) : phase.plus 0 = phase := by
  cases phase <;> rfl

end Phase

/-- The phase that what has happened leads to, the latest first. -/
def phaseOf : List Moment → Phase
  | [] => .reading 0
  | moment :: earlier => (phaseOf earlier).behind moment.event

/-- The kinds of the tokens that have been passed, in the order in which they were passed. -/
def passedKinds : List Moment → List Kind
  | [] => []
  | moment :: earlier =>
    match moment.event with
    | .passes kind => passedKinds earlier ++ [kind]
    | _ => passedKinds earlier

/-- No statement has been given up. -/
def NoneGivenUp (history : List Moment) : Prop :=
  ∀ moment ∈ history, moment.event ≠ .givesUp

/-- Kinds that can only be operands. -/
def isOperand : Kind → Bool
  | .integer | .float | .string | .json => true
  | _ => false

/-- When an event may come: between two statements nothing is open, no loop goes into another turn
without having passed a token, and operands are passed inside of expressions, unless what is left of
a statement is being skipped. -/
def Event.Fits (depth : Nat) (phase : Phase) : Event → Prop
  | .iterates => depth = 0 ∧ phase.opened = 0
  | .turns passed => 0 < passed
  | .passes kind => isOperand kind → 0 < depth ∨ phase = .recovering
  | _ => True

/-- The counters are what they ought to be at a moment of some phase, and the event fits in. -/
structure Moment.IsFair (moment : Moment) (phase : Phase) : Prop where
  expressionDepth_eq : moment.expressionDepth = moment.activations
  activations_le : moment.activations ≤ maxNesting
  braceDepth_eq : moment.braceDepth = phase.opened
  opened_le : phase.opened ≤ 1
  fits : moment.event.Fits moment.activations phase

namespace Moment.IsFair

variable {moment : Moment} {phase : Phase}

/-- Between two statements nothing is open. -/
theorem iterates (h : moment.IsFair phase) (hevent : moment.event = .iterates) :
    moment.activations = 0 ∧ phase.opened = 0 := by
  have hfits := h.fits
  rwa [hevent] at hfits

/-- No loop turns on the spot. -/
theorem turns (h : moment.IsFair phase) {passed : Nat} (hevent : moment.event = .turns passed) :
    0 < passed := by
  have hfits := h.fits
  rwa [hevent] at hfits

end Moment.IsFair

/-- Every moment was fair. -/
def AllFair : List Moment → Prop
  | [] => True
  | moment :: earlier => moment.IsFair (phaseOf earlier) ∧ AllFair earlier

/-- Each moment by itself, with those before it. -/
theorem AllFair.isFair {later earlier : List Moment} {moment : Moment}
    (h : AllFair (later ++ moment :: earlier)) : moment.IsFair (phaseOf earlier) := by
  induction later with
  | nil => exact h.1
  | cons _ later ih => exact ih h.2

/-! ## What an account tells -/

/-- A token that has been passed was passed at some moment. -/
theorem exists_passes_of_mem {history : List Moment} {kind : Kind}
    (h : kind ∈ passedKinds history) :
    ∃ later moment earlier, history = later ++ moment :: earlier ∧ moment.event = .passes kind := by
  induction history with
  | nil => cases h
  | cons moment earlier ih =>
    have hsplit : kind ∈ passedKinds earlier ∨ moment.event = .passes kind := by
      rw [passedKinds] at h
      split at h
      · next hevent =>
        refine (List.mem_append.1 h).imp_right fun hkind => ?_
        rw [hevent, List.mem_singleton.1 hkind]
      · exact .inl h
    rcases hsplit with hearlier | hevent
    · obtain ⟨later, found, before, rfl, hevent⟩ := ih hearlier
      exact ⟨moment :: later, found, before, rfl, hevent⟩
    · exact ⟨[], moment, earlier, rfl, hevent⟩

/-- Where nothing has been given up, nothing is being skipped. -/
theorem exists_reading_of_noneGivenUp {history : List Moment} (h : NoneGivenUp history) :
    ∃ opened, phaseOf history = .reading opened := by
  induction history with
  | nil => exact ⟨0, rfl⟩
  | cons moment earlier ih =>
    obtain ⟨hevent, hearlier⟩ := List.forall_mem_cons.1 h
    obtain ⟨opened, hopened⟩ := ih hearlier
    rw [phaseOf, hopened]
    rcases moment with ⟨event, _⟩
    cases event with
    | givesUp => exact absurd rfl hevent
    | passes kind => cases kind <;> exact ⟨_, rfl⟩
    | _ => exact ⟨_, rfl⟩

theorem NoneGivenUp.of_append {later earlier : List Moment} (h : NoneGivenUp (later ++ earlier)) :
    NoneGivenUp earlier :=
  fun moment hmoment => h moment (List.mem_append_right later hmoment)

/-- Between a left brace and the end of its statement the brace is counted. -/
theorem AllFair.exists_braceDepth_eq {history : List Moment} (h : AllFair history)
    (hnone : NoneGivenUp history) (hclosed : (phaseOf history).opened = 0)
    (hpassed : .leftBrace ∈ passedKinds history) :
    ∃ moment ∈ history, moment.braceDepth = 1 := by
  obtain ⟨later, brace, earlier, rfl, hevent⟩ := exists_passes_of_mem hpassed
  have hphase : ∃ opened, phaseOf (brace :: earlier) = .reading (opened + 1) := by
    obtain ⟨opened, hopened⟩ :=
      exists_reading_of_noneGivenUp (List.forall_mem_cons.1 hnone.of_append).2
    exact ⟨opened, by rw [phaseOf, hopened, hevent]; rfl⟩
  obtain ⟨opened, hopened⟩ := hphase
  -- The moment behind the one at which the brace is passed is the first that counts it.
  rcases List.eq_nil_or_concat later with rfl | ⟨later, next, rfl⟩
  · rw [List.nil_append, hopened] at hclosed
    cases hclosed
  · rw [List.concat_append] at h ⊢
    have hnext := h.isFair
    have hbraces := hnext.braceDepth_eq
    have hle := hnext.opened_le
    rw [hopened, Phase.opened] at hbraces hle
    exact ⟨next, by simp, by omega⟩

/-- Literals that are read and not skipped are passed inside of expressions. -/
theorem AllFair.exists_expressionDepth_pos {history : List Moment} (h : AllFair history)
    (hnone : NoneGivenUp history) {kind : Kind} (hkind : isOperand kind)
    (hpassed : kind ∈ passedKinds history) :
    ∃ moment ∈ history, 0 < moment.expressionDepth := by
  obtain ⟨later, moment, earlier, rfl, hevent⟩ := exists_passes_of_mem hpassed
  obtain ⟨opened, hopened⟩ :=
    exists_reading_of_noneGivenUp (List.forall_mem_cons.1 hnone.of_append).2
  have hmoment := h.isFair
  have hfits := hmoment.fits
  rw [hevent] at hfits
  have hinside : 0 < moment.activations :=
    (hfits hkind).resolve_right fun hskipped => nomatch hopened.symm.trans hskipped
  have hdepth := hmoment.expressionDepth_eq
  exact ⟨moment, by simp, by omega⟩

/-! ## Balanced states -/

namespace Reader

variable {S : Type} {r : Reader S} {depth : Nat} {phase : Phase}

/-- The counters are what they ought to be with so many calls for expressions in progress, and have
been all along. -/
structure Balanced (r : Reader S) (depth : Nat) (phase : Phase) : Prop where
  activations_eq : r.activations = depth
  expressionDepth_eq : r.expressionDepth = depth
  depth_le : depth ≤ maxNesting
  phase_eq : phaseOf r.history = phase
  braceDepth_eq : r.braceDepth = phase.opened
  opened_le : phase.opened ≤ 1
  allFair : AllFair r.history

/-- The state once an event has been put down. -/
def noted (r : Reader S) (event : Event) : Reader S :=
  { r with history := r.moment event :: r.history }

/-- A moment is fair when it is put down in a balanced state. -/
theorem Balanced.isFair (h : r.Balanced depth phase) {event : Event}
    (hevent : event.Fits depth phase) : (r.moment event).IsFair phase where
  expressionDepth_eq := h.expressionDepth_eq.trans (congrArg _ h.activations_eq.symm)
  activations_le := Nat.le_trans (Nat.le_of_eq h.activations_eq) h.depth_le
  braceDepth_eq := h.braceDepth_eq
  opened_le := h.opened_le
  fits := by rwa [← h.activations_eq] at hevent

/-- An account stays fair if what is put down fits in. -/
theorem Balanced.allFair_noted (h : r.Balanced depth phase) (event : Event)
    (hevent : event.Fits depth phase) : AllFair (r.noted event).history :=
  ⟨h.phase_eq ▸ h.isFair hevent, h.allFair⟩

/-- Events that open and close nothing leave a state balanced. -/
theorem Balanced.noted (h : r.Balanced depth phase) (event : Event)
    (hopened : (phase.behind event).opened = phase.opened) (hevent : event.Fits depth phase) :
    (r.noted event).Balanced depth (phase.behind event) where
  activations_eq := h.activations_eq
  expressionDepth_eq := h.expressionDepth_eq
  depth_le := h.depth_le
  phase_eq := congrArg (·.behind event) h.phase_eq
  braceDepth_eq := h.braceDepth_eq.trans (congrArg _ hopened.symm)
  opened_le := hopened ▸ h.opened_le
  allFair := h.allFair_noted event hevent

end Reader

end Cqasm.Machine
