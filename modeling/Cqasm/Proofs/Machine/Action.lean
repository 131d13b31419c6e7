/-!
# Actions: programs that change a state, throw and loop

`Action σ α` is a program in the ordinary sense. It works on a state of type `σ` that it changes as
it goes, it may be interrupted, and its loops need not come to an end. An interrupted action keeps
what it did to the state, as assignments made before a throw are kept.

`Ends m s post raised` says that the action `m`, started in `s`, comes to an end, and how: with a
value and a state of `post`, or interrupted in a state of `raised`. The rules for it follow the ways
of building actions.
-/

set_option autoImplicit false

namespace Cqasm.Machine

/-- Why an action does not go on. -/
inductive Interrupt where
  /-- What was read is not as expected. A diagnostic says so already. -/
  | misread
  /-- A scanner was used that had been disposed of. -/
  | disposed
  /-- A character was to be consumed where none is left. -/
  | pastEnd
  /-- A diagnostic was not taken by what collects them. -/
  | refused
  deriving DecidableEq, Repr

/-- A program on states of type `σ`: an outcome and the state it leaves, or nothing if it runs for
ever. -/
abbrev Action (σ α : Type) :=
  ExceptT Interrupt (StateT σ Option) α

namespace Action

variable {σ α β γ : Type}

/-- The action that runs for ever. -/
def diverge : Action σ α :=
  fun _ => none

/-- Carries out a turn of a loop, and then the body again and again, each time with what the turn
before yielded, until a turn yields a result. -/
def turns (turn : Action σ (β ⊕ γ)) (body : β → Action σ (β ⊕ γ)) : Action σ γ := do
  match ← turn with
  | .inl next => body next |>.turns body
  | .inr result => return result
partial_fixpoint

/-- Carries out a body again and again, the first time with `b`. -/
def loop (body : β → Action σ (β ⊕ γ)) (b : β) : Action σ γ :=
  body b |>.turns body

/-- A loop is its first turn and then, perhaps, the loop. The partial function that it is defined by
is opened here and nowhere else. -/
theorem loop_eq (body : β → Action σ (β ⊕ γ)) (b : β) :
    loop body b = do
      match ← body b with
      | .inl next => loop body next
      | .inr result => return result := by
  unfold loop
  rw [turns]

/-! ## How an action ends -/

/-- The action comes to an end: with a value, whereupon `post` holds, or interrupted, whereupon
`raised` does. -/
def Ends (m : Action σ α) (s : σ) (post : α → σ → Prop) (raised : Interrupt → σ → Prop) : Prop :=
  match m s with
  | none => False
  | some (.ok value, t) => post value t
  | some (.error interrupt, t) => raised interrupt t

section

variable {m : Action σ α} {f : α → Action σ β} {s : σ} {post post' : α → σ → Prop}
  {raised raised' : Interrupt → σ → Prop}

/-- What ends has an outcome. -/
theorem Ends.exists (h : Ends m s post raised) :
    ∃ outcome t, m s = some (outcome, t) ∧
      match outcome with
      | .ok value => post value t
      | .error interrupt => raised interrupt t := by
  unfold Ends at h
  split at h
  · exact h.elim
  · next hm => exact ⟨_, _, hm, h⟩
  · next hm => exact ⟨_, _, hm, h⟩

/-- Less may be said of how an action ends. -/
theorem Ends.mono (h : Ends m s post raised) (hpost : ∀ value t, post value t → post' value t)
    (hraised : ∀ interrupt t, raised interrupt t → raised' interrupt t) :
    Ends m s post' raised' := by
  unfold Ends at h ⊢
  split at h
  · exact h.elim
  · exact hpost _ _ h
  · exact hraised _ _ h

/-- The value alone decides how it goes on. -/
theorem Ends.mono_post (h : Ends m s post raised)
    (hpost : ∀ value t, post value t → post' value t) : Ends m s post' raised :=
  h.mono hpost fun _ _ h => h

@[simp] theorem ends_pure {value : α} : Ends (pure value) s post raised ↔ post value s :=
  Iff.rfl

@[simp] theorem ends_throw {interrupt : Interrupt} :
    Ends (throw interrupt : Action σ α) s post raised ↔ raised interrupt s :=
  Iff.rfl

@[simp] theorem ends_get {post : σ → σ → Prop} :
    Ends (get : Action σ σ) s post raised ↔ post s s :=
  Iff.rfl

@[simp] theorem ends_modify {change : σ → σ} {post : Unit → σ → Prop} :
    Ends (modify change : Action σ Unit) s post raised ↔ post () (change s) :=
  Iff.rfl

@[simp] theorem ends_set {t : σ} {post : PUnit → σ → Prop} :
    Ends (set t : Action σ PUnit) s post raised ↔ post ⟨⟩ t :=
  Iff.rfl

/-- One action after the other: the second starts where the first ends. -/
@[simp] theorem ends_bind {post : β → σ → Prop} :
    Ends (m >>= f) s post raised ↔
      Ends m s (fun value t => Ends (f value) t post raised) raised := by
  have hrun : (m >>= f) s =
      match m s with
      | none => none
      | some (.ok value, t) => f value t
      | some (.error interrupt, t) => some (.error interrupt, t) := by
    change (m s).bind _ = _
    rcases m s with - | ⟨- | value, t⟩ <;> rfl
  unfold Ends
  rw [hrun]
  rcases m s with - | ⟨- | value, t⟩ <;> exact Iff.rfl

@[simp] theorem ends_map {g : α → β} {post : β → σ → Prop} :
    Ends (g <$> m) s post raised ↔ Ends m s (fun value t => post (g value) t) raised := by
  rw [map_eq_pure_bind, ends_bind]
  rfl

/-- What is caught is dealt with in the state that the interrupted action left. -/
theorem ends_tryCatch {handler : Interrupt → Action σ α} :
    Ends (tryCatch m handler) s post raised ↔
      Ends m s post fun interrupt t => Ends (handler interrupt) t post raised := by
  have hrun : (tryCatch m handler : Action σ α) s =
      match m s with
      | none => none
      | some (.ok value, t) => some (.ok value, t)
      | some (.error interrupt, t) => handler interrupt t := by
    change (m s).bind _ = _
    rcases m s with - | ⟨- | value, t⟩ <;> rfl
  unfold Ends
  rw [hrun]
  rcases m s with - | ⟨- | value, t⟩ <;> exact Iff.rfl

end

end Action

end Cqasm.Machine
