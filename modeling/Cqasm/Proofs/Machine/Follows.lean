import Cqasm.Proofs.Machine.Standing

/-!
# The grammar as it runs follows the parsers

An action follows a parser from a cursor on (`FollowsAt`) if it always comes to an end, and this end
is the one that the parser has: the same value or the same complaint, at the same place, and the
counters balanced. The only other way for it to end is that a diagnostic is not taken.

Whatever the grammar is built of has a rule here: sequences, single steps, and loops over tokens.
-/

set_option autoImplicit false

namespace Cqasm.Machine

open Machine.Action

variable {S α β γ τ : Type}

namespace Reader

/-- A run was broken off because a diagnostic was not taken. The calls in progress were left in good
order. -/
structure Refused (host : Host S) (r : Reader S) (depth : Nat) : Prop where
  isRefused : Scanner.IsRefused host r.scanner
  activations_eq : r.activations = depth
  expressionDepth_eq : r.expressionDepth = depth
  allFair : AllFair r.history

/-- A run may be broken off in any balanced state. Whatever braces are open then do not matter any
more. -/
theorem Balanced.refused {host : Host S} {r : Reader S} {depth : Nat} {phase : Phase}
    (h : r.Balanced depth phase) (hrefused : Scanner.IsRefused host r.scanner) :
    r.Refused host depth where
  isRefused := hrefused
  activations_eq := h.activations_eq
  expressionDepth_eq := h.expressionDepth_eq
  allFair := h.allFair

/-- Looks, complaints and the like make no difference to the phase. -/
theorem Balanced.noted_of_eq {r : Reader S} {depth : Nat} {phase : Phase}
    (h : r.Balanced depth phase) {event : Event} (hphase : phase.behind event = phase)
    (hevent : event.Fits depth phase) : (r.noted event).Balanced depth phase := by
  have := h.noted event (congrArg _ hphase) hevent
  rwa [hphase] at this

/-- The commonest of these events. -/
theorem Balanced.looked {r : Reader S} {depth : Nat} {phase : Phase}
    (h : r.Balanced depth phase) : (r.noted .looks).Balanced depth phase :=
  h.noted_of_eq rfl trivial

end Reader

open Reader

/-- How an action may be left: with the complaint that a parser fails with, or because a diagnostic
is not taken. -/
inductive LeavesAs (k : Setting S) (errors : List Diagnostic) (outcome : Outcome α) :
    Interrupt → Reader S → Prop where
  | misread {t : Reader S} {failure : Failure} {stuck : Cursor}
      (houtcome : outcome = .failed failure stuck)
      (hat : At k t stuck (errors ++ [.misplaced stuck.current failure.complaint]))
      (hbalanced : t.Balanced k.depth (k.phase.plus failure.openBraces)) :
      LeavesAs k errors outcome .misread t
  | refused {t : Reader S} (h : t.Refused k.host k.depth) : LeavesAs k errors outcome .refused t

/-- What would have come next makes no difference. -/
theorem LeavesAs.bind {k : Setting S} {errors : List Diagnostic} {p : Parser α} {g : α → Parser β}
    {c : Cursor} {interrupt : Interrupt} {t : Reader S}
    (h : LeavesAs k errors (p.run k.host.file c) interrupt t) :
    LeavesAs k errors ((p >>= g).run k.host.file c) interrupt t := by
  rw [Parser.run_bind]
  cases h with
  | misread hfailed hat hbalanced =>
    rw [hfailed]
    exact .misread rfl hat hbalanced
  | refused hrefused => exact .refused hrefused

/-- From a cursor on the action comes to the end that the parser comes to. -/
def FollowsAt (k : Setting S) (c : Cursor) (m : Action (Reader S) α) (p : Parser α) : Prop :=
  ∀ ⦃r errors⦄, At k r c errors → r.Balanced k.depth k.phase →
    Ends m r
      (fun value t => ∃ behind, p.run k.host.file c = .ok value behind ∧ At k t behind errors ∧
        t.Balanced k.depth k.phase)
      (LeavesAs k errors (p.run k.host.file c))

/-- From every cursor on. -/
def Follows (k : Setting S) (m : Action (Reader S) α) (p : Parser α) : Prop :=
  ∀ c, FollowsAt k c m p

namespace FollowsAt

variable {k : Setting S} {c : Cursor} {m : Action (Reader S) α} {p q : Parser α}
  {f : α → Action (Reader S) β} {g : α → Parser β}

/-- What takes no step goes with what takes none. -/
theorem pure (value : α) : FollowsAt k c (Pure.pure value) (Pure.pure value) :=
  fun _ _ hat hbalanced => ⟨c, rfl, hat, hbalanced⟩

/-- One thing after the other, the second from where the first has got to. -/
theorem bind (h : FollowsAt k c m p)
    (h' : ∀ value behind, p.run k.host.file c = .ok value behind →
      FollowsAt k behind (f value) (g value)) :
    FollowsAt k c (m >>= f) (p >>= g) := by
  intro r errors hat hbalanced
  rw [ends_bind]
  refine (h hat hbalanced).mono (fun value t ⟨behind, hrun, hat', hbalanced'⟩ => ?_)
    fun _ _ hleaves => hleaves.bind
  rw [Parser.run_bind, hrun]
  exact h' value behind hrun hat' hbalanced'

/-- Only what the parser does from here on matters. -/
theorem congr (h : FollowsAt k c m p) (hrun : p.run k.host.file c = q.run k.host.file c) :
    FollowsAt k c m q := by
  intro r errors hat hbalanced
  rw [← hrun]
  exact h hat hbalanced

/-- Looking at the token at hand changes nothing but the account. -/
theorem look {f : Token → Action (Reader S) β} {q : Parser β}
    (h : FollowsAt k c (f c.current) q) : FollowsAt k c (Reader.look >>= f) q := by
  intro r errors hat hbalanced
  rw [ends_bind, hat.ends_look]
  exact h hat.looked hbalanced.looked

/-- The parser looks at the token as well, and both have the same one. -/
theorem current {f : Token → Action (Reader S) β} {g : Token → Parser β}
    (h : FollowsAt k c (f c.current) (g c.current)) :
    FollowsAt k c (Reader.look >>= f) (Parser.current >>= g) :=
  .look (h.congr rfl)

/-- The end of the text may be taken to stand where it belongs. -/
theorem of_ended (h : c.Ended → FollowsAt k c m p) : FollowsAt k c m p :=
  fun _ _ hat hbalanced => h hat.ended hat hbalanced

end FollowsAt

/-- The same from every cursor on. -/
theorem Follows.bind {k : Setting S} {m : Action (Reader S) α} {p : Parser α}
    {f : α → Action (Reader S) β} {g : α → Parser β} (h : Follows k m p)
    (h' : ∀ value, Follows k (f value) (g value)) : Follows k (m >>= f) (p >>= g) :=
  fun c => (h c).bind fun value behind _ => h' value behind

/-! ## Single steps -/

/-- Tokens that open and close nothing and may be passed anywhere. -/
def isPlain : Kind → Bool
  | .eof | .leftBrace | .rightBrace => false
  | kind => !isOperand kind

/-- The kinds that are not plain. -/
def otherKinds : List Kind :=
  [.eof, .leftBrace, .rightBrace, .integer, .float, .string, .json]

/-- What starts something is plain if no other kinds start it. -/
theorem isPlain_of_starts {starts : Kind → Option τ} (h : ∀ kind ∈ otherKinds, starts kind = none)
    (kind : Kind) (tag : τ) (hkind : starts kind = some tag) : isPlain kind := by
  by_cases hother : kind ∈ otherKinds
  · cases (h kind hother).symm.trans hkind
  · revert hother
    cases kind <;> decide

theorem isPlain_of_kind {c : Cursor} {kind : Kind} (h : c.kind = kind) (hkind : isPlain kind) :
    isPlain c.kind :=
  h ▸ hkind

/-- Loops over one kind of token start at plain tokens if that kind is plain. -/
theorem isPlain_of_only {mark : Kind} (hmark : isPlain mark) (kind : Kind) (tag : Unit)
    (h : only mark kind = some tag) : isPlain kind := by
  unfold only at h
  split at h
  · next heq => rwa [heq]
  · cases h

/-- Only braces make a difference to the phase. -/
theorem behind_of_isPlain {kind : Kind} (h : isPlain kind) (phase : Phase) :
    phase.behind (.passes kind) = phase := by
  cases kind <;> first | rfl | cases h

/-- Operands are no braces. -/
theorem behind_of_isOperand {kind : Kind} (h : isOperand kind) (phase : Phase) :
    phase.behind (.passes kind) = phase := by
  cases kind <;> first | rfl | cases h

/-- All but operands may be passed anywhere. -/
theorem fits_of_not_isOperand {kind : Kind} (h : isOperand kind = false) {depth : Nat}
    {phase : Phase} : (Event.passes kind).Fits depth phase :=
  fun hoperand => absurd hoperand (by simp [h])

theorem fits_of_isPlain {kind : Kind} (h : isPlain kind) {depth : Nat} {phase : Phase} :
    (Event.passes kind).Fits depth phase := by
  refine fits_of_not_isOperand ?_
  revert h
  cases kind <;> decide

section

variable {k : Setting S} {c : Cursor}

/-- A complaint ends both, with the same words at the same token. -/
theorem followsAt_complain (complaint : Complaint) :
    FollowsAt k c (complain k.host complaint) (Parser.fail complaint : Parser α) := by
  intro r errors hat hbalanced
  have hnoted : (r.noted .complains).Balanced k.depth k.phase :=
    hbalanced.noted_of_eq rfl trivial
  refine (hat.ends_complain complaint).mono (fun _ _ => False.elim) fun interrupt t ⟨hsame, h⟩ => ?_
  rcases h with ⟨rfl, hat'⟩ | ⟨rfl, hrefused⟩
  · exact .misread rfl hat' ((Phase.plus_zero _).symm ▸ hnoted.of_sameCounts hsame)
  · exact .refused ((hnoted.of_sameCounts hsame).refused hrefused)

theorem followsAt_failExpecting (expectation : Expectation) :
    FollowsAt k c (failExpecting k.host expectation)
      (Parser.failExpecting expectation : Parser α) :=
  followsAt_complain _

/-- Passing a token that makes no difference to the phase. -/
theorem followsAt_passing (hne : c.kind ≠ .eof)
    (hphase : k.phase.behind (.passes c.kind) = k.phase)
    (hevent : (Event.passes c.kind).Fits k.depth k.phase) :
    FollowsAt k c (advance k.host) (do
      let token ← Parser.current
      Parser.advance
      return token) := by
  intro r errors hat hbalanced
  have htokens : c.tokens ≠ [] := fun htokens => hne (hat.ended.kind_eq_eof_iff.2 htokens)
  obtain ⟨token, tokens, htokens⟩ := List.exists_cons_of_ne_nil htokens
  have hnoted := hbalanced.noted_of_eq hphase hevent
  refine (hat.ends_advance htokens).mono (fun value t ⟨hvalue, hat', hsame⟩ => ?_)
    fun _ t ⟨hinterrupt, hrefused, hsame⟩ => ?_
  · subst hvalue
    exact ⟨c.advance, rfl, hat', hnoted.of_sameCounts hsame⟩
  · subst hinterrupt
    exact .refused ((hnoted.of_sameCounts hsame).refused hrefused)

/-- Plain tokens may be passed wherever the grammar is. -/
theorem followsAt_advance (h : isPlain c.kind) :
    FollowsAt k c (advance k.host) (do
      let token ← Parser.current
      Parser.advance
      return token) :=
  followsAt_passing (by rintro heof; rw [heof] at h; cases h) (behind_of_isPlain h _)
    (fits_of_isPlain h)

/-- Passing an operand, inside of an expression. -/
theorem followsAt_operand (h : isOperand c.kind) (hdepth : 0 < k.depth) :
    FollowsAt k c (advance k.host) (do
      let token ← Parser.current
      Parser.advance
      return token) :=
  followsAt_passing (by rintro heof; rw [heof] at h; cases h) (behind_of_isOperand h _)
    fun _ => .inl hdepth

/-- Passing a token without a look at what it was. -/
theorem FollowsAt.advance {f : Token → Action (Reader S) β} {p : Parser β} (h : isPlain c.kind)
    (h' : FollowsAt k c.advance (f c.current) p) :
    FollowsAt k c (advance k.host >>= f) (Parser.advance >>= fun _ => p) := by
  refine ((followsAt_advance h).bind (g := fun _ => p) fun value behind hrun => ?_).congr rfl
  cases hrun
  exact h'

theorem followsAt_isAt (kind : Kind) : FollowsAt k c (isAt kind) (Parser.isAt kind) :=
  .look (.congr (.pure _) rfl)

theorem followsAt_here : FollowsAt k c (here k.host) Parser.here :=
  .look (.congr (.pure _) rfl)

/-- A range ends at the last token passed, which both have remembered. -/
theorem followsAt_rangeFrom (start : Location) :
    FollowsAt k c (rangeFrom k.host start) (Parser.rangeFrom start) := by
  intro r errors hat hbalanced
  have hrun : (Parser.rangeFrom start).run k.host.file c = .ok (c.rangeFrom k.host.file start) c :=
    rfl
  rw [rangeFrom, ends_bind, ends_get, hrun, Cursor.rangeFrom, ← hat.previous_eq]
  cases r.previous <;> exact ⟨c, rfl, hat, hbalanced⟩

/-- A token that may be there is looked at and then passed. -/
theorem followsAt_accept {kind : Kind} (h : isPlain kind) :
    FollowsAt k c (accept k.host kind) (Parser.accept kind) := by
  refine (followsAt_isAt kind).bind fun isHere behind hrun => ?_
  cases hrun
  by_cases hkind : c.kind = kind
  · simp only [hkind, decide_true, if_true]
    exact .advance (hkind ▸ h) (.pure true)
  · simp only [hkind, decide_false, Bool.false_eq_true, if_false]
    exact .pure false

/-- A token that must be there is passed, or else it is complained of. -/
theorem followsAt_expectOneOf (kinds : List Kind) {kind : Kind} (h : isPlain kind) :
    FollowsAt k c (expectOneOf k.host kinds kind) (Parser.expectOneOf kinds kind) := by
  have hparser := Parser.run_expectOneOf kinds kind k.host.file c
  by_cases hkind : c.kind = kind
  · rw [if_pos hkind] at hparser
    refine ((followsAt_isAt kind).bind fun isHere behind hrun => ?_).congr
      (p := Parser.isAt kind >>= fun _ => do
        let token ← Parser.current
        Parser.advance
        return token) ?_
    · cases hrun
      simp only [hkind, decide_true, if_true]
      exact followsAt_advance (hkind ▸ h)
    · rw [hparser]
      rfl
  · rw [if_neg hkind] at hparser
    refine ((followsAt_isAt kind).bind fun isHere behind hrun => ?_).congr
      (p := Parser.isAt kind >>= fun _ => Parser.failExpecting (.oneOf kinds)) ?_
    · cases hrun
      simp only [hkind, decide_false, Bool.false_eq_true, if_false]
      exact followsAt_failExpecting _
    · rw [hparser]
      rfl

theorem followsAt_expect {kind : Kind} (h : isPlain kind) :
    FollowsAt k c (expect k.host kind) (Parser.expect kind) :=
  followsAt_expectOneOf [kind] h

theorem followsAt_atSeparator :
    FollowsAt k c atSeparator (Parser.look fun _ c => c.kind.endsStatement) :=
  .look (.congr (.pure _) rfl)

/-- A separator must be there, but it is not passed. -/
theorem followsAt_requireSeparator :
    FollowsAt k c (requireSeparator k.host) Parser.statementEnd := by
  refine (followsAt_atSeparator.bind fun isOver behind hrun => ?_).congr
    (p := Parser.look (fun _ c => c.kind.endsStatement) >>= fun isOver =>
      if isOver then return () else Parser.failExpecting (.oneOf [.newline, .semicolon])) rfl
  cases isOver with
  | true => exact .pure ()
  | false => exact followsAt_failExpecting _

end

/-! ## Loops -/

/-- A loop ends as its first turn does, if this yields the result, or else as the loop does from
there on. In between the length of the turn is put down. -/
theorem ends_repeating {turn : β → Action (Reader S) (β ⊕ γ)} {b : β} {r : Reader S}
    {post : γ → Reader S → Prop} {raised : Interrupt → Reader S → Prop} :
    Ends (repeating turn b) r post raised ↔
      Ends (turn b) r
        (fun next t =>
          match next with
          | .inl b => Ends (repeating turn b) (t.noted (.turns (t.passed - r.passed))) post raised
          | .inr result => post result t)
        raised := by
  unfold repeating
  rw [loop_eq]
  simp only [ends_bind, ends_get]
  constructor
  all_goals
    refine fun h => h.mono_post fun next t h => ?_
    cases next <;> exact h

/-- Behind a turn: another one, or the result. -/
def onward (whole : β → Parser γ) : β ⊕ γ → Parser γ
  | .inl next => whole next
  | .inr result => return result

/-- A loop follows a parser `whole` if each turn follows a parser, what the turns read together is
what `whole` reads, and a turn that asks for another one has passed a token. What is handed from one
turn to the next may be of a certain sort. -/
theorem follows_repeating_of {k : Setting S} {turn : β → Action (Reader S) (β ⊕ γ)}
    (sort : β → Prop) (part : β → Parser (β ⊕ γ)) (whole : β → Parser γ)
    (hturn : ∀ b, sort b → Follows k (turn b) (part b))
    (hwhole : ∀ b (c : Cursor), sort b → c.Ended →
      (whole b).run k.host.file c = (part b >>= onward whole).run k.host.file c)
    (hprogress : ∀ b (c : Cursor) next behind, sort b → c.Ended →
      (part b).run k.host.file c = .ok (.inl next) behind → sort next ∧ behind.size < c.size)
    {b : β} (hb : sort b) : Follows k (repeating turn b) (whole b) := by
  intro c
  -- The induction is on the tokens that are left: a turn that asks for another one leaves fewer.
  induction hsize : c.size using Nat.strongRecOn generalizing b c with
  | ind size ih =>
    intro r errors hat hbalanced
    rw [ends_repeating, hwhole b c hb hat.ended]
    refine (hturn b hb c hat hbalanced).mono
      (fun next t ⟨behind, hrun, hat', hbalanced'⟩ => ?_) fun _ _ hleaves => hleaves.bind
    rw [Parser.run_bind, hrun]
    cases next with
    | inr result => exact ⟨behind, rfl, hat', hbalanced'⟩
    | inl next =>
      obtain ⟨hnext, hlt⟩ := hprogress b c next behind hb hat.ended hrun
      have hpassed := hat.passed_add
      have hpassed' := hat'.passed_add
      have hturn : 0 < t.passed - r.passed := by omega
      exact ih _ (hsize ▸ hlt) hnext behind rfl (hat'.noted _ nofun nofun)
        (hbalanced'.noted_of_eq rfl hturn)

/-- The usual case, in which whatever is handed on will do. -/
theorem follows_repeating {k : Setting S} {turn : β → Action (Reader S) (β ⊕ γ)}
    (part : β → Parser (β ⊕ γ)) (whole : β → Parser γ) (hturn : ∀ b, Follows k (turn b) (part b))
    (hwhole : ∀ b (c : Cursor), c.Ended →
      (whole b).run k.host.file c = (part b >>= onward whole).run k.host.file c)
    (hprogress : ∀ b (c : Cursor) next behind, c.Ended →
      (part b).run k.host.file c = .ok (.inl next) behind → behind.size < c.size)
    (b : β) : Follows k (repeating turn b) (whole b) :=
  follows_repeating_of (fun _ => True) part whole (fun b _ => hturn b)
    (fun b c _ hended => hwhole b c hended)
    (fun b c next behind _ hended hrun => ⟨trivial, hprogress b c next behind hended hrun⟩) trivial

theorem run_many (starts : Kind → Option τ) (item : τ → Token → Parser α) (file : String)
    (c : Cursor) : (Parser.many starts item).run file c = Parser.runMany starts item file c := rfl

/-- What one turn of a loop over tokens reads. -/
def tokenPart (starts : Kind → Option τ) (item : τ → Token → Parser α) (step : β → α → β) (b : β) :
    Parser (β ⊕ β) := do
  let token ← Parser.current
  match starts token.kind with
  | none => return .inr b
  | some tag =>
    Parser.advance
    let value ← item tag token
    return .inl (step b value)

section

variable {starts : Kind → Option τ} {item : τ → Token → Parser α} {step : β → α → β}

/-- A turn at a token that starts nothing is the last one. -/
theorem run_tokenPart_of_none {c : Cursor} (h : starts c.kind = none) (b : β) (file : String) :
    (tokenPart starts item step b).run file c = .ok (.inr b) c := by
  have hrun : (tokenPart starts item step b).run file c =
      Parser.run (match starts c.kind with
        | none => return .inr b
        | some tag => do
          Parser.advance
          let value ← item tag c.current
          return .inl (step b value)) file c := rfl
  rw [hrun, h]
  rfl

/-- Any other turn passes the token and reads an item. -/
theorem run_tokenPart_of_some {c : Cursor} {tag : τ} (h : starts c.kind = some tag) (b : β)
    (file : String) :
    (tokenPart starts item step b).run file c =
      ((item tag c.current).run file c.advance).map fun value => .inl (step b value) := by
  have hrun : (tokenPart starts item step b).run file c =
      Parser.run (match starts c.kind with
        | none => return .inr b
        | some tag => do
          Parser.advance
          let value ← item tag c.current
          return .inl (step b value)) file c := rfl
  rw [hrun, h]
  simp only [Parser.run_bind, Parser.advance, Parser.move]
  cases (item tag c.current).run file c.advance <;> rfl

/-- A loop over tokens reads what `Parser.many` reads and puts it together as it goes. -/
theorem follows_whileAt {k : Setting S} (item : τ → Token → Parser α) (step : β → α → β)
    {turn : β → τ → Token → Action (Reader S) β}
    (hplain : ∀ kind tag, starts kind = some tag → isPlain kind)
    (hturn : ∀ b tag token, Follows k (turn b tag token) (do return step b (← item tag token)))
    (b : β) :
    Follows k (whileAt k.host starts turn b) (do
      let values ← Parser.many starts item
      return values.foldl step b) := by
  have hne {c : Cursor} {tag : τ} (hended : c.Ended) (h : starts c.kind = some tag) :
      c.tokens ≠ [] := by
    intro htokens
    rw [hended.kind_eq_eof_iff.2 htokens] at h
    cases hplain _ _ h
  -- What is to be shown: each turn follows its part, the part and what comes behind it are the
  -- whole, and a turn that is not the last passes a token.
  refine follows_repeating (tokenPart starts item step)
    (fun b => do
      let values ← Parser.many starts item
      return values.foldl step b) ?_ ?_ ?_ b
  · intro b c
    refine .look ?_
    cases hstarts : starts c.current.kind with
    | none => exact (FollowsAt.pure _).congr (run_tokenPart_of_none hstarts b _).symm
    | some tag =>
      refine (FollowsAt.advance (hplain _ _ hstarts) ((hturn b tag c.current _).bind
        fun value behind hrun => .pure (Sum.inl value))).congr ?_
      rw [run_tokenPart_of_some hstarts]
      simp only [Parser.run_bind, Parser.advance, Parser.move]
      cases (item tag c.current).run k.host.file c.advance <;> rfl
  · intro b c hended
    rw [Parser.run_bind, Parser.run_bind, run_many]
    cases hstarts : starts c.kind with
    | none =>
      rw [run_tokenPart_of_none hstarts, Parser.runMany_of_none hstarts]
      rfl
    | some tag =>
      obtain ⟨token, tokens, htokens⟩ := List.exists_cons_of_ne_nil (hne hended hstarts)
      have hcurrent := Cursor.current_of_cons htokens
      have htag : starts token.kind = some tag := hcurrent ▸ hstarts
      rw [run_tokenPart_of_some hstarts, Parser.runMany_of_cons htokens, htag, hcurrent]
      cases hitem : (item tag token).run k.host.file c.advance with
      | failed failure stuck => simp only [Outcome.map, hitem]
      | ok value behind =>
        simp only [Outcome.map, onward, Parser.run_bind, run_many, hitem]
        cases Parser.runMany starts item k.host.file behind <;> rfl
  · intro b c next behind hended hrun
    cases hstarts : starts c.kind with
    | none =>
      rw [run_tokenPart_of_none hstarts] at hrun
      cases hrun
    | some tag =>
      have hle := (item tag c.current).size_le k.host.file c.advance
      rw [run_tokenPart_of_some hstarts] at hrun
      have hbehind := congrArg Outcome.cursor hrun
      rw [Outcome.cursor_map] at hbehind
      rw [hbehind] at hle
      exact Nat.lt_of_le_of_lt hle (Cursor.size_advance_lt (hne hended hstarts))

/-- Adding to a list one by one is adding all at once. -/
theorem foldl_concat (values before : List α) :
    values.foldl (fun items value => items ++ [value]) before = before ++ values := by
  induction values generalizing before with
  | nil => exact (List.append_nil before).symm
  | cons value values ih => rw [List.foldl_cons, ih, List.append_assoc, List.singleton_append]

/-- A loop that adds to a list reads what `Parser.many` reads. -/
theorem follows_collecting {k : Setting S} (item : τ → Token → Parser α)
    {act : τ → Token → Action (Reader S) α}
    (hplain : ∀ kind tag, starts kind = some tag → isPlain kind)
    (hact : ∀ tag token, Follows k (act tag token) (item tag token)) (before : List α) :
    Follows k (collecting k.host starts act before) (do
      let values ← Parser.many starts item
      return before ++ values) := by
  intro c
  refine (follows_whileAt item (fun items value => items ++ [value]) hplain
    (fun b tag token => (hact tag token).bind fun _ _ => .pure _) before c).congr ?_
  simp only [foldl_concat]

/-- From an empty list on. -/
theorem follows_collecting_nil {k : Setting S} (item : τ → Token → Parser α)
    {act : τ → Token → Action (Reader S) α}
    (hplain : ∀ kind tag, starts kind = some tag → isPlain kind)
    (hact : ∀ tag token, Follows k (act tag token) (item tag token)) :
    Follows k (collecting k.host starts act []) (Parser.many starts item) := by
  refine fun c => (follows_collecting item hplain hact [] c).congr ?_
  rw [Parser.run_bind]
  cases (Parser.many starts item).run k.host.file c <;> rfl

/-- Items behind each other's separators. -/
theorem follows_separatedBy {k : Setting S} {kind : Kind} {act : Action (Reader S) α}
    {p : Parser α} (hkind : isPlain kind) (hact : Follows k act p) :
    Follows k (separatedBy k.host kind act) (Parser.separatedBy kind p) :=
  hact.bind fun first =>
    follows_collecting (fun _ _ => p) (isPlain_of_only hkind) (fun _ _ => hact) [first]

end

/-- Passing every token of a sort of separators is what dropping them from the row of tokens is. -/
theorem follows_skipping {k : Setting S} {starts : Kind → Option Unit} {p : Parser Unit}
    (hseparator : ∀ kind tag, starts kind = some tag → kind.isSeparator)
    (hp : ∀ c : Cursor, p.run k.host.file c =
      .ok () { c with tokens := c.tokens.dropWhile fun token => (starts token.kind).isSome }) :
    Follows k (whileAt k.host starts (fun () () _ => return ()) ()) p := by
  have hplain : ∀ kind tag, starts kind = some tag → isPlain kind := by
    intro kind tag h
    have hkind := hseparator kind tag h
    cases kind <;> first | rfl | cases hkind
  intro c
  refine (follows_whileAt (fun _ _ => Pure.pure ()) (fun () () => ()) hplain
    (fun _ _ _ _ => (FollowsAt.pure ()).congr rfl) () c).congr ?_
  -- Units carry nothing, so it is only the cursor that the row of units is about.
  have hmany : ∃ units, Parser.runMany starts (fun _ _ => Pure.pure ()) k.host.file c =
      .ok units
        { c with tokens := c.tokens.dropWhile fun token => (starts token.kind).isSome } := by
    obtain ⟨previous, tokens, last⟩ := c
    induction tokens with
    | nil => exact ⟨[], Parser.runMany_of_nil rfl⟩
    | cons token tokens ih =>
      rw [Parser.runMany_of_cons rfl]
      cases hstarts : starts token.kind with
      | none => exact ⟨[], by simp [hstarts]⟩
      | some tag =>
        obtain ⟨units, hunits⟩ := ih
        have hpassed : Cursor.passed previous token = previous := if_pos (hseparator _ _ hstarts)
        refine ⟨() :: units, ?_⟩
        simp only [Cursor.advance, hpassed, Parser.run_pure, hunits, Outcome.map,
          List.dropWhile_cons, hstarts]
        rfl
  obtain ⟨units, hunits⟩ := hmany
  rw [Parser.run_bind, run_many, hunits, hp]
  rfl

end Cqasm.Machine
