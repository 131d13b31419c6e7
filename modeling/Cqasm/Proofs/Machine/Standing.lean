import Cqasm.Proofs.Limit
import Cqasm.Proofs.Machine.Balance
import Cqasm.Proofs.Machine.Scanning
import Cqasm.Proofs.Recognition.Step

/-!
# Where the grammar stands in a text

`Reader.At` says where the grammar stands: in front of the same token as a cursor, with the scanner
in front of the next one, and with everything reported that there has been to report so far. The
only steps that change it are to pass a token (`At.ends_advance`) and to complain of one
(`At.ends_complain`).
-/

set_option autoImplicit false

namespace Cqasm

/-! ## Steps of a stream -/

namespace TokenStream

/-- The items are in the order of their places, and the end of the text is behind all of them. -/
structure Ordered (stream : TokenStream) : Prop where
  pairwise : stream.items.Pairwise (·.offset < ·.offset)
  lt_last : ∀ item ∈ stream.items, item.offset < stream.last.start.offset

/-- The items of a text are in the order of the text. -/
theorem ordered_ofText (text : List Char) : (ofText text).Ordered where
  pairwise := by
    refine (Item.pairwise_ofLexemes _ _).imp fun {a b} hbefore => ?_
    rw [a.offset_eq, b.offset_eq]
    exact hbefore.offset_lt
  lt_last item h := by
    rw [item.offset_eq]
    exact (before_last h).offset_lt

/-- A step takes items up to a token, or all of them where no token is left. -/
theorem next_spec (stream : TokenStream) :
    ∃ taken, stream.items = taken ++ stream.next.rest.items ∧
      stream.next.rest.last = stream.last ∧
      stream.next.report = taken.flatMap Item.diagnostics ∧
      ((stream.tokens = stream.next.token :: stream.next.rest.tokens ∧
          taken.getLast? = some (.token stream.next.token)) ∨
        (stream.tokens = [] ∧ stream.next.token = stream.last ∧ stream.next.rest.items = [])) := by
  obtain ⟨items, last⟩ := stream
  induction items with
  | nil => exact ⟨[], rfl, rfl, rfl, .inr ⟨rfl, rfl, rfl⟩⟩
  | cons item items ih =>
    cases item with
    | token t =>
      exact ⟨[.token t], rfl, rfl, (List.append_nil _).symm, .inl ⟨rfl, rfl⟩⟩
    | stray c place =>
      obtain ⟨taken, hitems, hlast, hreport, hcases⟩ := ih
      rw [Machine.Scanner.next_stray]
      refine ⟨.stray c place :: taken, congrArg (_ :: ·) hitems, hlast, ?_, ?_⟩
      · rw [List.flatMap_cons, ← hreport]
        rfl
      · refine hcases.imp (fun ⟨htokens, htaken⟩ => ⟨htokens, ?_⟩) id
        rw [List.getLast?_cons, htaken]
        rfl

end TokenStream

namespace Machine

open Machine.Action

/-- What a run is about: the surroundings, the text as a whole, and how deep in expressions and
braces the part of the run is that is looked at. -/
structure Setting (S : Type) where
  host : Host S
  stream : TokenStream
  ordered : stream.Ordered
  depth : Nat
  phase : Phase

variable {S α β γ τ : Type}

/-- The setting of another part of a run, equally deep in expressions. -/
def Setting.during (k : Setting S) (phase : Phase) : Setting S :=
  { k with phase }

namespace Scanner

/-- The scanner delivers what is left of a text. -/
def Yields (host : Host S) (s : Scanner S) (stream : TokenStream) : Prop :=
  s.disposed = false ∧
    ∃ place rest, Stands host s place rest ∧ stream = streamAt place s.expectVersionNumber rest

/-- Asking for a token is a step of the stream. -/
theorem Yields.ends_nextToken {host : Host S} {s : Scanner S} {stream : TokenStream}
    (h : Yields host s stream) :
    Ends (nextToken host) s
      (fun token t => token = stream.next.token ∧ Yields host t stream.next.rest ∧
        t.reports = s.reports ++ stream.next.report)
      fun interrupt t => interrupt = .refused ∧ IsRefused host t := by
  obtain ⟨hdisposed, place, rest, hs, rfl⟩ := h
  refine (Scanner.ends_nextToken hs hdisposed).mono (fun token t ⟨text, behind, ht⟩ => ?_)
    fun _ _ hthrows => ⟨hthrows.interrupt_eq, hthrows.isRefused⟩
  exact ⟨ht.token_eq, ⟨ht.disposed, _, _, ht.stands, ht.stream_eq⟩, ht.reports_eq⟩

end Scanner

namespace Reader

/-! ## Where the grammar stands -/

/-- The items of a text up to the token at hand, and what is behind it for the scanner to
deliver. -/
structure Seen (k : Setting S) (s : Scanner S) (c : Cursor) (errors : List Diagnostic)
    (before : List Item) (behind : TokenStream) : Prop where
  items_eq : k.stream.items = before ++ behind.items
  last_eq : behind.last = k.stream.last
  yields : Scanner.Yields k.host s behind
  tokens : (c.tokens = c.current :: behind.tokens ∧ .token c.current ∈ before) ∨
    (c.tokens = [] ∧ behind.items = [])
  reports_eq : s.reports = Reading.interleave (before.flatMap Item.diagnostics) errors
  before_le : ∀ item ∈ before, item.offset ≤ c.current.start.offset
  behind_gt : ∀ item ∈ behind.items, c.current.start.offset < item.offset

/-- The grammar stands where a cursor does, and has complained of `errors`. -/
structure At (k : Setting S) (r : Reader S) (c : Cursor) (errors : List Diagnostic) : Prop where
  current_eq : r.current = c.current
  previous_eq : r.previous = c.previous
  last_eq : c.last = k.stream.last
  ended : c.Ended
  passed_add : r.passed + c.size = k.stream.tokens.length
  errors_le : ∀ e ∈ errors, e.offset ≤ c.current.start.offset
  /-- The account tells of every token in front of the one at hand. -/
  kinds_eq : passedKinds r.history ++ c.tokens.map Token.kind = k.stream.tokens.map Token.kind
  /-- Without a complaint nothing is given up. -/
  noneGivenUp : errors = [] → NoneGivenUp r.history
  seen : ∃ before behind, Seen k r.scanner c errors before behind

variable {k : Setting S} {r t : Reader S} {s : Scanner S} {c : Cursor} {errors : List Diagnostic}

/-- The last item is where a text has come to: none before it is later, and all behind it are. -/
theorem offset_of_getLast? {items rest : List Item} {last : Item}
    (h : (items ++ rest).Pairwise (·.offset < ·.offset)) (hlast : items.getLast? = some last) :
    (∀ item ∈ items, item.offset ≤ last.offset) ∧ ∀ item ∈ rest, last.offset < item.offset := by
  obtain ⟨front, rfl⟩ := List.getLast?_eq_some_iff.1 hlast
  obtain ⟨hitems, -, hbetween⟩ := List.pairwise_append.1 h
  refine ⟨fun item hitem => ?_, hbetween last (by simp)⟩
  rcases List.mem_append.1 hitem with hitem | hitem
  · exact Nat.le_of_lt ((List.pairwise_append.1 hitems).2.2 item hitem last (by simp))
  · obtain rfl := List.mem_singleton.1 hitem
    exact Nat.le_refl _

/-- What is wrong with later items is reported behind the complaints there are. -/
theorem interleave_taken (before : List Item) {taken : List Item}
    (h : ∀ e ∈ errors, ∀ item ∈ taken, e.offset < item.offset) :
    Reading.interleave ((before ++ taken).flatMap Item.diagnostics) errors =
      Reading.interleave (before.flatMap Item.diagnostics) errors ++
        taken.flatMap Item.diagnostics := by
  have hlate : ∀ d ∈ taken.flatMap Item.diagnostics, ∀ e ∈ errors, e.offset < d.offset := by
    intro d hd e he
    obtain ⟨item, hitem, hdiagnostic⟩ := List.mem_flatMap.1 hd
    rw [Item.offset_of_mem_diagnostics hdiagnostic]
    exact h e he item hitem
  have happend : Reading.interleave (before.flatMap Item.diagnostics ++
      taken.flatMap Item.diagnostics) (errors ++ []) =
        Reading.interleave (before.flatMap Item.diagnostics) errors ++
          taken.flatMap Item.diagnostics :=
    Reading.interleave_append (fun _ _ _ he => by cases he) hlate
  rw [List.append_nil] at happend
  rw [List.flatMap_append, happend]

/-- The token that comes next is the one in front of which the cursor stands that has what is behind
it for its tokens. -/
theorem exists_seen_next {before : List Item} {behind : TokenStream}
    (hitems : k.stream.items = before ++ behind.items) (hlast : behind.last = k.stream.last)
    (hyields : Scanner.Yields k.host s behind.next.rest)
    (hreports : s.reports =
      Reading.interleave (before.flatMap Item.diagnostics) errors ++ behind.next.report)
    (herrors : ∀ e ∈ errors,
      (∀ item ∈ behind.items, e.offset < item.offset) ∧ e.offset ≤ k.stream.last.start.offset)
    (htokens : c.tokens = behind.tokens) (hclast : c.last = k.stream.last) :
    behind.next.token = c.current ∧ (∀ e ∈ errors, e.offset ≤ c.current.start.offset) ∧
      ∃ before' behind', Seen k s c errors before' behind' := by
  obtain ⟨taken, htaken, hrest, hreport, hcases⟩ := behind.next_spec
  have hcurrent : behind.next.token = c.current := by
    rw [Cursor.current, htokens, hclast, ← hlast]
    rcases hcases with ⟨hcons, -⟩ | ⟨hnil, htoken, -⟩
    · rw [hcons]
      rfl
    · rw [hnil, htoken]
      rfl
  have hsplit : k.stream.items = (before ++ taken) ++ behind.next.rest.items := by
    rw [hitems, htaken, List.append_assoc]
  -- What was complained about lies before everything that is taken, so it stays in front of it in
  -- the report.
  have hahead : ∀ e ∈ errors, ∀ item ∈ taken, e.offset < item.offset := fun e he item hitem =>
    (herrors e he).1 item (htaken ▸ List.mem_append_left _ hitem)
  have hplaces : (∀ item ∈ before ++ taken, item.offset ≤ c.current.start.offset) ∧
      (∀ item ∈ behind.next.rest.items, c.current.start.offset < item.offset) ∧
      ∀ e ∈ errors, e.offset ≤ c.current.start.offset := by
    -- a token is handed out at its own place, and the end of the text at the last one
    rcases hcases with ⟨-, htoken⟩ | ⟨-, htoken, hnil⟩
    · rw [hcurrent] at htoken
      have hbehind : (before ++ taken).getLast? = some (.token c.current) := by
        rw [List.getLast?_append, htoken]
        rfl
      obtain ⟨hle, hlt⟩ := offset_of_getLast? (hsplit ▸ k.ordered.pairwise) hbehind
      exact ⟨hle, hlt, fun e he =>
        Nat.le_of_lt (hahead e he _ (List.mem_of_getLast? htoken))⟩
    · rw [← hcurrent, htoken, hlast, hnil]
      refine ⟨fun item hitem => ?_, by simp, fun e he => (herrors e he).2⟩
      refine Nat.le_of_lt (k.ordered.lt_last _ ?_)
      rw [hsplit]
      exact List.mem_append_left _ hitem
  refine ⟨hcurrent, hplaces.2.2, before ++ taken, behind.next.rest, hsplit, hrest.trans hlast,
    hyields, ?_, ?_, hplaces.1, hplaces.2.1⟩
  · rw [htokens]
    rcases hcases with ⟨hcons, htoken⟩ | ⟨hnil, -, hrest⟩
    · refine .inl ⟨?_, ?_⟩
      · rw [← hcurrent, hcons]
      · rw [← hcurrent]
        exact List.mem_append_right _ (List.mem_of_getLast? htoken)
    · exact .inr ⟨hnil, hrest⟩
  · rw [hreports, hreport, interleave_taken before hahead]

/-! ## Steps -/

/-- The counters and the account of the run are the same in both states. -/
structure SameCounts (r t : Reader S) : Prop where
  activations : t.activations = r.activations
  expressionDepth : t.expressionDepth = r.expressionDepth
  braceDepth : t.braceDepth = r.braceDepth
  history : t.history = r.history

/-- Whether a state is balanced depends on its counts and its account alone. -/
theorem Balanced.of_sameCounts {depth : Nat} {phase : Phase} (h : r.Balanced depth phase)
    (hsame : r.SameCounts t) : t.Balanced depth phase where
  activations_eq := hsame.activations.trans h.activations_eq
  expressionDepth_eq := hsame.expressionDepth.trans h.expressionDepth_eq
  depth_le := h.depth_le
  phase_eq := hsame.history ▸ h.phase_eq
  braceDepth_eq := hsame.braceDepth.trans h.braceDepth_eq
  opened_le := h.opened_le
  allFair := hsame.history ▸ h.allFair

/-- What the scanner does is done to the scanner inside of the state. -/
theorem ends_scanning {m : Action (Scanner S) α} {post : α → Reader S → Prop}
    {raised : Interrupt → Reader S → Prop} :
    Ends (scanning m) r post raised ↔
      Ends m r.scanner (fun value scanner => post value { r with scanner })
        fun interrupt scanner => raised interrupt { r with scanner } := by
  unfold Ends scanning
  rcases m r.scanner with - | ⟨- | value, scanner⟩ <;> exact Iff.rfl

/-- What a look at a token does to where the grammar stands: nothing. -/
theorem At.of_eq (h : At k r c errors) (hscanner : t.scanner = r.scanner)
    (hcurrent : t.current = r.current) (hprevious : t.previous = r.previous)
    (hpassed : t.passed = r.passed) (hhistory : t.history = r.history) : At k t c errors where
  current_eq := hcurrent.trans h.current_eq
  previous_eq := hprevious.trans h.previous_eq
  last_eq := h.last_eq
  ended := h.ended
  passed_add := hpassed ▸ h.passed_add
  errors_le := h.errors_le
  kinds_eq := hhistory ▸ h.kinds_eq
  noneGivenUp := hhistory ▸ h.noneGivenUp
  seen := by
    obtain ⟨before, behind, hseen⟩ := h.seen
    exact ⟨before, behind, hscanner ▸ hseen⟩

/-- How deep the run is makes no difference to where it stands. -/
theorem At.of_setting {k' : Setting S} (h : At k r c errors) (hhost : k'.host = k.host)
    (hstream : k'.stream = k.stream) : At k' r c errors where
  current_eq := h.current_eq
  previous_eq := h.previous_eq
  last_eq := hstream ▸ h.last_eq
  ended := h.ended
  passed_add := hstream ▸ h.passed_add
  errors_le := h.errors_le
  kinds_eq := hstream ▸ h.kinds_eq
  noneGivenUp := h.noneGivenUp
  seen := by
    obtain ⟨before, behind, hseen⟩ := h.seen
    exact ⟨before, behind,
      { hseen with
        items_eq := hstream ▸ hseen.items_eq
        last_eq := hstream ▸ hseen.last_eq
        yields := hhost ▸ hseen.yields }⟩

/-- Whatever is put down but that a token is passed or a statement given up leaves the grammar where
it stands. -/
theorem At.noted (h : At k r c errors) (event : Event)
    (hpasses : ∀ kind, event ≠ .passes kind) (hgivesUp : event = .givesUp → errors ≠ []) :
    At k (r.noted event) c errors where
  current_eq := h.current_eq
  previous_eq := h.previous_eq
  last_eq := h.last_eq
  ended := h.ended
  passed_add := h.passed_add
  errors_le := h.errors_le
  kinds_eq := by
    have hkinds : passedKinds (r.noted event).history = passedKinds r.history := by
      cases event with
      | passes kind => exact absurd rfl (hpasses kind)
      | _ => rfl
    rw [hkinds, h.kinds_eq]
  noneGivenUp hnone :=
    List.forall_mem_cons.2 ⟨fun hevent => hgivesUp hevent hnone, h.noneGivenUp hnone⟩
  seen := h.seen

/-- A look leaves the grammar where it stands. -/
theorem At.looked (h : At k r c errors) : At k (r.noted .looks) c errors :=
  h.noted .looks nofun nofun

/-- A statement may be given up once there has been a complaint. -/
theorem At.givenUp (h : At k r c errors) (herrors : errors ≠ []) :
    At k (r.noted .givesUp) c errors :=
  h.noted .givesUp nofun fun _ => herrors

/-- A look at the token at hand is put down, and sees the token of the cursor. -/
theorem At.ends_look (h : At k r c errors) {post : Token → Reader S → Prop}
    {raised : Interrupt → Reader S → Prop} :
    Ends look r post raised ↔ post c.current (r.noted .looks) := by
  rw [← h.current_eq]
  exact Iff.rfl

/-- The token at hand is passed, and the next one comes up. -/
theorem At.ends_advance (h : At k r c errors) {token : Token} {tokens : List Token}
    (htokens : c.tokens = token :: tokens) :
    Ends (advance k.host) r
      (fun value t => value = c.current ∧ At k t c.advance errors ∧
        (r.noted (.passes c.kind)).SameCounts t)
      fun interrupt t => interrupt = .refused ∧ Scanner.IsRefused k.host t.scanner ∧
        (r.noted (.passes c.kind)).SameCounts t := by
  have hne : r.current.kind ≠ .eof := by
    rw [h.current_eq, Cursor.current_of_cons htokens]
    exact h.ended.kind_ne token (by simp [htokens])
  obtain ⟨before, behind, hseen⟩ := h.seen
  have hpasses := Cursor.passes_advance htokens
  obtain ⟨hcons, hmem⟩ : c.tokens = c.current :: behind.tokens ∧ .token c.current ∈ before := by
    rcases hseen.tokens with hcons | ⟨hnil, -⟩
    · exact hcons
    · rw [hnil] at htokens
      cases htokens
  have hbehind : c.advance.tokens = behind.tokens :=
    List.tail_eq_of_cons_eq (hpasses.tokens_eq.symm.trans hcons)
  have hlast : c.current.start.offset < k.stream.last.start.offset :=
    k.ordered.lt_last (.token c.current) (hseen.items_eq ▸ List.mem_append_left _ hmem)
  have hnoted : r.moment (.passes r.current.kind) :: r.history =
      (r.noted (.passes c.kind)).history :=
    congrArg (fun token => r.moment (.passes token.kind) :: r.history) h.current_eq
  simp only [advance, ends_bind, ends_get, hne, if_false, note, ends_modify, ends_scanning,
    ends_pure]
  refine hseen.yields.ends_nextToken.mono ?_ ?_
  -- the token behind is read at once, and what is stray in front of it is reported
  · rintro next s ⟨hnext, hyields, hreports⟩
    rw [hseen.reports_eq] at hreports
    obtain ⟨hcurrent, herrors, hseen'⟩ := exists_seen_next
      hseen.items_eq hseen.last_eq hyields hreports
      (fun e he => ⟨fun item hitem =>
          Nat.lt_of_le_of_lt (h.errors_le e he) (hseen.behind_gt item hitem),
        Nat.le_of_lt (Nat.lt_of_le_of_lt (h.errors_le e he) hlast)⟩)
      hbehind (hpasses.last_eq.trans h.last_eq)
    refine ⟨h.current_eq, ⟨hnext.trans hcurrent, ?_, hpasses.last_eq.trans h.last_eq,
      hpasses.ended h.ended, ?_, herrors, ?_, ?_, hseen'⟩, ⟨rfl, rfl, rfl, ?_⟩⟩
    · rw [hpasses.previous_eq, h.previous_eq, h.current_eq, Cursor.current_of_cons htokens]
      rfl
    · have hsize := hpasses.size_eq
      have hpassed := h.passed_add
      rw [List.length_singleton] at hsize
      simp only
      omega
    · have hkinds := h.kinds_eq
      rw [hcons, ← hbehind, List.map_cons, List.append_cons] at hkinds
      rw [← hkinds, ← h.current_eq]
      rfl
    · exact fun hnone => List.forall_mem_cons.2 ⟨by simp [Reader.moment], h.noneGivenUp hnone⟩
    · exact hnoted
  · rintro _ _ ⟨hrefused, hnot⟩
    exact ⟨hrefused, hnot, rfl, rfl, rfl, hnoted⟩

/-- A complaint is reported behind all there has been to report, and what is being read is left. -/
theorem At.ends_complain (h : At k r c errors) (complaint : Complaint) :
    Ends (complain k.host complaint : Action (Reader S) α) r (fun _ _ => False)
      fun interrupt t => (r.noted .complains).SameCounts t ∧
        ((interrupt = .misread ∧ At k t c (errors ++ [.misplaced c.current complaint])) ∨
          (interrupt = .refused ∧ Scanner.IsRefused k.host t.scanner)) := by
  obtain ⟨before, behind, hseen⟩ := h.seen
  -- Whoever takes the message may take no more, and then reading is given up for good.
  by_cases htakes : k.host.takes r.scanner.reports (.misplaced r.current complaint)
  · simp only [complain, note, Scanner.report, ends_bind, ends_modify, ends_get, ends_scanning,
      htakes, if_true, ends_set, ends_throw]
    have hbefore : ∀ d ∈ before.flatMap Item.diagnostics,
        ∀ e ∈ [Diagnostic.misplaced c.current complaint], d.offset ≤ e.offset := by
      intro d hd e he
      obtain ⟨item, hitem, hdiagnostic⟩ := List.mem_flatMap.1 hd
      rw [Item.offset_of_mem_diagnostics hdiagnostic, List.mem_singleton.1 he]
      exact hseen.before_le item hitem
    have happend : Reading.interleave (before.flatMap Item.diagnostics ++ [])
        (errors ++ [.misplaced c.current complaint]) =
          Reading.interleave (before.flatMap Item.diagnostics) errors ++
            [.misplaced c.current complaint] :=
      Reading.interleave_append hbefore fun _ hd => by cases hd
    refine ⟨⟨rfl, rfl, rfl, rfl⟩, .inl ⟨trivial, h.current_eq, h.previous_eq, h.last_eq, h.ended,
      h.passed_add, ?_, h.kinds_eq, fun hnone => absurd hnone (by simp), before, behind,
      { hseen with reports_eq := ?_, yields := ?_ }⟩⟩
    · intro e he
      rcases List.mem_append.1 he with he | he
      · exact h.errors_le e he
      · rw [List.mem_singleton.1 he]
        exact Nat.le_refl _
    · obtain ⟨hdisposed, place, rest, hs, hstream⟩ := hseen.yields
      exact ⟨hdisposed, place, rest, ⟨hs.holds, hs.here_eq⟩, hstream⟩
    · rw [List.append_nil] at happend
      rw [happend, ← hseen.reports_eq, h.current_eq]
  · simp only [complain, note, Scanner.report, ends_bind, ends_modify, ends_get, ends_scanning,
      htakes]
    exact ⟨⟨rfl, rfl, rfl, rfl⟩, .inr ⟨rfl, _, by simpa using htakes⟩⟩

end Reader

end Machine

end Cqasm
