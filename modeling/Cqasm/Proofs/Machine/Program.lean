import Cqasm.Proofs.Machine.Recovery
import Cqasm.Proofs.Session.Patience

/-!
# Programs, followed

From the first token on the grammar comes to an end, with the tree that `Reading.ofStream` yields
and with everything reported that `Reading.report` lists (`ends_parse`). In the loop over the
statements each turn starts idle, and the number of diagnostics it looks at is the one that
`Patience` counts.
-/

set_option autoImplicit false

namespace Cqasm.Machine

open Machine.Action Reader

variable {S α : Type} {k : Setting S} {c : Cursor} {r : Reader S} {errors : List Diagnostic}

/-! ## Patience -/

/-- How many diagnostics the text may come to. -/
def Setting.patience (k : Setting S) : Patience :=
  Reading.patienceFor k.stream k.host.isExhaustedBy

/-- Of what is wrong with the characters, what has come up is about those up to the token at
hand. -/
theorem Reader.Seen.diagnostics_eq {s : Scanner S} {before : List Item} {behind : TokenStream}
    (h : Seen k s c errors before behind) :
    before.flatMap Item.diagnostics =
      k.stream.diagnostics.filter (·.offset ≤ c.current.start.offset) := by
  have hbefore : (before.flatMap Item.diagnostics).filter (·.offset ≤ c.current.start.offset) =
      before.flatMap Item.diagnostics := by
    refine List.filter_eq_self.2 fun d hd => ?_
    obtain ⟨item, hitem, hdiagnostic⟩ := List.mem_flatMap.1 hd
    rw [Item.offset_of_mem_diagnostics hdiagnostic]
    exact decide_eq_true (h.before_le item hitem)
  have hbehind : (behind.items.flatMap Item.diagnostics).filter
      (·.offset ≤ c.current.start.offset) = [] := by
    refine List.filter_eq_nil_iff.2 fun d hd => ?_
    obtain ⟨item, hitem, hdiagnostic⟩ := List.mem_flatMap.1 hd
    rw [Item.offset_of_mem_diagnostics hdiagnostic, decide_eq_true_iff]
    exact Nat.not_le.2 (h.behind_gt item hitem)
  rw [TokenStream.diagnostics, h.items_eq, List.flatMap_append, List.filter_append, hbefore,
    hbehind, List.append_nil]

/-- The number of diagnostics that the grammar looks at is the one that patience goes by. -/
theorem Reader.At.ends_aborted (h : At k r c errors) {post : Bool → Reader S → Prop}
    {raised : Interrupt → Reader S → Prop} :
    Ends (aborted k.host) r post raised ↔
      post (k.patience.isExhausted errors.length c.current) r := by
  obtain ⟨before, behind, hseen⟩ := h.seen
  have hlength : r.scanner.reports.length =
      errors.length + (k.patience.lexicalUpTo c.current).length := by
    rw [hseen.reports_eq, Reading.length_interleave, hseen.diagnostics_eq, Nat.add_comm]
    rfl
  rw [aborted, ends_bind, ends_get, ends_pure, hlength]
  rfl

/-! ## The head of a program -/

/-- The version is two tokens in a row. -/
theorem follows_version : Follows k (version k.host) Parser.version :=
  fun _ => followsAt_here.bind fun _ _ _ => (followsAt_expect rfl).bind fun _ _ _ =>
    (followsAt_expect rfl).bind fun _ _ _ => (followsAt_rangeFrom _).bind fun _ _ _ => .pure _

/-- Missing a token leaves no brace open. -/
theorem openBraces_expectOneOf_bind {kinds : List Kind} {kind : Kind} {f : Token → Parser α}
    {file : String} {failure : Failure} {stuck : Cursor}
    (hf : ∀ token c, (f token).run file c = .failed failure stuck → failure.openBraces = 0)
    (h : (Parser.expectOneOf kinds kind >>= f).run file c = .failed failure stuck) :
    failure.openBraces = 0 := by
  rw [Parser.run_bind, Parser.run_expectOneOf] at h
  by_cases hkind : c.kind = kind
  · rw [if_pos hkind] at h
    exact hf _ _ h
  · rw [if_neg hkind] at h
    cases h
    rfl

/-- A version has nothing to do with braces. -/
theorem openBraces_version {file : String} {failure : Failure} {stuck : Cursor}
    (h : Parser.version.run file c = .failed failure stuck) : failure.openBraces = 0 :=
  openBraces_expectOneOf_bind
    (fun _ _ h => openBraces_expectOneOf_bind (fun _ _ h => by cases h) h) h

/-- Where something else than a separator stands behind the version, there is a placeholder. -/
theorem ends_versionEnd (hat : At k r c errors) (hidle : r.Idle k.depth) :
    Ends (versionEnd k.host) r
      (Recovers k errors
        (Parser.versionEnd.recover (fun range => [.erroneous range]) k.host.file c))
      (BrokenOff k) := by
  rw [versionEnd, ends_bind]
  refine (ends_idle (fun _ => followsAt_atSeparator) rfl hat hidle).mono_post
    fun isOver s ⟨hover, hat, hidle⟩ => ?_
  obtain rfl : isOver = c.current.kind.endsStatement := hover
  have hrun : Parser.versionEnd.run k.host.file c =
      (if c.current.kind.endsStatement then pure []
        else Parser.failExpecting (.oneOf [.newline, .semicolon]) : Parser (List Statement)).run
          k.host.file c := by
    rw [Parser.versionEnd, Parser.statementEnd, Parser.run_bind, Parser.run_current_bind]
    cases c.current.kind.endsStatement <;> rfl
  cases hends : c.current.kind.endsStatement with
  | true =>
    rw [hends, if_pos rfl] at hrun
    have hrecover : Parser.versionEnd.recover (fun range => [.erroneous range]) k.host.file c =
        { value := [], error := none, cursor := c } := by
      rw [Parser.recover, hrun]
      rfl
    rw [hrecover]
    exact ⟨rfl, (List.append_nil errors).symm ▸ hat, hidle⟩
  | false =>
    rw [hends, if_neg (by decide)] at hrun
    exact ends_recovering _ ((followsAt_failExpecting _).congr hrun.symm) hat hidle

/-- The clause of qubits recovers like a statement, if it is there at all. -/
theorem ends_qubits {expr : Action (Reader S) Expr}
    (hexpr : ∀ phase, Follows (k.during phase) expr Parser.expression) (hat : At k r c errors)
    (hidle : r.Idle k.depth) :
    Ends (qubits k.host expr) r (Recovers k errors (readQubits k.host.file c)) (BrokenOff k) := by
  rw [qubits, ends_bind]
  refine (ends_idle (fun _ => followsAt_isAt .qubits) rfl hat hidle).mono_post
    fun isQubits s ⟨hqubits, hat, hidle⟩ => ?_
  rw [hqubits, readQubits]
  by_cases hkind : c.kind = .qubits
  · rw [if_pos (decide_eq_true hkind), if_pos hkind]
    have hplain : isPlain c.kind := by
      rw [hkind]
      rfl
    exact ends_recovering _ (followsAt_terminated (.advance hplain
      ((hexpr _ _).bind fun _ _ _ => .pure _))) hat hidle
  · rw [if_neg (by simpa using hkind), if_neg hkind]
    exact ⟨rfl, (List.append_nil errors).symm ▸ hat, hidle⟩

/-! ## Statements -/

/-- Some events are of no consequence to what is open. -/
theorem Reader.Idle.noted {depth : Nat} (h : r.Idle depth) (event : Event)
    (hphase : ∀ phase : Phase, phase.behind event = phase)
    (hevent : ∀ phase : Phase, phase.opened = 0 → event.Fits depth phase) :
    (r.noted event).Idle depth := by
  obtain ⟨phase, hopened, hbalanced⟩ := h
  exact ⟨phase, hopened, hbalanced.noted_of_eq (hphase phase) (hevent phase hopened)⟩

/-- A statement, terminated, as the loop reads it. -/
theorem ends_recovering_statement {expr : Action (Reader S) Expr}
    (hexpr : ∀ phase, Follows (k.during phase) expr Parser.expression) (hat : At k r c errors)
    (hidle : r.Idle k.depth) :
    Ends (recovering k.host .erroneous (terminated k.host (statement k.host expr))) r
      (Recovers k errors
        ((Parser.terminated Parser.statement).recover .erroneous k.host.file c))
      (BrokenOff k) := by
  have hstatement : Follows (k.during (.reading 0)) (statement k.host expr) Parser.statement :=
    follows_statement (hexpr (.reading 0)) (hexpr (.reading 1)) rfl
  exact ends_recovering (k := k) (p := Parser.terminated Parser.statement) Statement.erroneous
    (followsAt_terminated (hstatement c)) hat hidle

/-- The loop over the statements reads what `readStatements` reads, behind those there are. -/
theorem ends_statements {expr : Action (Reader S) Expr}
    (hexpr : ∀ phase, Follows (k.during phase) expr Parser.expression) (hdepth : k.depth = 0)
    (hat : At k r c errors) (hidle : r.Idle k.depth) (statements : List Statement) :
    Ends (repeating (statementTurn k.host expr) statements) r
      (fun value t =>
        let body := readStatements k.patience k.host.file errors.length c
        value = statements ++ body.statements ∧ At k t body.cursor (errors ++ body.errors) ∧
          t.Idle k.depth)
      (BrokenOff k) := by
  -- The induction is on the tokens left. What has been complained of so far grows with each turn,
  -- and patience is measured by it.
  induction hsize : c.size using Nat.strongRecOn generalizing c r errors statements with
  | ind size ih =>
    rw [ends_repeating, statementTurn, ends_bind, ends_note, ends_bind]
    have hbegun : (r.noted .iterates).Idle k.depth :=
      hidle.noted .iterates (fun _ => rfl) fun _ hopened => ⟨hdepth, hopened⟩
    refine (ends_idle (fun _ => follows_skipSeparators c) rfl
      (hat.noted .iterates nofun nofun) hbegun).mono_post fun _ s ⟨_, hat', hidle⟩ => ?_
    rw [ends_bind]
    refine (ends_idle (fun _ => followsAt_isAt .eof) rfl hat' hidle).mono_post
      fun isOver s ⟨hover, hat', hidle⟩ => ?_
    obtain rfl : isOver = decide (c.pastSeparators.kind = .eof) := hover
    rw [ends_bind, hat'.ends_aborted]
    cases htokens : c.pastSeparators.tokens with
    | nil =>
      have heof : c.pastSeparators.kind = .eof := hat'.ended.kind_eq_eof_iff.2 htokens
      rw [heof, readStatements_of_nil htokens]
      exact ⟨(List.append_nil _).symm, (List.append_nil errors).symm ▸ hat', hidle⟩
    | cons token tokens =>
      have hne : c.pastSeparators.kind ≠ .eof := fun heof => by
        rw [hat'.ended.kind_eq_eof_iff.1 heof] at htokens
        cases htokens
      rw [decide_eq_false hne, Bool.false_or, Cursor.current_of_cons htokens]
      cases hexhausted : k.patience.isExhausted errors.length token with
      | true =>
        rw [readStatements_of_exhausted htokens hexhausted]
        exact ⟨(List.append_nil _).symm, (List.append_nil errors).symm ▸ hat', hidle⟩
      | false =>
        rw [readStatements_of_cons htokens hexhausted, if_neg (by decide), ends_bind]
        refine (ends_recovering_statement hexpr hat' hidle).mono_post fun statement t ht => ?_
        obtain ⟨rfl, hat'', hidle⟩ := ht
        have hlt : ((Parser.terminated Parser.statement).recover .erroneous k.host.file
            c.pastSeparators).cursor.size < c.size :=
          Nat.lt_of_lt_of_le
            (Parser.size_recover_statement_lt htokens
              (Cursor.isSeparator_of_pastSeparators htokens))
            c.passes_pastSeparators.size_le
        have hpassed := hat.passed_add
        have hpassed' := hat''.passed_add
        dsimp only at hlt hat'' hpassed' ⊢
        generalize (Parser.terminated Parser.statement).recover .erroneous k.host.file
          c.pastSeparators = read at hlt hat'' hpassed' ⊢
        have hturn : 0 < t.passed - r.passed := by omega
        refine (ih _ (hsize ▸ hlt) (hat''.noted (.turns _) nofun nofun)
          (hidle.noted (.turns _) (fun _ => rfl) fun _ _ => hturn)
          (statements ++ [read.value]) rfl).mono_post fun value u ⟨hvalue, hat, hidle⟩ => ?_
        rw [List.length_append] at hvalue hat
        rw [List.append_assoc] at hvalue hat
        exact ⟨hvalue, hat, hidle⟩

/-! ## Programs -/

/-- How reading a program ends: with a tree, in front of the token where a reading stops. -/
structure Completes (k : Setting S) (reading : Reading) (root : Root) (t : Reader S) : Prop where
  root_eq : root = reading.root
  standing : ∃ c, At k t c reading.errors ∧ c.current = reading.stop
  idle : t.Idle k.depth

/-- Everything there is left, passed. -/
def atEnd : Parser Unit :=
  Parser.move
    (fun c => { c with previous := c.tokens.foldl Cursor.passed c.previous, tokens := [] })
    fun c => ⟨c.tokens, (List.append_nil _).symm, rfl, rfl⟩

def drainPart : Unit → Parser (Unit ⊕ Unit)
  | () => do
    if ← Parser.isAt .eof then return .inr ()
    else
      Parser.advance
      return .inl ()

/-- A turn passes whatever token there is. -/
theorem run_drainPart (file : String) :
    (drainPart ()).run file c =
      if c.kind = .eof then .ok (.inr ()) c else .ok (.inl ()) c.advance := by
  rw [drainPart, Parser.run_isAt_bind]
  by_cases heof : c.kind = .eof
  · rw [if_pos (decide_eq_true heof), if_pos heof]
    rfl
  · rw [if_neg (by simpa using heof), if_neg heof]
    rfl

/-- Behind a broken version every token is passed, up to the end of the text. -/
theorem follows_drain (hphase : k.phase = .recovering) :
    Follows k (repeating (drainTurn k.host) ()) atEnd := by
  refine follows_repeating drainPart (fun _ => atEnd) ?_ ?_ ?_ ()
  · refine fun _ c => (followsAt_isAt .eof).bind fun isOver behind hrun => ?_
    cases hrun
    by_cases heof : c.kind = .eof
    · rw [if_pos (decide_eq_true heof), if_pos (decide_eq_true heof)]
      exact .pure _
    · rw [if_neg (by simpa using heof), if_neg (by simpa using heof)]
      exact ((followsAt_passing heof (behind_of_recovering hphase _) fun _ => .inr hphase).bind
        (g := fun _ => pure _) fun _ _ _ => .pure _).congr rfl
  · intro _ c hended
    rw [Parser.run_bind, run_drainPart]
    by_cases heof : c.kind = .eof
    · rw [if_pos heof]
      have htokens := hended.kind_eq_eof_iff.1 heof
      obtain ⟨previous, tokens, last⟩ := c
      cases htokens
      rfl
    · obtain ⟨token, tokens, htokens, -⟩ := exists_tokens_of_kind hended rfl heof
      rw [if_neg heof]
      obtain ⟨previous, _, last⟩ := c
      cases htokens
      rfl
  · intro _ c next behind hended hrun
    rw [run_drainPart] at hrun
    split at hrun
    · cases hrun
    · next hne =>
      cases hrun
      exact size_advance_lt_of_kind hended rfl hne

/-- Without a readable version the rest of the text is passed, unless patience is exhausted. -/
theorem ends_brokenRoot {failure : Failure}
    (hat : At k r c [.misplaced c.current failure.complaint]) (hidle : r.Idle k.depth)
    (start : Location) :
    Ends (brokenRoot k.host start) r
      (Completes k (Reading.ofBrokenVersion k.patience k.host.file start failure c))
      (BrokenOff k) := by
  rw [brokenRoot, ends_bind]
  refine (ends_idle (fun _ => followsAt_here) rfl hat hidle).mono_post ?_
  rintro _ s ⟨rfl, hat, hidle⟩
  dsimp only
  rw [ends_bind, hat.ends_aborted, List.length_singleton]
  cases hexhausted : k.patience.isExhausted 1 c.current with
  | true =>
    rw [if_neg (by decide)]
    refine ⟨rfl, ⟨c, hat, ?_⟩, hidle⟩
    rw [Reading.ofBrokenVersion, if_pos hexhausted]
  | false =>
    rw [if_pos (by decide), ends_bind, ends_note, ends_bind]
    have hdrain := (follows_drain (k := k.during .recovering) rfl c).ends_of_ok (k := k) rfl
      (hat.givenUp (by simp)) hidle.givenUp rfl
    refine hdrain.mono_post ?_
    rintro _ t ⟨-, hat, hidle⟩
    refine ⟨rfl, ⟨_, hat, ?_⟩, hidle⟩
    rw [Reading.ofBrokenVersion, if_neg (by simp [hexhausted])]
    rfl

/-- What comes behind the version, one part after the other, each from where the one before has got
to. -/
theorem ends_behindVersion {frames : Nat} (hframes : maxNesting < frames) (hdepth : k.depth = 0)
    (hat : At k r c []) (hidle : r.Idle k.depth) (start : Location) (version : Version) :
    Ends (behindVersion k.host frames start version) r
      (Completes k (Reading.ofVersion k.patience k.host.file start version c)) (BrokenOff k) := by
  have hexpr : ∀ phase, Follows (k.during phase) (expression k.host frames) Parser.expression := by
    intro phase
    have hdepth : (k.during phase).depth = 0 := hdepth
    have := follows_expression (k.during phase) (by omega : maxNesting < frames + _) (by omega)
    rwa [hdepth] at this
  rw [behindVersion, ends_bind]
  refine (ends_versionEnd hat hidle).mono_post fun broken s ⟨hbroken, hat, hidle⟩ => ?_
  rw [ends_bind]
  refine (ends_idle (fun _ => follows_skipSeparators _) rfl hat hidle).mono_post
    fun _ s ⟨_, hat, hidle⟩ => ?_
  rw [ends_bind]
  refine (ends_qubits hexpr hat hidle).mono_post fun count s ⟨hcount, hat, hidle⟩ => ?_
  rw [ends_bind]
  refine (ends_statements hexpr hdepth hat hidle broken).mono_post
    fun statements s ⟨hstatements, hat, hidle⟩ => ?_
  rw [ends_bind]
  refine (ends_idle (fun _ => followsAt_rangeFrom start) rfl hat hidle).mono_post
    fun range t ⟨hrange, hat, hidle⟩ => ?_
  subst hbroken hcount hstatements hrange
  exact ⟨rfl, ⟨_, hat, rfl⟩, hidle⟩

/-- With a version that can be read, or with one that cannot and what is done then. -/
theorem ends_run {frames : Nat} (hframes : maxNesting < frames) (hdepth : k.depth = 0)
    (hat : At k r c []) (hidle : r.Idle k.depth) :
    Ends (run k.host frames) r (Completes k (Reading.ofCursor k.patience k.host.file c))
      (BrokenOff k) := by
  rw [run, ends_bind]
  refine (ends_idle (fun _ => follows_skipSeparators c) rfl hat hidle).mono_post
    fun _ s ⟨_, hat, hidle⟩ => ?_
  rw [ends_bind]
  refine (ends_idle (fun _ => followsAt_here) rfl hat hidle).mono_post
    fun start s ⟨hstart, hat, hidle⟩ => ?_
  obtain ⟨phase, hopened, hbalanced⟩ := hidle
  have hat' : At (k.during phase) s c.pastSeparators [] := hat.of_setting rfl rfl
  rw [ends_bind, ends_attempt]
  refine (follows_version c.pastSeparators hat' hbalanced).mono
    (fun version t ⟨behind, hrun, hat, hbalanced⟩ => ?_) fun interrupt t hleaves => ?_
  · have hreading : Reading.ofCursor k.patience k.host.file c =
        Reading.ofVersion k.patience k.host.file start version behind := by
      rw [Reading.ofCursor, show Parser.version.run k.host.file c.pastSeparators = _ from hrun,
        hstart]
    rw [hreading]
    exact ends_behindVersion hframes hdepth (hat.of_setting rfl rfl) ⟨phase, hopened, hbalanced⟩ _ _
  · cases hleaves with
    | refused hrefused => exact ⟨rfl, hrefused⟩
    | @misread _ failure stuck hfailed hat hbalanced =>
      have hreading : Reading.ofCursor k.patience k.host.file c =
          Reading.ofBrokenVersion k.patience k.host.file start failure stuck := by
        rw [Reading.ofCursor, show Parser.version.run k.host.file c.pastSeparators = _ from hfailed,
          hstart]
      rw [openBraces_version hfailed, Phase.plus_zero] at hbalanced
      rw [hreading]
      exact ends_brokenRoot (k := k) (hat.of_setting rfl rfl) ⟨phase, hopened, hbalanced⟩ _

/-- The scanner at the beginning of its input delivers the whole text. -/
theorem Scanner.yields_start {host : Host S} {input : S} {text : List Char}
    (hholds : host.source.Holds input text) (hindex : host.source.index input = 0) :
    Scanner.Yields host (.start input) (.ofText text) := by
  refine ⟨rfl, .start, text, ⟨hholds, ?_⟩, rfl⟩
  rw [Scanner.here, Scanner.start, hindex]
  rfl

/-- However a run has ended, no call for an expression is in progress, and all along the counters
were what they ought to be. -/
structure Reader.Fair (r : Reader S) : Prop where
  activations_eq : r.activations = 0
  expressionDepth_eq : r.expressionDepth = 0
  allFair : AllFair r.history

/-- What the account of a run tells of a reading: nothing is open any more, the tokens of the text
were passed, if it was read to its end, and nothing was given up without a complaint. -/
structure Reader.Tells (r : Reader S) (stream : TokenStream) (reading : Reading) : Prop where
  closed : (phaseOf r.history).opened = 0
  kinds_prefix : passedKinds r.history <+: stream.tokens.map Token.kind
  kinds_eq : reading.stop.kind = .eof → passedKinds r.history = stream.tokens.map Token.kind
  noneGivenUp : reading.errors = [] → NoneGivenUp r.history

/-- Where reading stops the account can be closed. -/
theorem Completes.tells {reading : Reading} {root : Root} {t : Reader S}
    (h : Completes k reading root t) : t.Tells k.stream reading := by
  obtain ⟨-, ⟨d, hat, hstop⟩, phase, hopened, hbalanced⟩ := h
  refine ⟨hbalanced.phase_eq ▸ hopened, ⟨_, hat.kinds_eq⟩, fun heof => ?_, hat.noneGivenUp⟩
  have htokens : d.tokens = [] :=
    hat.ended.kind_eq_eof_iff.1 ((congrArg Token.kind hstop).trans heof)
  have hkinds := hat.kinds_eq
  rwa [htokens, List.map_nil, List.append_nil] at hkinds

/-- From its first token on the grammar comes to an end: with the tree and the diagnostics of the
reading, or because a diagnostic is not taken. -/
theorem ends_parse {host : Host S} {input : S} {text : List Char} {frames : Nat}
    (hholds : host.source.Holds input text) (hindex : host.source.index input = 0)
    (hframes : maxNesting < frames) :
    let stream := TokenStream.ofText text
    let reading := Reading.ofStream host.isExhaustedBy host.file stream
    Ends (Reader.parse host frames) (Reader.start input)
      (fun root t => root = reading.root ∧ t.scanner.reports = reading.report stream ∧
        t.Fair ∧ t.Tells stream reading)
      fun interrupt t => interrupt = .refused ∧ Scanner.IsRefused host t.scanner ∧ t.Fair := by
  intro stream reading
  let k : Setting S :=
    { host, stream, ordered := TokenStream.ordered_ofText text, depth := 0, phase := .reading 0 }
  rw [Reader.parse, ends_bind, ends_scanning]
  refine (Scanner.yields_start hholds hindex).ends_nextToken.mono
    (fun first s ⟨hfirst, hyields, hreports⟩ => ?_) fun _ s ⟨hinterrupt, hrefused⟩ =>
      ⟨hinterrupt, hrefused, rfl, rfl, trivial⟩
  rw [ends_bind, ends_modify]
  obtain ⟨hcurrent, herrors, hseen⟩ : stream.next.token = (Cursor.ofStream stream).current ∧
      (∀ e ∈ ([] : List Diagnostic), e.offset ≤ (Cursor.ofStream stream).current.start.offset) ∧
        ∃ before behind, Seen k s (.ofStream stream) [] before behind :=
    exists_seen_next (show k.stream.items = [] ++ stream.items from rfl) rfl hyields hreports
      (fun _ he => by cases he) rfl rfl
  let r : Reader S := { Reader.start input with scanner := s, current := first }
  have hat : At k r (.ofStream stream) [] :=
    { current_eq := hfirst.trans hcurrent
      previous_eq := rfl
      last_eq := rfl
      ended := ⟨rfl, fun _ h => TokenStream.kind_ne_eof_of_mem_tokens h⟩
      passed_add := Nat.zero_add _
      errors_le := herrors
      kinds_eq := rfl
      noneGivenUp := fun _ => nofun
      seen := hseen }
  have hidle : r.Idle k.depth :=
    ⟨.reading 0, rfl, ⟨rfl, rfl, Nat.zero_le _, rfl, rfl, Nat.zero_le 1, trivial⟩⟩
  -- The first token is at hand, and nothing has been passed: the grammar stands in front of the
  -- whole text.
  refine (ends_run hframes rfl hat hidle).mono (fun root t ht => ?_)
    fun interrupt t ⟨hinterrupt, hrefused⟩ => ⟨hinterrupt, hrefused.isRefused,
      hrefused.activations_eq, hrefused.expressionDepth_eq, hrefused.allFair⟩
  have htells := ht.tells
  obtain ⟨hroot, ⟨d, hat, hstop⟩, _, _, hbalanced⟩ := ht
  obtain ⟨before, behind, hseen⟩ := hat.seen
  refine ⟨hroot, ?_,
    ⟨hbalanced.activations_eq, hbalanced.expressionDepth_eq, hbalanced.allFair⟩, htells⟩
  rw [hseen.reports_eq, hseen.diagnostics_eq, hstop]
  rfl

end Cqasm.Machine
