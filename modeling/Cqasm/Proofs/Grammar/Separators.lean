import Cqasm.Proofs.Recognition.Instruction

/-!
# Separators stand anywhere

No range of a tree begins or ends in a separator. So rows of tokens stand for the same, with all
their ranges, wherever the separators in them stand (`carries_program`): what a token of another
kind is, and its own range, are all that is ever looked at.

The change is a map on tokens (`MovesSeparators`), and each production is carried over by it in
turn, as those inside of it are (`Carries`).
-/

set_option autoImplicit false

namespace Cqasm.Grammar

variable {file : String} {f : Token → Token}

/-- A change of tokens that may put separators elsewhere, and changes nothing else that is told of
tokens. -/
structure MovesSeparators (file : String) (f : Token → Token) : Prop where
  kind_eq : ∀ token, (f token).kind = token.kind
  text_eq : ∀ token, (f token).text = token.text
  location_eq : ∀ token, token.kind.isSeparator = false →
    (f token).location file = token.location file

namespace MovesSeparators

variable {token : Token} {kind : Kind}

/-- Moving separators changes no kind. -/
theorem kind_of_eq (hf : MovesSeparators file f) (h : token.kind = kind) : (f token).kind = kind :=
  (hf.kind_eq token).trans h

/-- A token that is no separator stays in its place. -/
theorem location_of_eq (hf : MovesSeparators file f) (h : token.kind = kind)
    (hkind : kind.isSeparator = false) : (f token).location file = token.location file :=
  hf.location_eq token (h ▸ hkind)

end MovesSeparators

/-! ## Rows -/

/-- The last token that is no separator is the same one. -/
theorem lastSolid?_map (hf : MovesSeparators file f) (ts : List Token) :
    lastSolid? (ts.map f) = (lastSolid? ts).map f := by
  unfold lastSolid?
  rw [List.filter_map, List.getLast?_map]
  simp only [Function.comp_def, hf.kind_eq]

/-- The range of a row that begins with a solid token does not depend on its separators. -/
theorem rangeOf_map (hf : MovesSeparators file f) (ts : List Token)
    (h : ∃ token us, ts = token :: us ∧ token.kind.isSeparator = false) :
    rangeOf file (ts.map f) = rangeOf file ts := by
  obtain ⟨token, us, rfl, hkind⟩ := h
  obtain ⟨last, hlast⟩ := Option.isSome_iff_exists.1 (lastSolid?_isSome us hkind)
  have hsolid : last.kind.isSeparator = false := by
    have hmem := List.mem_of_getLast? hlast
    simpa using (List.mem_filter.1 hmem).2
  unfold rangeOf
  rw [lastSolid?_map hf, hlast, List.map_cons]
  dsimp only [List.head?_cons, Option.map_some]
  rw [hf.location_eq token hkind, hf.location_eq last hsolid]

/-- Separators remain separators. -/
theorem separators_map (hf : MovesSeparators file f) {ts : List Token} (h : Separators ts) :
    Separators (ts.map f) := by
  rintro _ hmem
  obtain ⟨token, htoken, rfl⟩ := List.mem_map.1 hmem
  rw [hf.kind_eq]
  exact h token htoken

/-- And there is still at least one. -/
theorem separation_map (hf : MovesSeparators file f) {ts : List Token} (h : Separation ts) :
    Separation (ts.map f) :=
  ⟨separators_map hf h.1, fun hnil => h.2 (List.map_eq_nil_iff.1 hnil)⟩

theorem newlines_map (hf : MovesSeparators file f) {ts : List Token} (h : Newlines ts) :
    Newlines (ts.map f) := by
  rintro _ hmem
  obtain ⟨token, htoken, rfl⟩ := List.mem_map.1 hmem
  exact hf.kind_of_eq (h token htoken)

/-! ## Repetition -/

/-- The rows of a phrase stand for the same once they are changed. -/
def Carries {α : Type} (f : Token → Token) (phrase : Phrase α) : Prop :=
  ∀ ⦃ts v⦄, phrase ts v → phrase (ts.map f) v

namespace Carries

variable {α : Type} {item : Phrase α} {mark : Kind}

/-- Carrying goes item by item. -/
theorem many (h : Carries f item) : Carries f (Many item) := by
  intro ts vs hvs
  induction hvs with
  | nil => exact .nil
  | cons hv _ ih =>
    rw [List.map_append]
    exact .cons (h hv) ih

theorem behind (hf : MovesSeparators file f) (h : Carries f item) :
    Carries f (Behind mark item) := by
  rintro _ _ ⟨hmark, hv⟩
  exact .mk (hf.kind_of_eq hmark) (h hv)

theorem separatedBy (hf : MovesSeparators file f) (h : Carries f item) :
    Carries f (SeparatedBy mark item) := by
  rintro _ _ ⟨hv, hvs⟩
  rw [List.map_append]
  exact .mk (h hv) ((h.behind hf).many hvs)

/-- An empty list is carried to an empty list. -/
theorem listed (hf : MovesSeparators file f) (h : Carries f item) : Carries f (Listed item) := by
  rintro _ _ (_ | hvs)
  · exact .nil
  · exact .some (h.separatedBy hf hvs)

end Carries

/-! ## Expressions -/

section

variable {sub : Phrase Expr}

/-- A name has the place of its token, which is no separator. -/
theorem carries_name (hf : MovesSeparators file f) : Carries f (IsName file) := by
  rintro _ _ @⟨token, hkind⟩
  rw [← hf.location_of_eq hkind rfl, ← hf.text_eq]
  exact .mk (hf.kind_of_eq hkind)

theorem carries_entry (hf : MovesSeparators file f) (hsub : Carries f sub) :
    Carries f (IsEntry sub) := by
  intro ts entry h
  cases h with
  | item he => exact .item (hsub he)
  | range hfirst hcolon hlast =>
    rw [List.map_append, List.map_cons]
    exact .range (hsub hfirst) (hf.kind_of_eq hcolon) (hsub hlast)

/-- Newlines around an element may be moved, as they leave no trace in it. -/
theorem carries_element (hf : MovesSeparators file f) (hsub : Carries f sub) :
    Carries f (IsElement sub) := by
  rintro _ _ ⟨hbefore, he, hbehind⟩
  rw [List.map_append, List.map_append]
  exact .mk (newlines_map hf hbefore) (hsub he) (newlines_map hf hbehind)

/-- The case of a matrix is the one in which separators are moved inside of an expression. -/
theorem carries_primary (hf : MovesSeparators file f) (hsub : Carries f sub) :
    Carries f (IsPrimary file sub) := by
  intro ts e h
  cases h with
  | integer hkind hvalue =>
    rw [← hf.location_of_eq hkind rfl]
    rw [← hf.text_eq] at hvalue ⊢
    exact .integer (hf.kind_of_eq hkind) hvalue
  | float hkind =>
    rw [← hf.location_of_eq hkind rfl, ← hf.text_eq]
    exact .float (hf.kind_of_eq hkind)
  | string hkind =>
    rw [← hf.location_of_eq hkind rfl, ← hf.text_eq]
    exact .string (hf.kind_of_eq hkind)
  | json hkind =>
    rw [← hf.location_of_eq hkind rfl, ← hf.text_eq]
    exact .json (hf.kind_of_eq hkind)
  | name hname => exact .name (carries_name hf hname)
  | call hname hopen hargs hclose =>
    have hcarried := carries_name hf hname
    obtain ⟨hkind⟩ := hname
    rw [← rangeOf_map hf ([_] ++ _) ⟨_, _, rfl, by rw [hkind]; rfl⟩]
    simp only [List.map_append, List.map_cons, List.map_nil]
    exact .call hcarried (hf.kind_of_eq hopen) (hsub.listed hf hargs) (hf.kind_of_eq hclose)
  | parenthesised hopen he hclose =>
    rw [← rangeOf_map hf _ ⟨_, _, rfl, by rw [hopen]; rfl⟩]
    simp only [List.map_append, List.map_cons, List.map_nil]
    exact .parenthesised (hf.kind_of_eq hopen) (hsub he) (hf.kind_of_eq hclose)
  | matrix hopen hrows hclose =>
    rw [← rangeOf_map hf _ ⟨_, _, rfl, by rw [hopen]; rfl⟩]
    simp only [List.map_append, List.map_cons, List.map_nil]
    exact .matrix (hf.kind_of_eq hopen)
      (((carries_element hf hsub).separatedBy hf).separatedBy hf hrows) (hf.kind_of_eq hclose)

theorem carries_postfix (hf : MovesSeparators file f) (hsub : Carries f sub) :
    Carries f (IsPostfix file sub) := by
  intro ts e h
  induction h with
  | primary he => exact .primary (carries_primary hf hsub he)
  | index _ hopen hentries hclose ih =>
    rw [← hf.location_of_eq hclose rfl]
    simp only [List.map_append, List.map_cons, List.map_nil]
    exact .index ih (hf.kind_of_eq hopen) ((carries_entry hf hsub).separatedBy hf hentries)
      (hf.kind_of_eq hclose)

/-- The range of an operator in front starts at its sign, which stays where it is. -/
theorem carries_unary (hf : MovesSeparators file f) (hsub : Carries f sub) :
    Carries f (IsUnary file sub) := by
  have hsigns : ∀ entry ∈
      [(Kind.minus, UnaryOperator.negate), (.bang, .not), (.tilde, .complement)],
        entry.1.isSeparator = false := by
    decide
  intro ts e h
  induction h with
  | indexed he =>
    have hindexed := carries_postfix hf hsub he
    exact .indexed hindexed
  | @operator _ sign _ _ hsign _ ih =>
    rw [← hf.location_eq sign (hsigns _ hsign)]
    rw [← hf.kind_eq sign] at hsign
    exact .operator hsign ih

theorem carries_power (hf : MovesSeparators file f) (hsub : Carries f sub) :
    Carries f (IsPower file sub) := by
  intro ts e h
  induction h with
  | operand he => exact .operand (carries_unary hf hsub he)
  | operator hlhs hsign _ ih =>
    rw [List.map_append, List.map_cons]
    exact .operator (carries_unary hf hsub hlhs) (hf.kind_of_eq hsign) ih

theorem carries_chain (hf : MovesSeparators file f) {operators : List (Kind × BinaryOperator)}
    (hsub : Carries f sub) : Carries f (IsChain operators sub) := by
  intro ts e h
  induction h with
  | operand he => exact .operand (hsub he)
  | @operator _ _ sign _ _ _ _ hsign hrhs ih =>
    rw [← hf.kind_eq sign] at hsign
    rw [List.map_append, List.map_cons]
    exact .operator ih hsign (hsub hrhs)

/-- By induction on the depth, and over the levels of operators. -/
theorem carries_expression (hf : MovesSeparators file f) (levels : Nat) :
    Carries f (IsExpression file levels) := by
  induction levels with
  | zero => exact fun _ _ h => h.elim
  | succ levels ih =>
    unfold IsExpression IsLayered
    induction leftLevels with
    | nil => exact carries_power hf ih
    | cons _ _ hlayers => exact carries_chain hf hlayers

end

/-! ## Statements -/

theorem carries_target (hf : MovesSeparators file f) (levels : Nat) :
    Carries f (IsTarget file levels) := by
  intro ts id h
  induction h with
  | name hname => exact .name (carries_name hf hname)
  | parenthesised hopen _ hclose ih =>
    rw [← rangeOf_map hf _ ⟨_, _, rfl, by rw [hopen]; rfl⟩]
    simp only [List.map_append, List.map_cons, List.map_nil]
    exact .parenthesised (hf.kind_of_eq hopen) ih (hf.kind_of_eq hclose)

/-- An annotation ends with a name or a parenthesis, neither of which is moved. -/
theorem carries_annot (hf : MovesSeparators file f) : Carries f (IsAnnot file) := by
  intro ts annot h
  cases h with
  | plain hsign hinterface hdot hoperation =>
    rw [← rangeOf_map hf _ ⟨_, _, rfl, by rw [hsign]; rfl⟩]
    simp only [List.map_append, List.map_cons]
    exact .plain (hf.kind_of_eq hsign) (carries_name hf hinterface) (hf.kind_of_eq hdot)
      (carries_name hf hoperation)
  | applied hsign hinterface hdot hoperation hopen hoperands hclose =>
    rw [← rangeOf_map hf _ ⟨_, _, rfl, by rw [hsign]; rfl⟩]
    simp only [List.map_append, List.map_cons, List.map_nil]
    exact .applied (hf.kind_of_eq hsign) (carries_name hf hinterface) (hf.kind_of_eq hdot)
      (carries_name hf hoperation) (hf.kind_of_eq hopen)
      ((carries_expression hf maxNesting).listed hf hoperands) (hf.kind_of_eq hclose)

theorem carries_operands (hf : MovesSeparators file f) :
    Carries f (Many (Behind .comma (IsExpr file))) :=
  ((carries_expression hf maxNesting).behind hf).many

theorem carries_instruction (hf : MovesSeparators file f) : Carries f (IsInstruction file) := by
  intro ts i h
  have hannotations := (carries_annot hf).many
  cases h with
  | plain hname hoperands hannots =>
    have hcarried := carries_name hf hname
    obtain ⟨hkind⟩ := hname
    rw [← rangeOf_map hf ([_] ++ _) ⟨_, _, rfl, by rw [hkind]; rfl⟩]
    simp only [List.map_append]
    exact .plain hcarried ((carries_expression hf maxNesting).listed hf hoperands)
      (hannotations hannots)
  | conditional hmark hname hcondition hoperands hannots =>
    rw [← rangeOf_map hf _ ⟨_, _, rfl, by rw [hmark]; rfl⟩]
    simp only [List.map_append, List.map_cons]
    exact .conditional (hf.kind_of_eq hmark) (carries_name hf hname)
      (carries_expression hf maxNesting hcondition) (carries_operands hf hoperands)
      (hannotations hannots)

/-- The separators between the instructions of a bundle are moved along. -/
theorem carries_braced (hf : MovesSeparators file f) : Carries f (IsBraced file) := by
  intro ts items h
  induction h with
  | last hi => exact .last (carries_instruction hf hi)
  | bar hi hsign hseps _ ih =>
    simp only [List.map_append, List.map_cons]
    exact .bar (carries_instruction hf hi) (hf.kind_of_eq hsign) (separators_map hf hseps) ih
  | separated hi hseps _ ih =>
    simp only [List.map_append]
    exact .separated (carries_instruction hf hi) (separation_map hf hseps) ih

/-- One case for each production. No statement begins or ends with a separator, so the range stays
the same. -/
theorem carries_statement (hf : MovesSeparators file f) : Carries f (IsStatement file) := by
  intro ts s h
  have hname := carries_name hf
  have hexpr := carries_expression hf maxNesting
  have hannotations := (carries_annot hf).many
  cases h with
  | assignment hkeyword htarget hsign he hannots =>
    rw [← rangeOf_map hf _ ⟨_, _, rfl, by rw [hkeyword]; rfl⟩]
    simp only [List.map_append, List.map_cons]
    exact .assignment (hf.kind_of_eq hkeyword) (carries_target hf maxNesting htarget)
      (hf.kind_of_eq hsign) (hexpr he) (hannotations hannots)
  | mapping hkeyword he hcomma htarget hannots =>
    rw [← rangeOf_map hf _ ⟨_, _, rfl, by rw [hkeyword]; rfl⟩]
    simp only [List.map_append, List.map_cons]
    exact .mapping (hf.kind_of_eq hkeyword) (hexpr he) (hf.kind_of_eq hcomma) (hname htarget)
      (hannotations hannots)
  | declaration hkeyword hnames hcolon htype hannots =>
    rw [← rangeOf_map hf _ ⟨_, _, rfl, by rw [hkeyword]; rfl⟩]
    simp only [List.map_append, List.map_cons]
    exact .declaration (hf.kind_of_eq hkeyword) (hname.separatedBy hf hnames)
      (hf.kind_of_eq hcolon) (hname htype) (hannotations hannots)
  | subcircuit hdot hcircuit hannots =>
    rw [← rangeOf_map hf _ ⟨_, _, rfl, by rw [hdot]; rfl⟩]
    simp only [List.map_append, List.map_cons]
    exact .subcircuit (hf.kind_of_eq hdot) (hname hcircuit) (hannotations hannots)
  | iteratedSubcircuit hdot hcircuit hopen hiterations hclose hannots =>
    rw [← rangeOf_map hf _ ⟨_, _, rfl, by rw [hdot]; rfl⟩]
    simp only [List.map_append, List.map_cons]
    exact .iteratedSubcircuit (hf.kind_of_eq hdot) (hname hcircuit) (hf.kind_of_eq hopen)
      (hexpr hiterations) (hf.kind_of_eq hclose) (hannotations hannots)
  | errorModel hkeyword hmodel hargs hannots =>
    rw [← rangeOf_map hf _ ⟨_, _, rfl, by rw [hkeyword]; rfl⟩]
    simp only [List.map_append, List.map_cons]
    exact .errorModel (hf.kind_of_eq hkeyword) (hname hmodel) (carries_operands hf hargs)
      (hannotations hannots)
  -- a bundle without braces starts as its first instruction does, and not with a word of its own
  | bundle hitems =>
    obtain ⟨token, us, hsplit, hfirst⟩ := Parser.begins_instruction.separatedBy hitems
    rw [← rangeOf_map hf _ ⟨token, us, hsplit, by rcases hfirst with h | h <;> rw [h] <;> rfl⟩]
    exact .bundle ((carries_instruction hf).separatedBy hf hitems)
  | bracedBundle hopen hbefore hitems hbehind hclose =>
    rw [← rangeOf_map hf _ ⟨_, _, rfl, by rw [hopen]; rfl⟩]
    simp only [List.map_append, List.map_cons, List.map_nil]
    exact .bracedBundle (hf.kind_of_eq hopen) (separators_map hf hbefore) (carries_braced hf hitems)
      (separators_map hf hbehind) (hf.kind_of_eq hclose)

/-! ## Programs -/

theorem carries_qubits (hf : MovesSeparators file f) : Carries f (IsQubits file) := by
  rintro _ _ (_ | ⟨hseps, hkeyword, he⟩)
  · exact .none
  · rw [List.map_append, List.map_cons]
    exact .some (separation_map hf hseps) (hf.kind_of_eq hkeyword)
      (carries_expression hf maxNesting he)

/-- Between statements there are separators, and there still are. -/
theorem carries_statements (hf : MovesSeparators file f) : Carries f (IsStatements file) := by
  refine Carries.many ?_
  rintro _ s ⟨seps, ts, rfl, hseps, hs⟩
  exact ⟨_, _, List.map_append .., separation_map hf hseps, carries_statement hf hs⟩

/-- A whole text is the same program wherever its separators stand. -/
theorem carries_program (hf : MovesSeparators file f) : Carries f (IsProgram file) := by
  rintro _ _ ⟨hbefore, hkeyword, hnumber, hqubits, hstatements, hbehind, hlast⟩
  rw [← rangeOf_map hf [_, _] ⟨_, _, rfl, by rw [hkeyword]; rfl⟩,
    ← rangeOf_map hf (_ :: _ :: (_ ++ _)) ⟨_, _, rfl, by rw [hkeyword]; rfl⟩, ← hf.text_eq]
  simp only [List.map_append, List.map_cons, List.map_nil]
  exact .mk (separators_map hf hbefore) (hf.kind_of_eq hkeyword) (hf.kind_of_eq hnumber)
    (carries_qubits hf hqubits) (carries_statements hf hstatements) (separators_map hf hbehind)
    (hf.kind_of_eq hlast)

end Cqasm.Grammar
