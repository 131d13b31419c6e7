import Cqasm.Proofs.Agreement.Phrase
import Cqasm.Proofs.Recovery.Rows

/-!
# Reading a program around a broken row

Brackets and braces of a row do not move if a token is replaced by another one and neither of them
separates, opens or closes anything (`Bracketed.of_fits`). So what stands around the row is read as
it was, also if the row itself does not stand for a statement any more
(`Surrounds.exists_accounts`). How many nodes and complaints there are for the row depends on
whether the first complaint leaves a separator ahead (`Accounts`).
-/

set_option autoImplicit false

namespace Cqasm

open Grammar

/-! ## Plain tokens -/

/-- Tokens that separate nothing and neither open nor close anything. -/
def Kind.isPlain (kind : Kind) : Bool :=
  match kind with
  | .newline | .semicolon => false
  | .leftParen | .rightParen | .leftBracket | .rightBracket | .leftBrace | .rightBrace => false
  | _ => true

/-- One token stands in the place of another one: it is of the same kind, or both are plain. -/
def Token.Fits (a b : Token) : Prop :=
  a.kind = b.kind ∨ a.kind.isPlain ∧ b.kind.isPlain

section

variable {a b : Token} {d : Nat} {row row' : List Token}

theorem Kind.depthBehind_of_isPlain {kind : Kind} (h : kind.isPlain) (depth : Nat) :
    kind.depthBehind depth = some depth := by
  cases kind <;> first | rfl | cases h

theorem Token.Fits.depthBehind_eq (h : a.Fits b) (depth : Nat) :
    a.kind.depthBehind depth = b.kind.depthBehind depth := by
  rcases h with h | ⟨ha, hb⟩
  · rw [h]
  · rw [Kind.depthBehind_of_isPlain ha, Kind.depthBehind_of_isPlain hb]

theorem Token.Fits.kind_eq_iff (h : a.Fits b) {kind : Kind} (hkind : kind.isPlain = false) :
    a.kind = kind ↔ b.kind = kind := by
  rcases h with h | ⟨ha, hb⟩
  · rw [h]
  · constructor <;> rintro rfl <;> simp_all

theorem Token.Fits.isSeparator_eq (h : a.Fits b) : a.kind.isSeparator = b.kind.isSeparator := by
  have hplain : ∀ kind : Kind, kind.isPlain → kind.isSeparator = false := by decide
  rcases h with h | ⟨ha, hb⟩
  · rw [h]
  · rw [hplain _ ha, hplain _ hb]

theorem depthBehind_of_fits (h : List.Forall₂ Token.Fits row row') (depth : Nat) :
    depthBehind depth row = depthBehind depth row' := by
  induction h generalizing depth with
  | nil => rfl
  | cons hfirst _ ih =>
    rw [depthBehind_cons, depthBehind_cons, hfirst.depthBehind_eq]
    exact congrArg _ (funext ih)

/-- Brackets and braces stand in the same places if tokens fit one by one. -/
theorem Bracketed.of_fits (h : Bracketed row) (hfits : List.Forall₂ Token.Fits row row') :
    Bracketed row' := by
  cases h with
  | plain hdepth => exact .plain ((depthBehind_of_fits hfits 0).symm.trans hdepth)
  | braced hopening hdepth hclosing =>
    obtain ⟨opening', rest, hfirst, hrest, rfl⟩ := List.forall₂_cons_left_iff.1 hfits
    obtain ⟨ts', last, rfl, hts, hlast⟩ := exists_append_of_forall₂ hrest
    obtain ⟨closing', _, hlastFits, hnil, rfl⟩ := List.forall₂_cons_left_iff.1 hlast
    rw [List.forall₂_nil_left_iff.1 hnil]
    exact .braced ((hfirst.kind_eq_iff rfl).1 hopening)
      ((depthBehind_of_fits hts 1).symm.trans hdepth) ((hlastFits.kind_eq_iff rfl).1 hclosing)

/-- A row with a token replaced by another plain one fits the row as it was, wherever it stands. -/
theorem exists_fits_of_alike {front rear us vs ts : List Token} (ha : a.kind.isPlain)
    (hb : b.kind.isPlain)
    (h : List.Forall₂ Token.Alike (front ++ (us ++ b :: (vs ++ rear))) ts) :
    ∃ front' row' rear', ts = front' ++ (row' ++ rear') ∧
      List.Forall₂ Token.Alike front front' ∧ List.Forall₂ Token.Fits (us ++ a :: vs) row' ∧
      List.Forall₂ Token.Alike rear rear' := by
  have hfits {ts us : List Token} (h : List.Forall₂ Token.Alike ts us) :
      List.Forall₂ Token.Fits ts us := h.imp fun _ _ halike => .inl halike.1
  obtain ⟨front', _, rfl, hfront, hbehind⟩ := exists_append_of_forall₂ h
  obtain ⟨us', _, rfl, hus, htoken⟩ := exists_append_of_forall₂ hbehind
  obtain ⟨b', _, hfirst, hrest, rfl⟩ := List.forall₂_cons_left_iff.1 htoken
  obtain ⟨vs', rear', rfl, hvs, hrear⟩ := exists_append_of_forall₂ hrest
  refine ⟨front', us' ++ b' :: vs', rear', ?_, hfront, ?_, hrear⟩
  · rw [List.append_assoc us', List.cons_append]
  · exact List.rel_append (hfits hus) (.cons (.inr ⟨ha, hfirst.1 ▸ hb⟩) (hfits hvs))

end

/-! ## What is read of a row -/

/-- What is read of the row of one statement: a single node and at most one complaint, unless the
first complaint leaves a separator ahead. Then there are more of both. -/
structure Accounts (row : List Token) (nodes : List Node) (errors : List Diagnostic) : Prop where
  single : ¬Cut row errors.head? → nodes.length = 1 ∧ errors.length ≤ 1
  several : Cut row errors.head? → 2 ≤ nodes.length ∧ 2 ≤ errors.length

section

variable {α : Type} {patience : Patience} {file : String} {c behind : Cursor} {row : List Token}
  {read : Recovered α}

theorem Leaves.exists_accounts (h : Leaves row behind read) (file : String) (node : Node)
    (hpatience : patience.Endless) (complaints : Nat) (hended : read.cursor.Ended)
    (hbehind : SetOff behind.tokens) :
    ∃ statements errors, ReadsOn patience file complaints read.cursor behind statements errors ∧
      Accounts row (node :: statements.map .statement) (read.error.toList ++ errors) := by
  obtain ⟨statements, errors, hrest, hmore, hnone⟩ :=
    h.exists_readsOn file hpatience complaints hended hbehind
  refine ⟨statements, errors, hrest, ?_⟩
  -- Only a complaint can cut the row, and if it does there is at least one statement and one
  -- complaint more.
  cases herror : read.error with
  | none =>
    have hcut : ¬Cut row read.error := by
      rintro ⟨-, _, hsome, -⟩
      rw [herror] at hsome
      cases hsome
    obtain ⟨rfl, rfl⟩ := hnone hcut
    rw [herror] at hcut
    exact ⟨fun _ => ⟨rfl, Nat.zero_le 1⟩, fun h => absurd h hcut⟩
  | some error =>
    rw [herror] at hmore hnone
    constructor
    · intro hcut
      obtain ⟨rfl, rfl⟩ := hnone hcut
      exact ⟨rfl, Nat.le_refl 1⟩
    · intro hcut
      obtain ⟨hstatements, herrors⟩ := hmore hcut
      have := List.length_pos_iff.2 hstatements
      have := List.length_pos_iff.2 herrors
      simp only [List.length_cons, List.length_map, Option.toList_some, List.length_append,
        List.length_nil]
      omega

/-- The row of a statement is read as statements, with what is behind it going on as before. -/
theorem Bracketed.exists_accounts (h : Bracketed row) (file : String) (hpatience : patience.Endless)
    (complaints : Nat) (hc : c.Ended) (hordered : c.Ordered) (hpasses : c.Passes row behind)
    (hbehind : SetOff behind.tokens)
    (hfirst : ∃ first rest, row = first :: rest ∧ first.kind.isSeparator = false) :
    ∃ statements errors, ReadsOn patience file complaints c behind statements errors ∧
      Accounts row (statements.map .statement) errors := by
  obtain ⟨first, rest, hrow, hsolid⟩ := hfirst
  obtain ⟨us, hus⟩ := exists_passes_recover (Parser.terminated Parser.statement) .erroneous file c
  obtain ⟨statements, errors, hrest, haccounts⟩ :=
    (h.leaves file hc hordered hpasses hbehind).exists_accounts file (.statement _) hpatience
      (complaints + _) (hus.ended hc) hbehind
  rw [hrow] at hpasses
  exact ⟨_, _, (readsOn_statement file hpatience complaints hpasses.tokens_eq hsolid).trans hrest,
    haccounts⟩

/-- A row that starts with the keyword of a qubits clause is read as a clause, with what is behind
it going on as before. -/
theorem Bracketed.exists_accounts_clause (h : Bracketed row) (file : String)
    (hpatience : patience.Endless) (hc : c.Ended) (hordered : c.Ordered)
    (hpasses : c.Passes row behind) (hbehind : SetOff behind.tokens) (hkind : c.kind = .qubits) :
    let read := readQubits file c
    ∃ count statements errors, read.value = some count ∧
      ReadsOn patience file read.error.toList.length read.cursor behind statements errors ∧
      Accounts row (.expr count :: statements.map .statement) (read.error.toList ++ errors) := by
  have hdepth : depthBehind 0 row = some 0 := by
    cases h with
    | plain hdepth => exact hdepth
    | braced hopening =>
      rw [hpasses.kind_eq, hopening] at hkind
      cases hkind
  intro read
  let placeholder (range : Location) : Option Expr := some (.erroneous range)
  have hread : read = (Parser.terminated Parser.qubits).recover placeholder file c := if_pos hkind
  obtain ⟨count, hvalue, -⟩ := recovered_qubits hordered hc hkind _ hread
  obtain ⟨us, hus⟩ := exists_passes_recover (Parser.terminated Parser.qubits) placeholder file c
  have hrow : RowRead c row ((Parser.terminated Parser.qubits).recover placeholder file c) :=
    rowRead_recover placeholder hc hpasses hbehind hdepth (Parser.nested_qubits hc hkind)
  rw [← hread] at hus hrow
  obtain ⟨statements, errors, hrest, haccounts⟩ :=
    (hrow.leaves hordered hpasses hdepth).exists_accounts file (.expr count) hpatience
      read.error.toList.length (hus.ended hc) hbehind
  exact ⟨count, statements, errors, hvalue, hrest, haccounts⟩

end

/-! ## Programs around a broken row -/

/-- A program has the head and the statements of another one, up to ranges, and between them the
given nodes. Where these are the first behind the version, one of them may be a qubits clause. -/
inductive Intact (version : Version) (qubits : Option Expr) (before behind : List Statement) :
    List Node → Program → Prop
  | statements {version' : Version} {qubits' : Option Expr}
      {before' behind' nodes : List Statement} {range : Location} :
      version'.bare = version.bare → qubits'.map Expr.bare = qubits.map Expr.bare →
      before'.map Statement.bare = before.map Statement.bare →
      behind'.map Statement.bare = behind.map Statement.bare →
      Intact version qubits before behind (nodes.map .statement)
        (.program version' qubits' (before' ++ (nodes ++ behind')) range)
  | clause {version' : Version} {count : Expr} {behind' nodes : List Statement}
      {range : Location} :
      qubits = none → before = [] → version'.bare = version.bare →
      behind'.map Statement.bare = behind.map Statement.bare →
      Intact version qubits before behind (.expr count :: nodes.map .statement)
        (.program version' (some count) (nodes ++ behind') range)

/-- Tokens in front of a row and tokens behind it that make up a program with what the row stands
for: a head and statements in front of it, and statements behind it. -/
inductive Surrounds (file : String) :
    List Token → List Token → Version → Option Expr → List Statement → List Statement → Prop
  | mk {before qs ss seps us ends : List Token} {keyword number : Token} {qubits : Option Expr}
      {statements later : List Statement} :
      Separators before → keyword.kind = .version → number.kind = .versionNumber →
      IsQubits file qs qubits → IsStatements file ss statements → Separation seps →
      IsStatements file us later → Separators ends →
      Surrounds file (before ++ keyword :: number :: (qs ++ ss) ++ seps) (us ++ ends)
        { items := (Literal.versionNumbers number.text).map .ofNat
          location := rangeOf file [keyword, number] }
        qubits statements later

section

variable {file : String} {tokens front row rear front' rear' : List Token} {last : Token}
  {version version' : Version} {qubits qubits' : Option Expr}
  {statements statements' later later' : List Statement} {s : Statement} {range : Location}
  {nodes : List Node} {program : Program}

/-- What is intact does not depend on ranges. -/
theorem Intact.of_bare (h : Intact version' qubits' statements' later' nodes program)
    (hversion : version'.bare = version.bare)
    (hqubits : qubits'.map Expr.bare = qubits.map Expr.bare)
    (hstatements : statements'.map Statement.bare = statements.map Statement.bare)
    (hlater : later'.map Statement.bare = later.map Statement.bare) :
    Intact version qubits statements later nodes program := by
  cases h with
  | statements hversion' hqubits' hstatements' hlater' =>
    exact .statements (hversion'.trans hversion) (hqubits'.trans hqubits)
      (hstatements'.trans hstatements) (hlater'.trans hlater)
  | clause hnone hnil hversion' hlater' =>
    rw [hnone, Option.map_none, eq_comm, Option.map_eq_none_iff] at hqubits
    rw [hnil, List.map_nil, eq_comm, List.map_eq_nil_iff] at hstatements
    exact .clause hqubits hstatements (hversion'.trans hversion) (hlater'.trans hlater)

theorem exists_append_of_many {α : Type} {item : Phrase α} {ts : List Token} {vs ws : List α}
    (h : Many item ts (vs ++ ws)) :
    ∃ us us', ts = us ++ us' ∧ Many item us vs ∧ Many item us' ws := by
  induction vs generalizing ts with
  | nil => exact ⟨[], ts, rfl, .nil, h⟩
  | cons v vs ih =>
    obtain - | ⟨hfirst, hrest⟩ := h
    obtain ⟨us, us', rfl, hus, hus'⟩ := ih hrest
    exact ⟨_, us', (List.append_assoc ..).symm, .cons hfirst hus, hus'⟩

/-- Each statement of a program stands for a row with the rest of the program around it. -/
theorem exists_surrounds_of_isProgram
    (h : IsProgram file (tokens ++ [last])
      (.program version qubits (statements ++ s :: later) range)) :
    ∃ front row rear, tokens = front ++ (row ++ rear) ∧
      Surrounds file front rear version qubits statements later ∧ IsStatement file row s := by
  obtain ⟨before, qs, ss, ends, keyword, number, _, _, rfl, hbefore, hkeyword, hnumber, hqubits,
    hall, hends, -, hprogram⟩ := exists_parts_of_isProgram h
  cases hprogram
  obtain ⟨us, us', rfl, hstatements, hrest⟩ := exists_append_of_many hall
  obtain - | ⟨⟨seps, row, rfl, hseps, hrow⟩, hlater⟩ := hrest
  refine ⟨_, row, _, ?_, .mk hbefore hkeyword hnumber hqubits hstatements hseps hlater hends, hrow⟩
  simp

/-- What stands around a row stands for the same wherever it stands. -/
theorem Surrounds.exists_of_alike (h : Surrounds file front rear version qubits statements later)
    (hfront : List.Forall₂ Token.Alike front front') (hrear : List.Forall₂ Token.Alike rear rear')
    (hkind : ∀ token ∈ front' ++ rear', token.kind ≠ .eof) :
    ∃ version' qubits' statements' later',
      Surrounds file front' rear' version' qubits' statements' later' ∧
      version'.bare = version.bare ∧ qubits'.map Expr.bare = qubits.map Expr.bare ∧
      statements'.map Statement.bare = statements.map Statement.bare ∧
      later'.map Statement.bare = later.map Statement.bare := by
  obtain ⟨hbefore, hkeyword, hnumber, hqubits, hstatements, hseps, hlater, hends⟩ := h
  -- The tokens that are alike are split where the parts of the program are.
  obtain ⟨head, seps', rfl, hhead, hsepsAlike⟩ := exists_append_of_forall₂ hfront
  obtain ⟨before', _, rfl, hbeforeAlike, - | ⟨hkeywordAlike, - | ⟨hnumberAlike, hrest⟩⟩⟩ :=
    exists_append_of_forall₂ hhead
  obtain ⟨qs', ss', rfl, hqsAlike, hssAlike⟩ := exists_append_of_forall₂ hrest
  obtain ⟨us', ends', rfl, husAlike, hendsAlike⟩ := exists_append_of_forall₂ hrear
  obtain ⟨qubits', hqubits', hqubitsBare⟩ := Likeness.exists_qubits hqubits hqsAlike
    fun token htoken => hkind token (by simp [htoken])
  obtain ⟨statements', hstatements', hstatementsBare⟩ :=
    Likeness.exists_statements hstatements hssAlike fun token htoken =>
      hkind token (by simp [htoken])
  obtain ⟨later', hlater', hlaterBare⟩ := Likeness.exists_statements hlater husAlike
    fun token htoken => hkind token (by simp [htoken])
  refine ⟨_, qubits', statements', later', .mk ?_ (hkeywordAlike.1 ▸ hkeyword)
    (hnumberAlike.1 ▸ hnumber) hqubits' hstatements' ?_ hlater' ?_, ?_, hqubitsBare.symm,
    hstatementsBare.symm, hlaterBare.symm⟩
  · exact Likeness.forall_kind_of_forall₂ (·.isSeparator) hbeforeAlike hbefore
  · exact Likeness.separation_of_forall₂ hsepsAlike hseps
  · exact Likeness.forall_kind_of_forall₂ (·.isSeparator) hendsAlike hends
  · rw [hnumberAlike.2]
    rfl

end

section

variable {patience : Patience} {file : String} {c : Cursor}
  {front row rear us ends : List Token} {version : Version} {qubits : Option Expr}
  {statements later : List Statement}

theorem setOff_of_isStatements (h : IsStatements file us later) (hends : Separators ends) :
    SetOff (us ++ ends) := by
  cases h with
  | nil => exact setOff_of_separators hends
  | cons hfirst _ =>
    obtain ⟨seps, ts, rfl, ⟨hseps, hne⟩, -⟩ := hfirst
    obtain ⟨sep, rest, rfl⟩ := List.exists_cons_of_ne_nil hne
    rintro _ ⟨rfl⟩
    exact hseps sep List.mem_cons_self

/-- Statements up to the end of a text are read without a complaint. -/
theorem readStatements_of_isStatements (hpatience : patience.Endless) (complaints : Nat)
    (hc : c.Ended) (htokens : c.tokens = us ++ ends) (hus : IsStatements file us later)
    (hends : Separators ends) :
    (readStatements patience file complaints c).statements = later ∧
      (readStatements patience file complaints c).errors = [] := by
  obtain ⟨stop, hpasses, hstop⟩ := Cursor.exists_passes_of_append htokens
  have hend : stop.kind.endsStatement := by
    apply (hpasses.ended hc).endsStatement
    rw [hstop]
    exact setOff_of_separators hends
  have hnil : stop.pastSeparators.tokens = [] := by
    rw [Cursor.pastSeparators, hstop]
    exact List.dropWhile_eq_nil_iff.2 hends
  rw [readStatements_append hpatience hpasses hus hend, readStatements_of_nil hnil]
  exact ⟨List.append_nil later, rfl⟩

/-- Brackets stand in the right places of a statement of a program. -/
theorem Surrounds.bracketed {s : Statement}
    (h : Surrounds file front rear version qubits statements later) (hc : c.Ended)
    (htokens : c.tokens = front ++ (row ++ rear)) (hrow : IsStatement file row s) :
    Bracketed row := by
  obtain ⟨start, hfront, hstart⟩ := Cursor.exists_passes_of_append htokens
  obtain ⟨behind, hpasses, hbehind⟩ := Cursor.exists_passes_of_append hstart
  have hended := hfront.ended hc
  have hsetOff : SetOff behind.tokens := by
    obtain ⟨-, -, -, -, -, -, hlater, hends⟩ := h
    exact hbehind ▸ setOff_of_isStatements hlater hends
  exact bracketed_of_isStatement hended hpasses
    ((hpasses.ended hended).endsStatement hsetOff) hrow

/-- Around a row with brackets in the right places a program is read as it is, whatever else stands
in the row. -/
theorem Surrounds.exists_accounts (h : Surrounds file front rear version qubits statements later)
    (hpatience : patience.Endless) (hc : c.Ended) (hordered : c.Ordered)
    (htokens : c.tokens = front ++ (row ++ rear)) (hrow : Bracketed row)
    (hfirst : ∃ first rest, row = first :: rest ∧ first.kind.isSeparator = false) :
    ∃ nodes program, (Reading.ofCursor patience file c).root = Reading.rootOf program ∧
      Intact version qubits statements later nodes program ∧
      Accounts row nodes (Reading.ofCursor patience file c).errors := by
  obtain @⟨before, qs, ss, seps, us, ends, keyword, number, qubits, statements, later, hbefore,
    hkeyword, hnumber, hqubits, hstatements, hseps, hlater, hends⟩ := h
  rw [List.append_assoc] at htokens
  obtain ⟨middle, hhead, hmiddle⟩ := Cursor.exists_passes_of_append htokens
  obtain ⟨start, hseparators, hstart⟩ := Cursor.exists_passes_of_append hmiddle
  obtain ⟨behind, hpasses, hbehind⟩ := Cursor.exists_passes_of_append hstart
  have hended := hseparators.ended (hhead.ended hc)
  have hstartOrdered := hseparators.ordered (hhead.ordered hordered)
  have hsetOff : SetOff behind.tokens := hbehind ▸ setOff_of_isStatements hlater hends
  have hend : middle.kind.endsStatement := by
    obtain ⟨sep, rest, rfl, hsep⟩ := exists_cons_of_separation hseps
    rw [hseparators.kind_eq]
    exact hsep
  have hpast : middle.pastSeparators = start := by
    obtain ⟨first, rest, rfl, hsolid⟩ := hfirst
    exact hseparators.pastSeparators_eq hseps.1 (by rw [hpasses.kind_eq, hsolid])
  have hrest (n : Nat) : (readStatements patience file n behind).statements = later ∧
      (readStatements patience file n behind).errors = [] :=
    readStatements_of_isStatements hpatience n (hpasses.ended hended) hbehind hlater hends
  by_cases hclause : qubits = none ∧ statements = [] ∧ start.kind = .qubits
  · obtain ⟨rfl, rfl, hkind⟩ := hclause
    cases hqubits
    cases hstatements
    obtain ⟨count, nodes, errors, hvalue, hbody, haccounts⟩ :=
      hrow.exists_accounts_clause file hpatience hended hstartOrdered hpasses hsetOff hkind
    rw [Reading.ofCursor_of_version hhead hbefore hkeyword hnumber,
      Reading.ofVersion_of_endsStatement hend]
    dsimp only
    rw [hpast, hvalue, show readStatements .. = _ from hbody]
    dsimp only
    rw [(hrest _).1, (hrest _).2, List.append_nil]
    exact ⟨_, _, rfl, .clause rfl rfl rfl rfl, haccounts⟩
  · obtain ⟨nodes, errors, hbody, haccounts⟩ :=
      hrow.exists_accounts file hpatience 0 hended hstartOrdered hpasses hsetOff hfirst
    rw [Reading.ofCursor_append hpatience hhead hbefore hkeyword hnumber hqubits hstatements hend
      fun hnone hnil hkind => hclause ⟨hnone, hnil, hpast ▸ hkind⟩,
      ← readStatements_pastSeparators, hpast, show readStatements .. = _ from hbody]
    dsimp only
    rw [(hrest _).1, (hrest _).2, List.append_nil]
    exact ⟨_, _, rfl, .statements rfl rfl rfl rfl, haccounts⟩

end

end Cqasm
