import Cqasm.Proofs.Coverage
import Cqasm.Proofs.Limit
import Cqasm.Proofs.Recovery.Damage

/-!
# How far the damage of a wrong token goes

A wrong token in an accepted text leaves all other statements as they are. The statement that it
stands in becomes a single node with at most one complaint, unless the damage spills over: after a
complaint reading goes on behind the next separator, and within a matrix that is not the end of the
statement (`damage_contained_iff`).

The damaged token lies inside the row of its statement, so all that surrounds this row is read as
before, whatever is made of the row itself (`exists_accounts_wholeReading`). Whether the damage
spills over is then a question about that row alone (`spills_iff_cut`).
-/

set_option autoImplicit false

namespace Cqasm

open Grammar

/-! ## What is left ahead of a statement -/

/-- The kind of the first token in a range. -/
def leadingKind? (file : String) (tokens : List Token) (range : Location) : Option Kind :=
  (tokens.find? fun token => range.Covers (token.location file)).map Token.kind

/-- The damage of a statement spills over if a complaint leaves a separator of the statement ahead,
unless braces stand around it. The range of the statement is that in the undamaged text. -/
def Spills (file : String) (tokens tokens' : List Token) (range : Location)
    (error : Option Diagnostic) : Prop :=
  leadingKind? file tokens range ≠ some .leftBrace ∧
    ∃ e ∈ error, ∃ pair ∈ tokens.zip tokens', pair.1.kind.isSeparator ∧
      range.Covers (pair.1.location file) ∧ e.offset ≤ pair.2.start.offset

instance (file : String) (tokens tokens' : List Token) (range : Location)
    (error : Option Diagnostic) : Decidable (Spills file tokens tokens' range error) :=
  inferInstanceAs (Decidable (_ ∧ _))

section

variable {file : String} {front row rear front' row' rear' : List Token} {token : Token}
  {range : Location} {error : Option Diagnostic}

theorem Grammar.Span.not_covers_front (h : Span file row range)
    (hrises : Rises file (front ++ (row ++ rear))) (hmem : token ∈ front) :
    ¬range.Covers (token.location file) :=
  h.not_covers_ahead fun t ht =>
    (List.pairwise_append.1 hrises.apart).2.2 token hmem t (List.mem_append_left _ ht)

theorem Grammar.Span.not_covers_rear (h : Span file row range)
    (hrises : Rises file (front ++ (row ++ rear))) (hmem : token ∈ rear) :
    ¬range.Covers (token.location file) :=
  h.not_covers_behind fun t ht => (List.pairwise_append.1 hrises.right.apart).2.2 t ht token hmem

theorem leadingKind?_eq (h : Span file row range)
    (hrises : Rises file (front ++ (row ++ rear))) :
    leadingKind? file (front ++ (row ++ rear)) range = row.head?.map Token.kind := by
  have hfront : front.find? (fun token => range.Covers (token.location file)) = none :=
    List.find?_eq_none.2 fun token htoken => by simpa using h.not_covers_front hrises htoken
  have hrow : Rises file row := hrises.right.left
  rw [leadingKind?, List.find?_append, hfront, Option.none_or]
  cases row with
  | nil => cases h
  | cons first rest =>
    have hcovers := h.covers hrow List.mem_cons_self (by cases h; assumption)
    rw [List.cons_append, List.find?_cons_of_pos (by simpa using hcovers)]
    rfl

/-- Behind a separator within brackets there is at least the bracket that closes them. -/
theorem exists_solid_behind {us vs : List Token} {sep : Token}
    (hdepth : depthBehind 0 (us ++ sep :: vs) = some 0) (hsep : sep.kind.isSeparator) :
    ∃ token ∈ vs, token.kind.isSeparator = false := by
  by_contra hnone
  have hseps : Separators (sep :: vs) := List.forall_mem_cons.2 ⟨hsep, by simpa using hnone⟩
  obtain ⟨d, -, hd⟩ := exists_depth_of_append hdepth
  rw [← eq_of_depthBehind_of_separators hseps hd] at hd
  cases eq_nil_of_setOff (setOff_of_separators hseps) (by rw [hd]; rfl)

/-- All separators of a statement without braces are in its range. -/
theorem Bracketed.covers {sep : Token} (h : Bracketed row) (hspan : Span file row range)
    (hrises : Rises file row) (hhead : ∀ token ∈ row.head?, token.kind ≠ .leftBrace)
    (hmem : sep ∈ row) (hsep : sep.kind.isSeparator) : range.Covers (sep.location file) := by
  cases h with
  | braced hopening => exact absurd hopening (hhead _ rfl)
  | plain hdepth =>
    obtain ⟨us, vs, rfl⟩ := List.append_of_mem hmem
    obtain ⟨later, hlater, hsolid⟩ := exists_solid_behind hdepth hsep
    have hmem' : later ∈ us ++ sep :: vs := by simp [hlater]
    have hrises' : Rises file ((us ++ [sep]) ++ vs) := by simpa using hrises
    exact hspan.covers_of_le hrises hmem hmem' hsolid (hrises'.last_le (by simp) hlater)

theorem exists_mem_zip {α β : Type} {R : α → β → Prop} {as : List α} {bs : List β} {b : β}
    (h : List.Forall₂ R as bs) (hb : b ∈ bs) : ∃ a, (a, b) ∈ as.zip bs := by
  induction h with
  | nil => cases hb
  | cons _ _ ih =>
    rcases List.mem_cons.1 hb with rfl | hb
    · exact ⟨_, List.mem_cons_self⟩
    · obtain ⟨a, ha⟩ := ih hb
      exact ⟨a, List.mem_cons_of_mem _ ha⟩

/-- What spills over is a separator of the row of the statement. -/
theorem spills_iff_cut (hrow : Bracketed row) (hspan : Span file row range)
    (hrises : Rises file (front ++ (row ++ rear))) (hfront : front.length = front'.length)
    (hfits : List.Forall₂ Token.Fits row row') :
    Spills file (front ++ (row ++ rear)) (front' ++ (row' ++ rear')) range error ↔
      Cut row' error := by
  have hhead : row.head?.map Token.kind ≠ some .leftBrace ↔
      ∀ token ∈ row'.head?, token.kind ≠ .leftBrace := by
    cases hfits with
    | nil => simp
    | cons hfirst _ =>
      have hbrace := hfirst.kind_eq_iff (show Kind.leftBrace.isPlain = false from rfl)
      simp [hbrace]
  have hzip : (front ++ (row ++ rear)).zip (front' ++ (row' ++ rear')) =
      front.zip front' ++ (row.zip row' ++ rear.zip rear') := by
    rw [List.zip_append hfront, List.zip_append hfits.length_eq]
  rw [Spills, Cut, leadingKind?_eq hspan hrises, hhead, hzip]
  refine and_congr_right fun hplain => exists_congr fun e => and_congr_right fun _ => ?_
  -- The separator that counts lies in the row itself, since its range covers no token in front of
  -- it or behind.
  constructor
  · rintro ⟨⟨sep, sep'⟩, hmem, hsep, hcovers, hle⟩
    rcases List.mem_append.1 hmem with hmem | hmem
    · exact absurd hcovers (hspan.not_covers_front hrises (List.of_mem_zip hmem).1)
    rcases List.mem_append.1 hmem with hmem | hmem
    · have hsep' := List.forall₂_zip hfits hmem
      exact ⟨sep', (List.of_mem_zip hmem).2, hsep'.isSeparator_eq ▸ hsep, hle⟩
    · exact absurd hcovers (hspan.not_covers_rear hrises (List.of_mem_zip hmem).1)
  · rintro ⟨sep', hmem, hsep', hle⟩
    obtain ⟨sep, hpair⟩ := exists_mem_zip hfits hmem
    have hsep : sep.kind.isSeparator :=
      (List.forall₂_zip hfits hpair).isSeparator_eq.symm ▸ hsep'
    refine ⟨(sep, sep'), by simp [hpair], hsep, ?_, hle⟩
    refine hrow.covers hspan hrises.right.left ?_ (List.of_mem_zip hpair).1 hsep
    intro token htoken hkind
    refine hhead.2 hplain ?_
    rw [Option.mem_def.1 htoken, ← hkind]
    rfl

end

/-! ## A wrong token -/

section

variable {file text text' : String} {version : Version} {qubits : Option Expr}
  {before behind : List Statement} {s : Statement} {range : Location} {ahead rest : List Token}
  {old new : Token}

/-- A token that is neither in front of a row nor behind it is in the row. -/
theorem exists_row_eq_append {front row rear : List Token}
    (h : ahead ++ old :: rest = front ++ (row ++ rear)) (hfront : old ∉ front)
    (hrear : old ∉ rear) :
    ∃ us vs, row = us ++ old :: vs ∧ ahead = front ++ us ∧ rest = vs ++ rear := by
  obtain ⟨us, hahead, hbehind⟩ := exists_eq_append_of_notMem h hfront
  rcases List.append_eq_append_iff.1 hbehind with ⟨more, -, hmore⟩ | ⟨more, hrow, hmore⟩
  · exact absurd (by simp [hmore]) hrear
  · cases more with
    | nil =>
      rw [List.nil_append] at hmore
      exact absurd (hmore ▸ List.mem_cons_self) hrear
    | cons first vs =>
      cases hmore
      exact ⟨us, vs, hrow, hahead, rfl⟩

/-- A text with a wrong token is read as it was around the statement with that token. -/
theorem exists_accounts_wholeReading
    (hprogram : IsProgram file (streamOf text).readAll.1
      (.program version qubits (before ++ s :: behind) range))
    (htokens : (streamOf text).tokens = ahead ++ old :: rest)
    (hcovers : s.location.Covers (old.location file)) (hold : old.kind.isPlain)
    (hnew : new.kind.isPlain)
    (halike : List.Forall₂ Token.Alike (ahead ++ new :: rest) (streamOf text').tokens) :
    ∃ row' nodes program, (wholeReading file text').root = Reading.rootOf program ∧
      Intact version qubits before behind nodes program ∧
      Accounts row' nodes (wholeReading file text').errors ∧
      ∀ error, Spills file (streamOf text).tokens (streamOf text').tokens s.location error ↔
        Cut row' error := by
  obtain ⟨front, row, rear, hsplit, hsurrounds, hstatement⟩ :=
    exists_surrounds_of_isProgram hprogram
  have hbracketed := hsurrounds.bracketed (ended_ofStream text) hsplit hstatement
  have hrises := rises_tokens file text
  rw [hsplit] at hrises
  obtain ⟨first, more, hrow, hsolid, -⟩ := begins_statement hstatement
  have hspan : Span file row s.location := by
    rw [location_of_isStatement hstatement, hrow]
    exact span_rangeOf hsolid (hrow ▸ hrises.right.left)
  -- the damaged token lies inside the row, so all that surrounds it is as before
  obtain ⟨us, vs, rfl, rfl, rfl⟩ := exists_row_eq_append (htokens.symm.trans hsplit)
    (fun hmem => hspan.not_covers_front hrises hmem hcovers)
    fun hmem => hspan.not_covers_rear hrises hmem hcovers
  rw [List.append_assoc] at halike
  obtain ⟨front', row', rear', hsplit', hfront, hfits, hrear⟩ :=
    exists_fits_of_alike hold hnew halike
  obtain ⟨version', qubits', before', behind', hsurrounds', hversion, hqubits, hbefore, hbehind⟩ :=
    hsurrounds.exists_of_alike hfront hrear fun token htoken =>
      (ended_ofStream text').kind_ne token (by
        rw [show (Cursor.ofStream (streamOf text')).tokens = _ from hsplit']
        simp only [List.mem_append] at htoken ⊢
        tauto)
  have hfirst : ∃ first rest, row' = first :: rest ∧ first.kind.isSeparator = false := by
    rw [hrow] at hfits
    obtain - | ⟨hfirst, -⟩ := hfits
    exact ⟨_, _, rfl, hfirst.isSeparator_eq ▸ hsolid⟩
  obtain ⟨nodes, program, hroot, hintact, haccounts⟩ :=
    hsurrounds'.exists_accounts (endless_patience text') (ended_ofStream text')
      (ordered_ofStream text') hsplit' (hbracketed.of_fits hfits) hfirst
  refine ⟨row', nodes, program, hroot, hintact.of_bare hversion hqubits hbefore hbehind,
    haccounts, fun error => ?_⟩
  rw [hsplit, hsplit']
  exact spills_iff_cut hbracketed hspan hrises hfront.length_eq hfits

/-- Replacing one token of a statement by another one, neither of them a separator or a bracket of
any kind, leaves the rest of an accepted program as it is. There is one node in place of the
statement and at most one complaint, unless the damage spills over. -/
theorem damage_contained_iff {settings : Settings} {i : Nat}
    (haccepted : (parseText settings file text).errors = [])
    (hroot : (parseText settings file text).root =
      some (Reading.rootOf (.program version qubits (before ++ s :: behind) range)))
    (htoken : (streamOf text).tokens[i]? = some old)
    (hcovers : s.location.Covers (old.location file)) (hold : old.kind.isPlain)
    (hnew : new.kind.isPlain)
    (halike : List.Forall₂ Token.Alike ((streamOf text).tokens.set i new) (streamOf text').tokens)
    (hlimit : (streamOf text').diagnostics.length < settings.limit) :
    let damaged := parseText settings file text'
    let spills := Spills file (streamOf text).tokens (streamOf text').tokens s.location
      (wholeReading file text').errors.head?
    ((∃ node root, damaged.root = some root ∧
          Intact version qubits before behind [node] root.program) ∧
        damaged.errors.length ≤ (streamOf text').diagnostics.length + 1 ↔ ¬spills) ∧
      ((parseSession settings (.string text' file)).errors.aborted = false →
        ∃ nodes root, damaged.root = some root ∧
          Intact version qubits before behind nodes root.program ∧
          (nodes.length = 1 ↔ ¬spills)) := by
  intro damaged spills
  obtain ⟨-, program, hprogram, hparsed⟩ := isProgram_of_errors_eq_nil haccepted
  obtain rfl : .program version qubits (before ++ s :: behind) range = program :=
    congrArg Root.program (Option.some_inj.1 (hroot.symm.trans hparsed))
  obtain ⟨hi, hold'⟩ := List.getElem?_eq_some_iff.1 htoken
  have htokens : (streamOf text).tokens =
      (streamOf text).tokens.take i ++ old :: (streamOf text).tokens.drop (i + 1) := by
    rw [← hold', List.getElem_cons_drop, List.take_append_drop]
  rw [List.set_eq_take_cons_drop new hi] at halike
  obtain ⟨row', nodes, program', hwhole, hintact, haccounts, hspills⟩ :=
    exists_accounts_wholeReading hprogram htokens hcovers hold hnew halike
  -- The whole reading spills as the row is cut; what the limit leaves of it comes last.
  have hcut : spills ↔ Cut row' (wholeReading file text').errors.head? := hspills _
  have herrors : damaged.errors.length ≤ _ ↔ _ :=
    length_errors_parseText_le_iff (n := 1) hlimit
  have hnodes : nodes.length = 1 ↔ ¬spills := by
    rw [hcut]
    refine ⟨fun hone h => ?_, fun h => (haccounts.single h).1⟩
    have := (haccounts.several h).1
    omega
  rw [herrors]
  refine ⟨⟨?_, fun hspill => ?_⟩, fun haborted => ?_⟩
  · rintro ⟨-, hle⟩ hspill
    have := (haccounts.several (hcut.1 hspill)).2
    omega
  · have hle := (haccounts.single (hcut.not.1 hspill)).2
    obtain ⟨node, rfl⟩ := List.length_eq_one_iff.1 (hnodes.2 hspill)
    refine ⟨⟨node, _, parseText_root .., ?_⟩, hle⟩
    rw [limitedReading_eq_of_errors_le (by omega), hwhole]
    exact hintact
  · obtain ⟨hreading, -⟩ := parse_of_not_aborted haborted
    refine ⟨nodes, _, parseText_root .., ?_, hnodes⟩
    rw [hreading, hwhole]
    exact hintact

end

/-! ## A matrix -/

/-- A statement with a matrix of two rows, and one more. -/
def twoRows : String :=
  "version 1.0\nx [1; 2]\ny\n"

theorem exists_root_twoRows :
    let settings : Settings := { logger := .silent, limit := 9, files := .empty }
    (parseText settings "f" twoRows).errors = [] ∧ ∃ version qubits s t range,
      (parseText settings "f" twoRows).root =
          some (Reading.rootOf (.program version qubits ([] ++ s :: [t]) range)) ∧
        s.location = ⟨"f", ⟨2, 1⟩, ⟨2, 8⟩⟩ := by
  intro settings
  let tokens := (streamOf twoRows).tokens
  have haccepted : (parseText settings "f" twoRows).errors = [] := by decide +kernel
  obtain ⟨-, program, -, hroot⟩ := isProgram_of_errors_eq_nil haccepted
  have hprogram : (limitedReading settings.limit "f" twoRows).root.program = program :=
    congrArg Root.program (Option.some_inj.1 ((parseText_root ..).symm.trans hroot))
  -- The tree cannot be compared as a whole, but the ranges of its parts can be computed.
  have hranges : partRanges "f" tokens program =
      [⟨"f", ⟨1, 1⟩, ⟨1, 11⟩⟩, ⟨"f", ⟨2, 1⟩, ⟨2, 8⟩⟩, ⟨"f", ⟨3, 1⟩, ⟨3, 1⟩⟩] := by
    rw [← hprogram]
    decide +kernel
  have hkeyword : ∀ token ∈ tokens, token.kind ≠ .qubits := by decide +kernel
  have hclause (count : Expr) : qubitsStart? tokens count = none := by
    rw [qubitsStart?, List.filter_eq_nil_iff.2 fun token htoken => by simp [hkeyword token htoken]]
    rfl
  refine ⟨haccepted, ?_⟩
  cases program with
  | erroneous range => cases hranges
  | program version qubits statements range =>
    simp only [partRanges, hclause, Option.map_none, Option.bind_fun_none, Option.toList_none,
      List.nil_append, List.cons.injEq] at hranges
    obtain ⟨s, _, rfl, hs, hrest⟩ := List.map_eq_cons_iff.1 hranges.2
    obtain ⟨t, _, rfl, -, hnil⟩ := List.map_eq_cons_iff.1 hrest
    obtain rfl := List.map_eq_nil_iff.1 hnil
    exact ⟨version, qubits, s, t, range, hroot, hs⟩

/-- A comma in place of the last entry of a matrix stands behind all separators. -/
theorem damage_contained_last_row :
    let settings : Settings := { logger := .silent, limit := 9, files := .empty }
    let tokens := (streamOf twoRows).tokens
    let text' := "version 1.0\nx [1; ,]\ny\n"
    let tokens' := (streamOf text').tokens
    ∃ version qubits s t range old new,
      (parseText settings "f" twoRows).errors = [] ∧
      (parseText settings "f" twoRows).root =
        some (Reading.rootOf (.program version qubits ([] ++ s :: [t]) range)) ∧
      tokens[7]? = some old ∧ s.location.Covers (old.location "f") ∧ old.kind.isPlain ∧
      new.kind.isPlain ∧ List.Forall₂ Token.Alike (tokens.set 7 new) tokens' ∧
      (streamOf text').diagnostics.length < settings.limit ∧
      ¬Spills "f" tokens tokens' s.location (wholeReading "f" text').errors.head? ∧
      ∃ node root, (parseText settings "f" text').root = some root ∧
        Intact version qubits [] [t] [node] root.program := by
  intro settings tokens text' tokens'
  obtain ⟨haccepted, version, qubits, s, t, range, hroot, hlocation⟩ := exists_root_twoRows
  let old : Token := { kind := .integer, text := ['2'], start := ⟨18, 2, 6⟩, complete := true }
  let new : Token := { kind := .comma, text := [','], start := ⟨18, 2, 6⟩, complete := true }
  have hold : old.kind.isPlain := rfl
  have hnew : new.kind.isPlain := rfl
  have htoken : tokens[7]? = some old := by decide +kernel
  have hcovers : s.location.Covers (old.location "f") := by
    rw [hlocation]
    decide +kernel
  have halike : List.Forall₂ Token.Alike (tokens.set 7 new) tokens' := by decide +kernel
  have hlimit : (streamOf text').diagnostics.length < settings.limit := by decide +kernel
  have hspills : ¬Spills "f" tokens tokens' s.location (wholeReading "f" text').errors.head? := by
    rw [hlocation]
    decide +kernel
  obtain ⟨hcontained, -⟩ :=
    damage_contained_iff haccepted hroot htoken hcovers hold hnew halike hlimit
  exact ⟨version, qubits, s, t, range, old, new, haccepted, hroot, htoken, hcovers, hold, hnew,
    halike, hlimit, hspills, (hcontained.2 hspills).1⟩

/-- A comma in place of the first entry leaves the separator of the rows ahead. What stands behind
it is a broken statement of its own. -/
theorem damage_spills_first_row :
    let settings : Settings := { logger := .silent, limit := 9, files := .empty }
    let tokens := (streamOf twoRows).tokens
    let text' := "version 1.0\nx [,; 2]\ny\n"
    let tokens' := (streamOf text').tokens
    ∃ version qubits s t range old new,
      (parseText settings "f" twoRows).errors = [] ∧
      (parseText settings "f" twoRows).root =
        some (Reading.rootOf (.program version qubits ([] ++ s :: [t]) range)) ∧
      tokens[5]? = some old ∧ s.location.Covers (old.location "f") ∧ old.kind.isPlain ∧
      new.kind.isPlain ∧ List.Forall₂ Token.Alike (tokens.set 5 new) tokens' ∧
      (parseText settings "f" text').errors =
        ["f:2:4: syntax error, unexpected ',', expecting expression",
          "f:2:7: syntax error, unexpected integer literal '2', expecting statement"] ∧
      (parseText settings "f" text').root.map (partRanges "f" tokens' ·.program) =
        some [⟨"f", ⟨1, 1⟩, ⟨1, 11⟩⟩, ⟨"f", ⟨2, 1⟩, ⟨2, 4⟩⟩, ⟨"f", ⟨2, 7⟩, ⟨2, 8⟩⟩,
          ⟨"f", ⟨3, 1⟩, ⟨3, 1⟩⟩] := by
  intro settings tokens text' tokens'
  obtain ⟨haccepted, version, qubits, s, t, range, hroot, hlocation⟩ := exists_root_twoRows
  refine ⟨version, qubits, s, t, range,
    { kind := .integer, text := ['1'], start := ⟨15, 2, 3⟩, complete := true },
    { kind := .comma, text := [','], start := ⟨15, 2, 3⟩, complete := true },
    haccepted, hroot, by decide +kernel, ?_, rfl, rfl, by decide +kernel, by decide +kernel, ?_⟩
  · rw [hlocation]
    decide +kernel
  · rw [parseText_root]
    decide +kernel

end Cqasm
