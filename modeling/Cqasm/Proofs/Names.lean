import Cqasm.Proofs.Excerpt
import Cqasm.Proofs.Grammar.Names
import Cqasm.Proofs.Lexical.Literals

/-!
# Names stand for themselves

Where a tree has a name, the text has exactly that name, written as one token
(`Identifier.Bare`). Only what a mapping assigns to, in front of its expression, may be written in
parentheses, and then its range takes them in (`names_bare_iff`).

A name is looked up in the rows of tokens that the grammar made nodes of. There it is a token by
itself (`Grammar.IsName.bare`), or the inside of a target with parentheses around it
(`Grammar.IsTarget.bare_or_enclosed`).
-/

set_option autoImplicit false

namespace Cqasm

open Grammar

/-! ## Excerpts at tokens -/

section

variable {file : String} {text : List Char} {first last token : Token}

/-- From the start of a token to the end of a later one a text has both of them, and what is between
them. -/
theorem exists_excerpt_between (hfirst : first ∈ (TokenStream.ofText text).tokens)
    (hlast : last ∈ (TokenStream.ofText text).tokens)
    (hle : first.stop.offset ≤ last.start.offset) (hsolid : last.kind.isSeparator = false) :
    ∃ between, excerpt { file, first := first.firstPoint, last := (last.location file).last } text =
      first.text ++ (between ++ last.text) := by
  obtain ⟨before, behind, hsplit, hstart⟩ := exists_split_of_mem_tokens hfirst
  obtain ⟨before', behind', hsplit', hstart'⟩ := exists_split_of_mem_tokens hlast
  have hfront : before ++ first.text <+: text := by
    rw [hsplit, ← List.append_assoc]
    exact List.prefix_append ..
  have hfront' : before' <+: text := by
    rw [hsplit']
    exact List.prefix_append ..
  rw [Token.stop, hstart, hstart', ← Position.after_append, Position.offset_after,
    Position.offset_after] at hle
  -- both of them are what the text starts with, and the first one is not longer
  obtain ⟨between, rfl⟩ :=
    List.prefix_of_prefix_length_le hfront hfront' (Nat.le_of_add_le_add_left hle)
  refine ⟨between, ?_⟩
  have htext : text = before ++ ((first.text ++ (between ++ last.text)) ++ behind') := by
    rw [hsplit']
    simp only [List.append_assoc]
  have hstop : last.stop =
      Position.start.after (before ++ (first.text ++ (between ++ last.text))) := by
    rw [Token.stop, hstart', ← Position.after_append]
    simp only [List.append_assoc]
  rw [htext]
  refine excerpt_eq (by rw [← hstart]; rfl) ?_
  rw [← hstop]
  exact Token.last_location file (TokenStream.text_ne_nil_of_mem_tokens hlast) hsolid
    (TokenStream.kind_ne_eof_of_mem_tokens hlast)

/-- The excerpt at a row of tokens starts with the first one and ends with the last one. -/
theorem exists_excerpt_rangeOf {text : String} {ts : List Token} (file : String)
    (hrow : first :: (ts ++ [last]) <:+: (streamOf text).tokens)
    (hfirst : first.kind.isSeparator = false) (hlast : last.kind.isSeparator = false) :
    ∃ between, excerpt (rangeOf file (first :: (ts ++ [last]))) text.toList =
      first.text ++ (between ++ last.text) := by
  have hspan := span_rangeOf hfirst ((rises_tokens file text).sublist hrow.sublist)
  have hsolid : lastSolid? (first :: (ts ++ [last])) = some last :=
    lastSolid?_concat (first :: ts) hlast
  have hle : first.stop.offset ≤ last.start.offset := by
    have htokens := (List.pairwise_append.1 (pairwise_tokens text.toList)).1
    exact (List.pairwise_cons.1 (htokens.sublist hrow.sublist)).1 last (by simp)
  generalize rangeOf file (first :: (ts ++ [last])) = range at hspan
  obtain ⟨-, hsolid'⟩ := hspan
  obtain rfl := Option.some_inj.1 (hsolid.symm.trans hsolid')
  exact exists_excerpt_between (hrow.sublist.mem List.mem_cons_self) (hrow.sublist.mem (by simp))
    hle hlast

/-- The excerpt at a token is its text. -/
theorem excerpt_location (h : token ∈ (TokenStream.ofText text).tokens)
    (hsolid : token.kind.isSeparator = false) :
    excerpt (token.location file) text = token.text := by
  obtain ⟨before, behind, hsplit, hstart⟩ := exists_split_of_mem_tokens h
  rw [hsplit]
  refine excerpt_eq ?_ ?_
  · rw [Token.first_location, ← hstart]
    rfl
  · rw [Position.after_append, ← hstart]
    exact Token.last_location file (TokenStream.text_ne_nil_of_mem_tokens h) hsolid
      (TokenStream.kind_ne_eof_of_mem_tokens h)

end

/-! ## Bare names -/

/-- The name is that of a token of the text, which lies in the range of the identifier. -/
def Identifier.Written (file text : String) (id : Identifier) : Prop :=
  ∃ token ∈ (streamOf text).tokens, token.kind = .identifier ∧
    id.name = String.ofList token.text ∧ id.location.Covers (token.location file)

/-- The identifier has the range of a token, and the text has its name there and nothing else. -/
def Identifier.Bare (file text : String) (id : Identifier) : Prop :=
  ∃ token ∈ (streamOf text).tokens, token.kind = .identifier ∧
    id.name = String.ofList token.text ∧ id.location = token.location file ∧
    excerpt id.location text.toList = id.name.toList

/-- The text has parentheses where the identifier starts and ends. -/
def Identifier.Enclosed (text : String) (id : Identifier) : Prop :=
  ∃ inner, excerpt id.location text.toList = '(' :: (inner ++ [')'])

/-- The node is a mapping that assigns to the identifier, in front of its expression. -/
def Node.AssignsTo (node : Node) (id : Identifier) : Prop :=
  ∃ e annotations range, node = .statement (.mapping id e annotations range) ∧
    id.location.last.Before e.location.first

section

variable {file text : String} {row : List Token} {id : Identifier} {token : Token}

theorem Identifier.Bare.not_enclosed (h : id.Bare file text) : ¬id.Enclosed text := by
  rintro ⟨inner, hinner⟩
  obtain ⟨token, htoken, hkind, hname, -, hexcerpt⟩ := h
  rw [hexcerpt, hname, String.toList_ofList] at hinner
  obtain ⟨behind, hlexeme⟩ := TokenStream.isLexeme_of_mem_tokens htoken (by rw [hkind]; decide)
  obtain ⟨c, more, htext, hc⟩ := hlexeme.exists_isWordStart hkind
  rw [htext] at hinner
  cases hinner
  cases hc

theorem Grammar.IsName.bare (hrow : row <:+: (streamOf text).tokens) (h : IsName file row id) :
    id.Bare file text := by
  obtain @⟨token, hkind⟩ := h
  have hmem : token ∈ (streamOf text).tokens := hrow.sublist.mem (List.mem_singleton_self _)
  refine ⟨token, hmem, hkind, rfl, rfl, ?_⟩
  rw [excerpt_location hmem (by rw [hkind]; rfl), String.toList_ofList]

theorem Identifier.Bare.written (h : id.Bare file text) : id.Written file text := by
  obtain ⟨token, hmem, hkind, hname, hlocation, -⟩ := h
  exact ⟨token, hmem, hkind, hname, hlocation ▸ Location.covers_refl _⟩

/-- Inside of all parentheses there is a name. -/
theorem Grammar.IsTarget.exists_token {levels : Nat} (h : IsTarget file levels row id) :
    ∃ token ∈ row, token.kind = .identifier ∧ id.name = String.ofList token.text := by
  induction h with
  | name hname =>
    obtain @⟨token, hkind⟩ := hname
    exact ⟨token, List.mem_singleton_self _, hkind, rfl⟩
  | parenthesised _ _ _ ih =>
    obtain ⟨token, hmem, htoken⟩ := ih
    exact ⟨token, List.mem_cons_of_mem _ (List.mem_append_left _ hmem), htoken⟩

theorem Grammar.IsTarget.written (hrow : row <:+: (streamOf text).tokens)
    (h : IsTarget file maxNesting row id) : id.Written file text := by
  obtain ⟨token, hmem, hkind, hname⟩ := h.exists_token
  have hrises := (rises_tokens file text).sublist hrow.sublist
  have hspan : Span file row id.location := (isNode_target h).span hrises
  exact ⟨token, hrow.sublist.mem hmem, hkind, hname,
    hspan.covers hrises hmem (by rw [hkind]; rfl)⟩

/-- What can be assigned to is a bare name, or it is in parentheses. -/
theorem Grammar.IsTarget.bare_or_enclosed {levels : Nat} (hrow : row <:+: (streamOf text).tokens)
    (h : IsTarget file levels row id) : id.Bare file text ∨ id.Enclosed text := by
  cases h with
  | name hname => exact .inl (hname.bare hrow)
  | @parenthesised levels ts opening closing id hopen _ hclose =>
    have hopening : opening ∈ (streamOf text).tokens := hrow.sublist.mem List.mem_cons_self
    have hclosing : closing ∈ (streamOf text).tokens := hrow.sublist.mem (by simp)
    have hparen : opening.text = ['('] :=
      TokenStream.text_eq_spelling hopening (by rw [hopen]; rfl)
    have hparen' : closing.text = [')'] :=
      TokenStream.text_eq_spelling hclosing (by rw [hclose]; rfl)
    obtain ⟨inner, hinner⟩ :=
      exists_excerpt_rangeOf file hrow (by rw [hopen]; rfl) (by rw [hclose]; rfl)
    rw [hparen, hparen'] at hinner
    exact .inr ⟨inner, hinner⟩

theorem Grammar.IsNode.bare_iff_not_enclosed {node : Node} (hrow : row <:+: (streamOf text).tokens)
    (h : IsNode file row node) (hid : id ∈ node.names) :
    id.Written file text ∧ (id.Bare file text ↔ ¬id.Enclosed text) ∧
      (id.Enclosed text → node.AssignsTo id) := by
  rcases h.cases_names hid with
    ⟨ts, hinside, hname⟩ | ⟨e, annots, range, rfl, @⟨ts, us, sign, hinside, htarget, he⟩⟩
  · have hbare := hname.bare (hinside.trans hrow)
    exact ⟨hbare.written, iff_of_true hbare hbare.not_enclosed,
      fun henclosed => absurd henclosed hbare.not_enclosed⟩
  · have hts : ts <:+: (streamOf text).tokens :=
      (List.prefix_append ..).isInfix.trans (hinside.trans hrow)
    refine ⟨htarget.written hts, ⟨(·.not_enclosed), fun hnot => ?_⟩, fun _ => ?_⟩
    · exact (htarget.bare_or_enclosed hts).resolve_right hnot
    · have hspread : Spread (IsNode file) (ts ++ sign :: us) [.expr (.identifier id), .expr e] :=
        .next (isNode_target htarget) ((Spread.single (.expr he)).marked sign)
      have hrises := (rises_tokens file text).sublist (hinside.trans hrow).sublist
      have hapart := hspread.pairwise_location hrises
      exact ⟨e, annots, range, rfl, List.rel_of_pairwise_cons hapart (List.mem_singleton_self _)⟩

end

/-- Wherever a tree has the name of something, that is the name of an identifier of the text in its
range. The text has the bare name there, unless it has parentheses; and parentheses are only around
what a mapping assigns to, in front of its expression. -/
theorem names_bare_iff (settings : Settings) (file text : String) :
    ∃ root, (parseText settings file text).root = some root ∧
      (Node.root root).Everywhere fun node => ∀ id ∈ node.names,
        id.Written file text ∧ (id.Bare file text ↔ ¬id.Enclosed text) ∧
          (id.Enclosed text → node.AssignsTo id) := by
  rcases cases_parseText settings file text with
    ⟨row, program, hinside, hread, hroot⟩ | ⟨first, stop, -, hroot⟩
  · refine ⟨_, hroot, (hread.everywhere (by simp [Node.names]) ?_).root (by simp [Node.names])⟩
    exact fun _ _ hinside' hnode _ hid => hnode.bare_iff_not_enclosed (hinside'.trans hinside) hid
  · refine ⟨_, hroot, Node.Everywhere.root (.mk (by simp [Node.names]) ?_) (by simp [Node.names])⟩
    simp [Node.children, Node.fields]

/-- Parentheses around a name that is assigned to are accepted, and they belong to its range. -/
theorem alias_in_parentheses :
    let settings : Settings := { logger := .silent, limit := 9, files := .empty }
    let text := "version 1.0\nmap (q) = 1\n"
    (parseText settings "f" text).errors = [] ∧
      ∃ root, (parseText settings "f" text).root = some root ∧
        ¬(Node.root root).Everywhere fun node => ∀ id ∈ node.names, id.Bare "f" text := by
  intro settings text
  refine ⟨by decide +kernel, _, parseText_root .., fun h => ?_⟩
  let id : Identifier := ⟨"q", ⟨"f", ⟨2, 5⟩, ⟨2, 7⟩⟩⟩
  have hnames : ((Node.root (limitedReading settings.limit "f" text).root).children.flatMap
      Node.children).flatMap Node.names = [id] := by
    decide +kernel
  have hid : id ∈ [id] := List.mem_singleton_self _
  rw [← hnames] at hid
  obtain ⟨statement, hstatement, hid⟩ := List.mem_flatMap.1 hid
  obtain ⟨program, hprogram, hstatement⟩ := List.mem_flatMap.1 hstatement
  obtain ⟨-, -, -, -, -, hexcerpt⟩ := ((h.child hprogram).child hstatement).here id hid
  have hdiffers : excerpt id.location text.toList ≠ id.name.toList := by decide +kernel
  exact hdiffers hexcerpt

end Cqasm
