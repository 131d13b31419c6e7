import Cqasm.Proofs.Printing.Printer
import Cqasm.Token.Stream

/-!
# Scanning printed words

Words in a row (`Word.Row`) each stand alone, except for the mark of a condition, which has a word
behind it. With gaps between them they are cut back into the same words (`Style.cut_spaced`). So the
tokens of a printed text are the words it was printed from, and nothing is wrong with its characters
(`tokens_of_words`).
-/

set_option autoImplicit false

namespace Cqasm

open Lexeme

namespace Word

/-- Words as they may stand in a row. The mark of a condition cannot stand alone: there is a name
behind it. -/
def Fit : List Word → Prop
  | [] => True
  | w :: words =>
    (w.Stands false ∧ w.kind ≠ .version ∨
        w = condition ∧ ∃ text rest, words = name text :: rest ∧ IsName text.toList) ∧
      Fit words

/-- A word that stands alone, and not right in front of a version number. -/
def Plain (w : Word) : Prop :=
  w.Stands false ∧ w.kind ≠ .version

/-- Only the mark of a condition looks behind it, and what it finds there stays. -/
theorem fit_append {left right : List Word} (h : Fit left) (h' : Fit right) :
    Fit (left ++ right) := by
  induction left with
  | nil => exact h'
  | cons w left ih =>
    obtain ⟨hw, hleft⟩ := h
    refine ⟨?_, ih hleft⟩
    rcases hw with hw | ⟨hw, text, rest, rfl, htext⟩
    · exact .inl hw
    · exact .inr ⟨hw, text, rest ++ right, rfl, htext⟩

theorem fit_cons {w : Word} {words : List Word} (hw : w.Plain) (h : Fit words) :
    Fit (w :: words) :=
  ⟨.inl hw, h⟩

theorem fit_flatMap {α : Type} {f : α → List Word} {xs : List α} (h : ∀ x ∈ xs, Fit (f x)) :
    Fit (xs.flatMap f) := by
  induction xs with
  | nil => trivial
  | cons x xs ih =>
    obtain ⟨hx, hxs⟩ := List.forall_mem_cons.1 h
    rw [List.flatMap_cons]
    exact fit_append hx (ih hxs)

/-- Marks and keywords are plain, except the one in front of a version number. -/
theorem plain_mark {kind : Kind} (h : kind.spelling?.isSome && kind ≠ .version) :
    (mark kind).Plain := by
  obtain ⟨hspelling, hversion⟩ := Bool.and_eq_true_iff.1 h
  exact ⟨stands_mark hspelling, of_decide_eq_true hversion⟩

theorem plain_name {text : String} (h : IsName text.toList) : (name text).Plain :=
  ⟨stands_name h, nofun⟩

theorem plain_integer (value : Nat) : (integer value).Plain :=
  ⟨stands_integer value, nofun⟩

theorem plain_string {escape : Char → List Char} (h : Escapes escape) (value : String) :
    (Word.string escape value).Plain :=
  ⟨stands_string h value, nofun⟩

theorem plain_json {value : String} (h : ¬['|', '}'] <:+: value.toList) :
    (Word.json value).Plain :=
  ⟨stands_json h, nofun⟩

theorem fit_singleton {w : Word} (h : w.Plain) : Fit [w] :=
  fit_cons h trivial

theorem fit_separated {α : Type} {kind : Kind} {f : α → List Word} {xs : List α}
    (hkind : (mark kind).Plain) (h : ∀ x ∈ xs, Fit (f x)) : Fit (separated kind (xs.map f)) := by
  cases xs with
  | nil => trivial
  | cons x xs =>
    obtain ⟨hx, hxs⟩ := List.forall_mem_cons.1 h
    rw [List.map_cons, separated, List.flatMap_map]
    exact fit_append hx (fit_flatMap fun y hy => fit_cons hkind (hxs y hy))

theorem fit_parenthesised {words : List Word} (h : Fit words) : Fit (parenthesised words) :=
  fit_cons (plain_mark rfl) (fit_append h (fit_singleton (plain_mark rfl)))

/-! ## Rows -/

/-- Words as they come one behind the other in a text. Right behind the keyword `version` a word
stands alone if it does so there. -/
inductive Row : (afterVersion : Bool) → List Word → Prop
  | nil {afterVersion : Bool} : Row afterVersion []
  | cons {afterVersion : Bool} {w : Word} {words : List Word} :
      w.Stands afterVersion → Row (w.kind = .version) words → Row afterVersion (w :: words)
  | condition {afterVersion : Bool} {w : Word} {words : List Word} :
      isWordStart w.first → Row false (w :: words) → Row afterVersion (condition :: w :: words)

/-- No word in a row is empty. -/
theorem Row.text_eq {afterVersion : Bool} {words : List Word} (h : Row afterVersion words) :
    ∀ w ∈ words, w.text = w.first :: w.text.tail := by
  induction h with
  | nil => exact List.forall_mem_nil _
  | cons hstands _ ih => exact List.forall_mem_cons.2 ⟨hstands.text_eq, ih⟩
  | condition _ _ ih => exact List.forall_mem_cons.2 ⟨rfl, ih⟩

/-- What fits, fits in a row that does not begin behind the keyword `version`. -/
theorem Fit.row {words : List Word} (h : Fit words) : Row false words := by
  induction words with
  | nil => exact .nil
  | cons w words ih =>
    obtain ⟨hw, hwords⟩ := h
    rcases hw with ⟨hstands, hkind⟩ | ⟨rfl, text, rest, rfl, htext⟩
    · refine .cons hstands ?_
      rw [decide_eq_false hkind]
      exact ih hwords
    -- a name starts a word, which is what a condition wants behind it
    · refine .condition ?_ (ih hwords)
      have hname : text.toList = (name text).first :: (name text).text.tail :=
        (stands_name htext).text_eq
      have hstart := htext.1
      rwa [hname] at hstart

/-! ## Cutting at the end of a word -/

/-- In front of the given rest of a text, the word is cut off as what it is. -/
structure CutOff (afterVersion : Bool) (w : Word) (rest : List Char) : Prop where
  text_eq : w.text = w.first :: w.text.tail
  leading_eq : leading afterVersion w.first (w.text.tail ++ rest) = w.piece

variable {afterVersion : Bool} {w : Word} {rest : List Char}

/-- A tight word is cut off in front of anything. -/
theorem cutOff_of_mem_tight (h : w ∈ tight) (afterVersion : Bool) (rest : List Char) :
    w.CutOff afterVersion rest := by
  simp only [tight, List.mem_cons, List.not_mem_nil, or_false] at h
  rcases h with rfl | rfl | rfl | rfl | rfl | rfl <;> exact ⟨rfl, rfl⟩

/-- A word that stands alone is cut off in front of the end of the text or of a delimiter. -/
theorem cutOff_of_stands (h : w.Stands afterVersion)
    (hrest : rest = [] ∨ startsWith isDelimiter rest) : w.CutOff afterVersion rest where
  text_eq := h.text_eq
  leading_eq := by
    cases rest with
    | nil =>
      rw [List.append_nil]
      exact h
    | cons d behind =>
      rcases hrest with hrest | hrest
      · cases hrest
      -- the delimiter closes the piece, so nothing behind it can make it longer
      · have hclosed : (leading afterVersion w.first w.text.tail).Closed d := by
          rw [show leading afterVersion w.first w.text.tail = w.piece from h]
          exact rfl
        exact (leading_append hrest hclosed).trans h

/-- The mark of a condition is cut off where a word starts behind it. -/
theorem cutOff_condition (h : startsWith isWordStart rest) :
    condition.CutOff afterVersion rest :=
  ⟨rfl, leading_condition afterVersion h⟩

theorem CutOff.cutFrom_eq (h : w.CutOff afterVersion rest) :
    cutFrom afterVersion 0 (w.text ++ rest) =
      w.piece :: cutFrom (w.kind = .version) 0 rest := by
  have hpiece : leading afterVersion w.piece.first (w.piece.more ++ rest) = w.piece := h.leading_eq
  rw [h.text_eq]
  exact cutFrom_of_leading hpiece

theorem Stands.ne_condition (h : w.Stands afterVersion) : w ≠ condition := by
  have hcondition : ∀ afterVersion, ¬condition.Stands afterVersion := by decide
  rintro rfl
  exact hcondition _ h

end Word

/-! ## Cutting a whole text -/

/-- A piece that is more than a blank. -/
def Lexeme.isSolid (piece : Lexeme) : Bool :=
  piece.role ≠ .blank

namespace Style

open Word

variable {style : Style} {afterVersion : Bool} {w w' : Word} {words : List Word}

/-- Blanks are pieces of their own and not solid. -/
theorem cutFrom_blanks {blanks : List Char} (h : ∀ c ∈ blanks, c = ' ' ∨ c = '\t')
    (afterVersion : Bool) (rest : List Char) :
    (cutFrom afterVersion 0 (blanks ++ rest)).filter isSolid =
      (cutFrom afterVersion 0 rest).filter isSolid := by
  induction blanks with
  | nil => rfl
  | cons c blanks ih =>
    obtain ⟨hc, hblanks⟩ := List.forall_mem_cons.1 h
    rcases hc with rfl | rfl <;> exact ih hblanks

theorem isBlank_of_mem_between (style : Style) (w w' : Word) :
    ∀ c ∈ style.between w w', c = ' ' ∨ c = '\t' := by
  unfold between
  split
  · simp
  · exact style.isBlank_of_mem_gap w w'

/-- A row starts as its first word does. -/
theorem startsWith_spaced (hw : w.text = w.first :: w.text.tail) (isMember : Char → Bool) :
    startsWith isMember (style.spaced (w :: words)) = isMember w.first := by
  cases words with
  | nil => rw [spaced, hw]; rfl
  | cons => rw [spaced, hw]; rfl

/-- Whatever comes behind a word that may run together with others, it starts with a blank or with
something else that ends the word. -/
theorem startsWith_between (hcondition : w ≠ condition) (htight : w ∉ tight)
    (words : List Word) :
    startsWith isDelimiter (style.between w w' ++ style.spaced (w' :: words)) := by
  rw [between, if_neg hcondition]
  cases hgap : style.gap w w' with
  | nil =>
    -- the gap may only be empty in front of a tight word, and those all delimit
    have hmem : w' ∈ tight :=
      Decidable.of_not_not fun hmem => style.gap_ne_nil w w' htight hmem hgap
    have hall : ∀ w ∈ tight, isDelimiter w.first := by decide +kernel
    rw [List.nil_append, startsWith_spaced (cutOff_of_mem_tight hmem false []).text_eq]
    exact hall w' hmem
  | cons c gap =>
    have hblank := style.isBlank_of_mem_gap w w' c (by rw [hgap]; exact List.mem_cons_self)
    rcases hblank with rfl | rfl <;> rfl

/-- One word and the gap behind it are cut off. -/
theorem cut_spaced_cons
    (h : w.CutOff afterVersion (style.between w w' ++ style.spaced (w' :: words))) :
    (cutFrom afterVersion 0 (style.spaced (w :: w' :: words))).filter isSolid =
      w.piece ::
        (cutFrom (w.kind = .version) 0 (style.spaced (w' :: words))).filter isSolid := by
  rw [spaced, h.cutFrom_eq, List.filter_cons_of_pos rfl,
    cutFrom_blanks (style.isBlank_of_mem_between w w')]

/-- The last word has no gap behind it. -/
theorem cut_spaced_singleton (h : w.Stands afterVersion) :
    (cutFrom afterVersion 0 (style.spaced [w])).filter isSolid = [w.piece] := by
  have hcut := (cutOff_of_stands h (.inl rfl)).cutFrom_eq
  rw [List.append_nil] at hcut
  rw [spaced, hcut]
  rfl

/-- A word in a row is cut off by what it is, by the gap behind it or, for the mark of a condition,
by the word behind it. -/
theorem cutOff_between (h : w.Stands afterVersion) (w' : Word) (words : List Word) :
    w.CutOff afterVersion (style.between w w' ++ style.spaced (w' :: words)) := by
  by_cases htight : w ∈ tight
  · exact cutOff_of_mem_tight htight _ _
  · exact cutOff_of_stands h (.inr (startsWith_between h.ne_condition htight words))

theorem cutOff_between_condition (hw : w.text = w.first :: w.text.tail)
    (hstart : isWordStart w.first) (words : List Word) :
    condition.CutOff afterVersion (style.between condition w ++ style.spaced (w :: words)) := by
  apply cutOff_condition
  rwa [between, if_pos rfl, List.nil_append, startsWith_spaced hw]

/-- Words in a row are cut back into the same words. -/
theorem cut_spaced (h : Row afterVersion words) :
    (cutFrom afterVersion 0 (style.spaced words)).filter isSolid = words.map piece := by
  -- on the row: each word is cut off by what is behind it, and the rest is cut alike
  induction h with
  | nil => rfl
  | @cons _ w words hstands _ ih =>
    cases words with
    | nil => exact cut_spaced_singleton hstands
    | cons w' words =>
      rw [cut_spaced_cons (cutOff_between hstands w' words), ih]
      rfl
  | @condition _ w words hstart hrow ih =>
    have hw := hrow.text_eq w List.mem_cons_self
    rw [cut_spaced_cons (cutOff_between_condition hw hstart words)]
    exact congrArg (condition.piece :: ·) ih

end Style

/-! ## Tokens -/

/-- Blanks leave nothing, so that the items of pieces are the words they consist of otherwise. -/
theorem items_of_words {pieces : List Lexeme} {words : List Word}
    (hpieces : pieces.filter isSolid = words.map Word.piece)
    (hwords : ∀ w ∈ words, w.text = w.first :: w.text.tail) (place : Position) :
    ∃ tokens : List Token, Item.ofLexemes place pieces = tokens.map .token ∧
      tokens.map Token.word = words ∧ ∀ token ∈ tokens, token.complete := by
  -- over the pieces, not the words: a blank among them leaves the words as they are
  induction pieces generalizing words place with
  | nil =>
    obtain rfl := List.map_eq_nil_iff.1 hpieces.symm
    exact ⟨[], rfl, rfl, by simp⟩
  | cons piece pieces ih =>
    rw [Item.ofLexemes]
    cases hsolid : piece.isSolid with
    | false =>
      rw [List.filter_cons_of_neg (by simp [hsolid])] at hpieces
      have hnone : Item.ofLexeme? place piece = none := by
        unfold isSolid at hsolid
        unfold Item.ofLexeme?
        rw [show piece.role = .blank by simpa using hsolid]
      rw [hnone]
      exact ih hpieces hwords _
    | true =>
      rw [List.filter_cons_of_pos hsolid] at hpieces
      obtain ⟨w, words, rfl, rfl, hrest⟩ := List.map_eq_cons_iff.1 hpieces.symm
      obtain ⟨hw, hwords⟩ := List.forall_mem_cons.1 hwords
      obtain ⟨tokens, hitems, htokens, hcomplete⟩ := ih hrest.symm hwords
        (place.after w.piece.text)
      let token : Token :=
        { kind := w.kind, text := w.piece.text, start := place, complete := true }
      have hword : token.word = w := by
        show ({ kind := w.kind, text := w.first :: w.text.tail } : Word) = w
        rw [← hw]
      refine ⟨token :: tokens, ?_, ?_, ?_⟩
      · rw [hitems]
        rfl
      · rw [List.map_cons, hword, htokens]
      · intro t ht
        rcases List.mem_cons.1 ht with rfl | ht
        · rfl
        · exact hcomplete t ht

/-- A text of which the pieces are words has those words for tokens, and nothing is wrong with it.
-/
theorem tokens_of_words {text : String} {words : List Word}
    (hpieces : (cut text.toList).filter isSolid = words.map Word.piece)
    (hwords : ∀ w ∈ words, w.text = w.first :: w.text.tail) :
    (TokenStream.ofText text.toList).tokens.map Token.word = words ∧
      (TokenStream.ofText text.toList).diagnostics = [] := by
  obtain ⟨tokens, hitems, htokens, hcomplete⟩ := items_of_words hpieces hwords .start
  have htokens_eq : (TokenStream.ofText text.toList).tokens = tokens := by
    show (Item.ofLexemes .start (cut text.toList)).filterMap Item.token? = tokens
    rw [hitems, List.filterMap_map]
    exact List.filterMap_some
  refine ⟨htokens_eq ▸ htokens, ?_⟩
  show (Item.ofLexemes .start (cut text.toList)).flatMap Item.diagnostics = []
  rw [hitems, List.flatMap_eq_nil_iff]
  intro item hitem
  obtain ⟨token, htoken, rfl⟩ := List.mem_map.1 hitem
  exact if_pos (hcomplete token htoken)

end Cqasm
