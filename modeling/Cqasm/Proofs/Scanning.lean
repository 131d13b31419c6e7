import Cqasm.Proofs.Lexical.Pieces
import Cqasm.Proofs.ReportOrder
import Mathlib.Data.Set.List

/-!
# Scanning loses nothing

The tokens that are read of a text, one after the other up to its end, are slices of the text that
stand side by side, each with the place of its first character (`scan_lossless`). What they leave
out is blank, part of a comment, or a stray character; and what is reported is one diagnostic for
every stray character, in their order, and possibly a last one for a literal that never ends.
-/

set_option autoImplicit false

namespace Cqasm

/-! ## Reading up to the end -/

namespace TokenStream

/-- Tokens that are read one after the other up to the first that stands at the end of the text, and
everything reported on the way. -/
inductive Delivers : TokenStream → List Token → List Diagnostic → Prop where
  | last {stream : TokenStream} (hkind : stream.next.token.kind = .eof) :
    Delivers stream [stream.next.token] stream.next.report
  | more {stream : TokenStream} {tokens : List Token} {report : List Diagnostic}
    (hkind : stream.next.token.kind ≠ .eof) (hrest : Delivers stream.next.rest tokens report) :
    Delivers stream (stream.next.token :: tokens) (stream.next.report ++ report)

/-- Reading token by token delivers what reading all at once does. -/
theorem delivers_readAll {stream : TokenStream}
    (htokens : ∀ token ∈ stream.tokens, token.kind ≠ .eof) (hlast : stream.last.kind = .eof) :
    stream.Delivers stream.readAll.1 stream.readAll.2 := by
  generalize hlist : stream.tokens = tokens at htokens
  induction tokens generalizing stream with
  | nil =>
    have hread := readAll_of_tokens_eq_nil hlist
    have hnext : stream.next.token = stream.last := by
      have hfirst := congrArg Prod.fst hread
      rw [readAll, hlist] at hfirst
      exact (List.cons.inj hfirst).1.symm
    rw [hread]
    exact .last (hnext ▸ hlast)
  | cons token tokens ih =>
    have hread := readAll_of_next (hlist.trans_ne (List.cons_ne_nil _ _))
    have hfirst := congrArg Prod.fst hread
    rw [readAll, hlist] at hfirst
    obtain ⟨rfl, hrest⟩ := List.cons.inj hfirst
    obtain ⟨hlist', hlast'⟩ := List.append_inj' hrest rfl
    rw [hread]
    refine .more (htokens _ List.mem_cons_self) (ih ?_ hlist'.symm ?_)
    · rwa [← (List.cons.inj hlast').1]
    · exact fun u hu => htokens u (List.mem_cons_of_mem _ hu)

end TokenStream

/-! ## What becomes of a character -/

/-- That the character at an index belongs to a token. -/
def Token.Takes (token : Token) (i : Nat) : Prop :=
  token.start.offset ≤ i ∧ i < token.stop.offset

/-- That the character at an index belongs to none of some tokens. -/
def LeftOut (tokens : List Token) (i : Nat) : Prop :=
  ∀ token ∈ tokens, ¬token.Takes i

/-- That the character at an index belongs to a comment: a row of characters that are left out,
from a hash sign up to the next newline or the end of the text. -/
def InComment (text : List Char) (tokens : List Token) (i : Nat) : Prop :=
  ∃ before rest, text = before ++ '#' :: rest ∧
    let stop := before.length + (rest.takeWhile (· ≠ '\n')).length
    before.length ≤ i ∧ i ≤ stop ∧ ∀ k, before.length ≤ k → k ≤ stop → LeftOut tokens k

/-- What scanning a text comes to: its tokens, the one at its end, the indices of the stray
characters, and the report. -/
structure Scanned (text : List Char) (tokens : List Token) (last : Token)
    (strays : List (Fin text.length)) (report : List Diagnostic) : Prop where
  last_kind : last.kind = .eof
  last_offset : last.start.offset = text.length
  kind_ne : ∀ token ∈ tokens, token.kind ≠ .eof
  text_ne_nil : ∀ token ∈ tokens, token.text ≠ []
  apart : (tokens ++ [last]).Pairwise fun token token' => token.stop.offset ≤ token'.start.offset
  slice : ∀ token ∈ tokens,
    (text.take token.stop.offset).drop token.start.offset = token.text
  place : ∀ token ∈ tokens ++ [last], token.start = .within text token.start.offset
  /-- A stray character is left out by the tokens and neither blank nor part of a comment. -/
  mem_strays_iff : ∀ i : Fin text.length, i ∈ strays ↔
    LeftOut tokens i ∧ Lexeme.isSpace text[i] = false ∧ ¬InComment text tokens i
  /-- Nothing could start with it. -/
  startsNothing : ∀ i ∈ strays, Lexeme.StartsNothing text[i] (text.drop (i.val + 1))
  ordered : strays.Pairwise (· < ·)
  report_eq : report =
    strays.map (fun i => .stray text[i] (.within text i)) ++
      tokens.getLast?.toList.flatMap Diagnostic.ofToken

namespace TokenStream

variable {text : List Char} {token : Token} {i : Nat}

/-- A token is made by the piece that it starts with. -/
theorem exists_pieceAt_of_mem_tokens (h : token ∈ (ofText text).tokens) :
    ∃ piece, PieceAt text token.start.offset piece ∧
      token.start = .within text token.start.offset ∧ token.text = piece.text ∧
      piece.role = .token token.kind token.complete := by
  obtain ⟨piece, hpiece, hitem⟩ := exists_pieceAt (mem_tokens_iff.1 h)
  rcases Item.cases_of_ofLexeme? hitem with ⟨_, hitem, hplace, htext, hrole⟩ | ⟨hitem, -⟩
  · cases hitem
    exact ⟨piece, hpiece, hplace, htext, hrole⟩
  · cases hitem

theorem exists_pieceAt_of_stray {c : Char} {place : Position}
    (h : .stray c place ∈ (ofText text).items) :
    ∃ piece, PieceAt text place.offset piece ∧ place = .within text place.offset ∧
      c = piece.first ∧ piece.role = .stray := by
  obtain ⟨piece, hpiece, hitem⟩ := exists_pieceAt h
  rcases Item.cases_of_ofLexeme? hitem with ⟨_, hitem, -⟩ | ⟨hitem, hrole⟩
  · cases hitem
  · obtain ⟨hfirst, hplace⟩ := Item.stray.inj hitem
    exact ⟨piece, hpiece, hplace, hfirst, hrole⟩

theorem takes_iff {piece : Lexeme} (htext : token.text = piece.text) :
    token.Takes i ↔
      token.start.offset ≤ i ∧ i < token.start.offset + piece.text.length := by
  rw [Token.Takes, Token.stop, Position.offset_after, htext]

/-- The tokens leave out the pieces that are no tokens. -/
theorem leftOut_iff {offset : Nat} {piece : Lexeme} (h : PieceAt text offset piece)
    (hle : offset ≤ i) (hlt : i < offset + piece.text.length) :
    LeftOut (ofText text).tokens i ↔ ∀ kind complete, piece.role ≠ .token kind complete := by
  constructor
  · intro hleft kind complete hrole
    let token : Token := { kind, text := piece.text, start := .within text offset, complete }
    have hitem : .token token ∈ (ofText text).items := by
      refine mem_items_of_pieceAt h ?_
      rw [Item.ofLexeme?, hrole]
    exact hleft token (mem_tokens_iff.2 hitem) ((takes_iff rfl).2 ⟨hle, hlt⟩)
  · intro hrole token htoken htakes
    obtain ⟨piece', hpiece', -, htext, hrole'⟩ := exists_pieceAt_of_mem_tokens htoken
    obtain ⟨hle', hlt'⟩ := (takes_iff htext).1 htakes
    obtain ⟨-, rfl⟩ := h.unique hpiece' hle hlt hle' hlt'
    exact hrole _ _ hrole'

end TokenStream

/-- A row of characters of a class that reaches into another one reaches as far as that one. -/
theorem Lexeme.takeWhile_append_of_length_le {p : Char → Bool} {left right : List Char}
    (h : left.length ≤ ((left ++ right).takeWhile p).length) :
    (left ++ right).takeWhile p = left ++ right.takeWhile p := by
  induction left with
  | nil => rfl
  | cons c left ih =>
    rw [List.cons_append, List.takeWhile_cons] at h ⊢
    split at h
    · next hc =>
      rw [if_pos hc, ih (Nat.le_of_succ_le_succ h), List.cons_append]
    · cases h

namespace PieceAt

variable {text : List Char} {offset i : Nat} {piece : Lexeme}

/-- A comment is the row of characters from its hash sign up to the end of the line. -/
theorem text_of_comment (h : PieceAt text offset piece) (hrole : piece.role = .comment) :
    ∃ before rest, text = before ++ '#' :: rest ∧ before.length = offset ∧
      piece.text = ('#' :: rest).takeWhile (· ≠ '\n') := by
  obtain ⟨before, afterVersion, c, rest, htext, hlength, rfl⟩ := h.exists_leading
  have hfits := Lexeme.fits_leading afterVersion c rest
  rw [Lexeme.Fits, hrole] at hfits
  obtain ⟨rfl, hmore⟩ := hfits
  refine ⟨before, rest, htext, hlength, ?_⟩
  rw [Lexeme.text, Lexeme.first_leading, hmore]
  rfl

/-- A piece of a single character is over where it starts. -/
theorem eq_of_more_eq_nil (h : PieceAt text offset piece) (hle : offset ≤ i)
    (hlt : i < offset + piece.text.length) (hmore : piece.more = []) :
    offset = i ∧ text[i]? = some piece.first := by
  obtain rfl : offset = i := by
    rw [Lexeme.text, hmore, List.length_singleton] at hlt
    omega
  exact ⟨rfl, h.getElem?_eq_first⟩

/-- A hash sign is part of a comment or a token. -/
theorem role_of_hash (h : PieceAt text offset piece) (hle : offset ≤ i)
    (hlt : i < offset + piece.text.length) (hhash : text[i]? = some '#')
    (hrole : ∀ kind complete, piece.role ≠ .token kind complete) : piece.role = .comment := by
  have hsingle (hmore : piece.more = []) : piece.first = '#' :=
    Option.some.inj ((h.eq_of_more_eq_nil hle hlt hmore).2.symm.trans hhash)
  have hfits := h.exists_fits
  cases hkind : piece.role with
  | comment => rfl
  | token kind complete => exact absurd hkind (hrole kind complete)
  | blank =>
    rw [Lexeme.Fits, hkind] at hfits
    rw [hsingle hfits.2] at hfits
    exact absurd hfits.1 (by decide)
  | stray =>
    rw [Lexeme.Fits, hkind] at hfits
    exact absurd (hsingle hfits.2) hfits.1.ne_hash

/-- The comments of a text are its pieces of that role. -/
theorem inComment_iff (h : PieceAt text offset piece) (hle : offset ≤ i)
    (hlt : i < offset + piece.text.length) :
    InComment text (TokenStream.ofText text).tokens i ↔ piece.role = .comment := by
  constructor
  · rintro ⟨before, rest, htext, hbefore, hstop, hleft⟩
    have hlength : before.length < text.length := by simp [htext]
    have hhash : text[before.length]? = some '#' := by simp [htext]
    obtain ⟨offset', piece', h', hle', hlt'⟩ := exists_of_lt hlength
    have hrole' := h'.role_of_hash hle' hlt' hhash
      ((TokenStream.leftOut_iff h' hle' hlt').1 (hleft _ (Nat.le_refl _) (Nat.le_add_right _ _)))
    -- The comment that the hash sign belongs to goes on to the end of the line, and so over `i`.
    obtain ⟨before', rest', htext', rfl, hpiece'⟩ := h'.text_of_comment hrole'
    obtain ⟨between, rfl⟩ : before' <+: before :=
      List.prefix_of_prefix_length_le ⟨_, htext'.symm⟩ ⟨_, htext.symm⟩ hle'
    rw [htext, List.append_assoc] at htext'
    rw [← List.append_cancel_left htext'] at hpiece'
    rw [List.length_append] at hlt' hstop hbefore
    have hbetween : between.length ≤ piece'.text.length := by omega
    rw [hpiece'] at hbetween
    rw [Lexeme.takeWhile_append_of_length_le hbetween,
      List.takeWhile_cons_of_pos (by decide)] at hpiece'
    have hreach : i < before'.length + piece'.text.length := by
      rw [hpiece', List.length_append, List.length_cons]
      omega
    obtain ⟨-, rfl⟩ := h.unique h' hle hlt (by omega) hreach
    exact hrole'
  · intro hrole
    obtain ⟨before, rest, htext, rfl, hpiece⟩ := h.text_of_comment hrole
    have hlength : piece.text.length = (rest.takeWhile (· ≠ '\n')).length + 1 := by
      rw [hpiece]
      rfl
    refine ⟨before, rest, htext, hle, by omega, fun k hk hk' => ?_⟩
    refine (TokenStream.leftOut_iff h hk (by omega)).2 fun kind complete => ?_
    rw [hrole]
    exact fun h => Role.noConfusion h

end PieceAt

/-! ## The report -/

namespace Item

/-- What is reported of an item that is a stray character. -/
def stray? : Item → Option Diagnostic
  | token _ => none
  | stray c place => some (.stray c place)

/-- That a token is complete. -/
def IsComplete (item : Item) : Prop :=
  ∀ t, item = .token t → t.complete = true

theorem pairwise_complete_ofLexemes {here : Position} {pieces : List Lexeme}
    (h : pieces.Pairwise fun piece _ => ∀ kind, piece.role ≠ .token kind false) :
    (ofLexemes here pieces).Pairwise fun item _ => item.IsComplete := by
  induction pieces generalizing here with
  | nil => exact .nil
  | cons piece pieces ih =>
    obtain ⟨hpiece, hpieces⟩ := List.pairwise_cons.1 h
    rw [ofLexemes, List.pairwise_append]
    refine ⟨?_, ih hpieces, ?_⟩
    · cases ofLexeme? here piece <;> simp
    · rintro _ ha b hb token rfl
      obtain ⟨piece', hpiece', -⟩ := mem_ofLexemes hb
      have hrole := role_of_ofLexeme? (Option.mem_toList.1 ha)
      cases hcomplete : token.complete with
      | true => rfl
      | false =>
        rw [hcomplete] at hrole
        exact absurd hrole (hpiece piece' hpiece' token.kind)

theorem diagnostics_of_isComplete {token : Token} (h : (Item.token token).IsComplete) :
    Diagnostic.ofToken token = [] := by
  rw [Diagnostic.ofToken, if_pos (h token rfl)]

/-- If only the last of some items can be an incomplete token, then only the last token can, and
what is reported of it comes last. -/
theorem flatMap_diagnostics {items : List Item}
    (h : items.Pairwise fun item _ => item.IsComplete) :
    items.flatMap diagnostics =
      items.filterMap stray? ++
        (items.filterMap token?).getLast?.toList.flatMap Diagnostic.ofToken := by
  induction items with
  | nil => rfl
  | cons item items ih =>
    obtain ⟨hitem, hitems⟩ := List.pairwise_cons.1 h
    rw [List.flatMap_cons, ih hitems]
    cases item with
    | stray c place => rfl
    | token token =>
      cases items with
      | nil => simp [diagnostics, stray?, token?]
      | cons next items =>
        have hnone := diagnostics_of_isComplete (hitem next List.mem_cons_self)
        have htokens : (.token token :: next :: items).filterMap token? =
            token :: (next :: items).filterMap token? := rfl
        have hstrays : (.token token :: next :: items).filterMap stray? =
            (next :: items).filterMap stray? := rfl
        rw [htokens, hstrays, List.getLast?_cons]
        cases ((next :: items).filterMap token?).getLast? <;> simp [diagnostics, hnone]

end Item

/-! ## Scanning -/

variable {text : List Char}

/-- The stray characters of a text are those that are neither part of a token or comment nor blank,
and nothing could start with them. -/
theorem mem_strays_iff {i : Nat} (hi : i < text.length) :
    .stray text[i] (.within text i) ∈ (TokenStream.ofText text).items ↔
      LeftOut (TokenStream.ofText text).tokens i ∧ Lexeme.isSpace text[i] = false ∧
        ¬InComment text (TokenStream.ofText text).tokens i := by
  obtain ⟨offset, piece, hpiece, hle, hlt⟩ := PieceAt.exists_of_lt hi
  rw [TokenStream.leftOut_iff hpiece hle hlt, hpiece.inComment_iff hle hlt]
  have hfits := hpiece.exists_fits
  have hsingle (hmore : piece.more = []) : offset = i ∧ text[i] = piece.first := by
    obtain ⟨hoffset, hfirst⟩ := hpiece.eq_of_more_eq_nil hle hlt hmore
    rw [List.getElem?_eq_getElem hi] at hfirst
    exact ⟨hoffset, Option.some.inj hfirst⟩
  constructor
  · intro hitem
    obtain ⟨piece', hpiece', -, hfirst, hrole⟩ := TokenStream.exists_pieceAt_of_stray hitem
    obtain ⟨-, rfl⟩ := hpiece.unique hpiece' hle hlt (Nat.le_refl i)
      (Nat.lt_add_of_pos_right (Nat.zero_lt_succ _))
    rw [Lexeme.Fits, hrole] at hfits
    rw [hrole, hfirst]
    exact ⟨fun _ _ => Role.noConfusion, hfits.1.not_space, Role.noConfusion⟩
  -- a blank or a stray character is the only one of its piece, so it is the character at hand
  · rintro ⟨htoken, hspace, hcomment⟩
    cases hrole : piece.role with
    | token kind complete => exact absurd hrole (htoken kind complete)
    | comment => exact absurd hrole hcomment
    | blank =>
      rw [Lexeme.Fits, hrole] at hfits
      rw [(hsingle hfits.2).2, hfits.1] at hspace
      cases hspace
    | stray =>
      rw [Lexeme.Fits, hrole] at hfits
      obtain ⟨rfl, hfirst⟩ := hsingle hfits.2
      refine TokenStream.mem_items_of_pieceAt hpiece ?_
      rw [Item.ofLexeme?, hrole, hfirst]

theorem startsNothing_of_stray {c : Char} {place : Position}
    (h : .stray c place ∈ (TokenStream.ofText text).items) :
    Lexeme.StartsNothing c (text.drop (place.offset + 1)) := by
  obtain ⟨piece, hpiece, -, rfl, hrole⟩ := TokenStream.exists_pieceAt_of_stray h
  have hfits := hpiece.exists_fits
  rw [Lexeme.Fits, hrole] at hfits
  exact hfits.1

/-- A token is the slice of the text between its two ends. -/
theorem exists_append_of_mem_tokens {token : Token}
    (h : token ∈ (TokenStream.ofText text).tokens) :
    ∃ before behind, text = before ++ (token.text ++ behind) ∧
      token.start.offset = before.length ∧
      token.stop.offset = before.length + token.text.length := by
  obtain ⟨piece, hpiece, -, htext, -⟩ := TokenStream.exists_pieceAt_of_mem_tokens h
  obtain ⟨before, behind, hsplit, hlength⟩ := hpiece.exists_append
  rw [← htext] at hsplit
  exact ⟨before, behind, hsplit, hlength.symm, by rw [Token.stop, Position.offset_after, hlength]⟩

/-- A token starts where walking over what is in front of it leads. -/
theorem exists_split_of_mem_tokens {token : Token} (h : token ∈ (TokenStream.ofText text).tokens) :
    ∃ before behind, text = before ++ (token.text ++ behind) ∧
      token.start = Position.start.after before := by
  obtain ⟨-, -, hplace, -⟩ := TokenStream.exists_pieceAt_of_mem_tokens h
  obtain ⟨before, behind, hsplit, hoffset, -⟩ := exists_append_of_mem_tokens h
  refine ⟨before, behind, hsplit, ?_⟩
  rw [hplace, hoffset, Position.after_start_of_append before (token.text ++ behind), ← hsplit]

theorem Item.eq_of_token? {item : Item} {token : Token} (h : item.token? = some token) :
    item = .token token := by
  cases item with
  | token t => exact congrArg Item.token (Option.some.inj h)
  | stray => cases h

theorem Item.mem_filterMap_stray? {items : List Item} {c : Char} {place : Position} :
    .stray c place ∈ items.filterMap Item.stray? ↔ .stray c place ∈ items := by
  rw [List.mem_filterMap]
  constructor
  · rintro ⟨item, hitem, h⟩
    cases item with
    | token => cases h
    | stray =>
      cases h
      exact hitem
  · intro h
    exact ⟨_, h, rfl⟩

theorem pairwise_tokens (text : List Char) :
    ((TokenStream.ofText text).tokens ++ [(TokenStream.ofText text).last]).Pairwise
      fun token token' => token.stop.offset ≤ token'.start.offset := by
  rw [List.pairwise_append]
  refine ⟨?_, List.pairwise_singleton _ _, ?_⟩
  · have hitems := Item.pairwise_stop_ofLexemes .start (Lexeme.cut text)
    refine List.Pairwise.filterMap _ (fun a b hab token htoken token' htoken' => ?_) hitems
    obtain rfl := Item.eq_of_token? htoken
    obtain rfl := Item.eq_of_token? htoken'
    rcases hab token rfl with hplace | hbefore
    · exact Nat.le_of_eq (congrArg Position.offset hplace.symm)
    · exact Nat.le_of_lt hbefore.offset_lt
  · intro token htoken last hlast
    obtain rfl := List.mem_singleton.1 hlast
    obtain ⟨before, behind, hsplit, -, hstop⟩ := exists_append_of_mem_tokens htoken
    have hend : (TokenStream.ofText text).last.start.offset = 0 + text.length :=
      Position.offset_after _ _
    rw [hstop, hend, hsplit, List.length_append, List.length_append]
    omega

/-- What scanning a text delivers are slices of it, each with its place, that leave out nothing but
blanks, comments and stray characters; and what is reported is every stray character in order, and
then at most that the last token is a literal that never ends. -/
theorem scan_lossless (text : List Char) :
    ∃ tokens last strays report,
      (TokenStream.ofText text).Delivers (tokens ++ [last]) report ∧
        Scanned text tokens last strays report := by
  let stream := TokenStream.ofText text
  let strayAt (i : Fin text.length) : Diagnostic := .stray text[i] (.within text i)
  -- The stray characters are those of the report, and each is told by its index.
  have hstrays : stream.items.filterMap Item.stray? ∈ Set.range (List.map strayAt) := by
    rw [Set.range_list_map]
    intro d hd
    obtain ⟨item, hitem, hstray⟩ := List.mem_filterMap.1 hd
    cases item with
    | token => cases hstray
    | stray c place =>
      cases hstray
      obtain ⟨piece, hpiece, hplace, rfl, -⟩ := TokenStream.exists_pieceAt_of_stray hitem
      obtain ⟨hlt, hfirst⟩ := List.getElem?_eq_some_iff.1 hpiece.getElem?_eq_first
      exact ⟨⟨place.offset, hlt⟩, by simp only [strayAt, Fin.getElem_fin, hfirst, ← hplace]⟩
  obtain ⟨strays, hmap⟩ := hstrays
  have hmem (i : Fin text.length) :
      i ∈ strays ↔ .stray text[i] (.within text i) ∈ stream.items := by
    rw [← Item.mem_filterMap_stray?, ← hmap]
    refine (List.mem_map_of_injective (f := strayAt) fun i j h => ?_).symm
    exact Fin.ext (congrArg Diagnostic.offset h)
  -- only the last token can be a literal without an end, so that complaint comes last
  have hreport : stream.diagnostics =
      strays.map strayAt ++ stream.tokens.getLast?.toList.flatMap Diagnostic.ofToken := by
    rw [hmap]
    exact Item.flatMap_diagnostics
      (Item.pairwise_complete_ofLexemes (Lexeme.pairwise_complete_cutFrom ..))
  refine ⟨stream.tokens, stream.last, strays, stream.diagnostics,
    TokenStream.delivers_readAll (fun _ => TokenStream.kind_ne_eof_of_mem_tokens) rfl, ?_⟩
  exact {
    last_kind := rfl
    last_offset := (Position.offset_after _ _).trans (Nat.zero_add _)
    kind_ne := fun _ => TokenStream.kind_ne_eof_of_mem_tokens
    text_ne_nil := fun token htoken => by
      obtain ⟨piece, -, -, htext, -⟩ := TokenStream.exists_pieceAt_of_mem_tokens htoken
      rw [htext]
      exact List.cons_ne_nil _ _
    apart := pairwise_tokens text
    slice := fun token htoken => by
      obtain ⟨before, behind, hsplit, hstart, hstop⟩ := exists_append_of_mem_tokens htoken
      rw [hstart, hstop, hsplit, List.drop_take, List.drop_left, Nat.add_sub_cancel_left,
        List.take_left]
    place := fun token htoken => by
      rcases List.mem_append.1 htoken with htoken | hlast
      · obtain ⟨piece, -, hplace, -⟩ := TokenStream.exists_pieceAt_of_mem_tokens htoken
        exact hplace
      · obtain rfl := List.mem_singleton.1 hlast
        show Position.start.after text = .within text (Position.start.after text).offset
        rw [Position.after_start]
        rfl
    mem_strays_iff := fun i => (hmem i).trans (mem_strays_iff i.isLt)
    startsNothing := fun i hi => startsNothing_of_stray ((hmem i).1 hi)
    ordered := by
      have hordered := TokenStream.pairwise_diagnostics text
      rw [show (TokenStream.ofText text).diagnostics = _ from hreport, List.pairwise_append,
        List.pairwise_map] at hordered
      exact hordered.1.imp fun h => h.offset_lt
    report_eq := hreport }

end Cqasm
