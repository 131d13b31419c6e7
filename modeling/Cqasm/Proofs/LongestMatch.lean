import Cqasm.Proofs.Lexical.Munch

/-!
# Scanning is what the lexical grammar says

From wherever a token starts, what is read is the longest lexeme (`Lexical.delivers_leading`,
`Lexical.Delivers.ofLexeme?_eq`), and so everything that is read of a text is what the lexical
grammar says, and nothing else is (`scans_iff`).

What is cut off at each step is a lexeme of the grammar, and none that starts there is longer. So
both directions are inductions from the front of the text, one along what the grammar says
(`Lexical.Scans.items_eq`), one along what is left of the text (`Lexical.scans_cutFrom`).
-/

set_option autoImplicit false

namespace Cqasm

open Lexeme

namespace Lexical

variable {previous : Option Kind} {place : Position} {c : Char} {rest : List Char}

/-! ## One piece -/

/-- What is taken behind the keyword `version` is the longest number of a version. -/
theorem leading_version (hc : c.isDigit) (rest : List Char) :
    leading true c rest = ofKind .versionNumber c (versionTail rest) := by
  rw [leading_of_isDigit hc, number, if_pos rfl]

theorem startsWith_cons (isMember : Char → Bool) (c : Char) (rest : List Char) :
    startsWith isMember (c :: rest) = isMember c := rfl

/-- A digit by itself is a number already. -/
theorem isLexeme_digit (hc : c.isDigit) (behind : List Char) : IsLexeme .integer [c] behind :=
  .number (isDigits_singleton hc) .none .none

/-- A piece that is more than layout is what the lexical grammar delivers. -/
theorem delivers_leading {item : Item}
    (h : Item.ofLexeme? place (leading (previous = some .version) c rest) = some item) :
    Delivers previous place (c :: rest) item
      (rest.drop (leading (previous = some .version) c rest).more.length) := by
  have htext := text_leading_append (previous = some .version) c rest
  have hfits := fits_leading (previous = some .version) c rest
  -- Right behind `version` a digit starts a number of its own, and nothing else competes with it.
  by_cases hversion : previous = some .version ∧ c.isDigit
  · obtain ⟨hprevious, hc⟩ := hversion
    rw [decide_eq_true hprevious, leading_version hc] at h htext ⊢
    cases h
    rw [← htext]
    refine .version hprevious ?_ fun text' behind' hsplit hnumber => ?_
    · show IsVersionNumber (c :: versionTail rest)
      rw [← versionTail_of_isDigit hc]
      exact isVersionNumber_versionTail hc
    · have hle := hnumber.length_le behind'
      rwa [hsplit, htext, versionTail_of_isDigit hc] at hle
  have hdigit : ¬((decide (previous = some .version) : Bool) ∧ c.isDigit) := by simpa using hversion
  -- What else is cut off is layout, a stray character or a token, and a token ends or does not.
  cases hrole : (leading (previous = some .version) c rest).role with
  | blank | comment =>
    rw [Item.ofLexeme?, hrole] at h
    cases h
  | stray =>
    rw [Item.ofLexeme?, hrole, first_leading] at h
    cases h
    rw [Fits, hrole] at hfits
    rw [hfits.2]
    refine .stray (fun kind text' behind' hsplit hlexeme => ?_) fun kind hcutOff => ?_
    · obtain ⟨kind', complete, htoken, -⟩ := hlexeme.exceeds_leading hsplit hdigit
      cases hrole.symm.trans htoken
    · rw [leading_of_isCutOff hcutOff] at hrole
      cases hrole
  | token kind complete =>
    rw [Item.ofLexeme?, hrole] at h
    cases h
    cases complete with
    | false =>
      have hcutOff := isCutOff_of_leading hrole
      rw [leading_of_isCutOff hcutOff, List.drop_length]
      exact .cutOff hcutOff
    | true =>
      rw [← htext]
      refine .lexeme ?_ (fun kind' hcutOff => ?_) (isLexeme_leading hrole hdigit)
        fun kind' text' behind' hsplit hlexeme => ?_
      · rwa [htext, startsWith_cons]
      · rw [htext] at hcutOff
        rw [leading_of_isCutOff hcutOff] at hrole
        cases hrole
      · rw [htext] at hsplit
        obtain ⟨kind'', complete, htoken, hle⟩ := hlexeme.exceeds_leading hsplit hdigit
        cases hrole.symm.trans htoken
        exact (hle rfl).1

/-- What the lexical grammar delivers is the piece that is taken. -/
theorem Delivers.ofLexeme?_eq {item : Item} {behind : List Char}
    (h : Delivers previous place (c :: rest) item behind) (hspace : isSpace c = false)
    (hhash : c ≠ '#') :
    Item.ofLexeme? place (leading (previous = some .version) c rest) = some item ∧
      behind = rest.drop (leading (previous = some .version) c rest).more.length := by
  have htext := text_leading_append (previous = some .version) c rest
  have hfits := fits_leading (previous = some .version) c rest
  generalize hsource : c :: rest = source at h
  -- Two longest pieces are equally long, so they are the same text and the same kind.
  cases h with
  | @version text _ hprevious hnumber hlongest =>
    have hc : c.isDigit := by
      have hstart := hnumber.startsWith behind
      rwa [← hsource] at hstart
    rw [decide_eq_true hprevious, leading_version hc] at htext ⊢
    have hle := hnumber.length_le behind
    rw [← hsource, versionTail_of_isDigit hc] at hle
    have hge := hlongest _ _ (htext.trans hsource) (by
      show IsVersionNumber (c :: versionTail rest)
      rw [← versionTail_of_isDigit hc]
      exact isVersionNumber_versionTail hc)
    obtain ⟨rfl, rfl⟩ := List.append_inj (hsource.symm.trans htext.symm) (hle.antisymm hge)
    exact ⟨rfl, rfl⟩
  | @lexeme kind text _ hversion hcutOff hlexeme hlongest =>
    have hdigit : ¬((decide (previous = some .version) : Bool) ∧ c.isDigit) := by
      rw [← hsource, startsWith_cons] at hversion
      simpa using hversion
    obtain ⟨kind', complete, hrole, hle⟩ := hlexeme.exceeds_leading hsource.symm hdigit
    cases complete with
    | false =>
      rw [← hsource] at hcutOff
      exact absurd (isCutOff_of_leading hrole) (hcutOff kind')
    | true =>
      obtain ⟨hle, hkind⟩ := hle rfl
      have hge := hlongest _ _ _ (htext.trans hsource) (isLexeme_leading hrole hdigit)
      obtain ⟨rfl, rfl⟩ := List.append_inj (hsource.symm.trans htext.symm) (hle.antisymm hge)
      rw [Item.ofLexeme?, hrole, hkind rfl]
      exact ⟨rfl, rfl⟩
  | cutOff hcutOff =>
    rw [← hsource] at hcutOff ⊢
    rw [leading_of_isCutOff hcutOff, List.drop_length]
    exact ⟨rfl, rfl⟩
  | stray hlexeme hcutOff =>
    obtain ⟨rfl, rfl⟩ := List.cons.inj hsource
    cases hrole : (leading (previous = some .version) c rest).role with
    | blank =>
      rw [Fits, hrole] at hfits
      rw [hfits.1] at hspace
      cases hspace
    | comment =>
      rw [Fits, hrole] at hfits
      exact absurd hfits.1 hhash
    | stray =>
      rw [Fits, hrole] at hfits
      rw [Item.ofLexeme?, hrole, first_leading, hfits.2]
      exact ⟨rfl, rfl⟩
    | token kind complete =>
      cases complete with
      | false => exact absurd (isCutOff_of_leading hrole) (hcutOff kind)
      | true =>
        by_cases hc : c.isDigit
        · exact absurd (isLexeme_digit hc rest) (hlexeme _ _ _ rfl)
        · exact absurd (isLexeme_leading hrole fun h => hc h.2) (hlexeme _ _ _ htext)

/-! ## Layout -/

/-- What follows layout is neither a blank nor a comment. -/
theorem IsLayout.startsWith_eq {skipped : List Char} (h : IsLayout skipped rest) :
    startsWith (fun c => isSpace c || c = '#') rest = false := by
  induction h with
  | nil h => exact h
  | blank _ _ ih | comment _ _ _ ih => exact ih

theorem takeWhile_line {line behind : List Char} (hline : ∀ c ∈ line, c ≠ '\n')
    (hbehind : startsWith (· ≠ '\n') behind = false) :
    (line ++ behind).takeWhile (· ≠ '\n') = line := by
  rw [List.takeWhile_append_of_pos (by simpa using hline)]
  cases behind with
  | nil => simp
  | cons d behind =>
    have hd : d = '\n' := by simpa [startsWith] using hbehind
    simp [hd]

/-- Layout makes no items. -/
theorem IsLayout.ofLexemes_eq {skipped : List Char} (h : IsLayout skipped rest)
    (afterVersion : Bool) (place : Position) :
    Item.ofLexemes place (cutFrom afterVersion 0 (skipped ++ rest)) =
      Item.ofLexemes (place.after skipped) (cutFrom afterVersion 0 rest) := by
  induction h generalizing place with
  | nil => rfl
  | blank hc _ ih =>
    rw [List.cons_append, cutFrom_cons, leading_of_isSpace hc]
    exact ih (place.next _)
  | @comment line skipped rest hline hbehind _ ih =>
    rw [List.cons_append, List.append_assoc, cutFrom_cons, leading_hash,
      takeWhile_line hline hbehind, List.drop_left]
    have hplace : place.after ('#' :: (line ++ skipped)) =
        (place.after ('#' :: line)).after skipped := by
      rw [← Position.after_append, List.cons_append]
    rw [hplace]
    exact ih (place.after ('#' :: line))

theorem IsLexeme.ne_nil {kind : Kind} {text behind : List Char} (h : IsLexeme kind text behind) :
    text ≠ [] := by
  have hkeywords : ∀ entry ∈ Kind.keywords, entry.1 ≠ [] := by decide
  have hoperators : ∀ entry ∈ Kind.operators, entry.1 ≠ [] := by decide
  cases h with
  | keyword h => exact hkeywords _ h
  | operator h => exact hoperators _ h
  | number hwhole => exact List.append_ne_nil_of_left_ne_nil hwhole.1 _
  | newline | name | condition | string | json => exact List.cons_ne_nil _ _

theorem Delivers.exists_cons {text behind : List Char} {item : Item}
    (h : Delivers previous place text item behind) : ∃ c rest, text = c :: rest := by
  refine List.exists_cons_of_ne_nil ?_
  cases h with
  | version _ hnumber =>
    intro hnil
    have hstart := hnumber.startsWith behind
    rw [hnil] at hstart
    cases hstart
  | lexeme _ _ hlexeme => exact List.append_ne_nil_of_left_ne_nil hlexeme.ne_nil _
  | cutOff hcutOff => cases hcutOff <;> exact List.cons_ne_nil _ _
  | stray => exact List.cons_ne_nil _ _

/-! ## Whole texts -/

theorem ofLexemes_cons {item : Item} {piece : Lexeme} {pieces : List Lexeme}
    (h : Item.ofLexeme? place piece = some item) :
    Item.ofLexemes place (piece :: pieces) =
      item :: Item.ofLexemes (place.after piece.text) pieces := by
  rw [Item.ofLexemes, h]
  rfl

/-- Where something starts, what the grammar delivers comes first, and the rest is cut as if it
started behind it. -/
theorem Delivers.ofLexemes_eq {skipped text behind : List Char} {item : Item}
    (hlayout : IsLayout skipped text)
    (h : Delivers previous (place.after skipped) text item behind) :
    ∃ piece, Item.ofLexeme? (place.after skipped) piece = some item ∧
      piece.text ++ behind = text ∧
      Item.ofLexemes place (cutFrom (previous = some .version) 0 (skipped ++ text)) =
        item :: Item.ofLexemes ((place.after skipped).after piece.text)
          (cutFrom (isAfterVersion (previous = some .version) piece) 0 behind) := by
  obtain ⟨c, rest, rfl⟩ := h.exists_cons
  have hstart := hlayout.startsWith_eq
  rw [startsWith_cons, Bool.or_eq_false_iff] at hstart
  obtain ⟨hitem, rfl⟩ := h.ofLexeme?_eq hstart.1 (of_decide_eq_false hstart.2)
  exact ⟨_, hitem, text_leading_append .., by
    rw [hlayout.ofLexemes_eq, cutFrom_cons, ofLexemes_cons hitem]⟩

theorem isAfterVersion_of_token {piece : Lexeme} {t : Token}
    (h : Item.ofLexeme? place piece = some (.token t)) (afterVersion : Bool) :
    isAfterVersion afterVersion piece = decide (some t.kind = some Kind.version) := by
  rw [isAfterVersion, Item.role_of_ofLexeme? h]
  simp

theorem isAfterVersion_of_stray {piece : Lexeme}
    (h : Item.ofLexeme? place piece = some (.stray c place)) (afterVersion : Bool) :
    isAfterVersion afterVersion piece = afterVersion := by
  rcases Item.cases_of_ofLexeme? h with ⟨_, hitem, -⟩ | ⟨-, hrole⟩
  · cases hitem
  · rw [isAfterVersion, hrole]

/-- What the grammar says of a text is what the text is cut into. -/
theorem Scans.items_eq {text : List Char} {items : List Item}
    (h : Scans previous place text items) :
    Item.ofLexemes place (cutFrom (previous = some .version) 0 text) = items := by
  induction h with
  | @done previous place skipped hlayout =>
    have hnone := hlayout.ofLexemes_eq (previous = some .version) place
    rwa [List.append_nil] at hnone
  | token hlayout hdelivers _ ih =>
    obtain ⟨piece, hitem, -, hitems⟩ := hdelivers.ofLexemes_eq hlayout
    rw [hitems, isAfterVersion_of_token hitem, ← Item.stop_of_ofLexeme? hitem, ih]
  | @stray previous place skipped behind c items hlayout hdelivers _ ih =>
    obtain ⟨piece, hitem, htext, hitems⟩ := hdelivers.ofLexemes_eq hlayout
    have hpiece : piece.text = [c] := List.append_cancel_right htext
    rw [hitems, isAfterVersion_of_stray hitem, hpiece, ← ih]
    rfl

/-- More layout in front makes no difference but for the places. -/
theorem Scans.append {front text : List Char} {items : List Item}
    (hfront : ∀ skipped rest, skipped ++ rest = text → IsLayout skipped rest →
      IsLayout (front ++ skipped) rest)
    (h : Scans previous (place.after front) text items) :
    Scans previous place (front ++ text) items := by
  cases h with
  | done hlayout => exact .done (hfront _ [] (List.append_nil _) hlayout)
  | token hlayout hdelivers hrest =>
    rw [← Position.after_append] at hdelivers
    rw [← List.append_assoc]
    exact .token (hfront _ _ rfl hlayout) hdelivers hrest
  | stray hlayout hdelivers hrest =>
    rw [← Position.after_append] at hdelivers hrest ⊢
    rw [← List.append_assoc]
    exact .stray (hfront _ _ rfl hlayout) hdelivers hrest

theorem ofLexeme?_leading_ne_none (hspace : ¬isSpace c) (hhash : c ≠ '#') (afterVersion : Bool) :
    Item.ofLexeme? place (leading afterVersion c rest) ≠ none := by
  have hfits := fits_leading afterVersion c rest
  unfold Item.ofLexeme?
  unfold Fits at hfits
  cases hrole : (leading afterVersion c rest).role with
  | blank =>
    rw [hrole] at hfits
    exact absurd hfits.1 hspace
  | comment =>
    rw [hrole] at hfits
    exact absurd hfits.1 hhash
  | stray | token => exact Option.some_ne_none _

/-- What a text is cut into is what the grammar says of it. -/
theorem scans_cutFrom (previous : Option Kind) (place : Position) (text : List Char) :
    Scans previous place text
      (Item.ofLexemes place (cutFrom (previous = some .version) 0 text)) := by
  induction hlength : text.length using Nat.strongRecOn generalizing previous place text with
  | ind length ih =>
    subst hlength
    cases text with
    | nil => exact .done (.nil rfl)
    | cons c rest =>
      -- whatever was taken, the rest of the text is shorter
      have hrest (k : Nat) (previous : Option Kind) (place : Position) :
          Scans previous place (rest.drop k)
            (Item.ofLexemes place (cutFrom (previous = some .version) 0 (rest.drop k))) := by
        refine ih _ ?_ previous place _ rfl
        rw [List.length_drop, List.length_cons]
        omega
      by_cases hspace : isSpace c
      · rw [cutFrom_cons, leading_of_isSpace hspace]
        show Scans previous place ([c] ++ rest) _
        exact .append (fun _ _ _ hlayout => .blank hspace hlayout) (hrest 0 previous (place.next c))
      by_cases hhash : c = '#'
      · subst hhash
        let line := rest.takeWhile (· ≠ '\n')
        have hline : ∀ d ∈ line, d ≠ '\n' := fun d hd =>
          of_decide_eq_true (List.all_eq_true.1 List.all_takeWhile d hd)
        have hsplit : '#' :: rest = '#' :: line ++ rest.drop line.length :=
          congrArg ('#' :: ·) (List.prefix_iff_eq_append.1 (List.takeWhile_prefix _)).symm
        rw [cutFrom_cons, leading_hash, hsplit]
        refine .append (fun skipped behind hbehind hlayout => ?_)
          (hrest line.length previous (place.after ('#' :: line)))
        refine .comment hline ?_ hlayout
        rw [hbehind]
        exact startsWith_drop_takeWhile _ rest
      cases hitem : Item.ofLexeme? place (leading (previous = some .version) c rest) with
      | none => exact absurd hitem (ofLexeme?_leading_ne_none hspace hhash _)
      | some item =>
        have hlayout : IsLayout [] (c :: rest) := .nil (by simp [startsWith, hspace, hhash])
        have hdelivers := delivers_leading hitem
        rw [cutFrom_cons, ofLexemes_cons hitem]
        cases item with
        | token t =>
          rw [isAfterVersion_of_token hitem, ← Item.stop_of_ofLexeme? hitem]
          exact .token hlayout hdelivers (hrest _ (some t.kind) t.stop)
        | stray d there =>
          rcases Item.cases_of_ofLexeme? hitem with ⟨_, h, -⟩ | ⟨h, hrole⟩
          · cases h
          obtain ⟨rfl, rfl⟩ := Item.stray.inj h
          have hfits := fits_leading (previous = some .version) c rest
          rw [Fits, hrole] at hfits
          rw [isAfterVersion_of_stray hitem, Lexeme.text, first_leading, hfits.2]
          rw [hfits.2] at hdelivers
          rw [first_leading] at hdelivers
          exact .stray hlayout hdelivers (hrest 0 previous (there.next c))

/-- What is read of a text is what the lexical grammar says, and nothing else is. -/
theorem scans_iff (text : List Char) (items : List Item) :
    Scans none .start text items ↔ (TokenStream.ofText text).items = items := by
  constructor
  · exact fun h => h.items_eq
  · rintro rfl
    exact scans_cutFrom none .start text

end Lexical

end Cqasm
