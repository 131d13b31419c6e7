import Cqasm.Proofs.Lexical.Literals
import Cqasm.Text.Utf16

/-!
# Strings

A value may be spelled between quotes in many ways (`SpellsString`), and each of them is scanned as
a single string with that value. For a string that is read of any text, whoever decodes it unit by
unit (`unescape`) comes to the same value and stops at the quote where scanning it stopped, or at
its end if it has none (`string_round_trip`). What carries this is that a body between quotes, which
scanning takes by characters, is also walked over by units without stopping
(`Lexical.IsStringBody.unescapeFrom_append`).
-/

set_option autoImplicit false

namespace Cqasm

open Lexeme Lexical

/-! ## Spellings -/

/-- The escapes with a name: the letter behind the backslash, and what the two stand for. -/
def namedEscapes : List (Char × Char) :=
  [('n', '\n'), ('t', '\t'), ('r', '\r'), ('\\', '\\'), ('"', '"'), ('\'', '\'')]

/-- The ways of writing a character in a string. -/
inductive SpellsChar : Char → List Char → Prop
  | raw {c : Char} : c ≠ '"' → c ≠ '\\' → SpellsChar c [c]
  | escaped {c : Char} : c ∉ ['n', 't', 'r'] → SpellsChar c ['\\', c]
  | named {letter c : Char} : (letter, c) ∈ namedEscapes → SpellsChar c ['\\', letter]

/-- The ways of writing a value between the quotes of a string, character by character. -/
inductive SpellsString : (value body : List Char) → Prop
  | nil : SpellsString [] []
  | cons {c : Char} {value written body : List Char} :
      SpellsChar c written → SpellsString value body → SpellsString (c :: value) (written ++ body)

theorem escaped_of_notMem {c : Char} (h : c ∉ ['n', 't', 'r']) : Literal.escaped c = c := by
  simp only [List.mem_cons, List.not_mem_nil, or_false, not_or] at h
  unfold Literal.escaped
  split
  · exact absurd rfl h.1
  · exact absurd rfl h.2.1
  · exact absurd rfl h.2.2
  · rfl

theorem escaped_of_named {letter c : Char} (h : (letter, c) ∈ namedEscapes) :
    Literal.escaped letter = c := by
  have hall : ∀ entry ∈ namedEscapes, Literal.escaped entry.1 = entry.2 := by decide
  exact hall _ h

theorem spellsChar_escaped (c : Char) : SpellsChar (Literal.escaped c) ['\\', c] := by
  by_cases h : c ∈ ['n', 't', 'r']
  · have hletters : c = 'n' ∨ c = 't' ∨ c = 'r' := by simpa using h
    rcases hletters with rfl | rfl | rfl <;> exact .named (by decide)
  · rw [escaped_of_notMem h]
    exact .escaped h

/-- What may stand between quotes spells the value that is read of it, and nothing else does. -/
theorem spellsString_iff {value body : List Char} :
    SpellsString value body ↔ IsStringBody body ∧ Literal.unquoted body = value := by
  constructor
  · intro h
    induction h with
    | nil => exact ⟨.nil, rfl⟩
    | cons hc _ ih =>
      obtain ⟨hbody, rfl⟩ := ih
      cases hc with
      | raw hquote hbackslash =>
        exact ⟨.plain hquote hbackslash hbody, Word.unquoted_cons hquote hbackslash _⟩
      | escaped h =>
        refine ⟨.escaped hbody, ?_⟩
        rw [List.cons_append, List.singleton_append, Literal.unquoted, escaped_of_notMem h]
      | named h =>
        refine ⟨.escaped hbody, ?_⟩
        rw [List.cons_append, List.singleton_append, Literal.unquoted, escaped_of_named h]
  · rintro ⟨hbody, rfl⟩
    induction hbody with
    | nil => exact .nil
    | @plain c body hquote hbackslash _ ih =>
      rw [Word.unquoted_cons hquote hbackslash]
      exact .cons (.raw hquote hbackslash) ih
    | @escaped c body _ ih => exact .cons (spellsChar_escaped c) ih

/-! ## Decoding by units -/

/-- What a unit behind a backslash stands for. -/
def unescapedUnit (unit : Nat) : Nat :=
  if unit = 'n'.toNat then '\n'.toNat
  else if unit = 't'.toNat then '\t'.toNat
  else if unit = 'r'.toNat then '\r'.toNat
  else unit

/-- Decoding the units of a string from the one at an index on: the units of the value, and the
index at which decoding stops, which is that of a quote (0x22) or the end. A backslash (0x5c) takes
the unit behind it along. -/
def unescapeFrom (index : Nat) : List Nat → List Nat × Nat
  | [] => ([], index)
  | 0x22 :: _ => ([], index)
  | 0x5c :: unit :: rest =>
    let (value, stop) := unescapeFrom (index + 2) rest
    (unescapedUnit unit :: value, stop)
  | unit :: rest =>
    let (value, stop) := unescapeFrom (index + 1) rest
    (unit :: value, stop)

/-- Decoding a string, whose first unit is the opening quote. -/
def unescape (raw : List Nat) : List Nat × Nat :=
  unescapeFrom 1 raw.tail

section

variable {body : List Char}

theorem unescapeFrom_of_plain {us : List Nat} (h : ∀ unit ∈ us, unit ≠ 0x22 ∧ unit ≠ 0x5c)
    (index : Nat) (behind : List Nat) :
    unescapeFrom index (us ++ behind) =
      (us ++ (unescapeFrom (index + us.length) behind).1,
        (unescapeFrom (index + us.length) behind).2) := by
  induction us generalizing index with
  | nil => rfl
  | cons unit us ih =>
    obtain ⟨⟨hquote, hbackslash⟩, hus⟩ := List.forall_mem_cons.1 h
    rw [List.cons_append, unescapeFrom, ih hus, List.length_cons, List.cons_append,
      Nat.add_assoc, Nat.add_comm 1]
    · exact hquote
    · exact fun _ _ heq => absurd heq hbackslash

/-- Replacing the first unit of a character is replacing the character. -/
theorem units_escaped {c : Char} {unit : Nat} {more : List Nat}
    (h : Utf16.units c = unit :: more) :
    Utf16.units (Literal.escaped c) = unescapedUnit unit :: more := by
  by_cases hc : c ∈ ['n', 't', 'r']
  · have hletters : c = 'n' ∨ c = 't' ∨ c = 'r' := by simpa using hc
    have hbasic : c.toNat < 0x10000 := by
      rcases hletters with rfl | rfl | rfl <;> decide
    obtain ⟨rfl, rfl⟩ := List.cons.inj ((Utf16.units_of_lt hbasic).symm.trans h)
    rcases hletters with rfl | rfl | rfl <;> rfl
  · have hmem : unit ∈ Utf16.units c := h ▸ List.mem_cons_self
    rw [escaped_of_notMem hc, h, unescapedUnit]
    simp only [List.mem_cons, List.not_mem_nil, or_false, not_or] at hc
    rw [if_neg (Utf16.ne_of_mem_units (by decide) hc.1 hmem),
      if_neg (Utf16.ne_of_mem_units (by decide) hc.2.1 hmem),
      if_neg (Utf16.ne_of_mem_units (by decide) hc.2.2 hmem)]

/-- A character behind a backslash is decoded as a whole, though only its first unit is looked
at. -/
theorem unescapeFrom_backslash (c : Char) (index : Nat) (behind : List Nat) :
    unescapeFrom index (0x5c :: (Utf16.units c ++ behind)) =
      (Utf16.units (Literal.escaped c) ++
          (unescapeFrom (index + 1 + (Utf16.units c).length) behind).1,
        (unescapeFrom (index + 1 + (Utf16.units c).length) behind).2) := by
  rcases Utf16.units_cases c with h | ⟨high, low, h, -, hlow⟩
  · rw [units_escaped h, h]
    rfl
  · have hplain : ∀ unit ∈ [low], unit ≠ 0x22 ∧ unit ≠ 0x5c := by
      rw [List.forall_mem_singleton]
      omega
    have hlater := unescapeFrom_of_plain hplain (index + 2) behind
    rw [List.singleton_append, List.singleton_append] at hlater
    rw [units_escaped h, h]
    show unescapeFrom index (0x5c :: high :: low :: behind) = _
    rw [unescapeFrom, hlater]
    rfl

theorem Lexical.IsStringBody.unescapeFrom_append (h : IsStringBody body) (index : Nat)
    (behind : List Nat) :
    unescapeFrom index (Utf16.encode body ++ behind) =
      (Utf16.encode (Literal.unquoted body) ++
          (unescapeFrom (index + (Utf16.encode body).length) behind).1,
        (unescapeFrom (index + (Utf16.encode body).length) behind).2) := by
  induction h generalizing index with
  | nil => rfl
  | @plain c body hquote hbackslash _ ih =>
    have hplain : ∀ unit ∈ Utf16.units c, unit ≠ 0x22 ∧ unit ≠ 0x5c := fun unit hunit =>
      ⟨Utf16.ne_of_mem_units (d := '"') (by decide) hquote hunit,
        Utf16.ne_of_mem_units (d := '\\') (by decide) hbackslash hunit⟩
    rw [Word.unquoted_cons hquote hbackslash, Utf16.encode_cons, List.append_assoc,
      unescapeFrom_of_plain hplain, ih, Utf16.encode_cons, List.length_append, Nat.add_assoc,
      List.append_assoc]
  | @escaped c body _ ih =>
    have hencode : Utf16.encode ('\\' :: c :: body) =
        0x5c :: (Utf16.units c ++ Utf16.encode body) := rfl
    have hindex : index + 1 + (Utf16.units c).length + (Utf16.encode body).length =
        index + (Utf16.encode ('\\' :: c :: body)).length := by
      rw [hencode, List.length_cons, List.length_append]
      omega
    rw [← hindex, hencode, List.cons_append, List.append_assoc, unescapeFrom_backslash, ih,
      Literal.unquoted, Utf16.encode_cons, List.append_assoc]

/-- Up to its end, a string without a closing quote is a body, or a body and a last backslash. -/
theorem cases_of_incomplete {rest : List Char} (h : (stringTail rest).2 = false) :
    ∃ body, IsStringBody body ∧ (rest = body ∨ rest = body ++ ['\\']) := by
  fun_induction stringTail rest with
  | case1 => exact ⟨[], .nil, .inl rfl⟩
  | case2 => cases h
  | case3 c rest text complete heq ih =>
    rw [heq] at ih
    obtain ⟨body, hbody, hrest⟩ := ih h
    exact ⟨_, .escaped hbody, hrest.imp (congrArg ('\\' :: c :: ·)) (congrArg ('\\' :: c :: ·))⟩
  | case4 c rest hquote hbackslash text complete heq ih =>
    rw [heq] at ih
    obtain ⟨body, hbody, hrest⟩ := ih h
    by_cases hc : c = '\\'
    · -- Nothing follows that the backslash could take along.
      cases rest with
      | nil => exact ⟨[], .nil, .inr (by rw [hc]; rfl)⟩
      | cons d rest => exact (hbackslash d rest hc rfl).elim
    · exact ⟨_, .plain (fun hc => hquote hc) hc hbody,
        hrest.imp (congrArg (c :: ·)) (congrArg (c :: ·))⟩

theorem Lexical.IsStringBody.unquoted_append (h : IsStringBody body) (rest : List Char) :
    Literal.unquoted (body ++ rest) = Literal.unquoted body ++ Literal.unquoted rest := by
  induction h with
  | nil => rfl
  | plain hquote hbackslash _ ih =>
    rw [List.cons_append, Word.unquoted_cons hquote hbackslash,
      Word.unquoted_cons hquote hbackslash, ih, List.cons_append]
  | escaped _ ih =>
    rw [List.cons_append, List.cons_append, Literal.unquoted, Literal.unquoted, ih,
      List.cons_append]

end

/-! ## Literals -/

section

variable {body : List Char}

theorem length_encode_quote (text : List Char) :
    (Utf16.encode ('"' :: text)).length = (Utf16.encode text).length + 1 := rfl

theorem unescape_body (h : IsStringBody body) (rest : List Char) :
    unescape (Utf16.encode ('"' :: (body ++ rest))) =
      (Utf16.encode (Literal.unquoted body) ++
          (unescapeFrom (Utf16.encode ('"' :: body)).length (Utf16.encode rest)).1,
        (unescapeFrom (Utf16.encode ('"' :: body)).length (Utf16.encode rest)).2) := by
  show unescapeFrom 1 (Utf16.encode (body ++ rest)) = _
  rw [Utf16.encode_append, h.unescapeFrom_append, length_encode_quote, Nat.add_comm 1]

theorem encode_stringValue (h : IsStringBody body) (rest : List Char) :
    Utf16.encode (Literal.stringValue ('"' :: (body ++ rest))) =
      Utf16.encode (Literal.unquoted body) ++ Utf16.encode (Literal.unquoted rest) := by
  rw [Literal.stringValue, List.tail_cons, h.unquoted_append, Utf16.encode_append]

theorem stringValue_closed (h : IsStringBody body) :
    Literal.stringValue ('"' :: (body ++ ['"'])) = Literal.unquoted body := by
  rw [Literal.stringValue, List.tail_cons, h.unquoted_append]
  exact List.append_nil _

/-- Decoding a string that is closed stops at its last unit. -/
theorem unescape_closed (h : IsStringBody body) :
    unescape (Utf16.encode ('"' :: (body ++ ['"']))) =
      (Utf16.encode (Literal.stringValue ('"' :: (body ++ ['"']))),
        (Utf16.encode ('"' :: body)).length) := by
  rw [unescape_body h, encode_stringValue h]
  rfl

/-- Decoding a string that is not closed stops at its end. -/
theorem unescape_cutOff {rest : List Char} (h : (stringTail rest).2 = false) :
    unescape (Utf16.encode ('"' :: rest)) =
      (Utf16.encode (Literal.stringValue ('"' :: rest)), (Utf16.encode ('"' :: rest)).length) := by
  obtain ⟨body, hbody, rfl | rfl⟩ := cases_of_incomplete h
  · rw [← List.append_nil rest, unescape_body hbody, encode_stringValue hbody, List.append_nil]
    rfl
  · rw [unescape_body hbody, encode_stringValue hbody, length_encode_quote, length_encode_quote,
      Utf16.encode_append, List.length_append]
    rfl

end

/-- Whatever way a value is spelled in a string, scanning the string delivers it as one token and
nothing else, and the token has the value, by units too. And every string that is read of any text
is decoded by units up to the closing quote where scanning stopped, or to the end of the text if it
is reported that there is none. -/
theorem string_round_trip :
    (∀ value body, SpellsString value body →
      let text := '"' :: (body ++ ['"'])
      (TokenStream.ofText text).Delivers
          [{ kind := .string, text, start := .start, complete := true },
            .atEnd (Position.start.after text)] [] ∧
        Literal.stringValue text = value ∧
        unescape (Utf16.encode text) = (Utf16.encode value, (Utf16.encode ('"' :: body)).length)) ∧
    ∀ text, ∀ token ∈ (TokenStream.ofText text).tokens, token.kind = .string →
      let raw := Utf16.encode token.text
      let value := Literal.stringValue token.text
      (.unterminated token ∉ (TokenStream.ofText text).diagnostics →
        ∃ body, token.text = '"' :: (body ++ ['"']) ∧ SpellsString value body ∧
          unescape raw = (Utf16.encode value, (Utf16.encode ('"' :: body)).length)) ∧
      (.unterminated token ∈ (TokenStream.ofText text).diagnostics →
        token.stop.offset = text.length ∧ unescape raw = (Utf16.encode value, raw.length)) := by
  constructor
  · intro value body hspells
    obtain ⟨hbody, rfl⟩ := spellsString_iff.1 hspells
    have hvalue := stringValue_closed hbody
    refine ⟨TokenStream.delivers_of_leading ?_ (by decide), hvalue, ?_⟩
    · rw [opens_string, Lexeme.string, stringTail_of_body hbody]
      rfl
    · rw [unescape_closed hbody, hvalue]
  · intro text token htoken hkind raw value
    rw [TokenStream.unterminated_mem_diagnostics_iff htoken]
    show (_ → ∃ body, token.text = _ ∧ SpellsString (Literal.stringValue token.text) body ∧
        unescape (Utf16.encode token.text) = (Utf16.encode (Literal.stringValue token.text), _)) ∧
      (_ → _ ∧ unescape (Utf16.encode token.text) =
        (Utf16.encode (Literal.stringValue token.text), (Utf16.encode token.text).length))
    have hcases := TokenStream.cases_of_mem_tokens htoken (by rw [hkind]; decide)
    rw [hkind] at hcases
    -- as for the scanner: closed, or cut off by the end of the text
    rcases hcases with ⟨hcomplete, behind, hlexeme⟩ | ⟨hcomplete, hcutOff, hstop⟩
    · obtain ⟨body, hbody, htext⟩ := hlexeme.exists_string_body
      refine ⟨fun _ => ⟨body, htext, ?_, ?_⟩, fun h => Bool.noConfusion (hcomplete.symm.trans h)⟩
      · rw [htext]
        exact spellsString_iff.2 ⟨hbody, (stringValue_closed hbody).symm⟩
      · rw [htext]
        exact unescape_closed hbody
    · refine ⟨fun h => absurd hcomplete h, fun _ => ⟨hstop, ?_⟩⟩
      generalize token.text = literal at hcutOff
      cases hcutOff with
      | string hnone => exact unescape_cutOff (isCutOff_string_iff.1 (.string hnone))

/-- A letter, an escape with a name and one without, of a character of two units; and a string that
is cut off behind a backslash. -/
theorem string_round_trip_two_units :
    let value := ['a', '\n', '😀']
    let body := ['a', '\\', 'n', '\\', '😀']
    let cutOff : Token :=
      { kind := .string, text := ['"', '😀', '\\'], start := ⟨2, 1, 2⟩, complete := false }
    let text := "x \"😀\\".toList
    SpellsString value body ∧
      Literal.stringValue ('"' :: (body ++ ['"'])) = value ∧
      unescape (Utf16.encode ('"' :: (body ++ ['"']))) = ([0x61, 0x0a, 0xd83d, 0xde00], 7) ∧
      cutOff ∈ (TokenStream.ofText text).tokens ∧ cutOff.kind = .string ∧
      .unterminated cutOff ∈ (TokenStream.ofText text).diagnostics ∧
      unescape (Utf16.encode cutOff.text) = ([0xd83d, 0xde00, 0x5c], 4) := by
  intro value body cutOff text
  obtain ⟨hspelled, htokens⟩ := string_round_trip
  have hbody : IsStringBody body :=
    .plain (by decide) (by decide) (.escaped (.escaped .nil))
  have hspells : SpellsString value body := spellsString_iff.2 ⟨hbody, by decide⟩
  have hmem : cutOff ∈ (TokenStream.ofText text).tokens := by decide +kernel
  have hreported : .unterminated cutOff ∈ (TokenStream.ofText text).diagnostics := by
    decide +kernel
  obtain ⟨-, hvalue, hunits⟩ := hspelled value body hspells
  obtain ⟨-, hend⟩ := htokens text cutOff hmem rfl
  refine ⟨hspells, hvalue, hunits.trans (by decide), hmem, rfl, hreported, ?_⟩
  rw [(hend hreported).2]
  decide

end Cqasm
