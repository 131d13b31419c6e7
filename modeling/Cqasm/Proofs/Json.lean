import Cqasm.Proofs.Lexical.Literals

/-!
# JSON literals

Any characters may stand in a JSON literal but the two, side by side, that close it. So between its
delimiters every such text is scanned in full, whatever it ends in and whatever follows, and what
is read off the literal is the text again (`json_round_trip`). The closing delimiter is taken off a
literal without regard to whether scanning found one there, which comes to the same: a literal
without an end has none anywhere.
-/

set_option autoImplicit false

namespace Cqasm

open Lexeme Lexical

variable {body rest : List Char}

theorem jsonValue_closed (body : List Char) :
    Literal.jsonValue ('{' :: '|' :: (body ++ ['|', '}'])) = body := by
  have hvalue := Word.jsonValue_json (.ofList body)
  rwa [Word.json, String.toList_ofList] at hvalue

/-- What does not contain the closing delimiter does not end in it. -/
theorem jsonValue_cutOff (h : ¬['|', '}'] <:+: rest) :
    Literal.jsonValue ('{' :: '|' :: rest) = rest := by
  have hopening : Literal.afterOpening ('{' :: '|' :: rest) = rest := rfl
  have hclosing : ¬(['|', '}'] : List Char).isSuffixOf rest := by
    rw [List.isSuffixOf_iff_suffix]
    exact fun hsuffix => h hsuffix.isInfix
  rw [Literal.jsonValue, hopening, Literal.beforeClosing, if_neg hclosing]

theorem leading_json (h : ¬['|', '}'] <:+: body) (afterVersion : Bool) (behind : List Char) :
    leading afterVersion '{' ('|' :: (body ++ ['|', '}']) ++ behind) =
      ofKind .json '{' ('|' :: (body ++ ['|', '}'])) := by
  rw [List.cons_append, opens_json, json, jsonTail_of_body h]
  rfl

/-- Between its delimiters, a text without the closing one is scanned as one token whatever stands
behind it, and the token has the text for its value. And the value of every JSON literal that is
read of any text is free of the closing delimiter, and is what the literal has between its
delimiters, or up to the end of the text if it is reported that the closing one is missing. -/
theorem json_round_trip :
    (∀ value behind : List Char, ¬['|', '}'] <:+: value →
      let text := '{' :: '|' :: (value ++ ['|', '}'])
      let step := (TokenStream.ofText (text ++ behind)).next
      step.token = { kind := .json, text, start := .start, complete := true } ∧
        step.report = [] ∧ Literal.jsonValue text = value) ∧
    ∀ text, ∀ token ∈ (TokenStream.ofText text).tokens, token.kind = .json →
      let value := Literal.jsonValue token.text
      ¬['|', '}'] <:+: value ∧
        (.unterminated token ∉ (TokenStream.ofText text).diagnostics →
          token.text = '{' :: '|' :: (value ++ ['|', '}'])) ∧
        (.unterminated token ∈ (TokenStream.ofText text).diagnostics →
          token.text = '{' :: '|' :: value ∧ token.stop.offset = text.length) := by
  constructor
  · intro value behind hvalue text step
    obtain ⟨htoken, hreport⟩ := TokenStream.next_of_leading (leading_json hvalue false behind)
    exact ⟨htoken, hreport, jsonValue_closed value⟩
  · intro text token htoken hkind value
    rw [TokenStream.unterminated_mem_diagnostics_iff htoken]
    show ¬['|', '}'] <:+: Literal.jsonValue token.text ∧
      (_ → token.text = '{' :: '|' :: (Literal.jsonValue token.text ++ ['|', '}'])) ∧
      (_ → token.text = '{' :: '|' :: Literal.jsonValue token.text ∧ _)
    have hcases := TokenStream.cases_of_mem_tokens htoken (by rw [hkind]; decide)
    rw [hkind] at hcases
    -- a literal that was closed has a body between its delimiters, one that was cut off goes on to
    -- the end
    rcases hcases with ⟨hcomplete, behind, hlexeme⟩ | ⟨hcomplete, hcutOff, hstop⟩
    · obtain ⟨body, hbody, htext⟩ := hlexeme.exists_json_body
      rw [htext, jsonValue_closed]
      exact ⟨hbody, fun _ => rfl, fun h => Bool.noConfusion (hcomplete.symm.trans h)⟩
    · generalize token.text = literal at hcutOff
      cases hcutOff with
      | json hnone =>
        rw [jsonValue_cutOff hnone]
        exact ⟨hnone, fun h => absurd hcomplete h, fun _ => ⟨rfl, hstop⟩⟩

/-- A value that begins like the second half of the delimiter and ends like the first, and a literal
that its own opening delimiter seems to close. -/
theorem json_round_trip_overlapping :
    let value := ['}', 'a', '|']
    let step := (TokenStream.ofText "\x7b|\x7da||\x7d|\x7d".toList).next
    let cutOff : Token :=
      { kind := .json, text := ['{', '|', '}'], start := ⟨0, 1, 0⟩, complete := false }
    ¬['|', '}'] <:+: value ∧ step.token.text = "\x7b|\x7da||\x7d".toList ∧
      Literal.jsonValue step.token.text = value ∧
      cutOff ∈ (TokenStream.ofText "\x7b|\x7d".toList).tokens ∧ cutOff.kind = .json ∧
      .unterminated cutOff ∈ (TokenStream.ofText "\x7b|\x7d".toList).diagnostics ∧
      Literal.jsonValue cutOff.text = ['}'] := by
  intro value step cutOff
  obtain ⟨hscanned, htokens⟩ := json_round_trip
  have hvalue : ¬['|', '}'] <:+: value := by decide
  obtain ⟨htoken, -, hread⟩ := hscanned value ['|', '}'] hvalue
  have htext : step.token.text = "\x7b|\x7da||\x7d".toList := congrArg Token.text htoken
  have hmem : cutOff ∈ (TokenStream.ofText "\x7b|\x7d".toList).tokens := by decide +kernel
  have hreported : .unterminated cutOff ∈ (TokenStream.ofText "\x7b|\x7d".toList).diagnostics := by
    decide +kernel
  obtain ⟨-, -, hend⟩ := htokens _ cutOff hmem rfl
  obtain ⟨hvalue', -⟩ := hend hreported
  refine ⟨hvalue, htext, ?_, hmem, rfl, hreported, ?_⟩
  · rw [htext]
    exact hread
  · exact (List.cons.inj (List.cons.inj hvalue').2).2.symm

end Cqasm
