import Mathlib.Data.List.TakeWhile
import Cqasm.Proofs.Lexical.Delimiter
import Cqasm.Proofs.Lexical.Pieces
import Cqasm.Token.Basic
import Cqasm.Token.Literal

/-!
# Words: how tokens are written

A `Word` is a token without its place. What a name, a number or a literal is written as stands
alone: cutting it up gives back the word and nothing else (`Word.Stands`), and the value of the
literal can be read off it.
-/

set_option autoImplicit false

namespace Cqasm

/-- What a token is and how it is written. -/
structure Word where
  kind : Kind
  text : List Char
  deriving DecidableEq, Repr

/-- A token without its place. -/
def Token.word (token : Token) : Word :=
  { kind := token.kind, text := token.text }

namespace Word

open Lexeme

/-! ## Standing alone -/

/-- The first character of a word; a word without any starts like a blank. -/
def first (w : Word) : Char :=
  w.text.headD ' '

/-- The piece of text that a word should be. -/
def piece (w : Word) : Lexeme :=
  .ofKind w.kind w.first w.text.tail

/-- Cutting up the word by itself gives the word. -/
def Stands (afterVersion : Bool) (w : Word) : Prop :=
  leading afterVersion w.first w.text.tail = w.piece

instance (afterVersion : Bool) (w : Word) : Decidable (w.Stands afterVersion) :=
  inferInstanceAs (Decidable (_ = _))

theorem leading_blank (afterVersion : Bool) (rest : List Char) :
    leading afterVersion ' ' rest = { role := .blank, first := ' ', more := [] } := rfl

theorem Stands.text_eq {afterVersion : Bool} {w : Word} (h : w.Stands afterVersion) :
    w.text = w.first :: w.text.tail := by
  unfold first
  cases htext : w.text with
  | nil =>
    unfold Stands first piece at h
    rw [htext, List.headD_nil, leading_blank] at h
    cases h
  | cons => rfl

/-! ## Keywords, operators and names -/

/-- The one spelling of a keyword or operator. -/
def mark (kind : Kind) : Word :=
  { kind, text := kind.spelling?.getD [] }

/-- There are finitely many kinds, and each of their spellings is cut up by itself. -/
theorem stands_mark {kind : Kind} (h : kind.spelling?.isSome) : (mark kind).Stands false := by
  have hall : ∀ kind : Kind, kind.spelling?.isSome → (mark kind).Stands false := by
    intro kind
    cases kind <;> decide +kernel
  exact hall kind h

/-- The end of a line. -/
def newline : Word :=
  { kind := .newline, text := ['\n'] }

/-- A word as it may stand for a name: it starts like a word, goes on like one, and is not reserved.
-/
def IsName (text : List Char) : Prop :=
  startsWith isWordStart text ∧ (∀ c ∈ text, isWordPart c) ∧ Kind.ofKeyword? text = none

instance (text : List Char) : Decidable (IsName text) :=
  decidable_of_iff (startsWith isWordStart text ∧ text.all isWordPart ∧ Kind.ofKeyword? text = none)
    (by rw [IsName, List.all_eq_true])

/-- A name. -/
def name (text : String) : Word :=
  { kind := .identifier, text := text.toList }

/-- What is not reserved and has only word characters is cut off as a name. -/
theorem stands_name {text : String} (h : IsName text.toList) : (name text).Stands false := by
  obtain ⟨hstart, hparts, hkeyword⟩ := h
  unfold Stands name piece first
  dsimp only
  cases htext : text.toList with
  | nil =>
    rw [htext] at hstart
    cases hstart
  | cons c more =>
    rw [htext] at hstart hparts hkeyword
    obtain ⟨-, hmore⟩ := List.forall_mem_cons.1 hparts
    -- A minus sign is no word character, so a name is never the mark of a condition.
    have hcondition : opensCondition more = false := by
      unfold opensCondition
      split
      · next behind =>
        have hminus := hmore '-' List.mem_cons_self
        cases hminus
      · rfl
    show leading false c more = ofKind .identifier c more
    rw [leading_of_isWordStart hstart, word, hcondition, Bool.and_false, if_neg (by decide),
      List.takeWhile_eq_self_iff.2 hmore]
    dsimp only
    rw [hkeyword]
    rfl

/-- The mark of a condition. -/
def condition : Word :=
  { kind := .conditionPrefix, text := ['c', '-'] }

/-- A minus sign behind a lone `c` belongs to it if a word follows. -/
theorem leading_condition (afterVersion : Bool) {behind : List Char}
    (h : startsWith isWordStart behind) :
    leading afterVersion 'c' ('-' :: behind) = condition.piece := by
  have hopens : opensCondition ('-' :: behind) = true := h
  rw [leading_of_isWordStart (by decide), word, hopens, if_pos (by decide)]
  rfl

/-! ## Numbers -/

/-- A whole number in decimal digits. -/
def integer (value : Nat) : Word :=
  { kind := .integer, text := Nat.toDigits 10 value }

theorem isDigit_of_mem_toDigits (value : Nat) : ∀ c ∈ Nat.toDigits 10 value, c.isDigit :=
  fun _ h => Nat.isDigit_of_mem_toDigits (by decide) (by decide) h

/-- A digit starts a number, and only digits follow it. -/
theorem stands_integer (value : Nat) : (integer value).Stands false := by
  have hdigits := isDigit_of_mem_toDigits value
  unfold Stands integer piece first
  dsimp only
  cases htext : Nat.toDigits 10 value with
  | nil => exact absurd htext Nat.toDigits_ne_nil
  | cons c more =>
    rw [htext] at hdigits
    obtain ⟨hc, hmore⟩ := List.forall_mem_cons.1 hdigits
    show leading false c more = ofKind .integer c more
    rw [leading_of_isDigit hc]
    simp [number, numberTail, List.takeWhile_eq_self_iff.2 hmore, fractionPart, exponentPart]

/-- The digits of a number give it back. -/
theorem natValue_toDigits (value : Nat) : Literal.natValue (Nat.toDigits 10 value) = value := by
  rw [Literal.natValue]
  simp only [Nat.mul_comm _ 10]
  exact Nat.ofDigitChars_ten_toDigits

/-- Whole numbers with dots between them. -/
def dotted : List Nat → List Char
  | [] => []
  | [value] => Nat.toDigits 10 value
  | value :: values => Nat.toDigits 10 value ++ '.' :: dotted values

/-- The numbers of a version. -/
def versionNumber (values : List Nat) : Word :=
  { kind := .versionNumber, text := dotted values }

/-- Digits are taken along one by one. -/
theorem versionTail_of_digits {digits : List Char} (h : ∀ c ∈ digits, c.isDigit)
    (rest : List Char) :
    versionTail (digits ++ rest) = digits ++ versionTail rest := by
  induction digits with
  | nil => rfl
  | cons c digits ih =>
    obtain ⟨hc, hdigits⟩ := List.forall_mem_cons.1 h
    rw [List.cons_append, versionTail, hc, Bool.true_or, if_pos rfl, ih hdigits, List.cons_append]

theorem exists_digit_dotted {values : List Nat} (h : values ≠ []) :
    ∃ c more, dotted values = c :: more ∧ c.isDigit := by
  cases values with
  | nil => exact absurd rfl h
  | cons value values =>
    obtain ⟨c, more, hc⟩ := List.exists_cons_of_ne_nil (Nat.toDigits_ne_nil (n := value) (b := 10))
    have hdigit : c.isDigit :=
      isDigit_of_mem_toDigits value c (by rw [hc]; exact List.mem_cons_self)
    cases values with
    | nil => exact ⟨c, more, hc, hdigit⟩
    | cons value' values =>
      rw [dotted, hc]
      · exact ⟨c, _, List.cons_append, hdigit⟩
      · exact List.cons_ne_nil _ _

/-- A version number is taken as a whole, since a digit follows each of its dots. -/
theorem versionTail_dotted (values : List Nat) : versionTail (dotted values) = dotted values := by
  fun_induction dotted values with
  | case1 => rfl
  | case2 value =>
    have h := versionTail_of_digits (isDigit_of_mem_toDigits value) []
    rwa [List.append_nil, versionTail, List.append_nil] at h
  | case3 value values hne ih =>
    obtain ⟨c, more, hdotted, hdigit⟩ := exists_digit_dotted hne
    rw [versionTail_of_digits (isDigit_of_mem_toDigits value), versionTail, ih]
    simp [hdotted, startsWith, hdigit]

/-- Behind the keyword `version`, whole numbers with dots between them are one token. -/
theorem stands_versionNumber {values : List Nat} (h : values ≠ []) :
    (versionNumber values).Stands true := by
  obtain ⟨c, more, hdotted, hdigit⟩ := exists_digit_dotted h
  have htail := versionTail_dotted values
  rw [hdotted, versionTail, hdigit, Bool.true_or, if_pos rfl] at htail
  unfold Stands versionNumber piece first
  dsimp only
  rw [hdotted]
  show leading true c more = ofKind .versionNumber c more
  rw [leading_of_isDigit hdigit, number, if_pos rfl, (List.cons.inj htail).2]

theorem dottedParts_of_digits {digits : List Char} (h : ∀ c ∈ digits, c.isDigit)
    (rest : List Char) :
    Literal.dottedParts (digits ++ rest) =
      (digits ++ (Literal.dottedParts rest).1, (Literal.dottedParts rest).2) := by
  induction digits with
  | nil => rfl
  | cons c digits ih =>
    obtain ⟨hc, hdigits⟩ := List.forall_mem_cons.1 h
    have hdot : c ≠ '.' := by
      rintro rfl
      cases hc
    rw [List.cons_append, Literal.dottedParts, ih hdigits]
    simp [hdot]

/-- The numbers are read back in their order. -/
theorem versionNumbers_dotted {values : List Nat} (h : values ≠ []) :
    Literal.versionNumbers (dotted values) = values := by
  unfold Literal.versionNumbers
  fun_induction dotted values with
  | case1 => exact absurd rfl h
  | case2 value =>
    have hparts := dottedParts_of_digits (isDigit_of_mem_toDigits value) []
    rw [List.append_nil] at hparts
    rw [hparts]
    simp [Literal.dottedParts, natValue_toDigits]
  | case3 value values hne ih =>
    rw [dottedParts_of_digits (isDigit_of_mem_toDigits value), Literal.dottedParts]
    simpa [natValue_toDigits] using ih hne

/-! ## Strings and JSON -/

/-- A way of writing characters in a string: each stands for itself, unless it is a quote or a
backslash, or behind a backslash for what that makes of it. -/
def Escapes (escape : Char → List Char) : Prop :=
  ∀ c, (escape c = [c] ∧ c ≠ '"' ∧ c ≠ '\\') ∨
    ∃ d, escape c = ['\\', d] ∧ Literal.escaped d = c

/-- A string literal. -/
def string (escape : Char → List Char) (value : String) : Word :=
  { kind := .string, text := '"' :: (value.toList.flatMap escape ++ ['"']) }

variable {escape : Char → List Char}

theorem stringTail_cons {c : Char} (hquote : c ≠ '"') (hbackslash : c ≠ '\\') (rest : List Char) :
    stringTail (c :: rest) = (c :: (stringTail rest).1, (stringTail rest).2) := by
  rw [stringTail]
  · exact hquote
  · intro d later hc
    exact absurd hc hbackslash

theorem unquoted_cons {c : Char} (hquote : c ≠ '"') (hbackslash : c ≠ '\\') (rest : List Char) :
    Literal.unquoted (c :: rest) = c :: Literal.unquoted rest := by
  rw [Literal.unquoted]
  · exact hquote
  · intro d later hc
    exact absurd hc hbackslash

/-- The first quote that no backslash stands in front of is the closing one. -/
theorem stringTail_escaped (hescape : Escapes escape) (value : List Char) :
    stringTail (value.flatMap escape ++ ['"']) = (value.flatMap escape ++ ['"'], true) := by
  induction value with
  | nil => rfl
  | cons c value ih =>
    rw [List.flatMap_cons, List.append_assoc]
    -- one character or two, and no quote among them but behind a backslash
    rcases hescape c with ⟨heq, hquote, hbackslash⟩ | ⟨d, heq, -⟩
    · rw [heq, List.singleton_append, stringTail_cons hquote hbackslash, ih]
    · rw [heq, List.cons_append, List.singleton_append, stringTail, ih]

/-- What was escaped is what is read. -/
theorem unquoted_escaped (hescape : Escapes escape) (value : List Char) :
    Literal.unquoted (value.flatMap escape ++ ['"']) = value := by
  induction value with
  | nil => rfl
  | cons c value ih =>
    rw [List.flatMap_cons, List.append_assoc]
    rcases hescape c with ⟨heq, hquote, hbackslash⟩ | ⟨d, heq, hd⟩
    · rw [heq, List.singleton_append, unquoted_cons hquote hbackslash, ih]
    · rw [heq, List.cons_append, List.singleton_append, Literal.unquoted, ih, hd]

theorem stands_string (hescape : Escapes escape) (value : String) :
    (string escape value).Stands false := by
  show Lexeme.string (value.toList.flatMap escape ++ ['"']) = _
  rw [Lexeme.string, stringTail_escaped hescape]
  rfl

theorem stringValue_string (hescape : Escapes escape) (value : String) :
    Literal.stringValue (string escape value).text = value.toList :=
  unquoted_escaped hescape value.toList

/-- A JSON literal. -/
def json (value : String) : Word :=
  { kind := .json, text := '{' :: '|' :: (value.toList ++ ['|', '}']) }

/-- The first delimiter is the last two characters, unless the value has one in it. -/
theorem jsonTail_closed {value : List Char} (h : ¬['|', '}'] <:+: value) :
    jsonTail (value ++ ['|', '}']) = (value ++ ['|', '}'], true) := by
  induction value with
  | nil => rfl
  | cons c value ih =>
    have hvalue : ¬['|', '}'] <:+: value := fun hinfix => h (List.infix_cons hinfix)
    -- a bar that ends the value is not followed by the brace, but by the closing bar
    have hclosing : ∀ later, c = '|' → value ++ ['|', '}'] = '}' :: later → False := by
      rintro later rfl hsplit
      cases value with
      | nil => cases hsplit
      | cons d value =>
        obtain ⟨rfl, -⟩ := List.cons.inj hsplit
        exact h ⟨[], value, rfl⟩
    rw [List.cons_append, jsonTail, ih hvalue]
    exact hclosing

theorem stands_json {value : String} (h : ¬['|', '}'] <:+: value.toList) :
    (json value).Stands false := by
  show Lexeme.json (value.toList ++ ['|', '}']) = _
  rw [Lexeme.json, jsonTail_closed h]
  rfl

/-- The value is what stands between the delimiters, and nothing in it is escaped. -/
theorem jsonValue_json (value : String) : Literal.jsonValue (json value).text = value.toList := by
  have hopening : Literal.afterOpening (json value).text = value.toList ++ ['|', '}'] := rfl
  have hclosing : (['|', '}'] : List Char).isSuffixOf (value.toList ++ ['|', '}']) := by
    rw [List.isSuffixOf_iff_suffix]
    exact List.suffix_append ..
  rw [Literal.jsonValue, hopening, Literal.beforeClosing, if_pos hclosing]
  simp

end Word

end Cqasm
