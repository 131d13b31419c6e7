import Cqasm.Token.Stream

/-!
# The lexical grammar

What the tokens of a text are, said without any scanner. There are a few classes of lexemes
(`Lexical.IsLexeme`), each a set of rows of characters; only the mark of a condition has to do with
what comes behind it. From where a token starts, it is the longest lexeme that the text goes on
with. `Lexical.Delivers` says this of one token, with the two exceptions to it, the numbers of
versions and literals without an end, and `Lexical.Scans` of all that is read of a text.
-/

set_option autoImplicit false

namespace Cqasm.Lexical

open Lexeme (isSpace isWordStart isWordPart startsWith)

/-! ## Lexemes -/

/-- `digit+` -/
def IsDigits (text : List Char) : Prop :=
  text ≠ [] ∧ ∀ c ∈ text, c.isDigit

/-- `digit+ ('.' digit+)*` -/
inductive IsVersionNumber : List Char → Prop
  | digits {ds : List Char} : IsDigits ds → IsVersionNumber ds
  | dotted {ds more : List Char} :
      IsDigits ds → IsVersionNumber more → IsVersionNumber (ds ++ '.' :: more)

/-- `('.' digit+)?` -/
inductive IsFraction : List Char → Prop
  | none : IsFraction []
  | some {ds : List Char} : IsDigits ds → IsFraction ('.' :: ds)

/-- `([eE] [+-]? digit+)?` -/
inductive IsExponent : List Char → Prop
  | none : IsExponent []
  | some {mark : Char} {sign ds : List Char} :
      mark ∈ ['e', 'E'] → sign ∈ [[], ['+'], ['-']] → IsDigits ds →
      IsExponent (mark :: (sign ++ ds))

/-- What may stand between the quotes of a string: a backslash takes the character behind it
along. -/
inductive IsStringBody : List Char → Prop
  | nil : IsStringBody []
  | plain {c : Char} {body : List Char} :
      c ≠ '"' → c ≠ '\\' → IsStringBody body → IsStringBody (c :: body)
  | escaped {c : Char} {body : List Char} : IsStringBody body → IsStringBody ('\\' :: c :: body)

/-- The lexemes of each kind. -/
inductive IsLexeme : (kind : Kind) → (text behind : List Char) → Prop
  | newline {behind : List Char} : IsLexeme .newline ['\n'] behind
  | keyword {kind : Kind} {text behind : List Char} :
      (text, kind) ∈ Kind.keywords → IsLexeme kind text behind
  | name {c : Char} {more behind : List Char} :
      isWordStart c → (∀ d ∈ more, isWordPart d) → (∀ kind, (c :: more, kind) ∉ Kind.keywords) →
      IsLexeme .identifier (c :: more) behind
  /-- A word has to follow. -/
  | condition {behind : List Char} :
      startsWith isWordStart behind → IsLexeme .conditionPrefix ['c', '-'] behind
  | number {whole fraction exponent behind : List Char} :
      IsDigits whole → IsFraction fraction → IsExponent exponent →
      IsLexeme (if fraction = [] ∧ exponent = [] then .integer else .float)
        (whole ++ (fraction ++ exponent)) behind
  | string {body behind : List Char} :
      IsStringBody body → IsLexeme .string ('"' :: (body ++ ['"'])) behind
  | json {body behind : List Char} :
      ¬['|', '}'] <:+: body → IsLexeme .json ('{' :: '|' :: (body ++ ['|', '}'])) behind
  | operator {kind : Kind} {text behind : List Char} :
      (text, kind) ∈ Kind.operators → IsLexeme kind text behind

/-- A text that opens a string or JSON literal that never ends. -/
inductive IsCutOff : Kind → List Char → Prop
  | string {rest : List Char} :
      (∀ body behind, IsStringBody body → rest ≠ body ++ '"' :: behind) →
      IsCutOff .string ('"' :: rest)
  | json {rest : List Char} : ¬['|', '}'] <:+: rest → IsCutOff .json ('{' :: '|' :: rest)

/-! ## Scanning -/

/-- Blanks and comments up to where something else starts, or the text ends. A comment goes on to
the end of its line. -/
inductive IsLayout : (skipped rest : List Char) → Prop
  | nil {rest : List Char} :
      startsWith (fun c => isSpace c || c = '#') rest = false → IsLayout [] rest
  | blank {c : Char} {skipped rest : List Char} :
      isSpace c → IsLayout skipped rest → IsLayout (c :: skipped) rest
  | comment {line skipped rest : List Char} :
      (∀ c ∈ line, c ≠ '\n') → startsWith (· ≠ '\n') (skipped ++ rest) = false →
      IsLayout skipped rest → IsLayout ('#' :: (line ++ skipped)) rest

/-- What is read of a text from a place on where something starts, and the text behind it;
`previous` is the kind of the token read before. -/
inductive Delivers (previous : Option Kind) (place : Position) :
    (text : List Char) → Item → (behind : List Char) → Prop
  /-- Right behind the keyword `version`, digits are the longest number of a version. -/
  | version {text behind : List Char} :
      previous = some .version → IsVersionNumber text →
      (∀ text' behind', text' ++ behind' = text ++ behind → IsVersionNumber text' →
        text'.length ≤ text.length) →
      Delivers previous place (text ++ behind)
        (.token { kind := .versionNumber, text, start := place, complete := true }) behind
  /-- Everywhere else, a token is the longest lexeme. -/
  | lexeme {kind : Kind} {text behind : List Char} :
      ¬(previous = some .version ∧ startsWith Char.isDigit (text ++ behind)) →
      (∀ kind', ¬IsCutOff kind' (text ++ behind)) → IsLexeme kind text behind →
      (∀ kind' text' behind', text' ++ behind' = text ++ behind → IsLexeme kind' text' behind' →
        text'.length ≤ text.length) →
      Delivers previous place (text ++ behind)
        (.token { kind, text, start := place, complete := true }) behind
  /-- A literal without an end takes the rest of the text. -/
  | cutOff {kind : Kind} {text : List Char} :
      IsCutOff kind text →
      Delivers previous place text (.token { kind, text, start := place, complete := false }) []
  /-- A character is stray if no lexeme starts with it, and no literal without an end. -/
  | stray {c : Char} {behind : List Char} :
      (∀ kind text' behind', text' ++ behind' = c :: behind → ¬IsLexeme kind text' behind') →
      (∀ kind, ¬IsCutOff kind (c :: behind)) →
      Delivers previous place (c :: behind) (.stray c place) behind

/-- All that is read of a text from a place on, in order, when what was read before ended with a
token of the kind `previous`. A stray character is no token. -/
inductive Scans : (previous : Option Kind) → (place : Position) → (text : List Char) →
    List Item → Prop
  | done {previous : Option Kind} {place : Position} {skipped : List Char} :
      IsLayout skipped [] → Scans previous place skipped []
  | token {previous : Option Kind} {place : Position} {skipped text behind : List Char}
      {t : Token} {items : List Item} :
      IsLayout skipped text → Delivers previous (place.after skipped) text (.token t) behind →
      Scans (some t.kind) t.stop behind items →
      Scans previous place (skipped ++ text) (.token t :: items)
  | stray {previous : Option Kind} {place : Position} {skipped behind : List Char} {c : Char}
      {items : List Item} :
      IsLayout skipped (c :: behind) →
      Delivers previous (place.after skipped) (c :: behind) (.stray c (place.after skipped))
        behind →
      Scans previous ((place.after skipped).next c) behind items →
      Scans previous place (skipped ++ c :: behind) (.stray c (place.after skipped) :: items)

end Cqasm.Lexical
