import Cqasm.Proofs.Grammar.Expression

/-!
# The grammar of programs

Statements and what they are made of, and programs:

```
program     : sep* 'version' NUMBER (sep+ 'qubits' expr)? (sep+ statement)* sep* end
statement   : mapping | declaration | subcircuit | errorModel | bundle
mapping     : 'map' target '=' expr annotation* | 'map' expr ',' NAME annotation*
target      : NAME | '(' target ')'
declaration : 'var' NAME (',' NAME)* ':' NAME annotation*
subcircuit  : '.' NAME ('(' expr ')')? annotation*
errorModel  : 'error_model' NAME (',' expr)* annotation*
bundle      : instruction ('|' instruction)*
            | '{' sep* instruction ((sep+ | '|' sep*) instruction)* sep* '}'
instruction : ('c-' NAME expr (',' expr)* | NAME (expr (',' expr)*)?) annotation*
annotation  : '@' NAME '.' NAME ('(' (expr (',' expr)*)? ')')?
```

A separator is a newline or a semicolon.
-/

set_option autoImplicit false

namespace Cqasm.Grammar

variable (file : String)

/-- The expressions of a program, which are nested as deep as is accepted. -/
abbrev IsExpr : Phrase Expr :=
  IsExpression file maxNesting

/-- A name that something is assigned to, in any number of parentheses. Its range is that of the
outermost ones, and they count as levels of nesting. -/
inductive IsTarget : (levels : Nat) → Phrase Identifier
  | name {levels : Nat} {ts : List Token} {id : Identifier} :
      IsName file ts id → IsTarget (levels + 1) ts id
  | parenthesised {levels : Nat} {ts : List Token} {opening closing : Token} {id : Identifier} :
      opening.kind = .leftParen → IsTarget levels ts id → closing.kind = .rightParen →
      IsTarget (levels + 1) (opening :: (ts ++ [closing]))
        { id with location := rangeOf file (opening :: (ts ++ [closing])) }

/-- An annotation may have operands in parentheses. -/
inductive IsAnnot : Phrase Annot
  | plain {sign dot : Token} {ts us : List Token} {interface operation : Identifier} :
      sign.kind = .atSign → IsName file ts interface → dot.kind = .dot →
      IsName file us operation →
      IsAnnot (sign :: (ts ++ dot :: us))
        { interface, operation, operands := []
          location := rangeOf file (sign :: (ts ++ dot :: us)) }
  | applied {sign dot opening closing : Token} {ts us vs : List Token}
      {interface operation : Identifier} {operands : List Expr} :
      sign.kind = .atSign → IsName file ts interface → dot.kind = .dot →
      IsName file us operation → opening.kind = .leftParen → Listed (IsExpr file) vs operands →
      closing.kind = .rightParen →
      IsAnnot (sign :: (ts ++ dot :: (us ++ opening :: (vs ++ [closing]))))
        { interface, operation, operands
          location := rangeOf file (sign :: (ts ++ dot :: (us ++ opening :: (vs ++ [closing])))) }

/-- An instruction, under a condition or not. -/
inductive IsInstruction : Phrase Instruction
  | plain {ts us vs : List Token} {name : Identifier} {operands : List Expr}
      {annotations : List Annot} :
      IsName file ts name → Listed (IsExpr file) us operands →
      Many (IsAnnot file) vs annotations →
      IsInstruction (ts ++ (us ++ vs))
        { name, condition := none, operands, annotations
          location := rangeOf file (ts ++ (us ++ vs)) }
  | conditional {mark : Token} {ts us vs ws : List Token} {name : Identifier} {condition : Expr}
      {operands : List Expr} {annotations : List Annot} :
      mark.kind = .conditionPrefix → IsName file ts name → IsExpr file us condition →
      Many (Behind .comma (IsExpr file)) vs operands →
      Many (IsAnnot file) ws annotations →
      IsInstruction (mark :: (ts ++ (us ++ (vs ++ ws))))
        { name, condition := some condition, operands, annotations
          location := rangeOf file (mark :: (ts ++ (us ++ (vs ++ ws)))) }

/-- Instructions in braces: a bar or separators stand between two of them, and separators may follow
a bar. -/
inductive IsBraced : Phrase (List Instruction)
  | last {ts : List Token} {i : Instruction} : IsInstruction file ts i → IsBraced ts [i]
  | bar {ts us seps : List Token} {sign : Token} {i : Instruction} {is : List Instruction} :
      IsInstruction file ts i → sign.kind = .pipe → Separators seps → IsBraced us is →
      IsBraced (ts ++ sign :: (seps ++ us)) (i :: is)
  | separated {ts us seps : List Token} {i : Instruction} {is : List Instruction} :
      IsInstruction file ts i → Separation seps → IsBraced us is →
      IsBraced (ts ++ (seps ++ us)) (i :: is)

/-- A statement. -/
inductive IsStatement : Phrase Statement
  | assignment {keyword sign : Token} {ts us vs : List Token} {target : Identifier} {e : Expr}
      {annotations : List Annot} :
      keyword.kind = .map → IsTarget file maxNesting ts target → sign.kind = .assign →
      IsExpr file us e → Many (IsAnnot file) vs annotations →
      IsStatement (keyword :: (ts ++ sign :: (us ++ vs)))
        (.mapping target e annotations (rangeOf file (keyword :: (ts ++ sign :: (us ++ vs)))))
  | mapping {keyword comma : Token} {ts us vs : List Token} {target : Identifier} {e : Expr}
      {annotations : List Annot} :
      keyword.kind = .map → IsExpr file ts e → comma.kind = .comma → IsName file us target →
      Many (IsAnnot file) vs annotations →
      IsStatement (keyword :: (ts ++ comma :: (us ++ vs)))
        (.mapping target e annotations (rangeOf file (keyword :: (ts ++ comma :: (us ++ vs)))))
  | declaration {keyword colon : Token} {ts us vs : List Token} {names : List Identifier}
      {type : Identifier} {annotations : List Annot} :
      keyword.kind = .var → SeparatedBy .comma (IsName file) ts names → colon.kind = .colon →
      IsName file us type → Many (IsAnnot file) vs annotations →
      IsStatement (keyword :: (ts ++ colon :: (us ++ vs)))
        (.declaration names type annotations
          (rangeOf file (keyword :: (ts ++ colon :: (us ++ vs)))))
  | subcircuit {dot : Token} {ts vs : List Token} {name : Identifier}
      {annotations : List Annot} :
      dot.kind = .dot → IsName file ts name → Many (IsAnnot file) vs annotations →
      IsStatement (dot :: (ts ++ vs))
        (.subcircuit name none annotations (rangeOf file (dot :: (ts ++ vs))))
  | iteratedSubcircuit {dot opening closing : Token} {ts us vs : List Token} {name : Identifier}
      {iterations : Expr} {annotations : List Annot} :
      dot.kind = .dot → IsName file ts name → opening.kind = .leftParen →
      IsExpr file us iterations → closing.kind = .rightParen →
      Many (IsAnnot file) vs annotations →
      IsStatement (dot :: (ts ++ opening :: (us ++ closing :: vs)))
        (.subcircuit name (some iterations) annotations
          (rangeOf file (dot :: (ts ++ opening :: (us ++ closing :: vs)))))
  | errorModel {keyword : Token} {ts us vs : List Token} {name : Identifier} {args : List Expr}
      {annotations : List Annot} :
      keyword.kind = .errorModel → IsName file ts name →
      Many (Behind .comma (IsExpr file)) us args → Many (IsAnnot file) vs annotations →
      IsStatement (keyword :: (ts ++ (us ++ vs)))
        (.errorModel name args annotations (rangeOf file (keyword :: (ts ++ (us ++ vs)))))
  | bundle {ts : List Token} {items : List Instruction} :
      SeparatedBy .pipe (IsInstruction file) ts items →
      IsStatement ts (.bundle items (rangeOf file ts))
  | bracedBundle {opening closing : Token} {before ts behind : List Token}
      {items : List Instruction} :
      opening.kind = .leftBrace → Separators before → IsBraced file ts items →
      Separators behind → closing.kind = .rightBrace →
      IsStatement (opening :: (before ++ (ts ++ (behind ++ [closing]))))
        (.bundle items (rangeOf file (opening :: (before ++ (ts ++ (behind ++ [closing]))))))

/-- The qubits clause, if there is one. -/
inductive IsQubits : Phrase (Option Expr)
  | none : IsQubits [] none
  | some {seps ts : List Token} {keyword : Token} {e : Expr} :
      Separation seps → keyword.kind = .qubits → IsExpr file ts e →
      IsQubits (seps ++ keyword :: ts) (some e)

/-- Separators stand in front of every statement. -/
def IsStatements : Phrase (List Statement) :=
  Many fun tokens s =>
    ∃ seps ts, tokens = seps ++ ts ∧ Separation seps ∧ IsStatement file ts s

/-- A whole text, its end included. -/
inductive IsProgram : Phrase Program
  | mk {before qs ss behind : List Token} {keyword number last : Token} {qubits : Option Expr}
      {statements : List Statement} :
      Separators before → keyword.kind = .version → number.kind = .versionNumber →
      IsQubits file qs qubits → IsStatements file ss statements → Separators behind →
      last.kind = .eof →
      IsProgram (before ++ keyword :: number :: (qs ++ (ss ++ (behind ++ [last]))))
        (.program
          { items := (Literal.versionNumbers number.text).map .ofNat
            location := rangeOf file [keyword, number] }
          qubits statements (rangeOf file (keyword :: number :: (qs ++ ss))))

end Cqasm.Grammar
