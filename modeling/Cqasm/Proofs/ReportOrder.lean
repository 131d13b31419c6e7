import Cqasm.Proofs.Diagnosis
import Cqasm.Proofs.Recovery.Complaints
import Mathlib.Data.List.Pairwise

/-!
# The order of a report

What is wrong with the characters of a text and what is wrong with its grammar is reported in the
order of the places that it is about, and nothing about the characters gets lost, however much is
wrong with the grammar (`report_in_order`). Only a literal that never ends may be in the wrong place
as well: then that is said of it, too, and last.

A report interleaves two series, and each of them is in order by itself. To see that the whole is
(`Reading.pairwise_interleave`), it is enough to compare one complaint about characters with one
about the grammar (`TokenStream.place_of_mem_diagnostics`).
-/

set_option autoImplicit false

namespace Cqasm

/-! ## Reading token by token -/

namespace TokenStream

theorem readAll_step (stream : TokenStream) {items : List Item}
    (h : items.filterMap Item.token? ≠ []) :
    ({ stream with items } : TokenStream).readAll =
      ((next.step stream items).token :: (next.step stream items).rest.readAll.1,
        (next.step stream items).report ++ (next.step stream items).rest.readAll.2) := by
  induction items with
  | nil => exact absurd rfl h
  | cons item items ih =>
    cases item with
    | token t => rfl
    | stray c place =>
      have hrest := ih h
      exact Prod.ext (congrArg Prod.fst hrest :)
        (congrArg (Diagnostic.stray c place :: ·) (congrArg Prod.snd hrest) :)

theorem readAll_step_of_eq_nil (stream : TokenStream) {items : List Item}
    (h : items.filterMap Item.token? = []) :
    ({ stream with items } : TokenStream).readAll =
      ([(next.step stream items).token], (next.step stream items).report) := by
  induction items with
  | nil => rfl
  | cons item items ih =>
    cases item with
    | token t => cases h
    | stray c place =>
      have hrest := ih h
      exact Prod.ext (congrArg Prod.fst hrest :)
        (congrArg (Diagnostic.stray c place :: ·) (congrArg Prod.snd hrest) :)

/-- Reading all of a stream is reading one token and then all of the rest. -/
theorem readAll_of_next {stream : TokenStream} (h : stream.tokens ≠ []) :
    stream.readAll =
      (stream.next.token :: stream.next.rest.readAll.1,
        stream.next.report ++ stream.next.rest.readAll.2) :=
  readAll_step stream h

/-- Behind the last token the end of the text is read, and with it whatever is still to report. -/
theorem readAll_of_tokens_eq_nil {stream : TokenStream} (h : stream.tokens = []) :
    stream.readAll = ([stream.next.token], stream.next.report) :=
  readAll_step_of_eq_nil stream h

end TokenStream

/-! ## Diagnostics in order -/

namespace Diagnostic

theorem first_location (file : String) (diagnostic : Diagnostic) :
    (diagnostic.location file).first =
      ⟨diagnostic.place.line, diagnostic.place.column + 1⟩ := by
  cases diagnostic with
  | stray | unterminated => rfl
  | misplaced token => exact Token.first_location file token

/-- The order in which two diagnostics come up: one stands in front of the other, or both are about
a literal that never ends, the first about its end and the second about the grammar. -/
def Precedes (file : String) (a b : Diagnostic) : Prop :=
  (a.location file).first.Before (b.location file).first ∨
    ∃ literal complaint, a = .unterminated literal ∧ b = .misplaced literal complaint

variable {file : String} {a b : Diagnostic}

theorem precedes_of_before (h : a.place.Before b.place) : a.Precedes file b := by
  have hreading := h.reading
  left
  rw [first_location, first_location]
  unfold Point.Before
  dsimp only
  omega

theorem Precedes.le (h : a.Precedes file b) :
    (a.location file).first ≤ (b.location file).first := by
  rcases h with h | ⟨literal, complaint, rfl, rfl⟩
  · exact h.le
  · rw [first_location, first_location]
    exact Point.le_refl _

end Diagnostic

namespace TokenStream

variable {text : List Char}

/-- A token and whatever is wrong with the characters stand in different places, unless it is the
token that is cut off. -/
theorem place_of_mem_diagnostics {token : Token} {diagnostic : Diagnostic}
    (h : diagnostic ∈ (ofText text).diagnostics)
    (htoken : token ∈ (ofText text).tokens ++ [(ofText text).last]) :
    diagnostic.place.Before token.start ∨ token.start.Before diagnostic.place ∨
      diagnostic = .unterminated token := by
  obtain ⟨item, hitem, hdiagnostic⟩ := List.mem_flatMap.1 h
  rw [Item.place_of_mem_diagnostics hdiagnostic]
  rcases List.mem_append.1 htoken with htoken | hlast
  · by_cases heq : item = .token token
    · subst heq
      rcases Item.eq_of_mem_diagnostics hdiagnostic with ⟨t, ht, rfl⟩ | ⟨c, place, ht, -⟩ <;>
        cases ht
      exact .inr (.inr rfl)
    · have hpairwise : (ofText text).items.Pairwise fun a b =>
          a.place.Before b.place ∨ b.place.Before a.place :=
        (Item.pairwise_ofLexemes _ _).imp Or.inl
      have : Std.Symm fun a b : Item => a.place.Before b.place ∨ b.place.Before a.place :=
        ⟨fun _ _ => Or.symm⟩
      rcases hpairwise.forall hitem (mem_tokens_iff.1 htoken) heq with h | h
      · exact .inl h
      · exact .inr (.inl h)
  · obtain rfl := List.mem_singleton.1 hlast
    exact .inl (before_last hitem)

end TokenStream

/-! ## Interleaving -/

namespace Reading

variable {R : Diagnostic → Diagnostic → Prop} {lexical complaints : List Diagnostic}
  {d e : Diagnostic}

theorem mem_interleave : d ∈ interleave lexical complaints ↔ d ∈ lexical ∨ d ∈ complaints := by
  induction complaints generalizing lexical with
  | nil => simp [interleave]
  | cons complaint complaints ih =>
    have hsplit : d ∈ lexical ↔ d ∈ lexical.takeWhile (·.offset ≤ complaint.offset) ∨
        d ∈ lexical.dropWhile (·.offset ≤ complaint.offset) := by
      rw [← List.mem_append, List.takeWhile_append_dropWhile]
    rw [interleave, List.mem_append, List.mem_cons, ih, hsplit, List.mem_cons]
    tauto

theorem offset_lt_of_mem_dropWhile {n : Nat} (h : lexical.Pairwise fun a b => a.offset ≤ b.offset)
    (hd : d ∈ lexical.dropWhile (·.offset ≤ n)) : n < d.offset := by
  have hsorted := h.sublist (List.dropWhile_sublist (·.offset ≤ n))
  have hhead := List.head?_dropWhile_not (fun d : Diagnostic => decide (d.offset ≤ n)) lexical
  cases hdrop : lexical.dropWhile (·.offset ≤ n) with
  | nil =>
    rw [hdrop] at hd
    cases hd
  | cons first rest =>
    rw [hdrop] at hd hsorted hhead
    have hfirst : n < first.offset := by simpa using hhead
    rcases List.mem_cons.1 hd with rfl | hd
    · exact hfirst
    · exact Nat.lt_of_lt_of_le hfirst ((List.pairwise_cons.1 hsorted).1 d hd)

/-- Interleaving two series of diagnostics, each in its order, puts all of them in order, as long as
the places decide about the order of two from different series. -/
theorem pairwise_interleave (hlexical : lexical.Pairwise R) (hcomplaints : complaints.Pairwise R)
    (hsorted : lexical.Pairwise fun a b => a.offset ≤ b.offset)
    (hsorted' : complaints.Pairwise fun a b => a.offset ≤ b.offset)
    (hahead : ∀ d ∈ lexical, ∀ e ∈ complaints, d.offset ≤ e.offset → R d e)
    (hbehind : ∀ d ∈ lexical, ∀ e ∈ complaints, e.offset < d.offset → R e d) :
    (interleave lexical complaints).Pairwise R := by
  -- What comes before the first complaint, that complaint, and what is left over of both.
  induction hcomplaints generalizing lexical with
  | nil => exact hlexical
  | @cons complaint complaints hfirst hcomplaints ih =>
    obtain ⟨hle, hsorted'⟩ := List.pairwise_cons.1 hsorted'
    have htake := List.takeWhile_sublist (l := lexical) (·.offset ≤ complaint.offset)
    have hdrop := List.dropWhile_sublist (l := lexical) (·.offset ≤ complaint.offset)
    have hsplit := hlexical
    rw [← List.takeWhile_append_dropWhile (p := (·.offset ≤ complaint.offset)) (l := lexical),
      List.pairwise_append] at hsplit
    have hupTo : ∀ d ∈ lexical.takeWhile (·.offset ≤ complaint.offset),
        d.offset ≤ complaint.offset := by
      intro d hd
      exact of_decide_eq_true (List.all_eq_true.1 List.all_takeWhile d hd)
    rw [interleave, List.pairwise_append, List.pairwise_cons]
    refine ⟨hsplit.1, ⟨fun d hd => ?_, ?_⟩, fun d hd e he => ?_⟩
    · rcases mem_interleave.1 hd with hd | hd
      · exact hbehind d (hdrop.mem hd) complaint List.mem_cons_self
          (offset_lt_of_mem_dropWhile hsorted hd)
      · exact hfirst d hd
    · refine ih (hlexical.sublist hdrop) (hsorted.sublist hdrop) hsorted' ?_ ?_
      · exact fun d hd e he => hahead d (hdrop.mem hd) e (List.mem_cons_of_mem _ he)
      · exact fun d hd e he => hbehind d (hdrop.mem hd) e (List.mem_cons_of_mem _ he)
    · rcases List.mem_cons.1 he with rfl | he
      · exact hahead d (htake.mem hd) e List.mem_cons_self (hupTo d hd)
      · rcases mem_interleave.1 he with he | he
        · exact hsplit.2.2 d hd e he
        · exact hahead d (htake.mem hd) e (List.mem_cons_of_mem _ he)
            (Nat.le_trans (hupTo d hd) (hle e he))

/-- Interleaving two series of diagnostics keeps the lexical one as it is. -/
theorem filter_isLexical_interleave (hlexical : ∀ d ∈ lexical, d.isLexical)
    (hcomplaints : ∀ d ∈ complaints, d.isLexical = false) :
    (interleave lexical complaints).filter (·.isLexical) = lexical := by
  induction complaints generalizing lexical with
  | nil => simpa [interleave] using hlexical
  | cons complaint complaints ih =>
    obtain ⟨hcomplaint, hcomplaints⟩ := List.forall_mem_cons.1 hcomplaints
    have htake : (lexical.takeWhile (·.offset ≤ complaint.offset)).filter (·.isLexical) =
        lexical.takeWhile (·.offset ≤ complaint.offset) := by
      rw [List.filter_eq_self]
      exact fun d hd => hlexical d ((List.takeWhile_sublist _).mem hd)
    have hdrop : ∀ d ∈ lexical.dropWhile (·.offset ≤ complaint.offset), d.isLexical :=
      fun d hd => hlexical d ((List.dropWhile_sublist _).mem hd)
    rw [interleave, List.filter_append, htake, List.filter_cons_of_neg (by simp [hcomplaint]),
      ih hdrop hcomplaints, List.takeWhile_append_dropWhile]

end Reading

/-! ## Reports -/

variable {settings : Settings} {file text : String}

/-- A text is reported on in the order of its places, and completely. -/
theorem report_in_order
    (h : (parseSession settings (.string text file)).errors.aborted = false) :
    let report := (limitedReading settings.limit file text).report (streamOf text)
    (parseText settings file text).errors = report.map (·.message file) ∧
      (report.Pairwise fun a b => (a.location file).first ≤ (b.location file).first) ∧
      report.Pairwise (Diagnostic.Precedes file) ∧
      report.filter (·.isLexical) = (streamOf text).readAll.2 := by
  intro report
  obtain ⟨hreading, herrors⟩ := parse_of_not_aborted h
  have hreport : report = Reading.interleave (streamOf text).diagnostics
      (wholeReading file text).errors := by
    rw [← report_wholeReading, ← hreading]
  obtain ⟨habout, hcomplaints⟩ := Reading.errors_ofCursor file
    (Reading.patienceFor (streamOf text) fun _ => false) (ordered_ofStream text)
    (ended_ofStream text)
  have hlexical := TokenStream.pairwise_diagnostics text.toList
  have hsorted {ds : List Diagnostic} (hds : ds.Pairwise fun a b => a.place.Before b.place) :
      ds.Pairwise fun a b => a.offset ≤ b.offset := by
    refine hds.imp fun {a b} hbefore => ?_
    rw [a.offset_eq, b.offset_eq]
    exact Nat.le_of_lt hbefore.offset_lt
  have hpairwise : report.Pairwise (Diagnostic.Precedes file) := by
    rw [hreport]
    refine Reading.pairwise_interleave (hlexical.imp Diagnostic.precedes_of_before)
      (hcomplaints.imp Diagnostic.precedes_of_before) (hsorted hlexical) (hsorted hcomplaints) ?_ ?_
    -- The two are about the same character only if the complaint is about the literal itself.
    · intro d hd e he hle
      obtain ⟨token, complaint, rfl, htoken, -⟩ := habout e he
      rcases TokenStream.place_of_mem_diagnostics hd htoken with hbefore | hbefore | rfl
      · exact Diagnostic.precedes_of_before hbefore
      · rw [d.offset_eq] at hle
        exact absurd hbefore.offset_lt (Nat.not_lt.2 hle)
      · exact .inr ⟨token, complaint, rfl, rfl⟩
    · intro d hd e he hlt
      obtain ⟨token, complaint, rfl, htoken, -⟩ := habout e he
      rcases TokenStream.place_of_mem_diagnostics hd htoken with hbefore | hbefore | rfl
      · rw [d.offset_eq] at hlt
        exact absurd hbefore.offset_lt (Nat.not_lt.2 (Nat.le_of_lt hlt))
      · exact Diagnostic.precedes_of_before hbefore
      · exact absurd hlt (Nat.lt_irrefl _)
  refine ⟨?_, hpairwise.imp Diagnostic.Precedes.le, hpairwise, ?_⟩
  · rw [herrors, ← hreading]
    rfl
  · rw [hreport]
    refine Reading.filter_isLexical_interleave (fun d => isLexical_of_mem_diagnostics) ?_
    intro d hd
    obtain ⟨token, complaint, rfl, -⟩ := habout d hd
    rfl

/-- A string that never ends stands last, and where a statement should begin. -/
theorem report_in_order_unterminated :
    let settings : Settings := { logger := .silent, limit := 9, files := .empty }
    let text := "version 1.0\nx $ ]\n\"open"
    (parseSession settings (.string text "f")).errors.aborted = false ∧
      (parseText settings "f" text).errors =
        ["f:2:3: unexpected character '$'",
          "f:2:5: syntax error, unexpected ']', expecting newline or ';'",
          "f:3:1: unterminated string literal",
          "f:3:1..5: syntax error, unexpected string literal '\"open', expecting statement"] ∧
      ((limitedReading settings.limit "f" text).report (streamOf text)).Pairwise
        (Diagnostic.Precedes "f") := by
  intro settings text
  have h : (parseSession settings (.string text "f")).errors.aborted = false := by
    decide +kernel
  obtain ⟨herrors, -, hpairwise, -⟩ := report_in_order h
  refine ⟨h, herrors.trans ?_, hpairwise⟩
  decide +kernel

end Cqasm
