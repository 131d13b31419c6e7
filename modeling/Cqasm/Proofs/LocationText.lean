import Cqasm.Proofs.Points
import Cqasm.Proofs.Printing.Word

/-!
# Ranges as they are written

The text of a range leaves out what its end shares with its start: all of it, or its line. As long
as all coordinates are known this can be undone, because a second number behind the dots can only be
a column. `readRange` is the reader that does so (`Location.readRange_text`), so two ranges of one
file that are written alike are the same (`range_text_unambiguous`).
-/

set_option autoImplicit false

namespace Cqasm

/-! ## Reading a range -/

/-- The number in decimal digits at the start of a text, and what stands behind it. -/
def readCoordinate (text : List Char) : Int × List Char :=
  (Literal.natValue (text.takeWhile Char.isDigit), text.dropWhile Char.isDigit)

/-- The end of a range that starts at `first`, as it is written behind the start. -/
def readEnd (first : Point) : List Char → Option Point
  | [] => some first
  | '.' :: '.' :: text =>
    match readCoordinate text with
    | (column, []) => some { first with column }
    | (line, ':' :: text) => some { line, column := (readCoordinate text).1 }
    | _ => none
  | _ => none

/-- The two ends of a range, as they are written behind the name of its file. -/
def readRange : List Char → Option (Point × Point)
  | ':' :: text =>
    match readCoordinate text with
    | (line, ':' :: text) =>
      let (column, text) := readCoordinate text
      (readEnd { line, column } text).map ({ line, column }, ·)
    | _ => none
  | _ => none

/-! ## Reading what was written -/

namespace Location

variable {range a b : Location} {n : Int} {rest : List Char}

theorem toList_toString (h : 1 ≤ n) : (toString n).toList = Nat.toDigits 10 n.toNat := by
  obtain ⟨value, rfl⟩ := Int.eq_ofNat_of_zero_le (Int.le_trans Int.one_nonneg h)
  exact Nat.toList_repr

/-- A number is read back, if no digit follows. -/
theorem readCoordinate_append (h : 1 ≤ n) (hrest : ∀ c ∈ rest.head?, c.isDigit = false) :
    readCoordinate ((toString n).toList ++ rest) = (n, rest) := by
  have hdigits := Word.isDigit_of_mem_toDigits n.toNat
  have htake : rest.takeWhile Char.isDigit = [] := by
    cases rest with
    | nil => rfl
    | cons c rest => rw [List.takeWhile_cons_of_neg (by simp [hrest c rfl])]
  have hdrop : rest.dropWhile Char.isDigit = rest := by
    cases rest with
    | nil => rfl
    | cons c rest => rw [List.dropWhile_cons_of_neg (by simp [hrest c rfl])]
  rw [toList_toString h, readCoordinate, List.takeWhile_append_of_pos hdigits,
    List.dropWhile_append_of_pos hdigits, htake, hdrop, List.append_nil, Word.natValue_toDigits,
    Int.toNat_of_nonneg (by omega)]

theorem readCoordinate_toString (h : 1 ≤ n) : readCoordinate (toString n).toList = (n, []) := by
  rw [← List.append_nil (toString n).toList]
  exact readCoordinate_append h (by simp)

theorem toList_coordinateText (h : 1 ≤ n) :
    (coordinateText ":" n).toList = ':' :: (toString n).toList := by
  rw [coordinateText, if_neg (by omega), String.toList_append]
  rfl

/-- Behind the start of a range there is no digit. -/
theorem isDigit_head?_endText (range : Location) :
    ∀ c ∈ range.endText.toList.head?, c.isDigit = false := by
  unfold endText
  split
  · simp [String.toList_append]
  · split <;> simp [String.toList_append]

theorem readEnd_endText (h : range.last.Known) :
    readEnd range.first range.endText.toList = some range.last := by
  obtain ⟨file, first, line, column⟩ := range
  obtain ⟨hline, hcolumn⟩ : 1 ≤ line ∧ 1 ≤ column := h
  unfold endText
  dsimp only
  split
  · have htext : (".." ++ toString line ++ coordinateText ":" column).toList =
        '.' :: '.' :: ((toString line).toList ++ ':' :: (toString column).toList) := by
      rw [String.toList_append, String.toList_append, toList_coordinateText hcolumn]
      rfl
    rw [htext, readEnd, readCoordinate_append hline (by simp)]
    simp only [readCoordinate_toString hcolumn]
  · next hsame =>
    obtain rfl := not_not.1 hsame
    split
    · rw [String.toList_append]
      show readEnd first ('.' :: '.' :: (toString column).toList) = _
      rw [readEnd, readCoordinate_toString hcolumn]
    · next hpoint =>
      obtain rfl := not_not.1 hpoint
      rfl

/-- What stands behind the name of the file is read back as the range. -/
theorem readRange_text (h : range.Known) :
    ∃ written, range.text = range.file ++ written ∧
      readRange written.toList = some (range.first, range.last) := by
  obtain ⟨⟨hline, hcolumn⟩, hlast⟩ := h
  refine ⟨":" ++ toString range.first.line ++ coordinateText ":" range.first.column
    ++ range.endText, ?_, ?_⟩
  · rw [text, if_neg (by omega)]
    simp only [String.append_assoc]
  · have htext : (":" ++ toString range.first.line ++ coordinateText ":" range.first.column
        ++ range.endText).toList = ':' :: ((toString range.first.line).toList ++
          ':' :: ((toString range.first.column).toList ++ range.endText.toList)) := by
      simp only [String.toList_append, toList_coordinateText hcolumn, List.append_assoc]
      rfl
    rw [htext, readRange, readCoordinate_append hline (by simp)]
    simp only [readCoordinate_append hcolumn range.isDigit_head?_endText]
    exact congrArg (Option.map (range.first, ·)) (readEnd_endText hlast)

end Location

/-- Ranges of a file are read back from what is written behind its name, if all their coordinates
are known. So two of them that are written alike are the same. -/
theorem range_text_unambiguous (file : String) :
    (∀ range : Location, range.file = file → range.Known →
      ∃ written, range.text = file ++ written ∧
        readRange written.toList = some (range.first, range.last)) ∧
    ∀ a b : Location, a.file = file → b.file = file → a.Known → b.Known → a.text = b.text →
      a = b := by
  refine ⟨fun range hfile h => hfile ▸ Location.readRange_text h, fun a b ha hb hka hkb htext => ?_⟩
  obtain ⟨written, hwritten, hread⟩ := Location.readRange_text hka
  obtain ⟨written', hwritten', hread'⟩ := Location.readRange_text hkb
  -- The file is the same, so what is written behind it is, too.
  rw [hwritten, hwritten', ha, hb, String.append_right_inj] at htext
  rw [htext, hread', Option.some_inj, Prod.mk.injEq] at hread
  obtain ⟨file, first, last⟩ := a
  rw [Location.mk.injEq]
  exact ⟨ha.trans hb.symm, hread.1.symm, hread.2.symm⟩

/-- A range over several lines, built at once or grown to them. -/
theorem range_text_unambiguous_grown :
    let range := Location.ofBounds "1:1..2" ⟨2, 14⟩ ⟨15, 1⟩
    let grown := (Location.ofPoint "1:1..2" ⟨2, 14⟩).grow ⟨15, 1⟩
    (range.Known ∧ ∃ written, range.text = "1:1..2" ++ written ∧
      readRange written.toList = some (⟨2, 14⟩, ⟨15, 1⟩)) ∧
    grown.Known ∧ range.text = grown.text ∧ range = grown := by
  intro range grown
  have hrange : range.Known := by decide
  have hgrown : grown.Known := by decide
  obtain ⟨hread, hsame⟩ := range_text_unambiguous "1:1..2"
  exact ⟨⟨hrange, hread range rfl hrange⟩, hgrown, rfl,
    hsame range grown rfl rfl hrange hgrown rfl⟩

/-- With an unknown column, the line of an end is taken for a column. -/
example : (Location.ofBounds "a.cq" ⟨2, 1⟩ ⟨3, 0⟩).text =
    (Location.ofBounds "a.cq" ⟨2, 1⟩ ⟨2, 3⟩).text := by decide +kernel

end Cqasm
