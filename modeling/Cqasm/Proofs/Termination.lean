import Cqasm.Proofs.Machine.Program

/-!
# Scanning and parsing come to an end

Of the stream of characters no more is taken for granted than that it yields no character beyond
its last one, where it is an error to consume. Even so, the scanner never gets there, and neither of
scanner and grammar runs for ever (`scanning_and_parsing_end`). Every call for a token gets on in
the text or has come to rest at its end, and every loop of the grammar passes a token in each of its
turns but the last.
-/

set_option autoImplicit false

namespace Cqasm.Machine

open Machine.Action

variable {S : Type} {host : Host S}

/-- A scanner that can be asked for a token: it has not been disposed of, and its stream holds some
text. -/
def Scanner.Ready (host : Host S) (s : Scanner S) : Prop :=
  s.disposed = false ∧ ∃ rest, host.source.Holds s.input rest

/-- A call for a token has consumed something, or it will yield the end of the text for ever. -/
theorem Scanner.ends_nextToken_of_ready {s : Scanner S} (h : s.Ready host) :
    Ends (nextToken host) s
      (fun token t => t.Ready host ∧
        ((token.kind ≠ .eof ∧ host.source.index s.input < host.source.index t.input) ∨
          (token.kind = .eof ∧ nextToken host t = some (.ok token, t))))
      fun interrupt t => t.Ready host ∧ interrupt = .refused ∧ IsRefused host t := by
  obtain ⟨hdisposed, rest, hholds⟩ := h
  have hs : Stands host s (s.here host) rest := ⟨hholds, rfl⟩
  refine (ends_nextToken hs hdisposed).mono (fun token t ⟨text, behind, ht⟩ => ?_)
    fun interrupt t hthrows => ?_
  · refine ⟨⟨ht.disposed, behind, ht.stands.holds⟩, ?_⟩
    refine ht.progress.imp (fun ⟨hkind, htext⟩ => ⟨hkind, ?_⟩) fun ⟨htoken, _, hrest⟩ => ?_
    · have hindex : host.source.index t.input = host.source.index s.input + text.length :=
        (congrArg Position.offset ht.stands.here_eq).trans (Position.offset_after _ _)
      have := List.length_pos_iff.2 htext
      omega
    · subst htoken
      exact ⟨rfl, nextToken_of_atRest hrest⟩
  · exact ⟨⟨hthrows.disposed.trans hdisposed, hthrows.holds⟩, hthrows.interrupt_eq,
      hthrows.isRefused⟩

/-- Nothing runs for ever, and nothing is consumed beyond the end of the text. A call for a token
ends, interrupted only if a diagnostic is not taken, and the scanner is ready for another one. The
grammar ends in front of every text, with what there is to read of it unless a diagnostic is not
taken, and whenever one of its loops went into another turn it had passed a token in the last. -/
theorem scanning_and_parsing_end (host : Host S) :
    (∀ s : Scanner S, s.Ready host → ∃ outcome t,
      Scanner.nextToken host s = some (outcome, t) ∧ t.Ready host ∧
        match outcome with
        | .ok token =>
          (token.kind ≠ .eof ∧ host.source.index s.input < host.source.index t.input) ∨
            (token.kind = .eof ∧ Scanner.nextToken host t = some (.ok token, t))
        | .error interrupt => interrupt = .refused ∧ Scanner.IsRefused host t) ∧
    ∀ (input : S) (text : List Char) (frames : Nat), host.source.Holds input text →
      host.source.index input = 0 → maxNesting < frames → ∃ outcome r,
        Reader.parse host frames (Reader.start input) = some (outcome, r) ∧
          (match outcome with
          | .ok root =>
            let stream := TokenStream.ofText text
            let reading := Reading.ofStream host.isExhaustedBy host.file stream
            root = reading.root ∧ r.scanner.reports = reading.report stream
          | .error interrupt => interrupt = .refused ∧ Scanner.IsRefused host r.scanner) ∧
          ∀ moment ∈ r.history, ∀ passed, moment.event = .turns passed → 0 < passed := by
  constructor
  · intro s hs
    obtain ⟨outcome, t, hrun, hends⟩ := (Scanner.ends_nextToken_of_ready hs).exists
    cases outcome with
    | ok token => exact ⟨_, t, hrun, hends.1, hends.2⟩
    | error interrupt => exact ⟨_, t, hrun, hends.1, hends.2⟩
  · intro input text frames hholds hindex hframes
    obtain ⟨outcome, r, hrun, hends⟩ := (ends_parse hholds hindex hframes).exists
    -- progress of a loop is part of what makes a moment fair
    have hturns (hfair : r.Fair) :
        ∀ moment ∈ r.history, ∀ passed, moment.event = .turns passed → 0 < passed := by
      intro moment hmoment
      obtain ⟨later, earlier, hhistory⟩ := List.append_of_mem hmoment
      have hall : AllFair (later ++ moment :: earlier) := hhistory ▸ hfair.allFair
      exact fun _ => hall.isFair.turns
    cases outcome with
    | ok root =>
      obtain ⟨hroot, hreports, hfair, -⟩ := hends
      exact ⟨_, r, hrun, ⟨hroot, hreports⟩, hturns hfair⟩
    | error interrupt =>
      obtain ⟨hinterrupt, hrefused, hfair⟩ := hends
      exact ⟨_, r, hrun, ⟨hinterrupt, hrefused⟩, hturns hfair⟩

/-- The text ends inside of a matrix, a bundle in braces and a string. -/
theorem scanning_and_parsing_end_at_open_matrix :
    let host := Host.ofChars "f"
    let text := "version 1.0\n\x7b x [1, \"2".toList
    (Scanner.start (text, 0)).Ready host ∧
      (∃ outcome t, Scanner.nextToken host (Scanner.start (text, 0)) = some (outcome, t) ∧
        t.Ready host) ∧
      ∃ outcome r, Reader.parse host 257 (Reader.start (text, 0)) = some (outcome, r) ∧
        ∀ moment ∈ r.history, ∀ passed, moment.event = .turns passed → 0 < passed := by
  intro host text
  have hholds : host.source.Holds (text, 0) text := CharSource.holds_ofChars text 0
  have hready : (Scanner.start (text, 0)).Ready host := ⟨rfl, text, hholds⟩
  obtain ⟨htoken, hparse⟩ := scanning_and_parsing_end host
  obtain ⟨outcome, t, hrun, hready', -⟩ := htoken _ hready
  obtain ⟨outcome', r, hrun', -, hturns⟩ := hparse (text, 0) text 257 hholds rfl (by decide)
  exact ⟨hready, ⟨outcome, t, hrun, hready'⟩, outcome', r, hrun', hturns⟩

end Cqasm.Machine
