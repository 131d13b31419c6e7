import Cqasm.Proofs.Recovery.Program

/-!
# Where complaints lie

Each complaint of the grammar is about a token that reading came to, and whatever is complained
about next stands behind it (`Complaints`). This is kept by reading one thing after the other
(`Complaints.append`), so it holds of all complaints about a text (`Reading.errors_ofCursor`), with
a limit on them or without one.
-/

set_option autoImplicit false

namespace Cqasm

/-! ## Cursors -/

namespace Cursor

variable {c behind : Cursor} {token : Token} {ts : List Token}

theorem Ordered.offset_current_le (hc : c.Ordered) (h : token ∈ c.tokens ++ [c.last]) :
    c.current.start.offset ≤ token.start.offset := by
  obtain ⟨rest, hrest⟩ := c.append_eq_cons
  have hpairwise := hc.pairwise
  rw [hrest] at hpairwise h
  rcases List.mem_cons.1 h with rfl | h
  · exact Nat.le_refl _
  · exact Nat.le_of_lt ((List.pairwise_cons.1 hpairwise).1 token h).offset_lt

theorem Passes.offset_current_le (h : c.Passes ts behind) (hc : c.Ordered) :
    c.current.start.offset ≤ behind.current.start.offset := by
  refine hc.offset_current_le ?_
  rw [h.append_eq]
  exact List.mem_append_right _ behind.current_mem

/-- What is still to come behind the separators of a later cursor was still to come. -/
theorem Passes.mem_pastSeparators (h : c.Passes ts behind)
    (htoken : token ∈ behind.pastSeparators.tokens) : token ∈ c.pastSeparators.tokens := by
  rw [pastSeparators, h.tokens_eq, List.dropWhile_append]
  split
  · exact htoken
  · exact List.mem_append_right _ (mem_of_mem_pastSeparators htoken)

end Cursor

/-! ## Complaints about what was read -/

/-- Complaints that came up on the way from one cursor to another one. Each is about a token that is
not behind the second cursor, or about the one that reading ended in front of, which may be a
separator: what is complained about later stands behind the separators there. -/
structure Complaints (c behind : Cursor) (errors : List Diagnostic) : Prop where
  passes : ∃ ts, c.Passes ts behind
  about : ∀ e ∈ errors, ∃ token complaint, e = .misplaced token complaint ∧
    c.pastSeparators.tokens ≠ [] ∧ token ∈ c.pastSeparators.tokens ++ [c.last] ∧
    token.start.offset ≤ behind.current.start.offset ∧
    ∀ later ∈ behind.pastSeparators.tokens, token.start.Before later.start
  pairwise : errors.Pairwise fun a b => a.place.Before b.place

namespace Complaints

variable {c middle behind : Cursor} {errors errors' : List Diagnostic} {e e' : Diagnostic}

theorem nil {ts : List Token} (h : c.Passes ts behind) : Complaints c behind [] where
  passes := ⟨ts, h⟩
  about := by simp
  pairwise := .nil

/-- No complaint is about a separator in front of where reading began. -/
theorem of_pastSeparators (h : Complaints c.pastSeparators behind errors) :
    Complaints c behind errors where
  passes :=
    let ⟨_, hts⟩ := h.passes
    ⟨_, c.passes_pastSeparators.trans hts⟩
  about e he := by
    have habout := h.about e he
    rw [Cursor.pastSeparators_pastSeparators] at habout
    exact habout
  pairwise := h.pairwise

theorem le_offset (hc : c.Ordered) (h : Complaints c behind errors) (he : e ∈ errors) :
    c.current.start.offset ≤ e.offset := by
  obtain ⟨token, complaint, rfl, -, hmem, -, -⟩ := h.about e he
  have hpast := c.passes_pastSeparators
  exact Nat.le_trans (hpast.offset_current_le hc) ((hpast.ordered hc).offset_current_le hmem)

/-- A later complaint is about something further on, be it the end of the text. -/
theorem before (hc : c.Ordered) (h : Complaints c middle errors)
    (h' : Complaints middle behind errors') (he : e ∈ errors) (he' : e' ∈ errors') :
    e.place.Before e'.place := by
  obtain ⟨token, complaint, rfl, -, -, -, hlater⟩ := h.about e he
  obtain ⟨token', complaint', rfl, hne, hmem, -, -⟩ := h'.about e' he'
  rcases List.mem_append.1 hmem with hmem | hlast
  · exact hlater token' hmem
  · obtain rfl := List.mem_singleton.1 hlast
    obtain ⟨ts, hts⟩ := h.passes
    obtain ⟨first, rest, hfirst⟩ := List.exists_cons_of_ne_nil hne
    have hordered := middle.passes_pastSeparators.ordered (hts.ordered hc)
    have hpairwise := hordered.pairwise
    rw [hfirst] at hpairwise
    have hend : first.start.Before middle.last.start :=
      (List.pairwise_cons.1 hpairwise).1 _ (List.mem_append_right _ (List.mem_singleton.2 rfl))
    refine (hlater first ?_).trans hend
    rw [hfirst]
    exact List.mem_cons_self

theorem append (hc : c.Ordered) (h : Complaints c middle errors)
    (h' : Complaints middle behind errors') : Complaints c behind (errors ++ errors') := by
  obtain ⟨ts, hts⟩ := h.passes
  obtain ⟨us, hus⟩ := h'.passes
  refine ⟨⟨_, hts.trans hus⟩, fun e he => ?_, ?_⟩
  · rcases List.mem_append.1 he with he | he
    · obtain ⟨token, complaint, rfl, hne, hmem, hle, hlater⟩ := h.about e he
      refine ⟨token, complaint, rfl, hne, hmem, ?_, fun later hmem' => ?_⟩
      · exact Nat.le_trans hle (hus.offset_current_le (hts.ordered hc))
      · exact hlater later (hus.mem_pastSeparators hmem')
    · obtain ⟨token, complaint, rfl, hne, hmem, hle, hlater⟩ := h'.about e he
      obtain ⟨first, rest, hfirst⟩ := List.exists_cons_of_ne_nil hne
      refine ⟨token, complaint, rfl, ?_, ?_, hle, hlater⟩
      · exact List.ne_nil_of_mem (hts.mem_pastSeparators (hfirst ▸ List.mem_cons_self))
      · rw [← hts.last_eq]
        exact List.mem_append.2 ((List.mem_append.1 hmem).imp_left hts.mem_pastSeparators)
  · exact List.pairwise_append.2 ⟨h.pairwise, h'.pairwise, fun _ he _ he' => before hc h h' he he'⟩

/-! ## Reading with recovery -/

/-- What recovers complains at most once. It begins in front of a token that is no separator, unless
it succeeds. -/
theorem recover {α : Type} {p : Parser α} {placeholder : Location → α} {file : String}
    (hc : c.Ordered)
    (hbegin : (p.recover placeholder file c).error ≠ none →
      c.pastSeparators = c ∧ c.tokens ≠ []) :
    Complaints c (p.recover placeholder file c).cursor
      (p.recover placeholder file c).error.toList := by
  obtain ⟨us, hpasses⟩ := exists_passes_recover p placeholder file c
  rcases recover_cases p placeholder file c with ⟨value, behind, -, h⟩ |
    ⟨failure, stuck, ts, hts, h⟩
  · rw [h] at hpasses ⊢
    exact .nil hpasses
  · rw [h] at hpasses hbegin ⊢
    obtain ⟨hbegin, hne⟩ := hbegin (Option.some_ne_none _)
    obtain ⟨skipped, hskipped⟩ := stuck.exists_passes_skipStatement failure.openBraces
    have hstuck := hts.ordered hc
    refine ⟨⟨_, hpasses⟩, ?_, List.pairwise_singleton _ _⟩
    intro e he
    obtain rfl := List.mem_singleton.1 he
    refine ⟨stuck.current, failure.complaint, rfl, by rwa [hbegin], ?_, ?_, ?_⟩
    · rw [hbegin, hts.append_eq]
      exact List.mem_append_right _ stuck.current_mem
    · exact hskipped.offset_current_le hstuck
    · exact fun later hlater => hstuck.before_of_skipStatement hlater

end Complaints

section

variable {patience : Patience} {file : String} {c : Cursor}

/-- A complaint about the line of the version is about the token behind it. -/
theorem complaints_versionEnd (hc : c.Ordered) (hended : c.Ended)
    {placeholder : Location → List Statement} :
    Complaints c (Parser.versionEnd.recover placeholder file c).cursor
      (Parser.versionEnd.recover placeholder file c).error.toList := by
  refine .recover hc fun herror => ?_
  have hkind : c.kind.endsStatement = false := by
    rw [← Bool.not_eq_true]
    intro hend
    rw [Parser.recover_of_ok placeholder (run_versionEnd_eq_ok.2 ⟨hend, rfl, rfl⟩)] at herror
    exact herror rfl
  constructor
  · refine c.passes_nil.pastSeparators_eq (by simp [Grammar.Separators]) ?_
    rw [← Bool.not_eq_true]
    intro hseparator
    rw [Kind.endsStatement_of_isSeparator hseparator] at hkind
    cases hkind
  · intro hnil
    rw [hended.kind_eq_eof_iff.2 hnil] at hkind
    cases hkind

theorem complaints_readQubits (hc : c.Ordered) (hended : c.Ended) :
    Complaints c.pastSeparators (readQubits file c.pastSeparators).cursor
      (readQubits file c.pastSeparators).error.toList := by
  have hpast := c.passes_pastSeparators
  unfold readQubits
  by_cases hkind : c.pastSeparators.kind = .qubits
  · rw [if_pos hkind]
    refine .recover (hpast.ordered hc) fun _ => ⟨c.pastSeparators_pastSeparators, ?_⟩
    intro hnil
    rw [(hpast.ended hended).kind_eq_eof_iff.2 hnil] at hkind
    cases hkind
  · rw [if_neg hkind]
    exact .nil c.pastSeparators.passes_nil

theorem complaints_readStatements (patience : Patience) (file : String) (complaints : Nat)
    (hc : c.Ordered) :
    Complaints c (readStatements patience file complaints c).cursor
      (readStatements patience file complaints c).errors := by
  fun_induction readStatements patience file complaints c with
  | case1 complaints c h => exact .nil c.passes_pastSeparators
  | case2 complaints c token tokens h hexhausted => exact .nil c.passes_pastSeparators
  | case3 complaints c token tokens h hexhausted read rest ih =>
    have hc' := c.passes_pastSeparators.ordered hc
    have hread : Complaints c.pastSeparators read.cursor read.error.toList :=
      .recover hc' fun _ => ⟨c.pastSeparators_pastSeparators, by simp [h]⟩
    obtain ⟨ts, hts⟩ := hread.passes
    exact .of_pastSeparators (hread.append hc' (ih (hts.ordered hc')))

/-- What stands in front of the statements is complained about in the line of the version and in the
qubits clause. -/
theorem complaints_head (file : String) (placeholder : Location → List Statement)
    (hc : c.Ordered) (hended : c.Ended) :
    let broken := Parser.versionEnd.recover placeholder file c
    let qubits := readQubits file broken.cursor.pastSeparators
    Complaints c qubits.cursor (broken.error.toList ++ qubits.error.toList) := by
  intro broken qubits
  have hversion : Complaints c broken.cursor broken.error.toList := complaints_versionEnd hc hended
  obtain ⟨ts, hts⟩ := hversion.passes
  exact hversion.append hc
    (.of_pastSeparators (complaints_readQubits (hts.ordered hc) (hts.ended hended)))

theorem complaints_ofVersion {start : Location} {version : Version} (hc : c.Ordered)
    (hended : c.Ended) :
    ∃ behind, Complaints c behind (Reading.ofVersion patience file start version c).errors ∧
      (Reading.ofVersion patience file start version c).stop = behind.current := by
  have hhead := complaints_head file (fun range => [.erroneous range]) hc hended
  obtain ⟨ts, hts⟩ := hhead.passes
  exact ⟨_, hhead.append hc (complaints_readStatements patience file _ (hts.ordered hc)), rfl⟩

namespace Reading

/-- The complaints about a text come in the order of its tokens, and all are about tokens that were
read. -/
theorem errors_ofCursor (file : String) (patience : Patience) (hc : c.Ordered) (hended : c.Ended) :
    (∀ e ∈ (ofCursor patience file c).errors, ∃ token complaint, e = .misplaced token complaint ∧
      token ∈ c.tokens ++ [c.last] ∧
      token.start.offset ≤ (ofCursor patience file c).stop.start.offset) ∧
    (ofCursor patience file c).errors.Pairwise fun a b => a.place.Before b.place := by
  have hpast := c.passes_pastSeparators
  obtain ⟨ts, hts⟩ := Parser.version.passes file c.pastSeparators
  unfold ofCursor
  dsimp only
  -- Without a version there is one complaint and nothing else is read.
  cases hrun : Parser.version.run file c.pastSeparators with
  | ok version behind =>
    rw [hrun] at hts
    have hbefore := hpast.trans hts
    obtain ⟨last, hcomplaints, hstop⟩ := complaints_ofVersion (hbefore.ordered hc)
      (hbefore.ended hended)
    refine ⟨fun e he => ?_, hcomplaints.pairwise⟩
    obtain ⟨token, complaint, rfl, -, hmem, hle, -⟩ := hcomplaints.about e he
    refine ⟨token, complaint, rfl, ?_, hstop ▸ hle⟩
    rw [(hbefore.trans behind.passes_pastSeparators).append_eq]
    exact List.mem_append_right _ hmem
  | failed failure stuck =>
    rw [hrun] at hts
    have hbefore := hpast.trans hts
    refine ⟨fun e he => ?_, List.pairwise_singleton _ _⟩
    obtain rfl := List.mem_singleton.1 he
    refine ⟨stuck.current, failure.complaint, rfl, ?_, ?_⟩
    · rw [hbefore.append_eq]
      exact List.mem_append_right _ stuck.current_mem
    · -- Reading ended in front of that token or at the end of the text.
      unfold ofBrokenVersion
      dsimp only
      split
      · exact Nat.le_refl _
      · exact (hbefore.ordered hc).offset_current_le
          (List.mem_append_right _ (List.mem_singleton.2 rfl))

end Reading

end

end Cqasm
