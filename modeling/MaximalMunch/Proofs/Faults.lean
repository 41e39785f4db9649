import MaximalMunch.Proofs.Calls

/-! Faults. A report of a fault is true of the source unless a pattern with the error symbol has
matched: such a match is taken for a missing one, and the report is about the byte behind it. -/

namespace MaximalMunch

theorem Delimiter.begins_take {d : Delimiter} {rest : Bytes} (h : d.begins rest = false)
    (n : Nat) : d.begins (rest.take n) = false := by
  rw [← Bool.not_eq_true] at h ⊢
  refine mt (fun htake => ?_) h
  exact List.isPrefixOf_iff_prefix.2
    ((List.isPrefixOf_iff_prefix.1 htake).trans (List.take_prefix n rest))

theorem TokenizerBuilder.build_settings {b : TokenizerBuilder} {t : Tokenizer}
    (h : b.build = .ok t) : t.lineComment = b.lineComment ∧ t.blockComment = b.blockComment ∧
      t.firstRow = b.firstRow := by
  obtain ⟨_, -, rfl⟩ := eq_ok_of_map h
  exact ⟨rfl, rfl, rfl⟩

namespace Tokenizer

variable {t : Tokenizer} {source rest w : Bytes} {c : Cursor} {length index : Nat}
  {symbol : Symbol} {texts : List String} {patterns : List (String × Symbol)}
  {fault : Scan.Fault}

theorem commentLength_eq_none_iff : t.commentLength rest = none ↔
    (∀ d, t.lineComment = some d → d.begins rest = false) ∧
      ∀ d closing, t.blockComment = some (d, closing) → d.begins rest = false := by
  have hfilter : t.commentLength rest = none ↔
      t.lineComment.filter (·.begins rest) = none ∧
        t.blockComment.filter (·.1.begins rest) = none := by
    unfold commentLength
    split <;> simp_all
  rw [hfilter, Option.filter_eq_none_iff, Option.filter_eq_none_iff]
  simp only [Bool.not_eq_true, Prod.forall]

/-- Where no comment begins, none begins in what stands in front. -/
theorem commentLength_take (h : t.commentLength rest = none) (n : Nat) :
    t.commentLength (rest.take n) = none := by
  rw [commentLength_eq_none_iff] at h ⊢
  exact ⟨fun d hd => Delimiter.begins_take (h.1 d hd) n,
    fun d closing hd => Delimiter.begins_take (h.2 d closing hd) n⟩

/-! ## True reports -/

/-- The faults of a source: those that a scan reports, and the one that lexing ends with. -/
def Faults (t : Tokenizer) (source : Bytes) (fault : Scan.Fault) : Prop :=
  (∃ n, (t.scan source).item t n = some (.error fault)) ∨ t.analyze source = .error fault

theorem Faults.place (h : t.Faults source fault) :
    ∃ c, t.Reaches source c ∧ t.Looks source c ∧ t.report source c = .error fault := by
  rcases h with ⟨n, hitem⟩ | hanalyze
  · obtain ⟨c, hreaches, hlooks, hreport⟩ := Scan.item_reports (.start t source) hitem
    exact ⟨c, hreaches, hlooks, hreport.symm⟩
  · exact Scan.collect_follows (.start t source) rfl hanalyze

end Tokenizer

end MaximalMunch
