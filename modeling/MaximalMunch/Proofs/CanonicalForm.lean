import MaximalMunch.Proofs.Join

/-! The automata of patterns and of pattern lists are a canonical form of what is matched, and there
are no smaller ones. -/

namespace MaximalMunch

/-- The automaton of a pattern list is that of the joint component. -/
theorem CompiledPatterns.ofList_ok {patterns : List (String × Symbol)} {t : CompiledPatterns}
    (h : ofList patterns = .ok t) : ∃ g c, join (patterns.map (·.1)) = .ok (g, c) ∧
      t = ⟨g.automaton c, (patterns.map (·.2)).toArray⟩ := by
  unfold ofList at h
  cases hj : join (patterns.map (·.1)) with
  | error e =>
    rw [hj] at h
    cases h
  | ok joined =>
    rw [hj] at h
    exact ⟨joined.1, joined.2, rfl, (Except.ok.inj h).symm⟩

/-! ## One automaton for each language -/

/-- Patterns that match the same words have the same automaton, in whatever graphs they are
compiled, and so have pattern lists in which each word has the same least matching index. -/
theorem compiled_eq_of_matches_eq :
    (∀ (g g' h h' : Graph) (text text' : String) (d d' : Dfa),
      g.compileWritten text = (h, .ok d) → g'.compileWritten text' = (h', .ok d') →
      (∀ w, Pattern.textMatches text w = Pattern.textMatches text' w) → d = d') ∧
    ∀ (patterns patterns' : List (String × Symbol)) (t t' : CompiledPatterns),
      CompiledPatterns.ofList patterns = .ok t → CompiledPatterns.ofList patterns' = .ok t' →
      (∀ w, CompiledPatterns.leastMatch (patterns.map (·.1)) w =
        CompiledPatterns.leastMatch (patterns'.map (·.1)) w) → t.dfa = t'.dfa := by
  constructor
  · intro g g' h h' text text' d d' hd hd' hmatches
    obtain ⟨p, c, S, _, a, rfl, hown⟩ := Graph.compileWritten_ok hd
    obtain ⟨p', c', S', _, a', rfl, hown'⟩ := Graph.compileWritten_ok hd'
    refine (Graph.automaton_canonical a.region).unique (Graph.automaton_canonical a'.region) ?_
    intro w
    rw [a.automaton_answer, a'.automaton_answer, hown, hown', hmatches]
  · intro patterns patterns' t t' ht ht' hmatches
    obtain ⟨g, c, hjoin, rfl⟩ := CompiledPatterns.ofList_ok ht
    obtain ⟨g', c', hjoin', rfl⟩ := CompiledPatterns.ofList_ok ht'
    refine (CompiledPatterns.join_canonical hjoin).unique
      (CompiledPatterns.join_canonical hjoin') ?_
    intro w
    rw [CompiledPatterns.join_answer hjoin, CompiledPatterns.join_answer hjoin', hmatches]

/-- Evaluating shows that a computation succeeds, without showing its result. -/
theorem exists_eq_ok {ε α : Type} {x : Except ε α} (h : x.toOption.isSome = true) :
    ∃ a, x = .ok a := by
  cases x with
  | error e => cases h
  | ok a => exact ⟨a, rfl⟩

theorem eq_ok_of_map {ε α β : Type} {x : Except ε α} {f : α → β} {b : β} (h : x.map f = .ok b) :
    ∃ a, x = .ok a ∧ f a = b := by
  cases x with
  | error e => cases h
  | ok a => exact ⟨a, rfl, Except.ok.inj h⟩

/-- A choice between two bytes matches what the set of the two matches. -/
theorem textMatches_choice (w : Bytes) :
    Pattern.textMatches "a|b" w = Pattern.textMatches "[ab]" w := by
  have hchoice : Pattern.read (bytesOf "a|b") =
      .ok (.alt (.atom (.singleton 97)) (.atom (.singleton 98))) := by
    decide +kernel
  have hset : Pattern.read (bytesOf "[ab]") = .ok (.atom (∅ ∪ .singleton 97 ∪ .singleton 98)) := by
    decide +kernel
  rw [Pattern.textMatches_of_read hchoice, Pattern.textMatches_of_read hset, Bool.eq_iff_iff,
    Pattern.nfa_isMatch_iff, Pattern.nfa_isMatch_iff, Pattern.reading_eq_language _ (by decide),
    Pattern.reading_eq_language _ (by decide)]
  constructor
  · rintro (⟨b, hb, rfl⟩ | ⟨b, hb, rfl⟩)
    · exact ⟨b, by simp_all, rfl⟩
    · exact ⟨b, by simp_all, rfl⟩
  · rintro ⟨b, hb, rfl⟩
    simp only [ByteSet.mem_union, ByteSet.not_mem_empty, false_or, ByteSet.mem_singleton] at hb
    rcases hb with rfl | rfl
    · exact Or.inl ⟨97, by simp, rfl⟩
    · exact Or.inr ⟨98, by simp, rfl⟩

theorem compiled_eq_of_matches_eq_choice :
    (∃ h h' d d', Graph.empty.compileWritten "a|b" = (h, .ok d) ∧
      Graph.empty.compileWritten "[ab]" = (h', .ok d') ∧
      (∀ w, Pattern.textMatches "a|b" w = Pattern.textMatches "[ab]" w) ∧ d = d') ∧
    ∃ t t', CompiledPatterns.ofList [("a|b", .own 1 "A")] = .ok t ∧
      CompiledPatterns.ofList [("[ab]", .own 1 "A")] = .ok t' ∧
      (∀ w, CompiledPatterns.leastMatch ["a|b"] w = CompiledPatterns.leastMatch ["[ab]"] w) ∧
      t.dfa = t'.dfa := by
  have hleast : ∀ w, CompiledPatterns.leastMatch ["a|b"] w =
      CompiledPatterns.leastMatch ["[ab]"] w := by
    intro w
    rw [CompiledPatterns.leastMatch, CompiledPatterns.leastMatch, List.findIdx?_cons,
      List.findIdx?_cons, textMatches_choice, List.findIdx?_nil]
  constructor
  · obtain ⟨d, hd⟩ : ∃ d, (Graph.empty.compileWritten "a|b").2 = .ok d :=
      exists_eq_ok (by decide +kernel)
    obtain ⟨d', hd'⟩ : ∃ d, (Graph.empty.compileWritten "[ab]").2 = .ok d :=
      exists_eq_ok (by decide +kernel)
    have hc : Graph.empty.compileWritten "a|b" = (_, .ok d) := Prod.ext rfl hd
    have hc' : Graph.empty.compileWritten "[ab]" = (_, .ok d') := Prod.ext rfl hd'
    exact ⟨_, _, d, d', hc, hc', textMatches_choice,
      compiled_eq_of_matches_eq.1 _ _ _ _ _ _ _ _ hc hc' textMatches_choice⟩
  · obtain ⟨t, ht⟩ : ∃ t, CompiledPatterns.ofList [("a|b", .own 1 "A")] = .ok t :=
      exists_eq_ok (by decide +kernel)
    obtain ⟨t', ht'⟩ : ∃ t, CompiledPatterns.ofList [("[ab]", .own 1 "A")] = .ok t :=
      exists_eq_ok (by decide +kernel)
    exact ⟨t, t', ht, ht', hleast, compiled_eq_of_matches_eq.2 _ _ _ _ ht ht' hleast⟩

/-! ## Minimality -/

/-- An automaton that gives certain answers, has no more states than any other one that does, and
whose states are all reached, lead to accepting ones and are told apart by words. -/
structure Dfa.Minimum (d : Dfa) (answers : Bytes → Option Priority) : Prop where
  right : ∀ w, d.answer w = answers w
  least : ∀ (σ : Type) [Fintype σ] (m : Acceptor σ), (∀ w, m.answer w = answers w) →
    d.size ≤ Fintype.card σ
  reached : ∀ q < d.size, ∃ w, d.walk? d.start w = some q
  live : ∀ q < d.size, ∃ w r, d.walk? q w = some r ∧ d.isAccept r = true
  distinct : ∀ q < d.size, ∀ r < d.size, q ≠ r → ∃ w, d.answerFrom q w ≠ d.answerFrom r w

theorem Dfa.Canonical.minimum {d : Dfa} (h : d.Canonical) {answers : Bytes → Option Priority}
    (right : ∀ w, d.answer w = answers w) : d.Minimum answers where
  right := right
  least σ _ m hm := h.size_le_card m fun w => (hm w).trans (right w).symm
  reached q hq := by
    rw [h.start]
    exact h.reached q hq
  live q hq := by
    obtain ⟨w, hw⟩ := h.live q hq
    unfold answerFrom at hw
    cases hr : d.walk? q w with
    | none => simp [hr] at hw
    | some r => exact ⟨w, r, hr, by simpa [hr] using hw⟩
  distinct q hq r hr hne := by
    by_contra hall
    push Not at hall
    exact hne (h.reduced q hq r hr hall)

/-- The automaton of a pattern is the least one that accepts what the pattern matches, and that of a
pattern list is the least one that answers the least matching index. -/
theorem compiled_minimum :
    (∀ (g h : Graph) (text : String) (d : Dfa), g.compileWritten text = (h, .ok d) →
      d.Minimum fun w => if Pattern.textMatches text w then some none else none) ∧
    ∀ (patterns : List (String × Symbol)) (t : CompiledPatterns),
      CompiledPatterns.ofList patterns = .ok t →
      t.dfa.Minimum fun w => (CompiledPatterns.leastMatch (patterns.map (·.1)) w).map some := by
  constructor
  · intro g h text d hd
    obtain ⟨p, c, S, _, a, rfl, hown⟩ := Graph.compileWritten_ok hd
    refine (Graph.automaton_canonical a.region).minimum fun w => ?_
    rw [a.automaton_answer, hown]
  · intro patterns t ht
    obtain ⟨g, c, hjoin, rfl⟩ := CompiledPatterns.ofList_ok ht
    exact (CompiledPatterns.join_canonical hjoin).minimum (CompiledPatterns.join_answer hjoin)

theorem compiled_minimum_star :
    (∃ h d, Graph.empty.compileWritten "(a|b)*" = (h, .ok d) ∧
      d.Minimum fun w => if Pattern.textMatches "(a|b)*" w then some none else none) ∧
    ∃ t, CompiledPatterns.ofList [("a", .own 1 "A"), ("(a|b)*", .own 2 "B")] = .ok t ∧
      t.dfa.Minimum fun w => (CompiledPatterns.leastMatch ["a", "(a|b)*"] w).map some := by
  constructor
  · obtain ⟨d, hd⟩ : ∃ d, (Graph.empty.compileWritten "(a|b)*").2 = .ok d :=
      exists_eq_ok (by decide +kernel)
    have hc : Graph.empty.compileWritten "(a|b)*" = (_, .ok d) := Prod.ext rfl hd
    exact ⟨_, d, hc, compiled_minimum.1 _ _ _ _ hc⟩
  · obtain ⟨t, ht⟩ : ∃ t, CompiledPatterns.ofList [("a", .own 1 "A"), ("(a|b)*", .own 2 "B")] =
        .ok t :=
      exists_eq_ok (by decide +kernel)
    exact ⟨t, ht, compiled_minimum.2 _ _ ht⟩

end MaximalMunch
