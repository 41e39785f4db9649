import MaximalMunch.Dfa
import MaximalMunch.Nfa
import MaximalMunch.Proofs.Dashes
import MaximalMunch.Proofs.Lists

/-! The lines of automaton dumps. The blanks around a label can be found, so that a line tells the
two states it prints and the text of the label between them. -/

namespace MaximalMunch

open ByteSet (DashTwins)

/-! ## Parts of a line -/

theorem Tag.blank_not_mem_text (t : Tag) : ' ' ∉ t.text.toList := by
  obtain ⟨isStart, isAccept⟩ := t
  cases isStart <;> cases isAccept <;> decide

theorem blank_not_mem_toDigits (n : Nat) : ' ' ∉ Nat.toDigits 10 n := by
  intro h
  exact absurd (Nat.isDigit_of_mem_toDigits (by decide) (by decide) h) (by decide)

theorem blank_not_mem_stateText (n : Nat) (t : Tag) (p : Priority) :
    ' ' ∉ (stateText n t p).toList := by
  unfold stateText
  cases p with
  | none => simp [t.blank_not_mem_text, blank_not_mem_toDigits]
  | some m => simp [t.blank_not_mem_text, blank_not_mem_toDigits]

theorem Nfa.blank_not_mem_nodeText (a : Nfa) (i : Nat) : ' ' ∉ (a.nodeText i).toList := by
  unfold nodeText
  split
  · exact blank_not_mem_stateText _ _ _
  · simp

theorem Dfa.blank_not_mem_stateText (d : Dfa) (q : Nat) : ' ' ∉ (d.stateText q).toList := by
  unfold stateText
  split
  · exact MaximalMunch.blank_not_mem_stateText _ _ _
  · simp

theorem toList_edgeText (source label target : String) : (edgeText source label target).toList =
    source.toList ++ ' ' :: ((['-', '-'] ++ label.toList ++ ['-', '-', '>']) ++
      ' ' :: (target.toList ++ ['\n'])) := by
  simp [edgeText, String.toList_append]

/-- A line between states without blanks in their text tells its three parts. -/
theorem edgeText_inj {source source' label label' target target' : String}
    (hs : ' ' ∉ source.toList) (hs' : ' ' ∉ source'.toList)
    (ht : ' ' ∉ target.toList) (ht' : ' ' ∉ target'.toList) :
    edgeText source label target = edgeText source' label' target' ↔
      source = source' ∧ label = label' ∧ target = target' := by
  have hend : ∀ {u : String}, ' ' ∉ u.toList → ' ' ∉ u.toList ++ ['\n'] := by
    intro u hu
    simp [hu]
  rw [← String.toList_inj, toList_edgeText, toList_edgeText, append_cons_inj_of_first hs hs',
    append_cons_inj_of_last (hend ht) (hend ht'), List.append_left_inj, List.append_left_inj,
    List.append_right_inj]
  simp only [String.toList_inj]

/-- Only a silent edge has the text of silent edges. -/
theorem Edge.text_eq_iff {e e' : Edge} : e.text = e'.text ↔ e.label.text = e'.label.text := by
  have hsilent : ∀ {e : Edge}, e.isSilent = true → e.label = ∅ := fun h => ByteSet.isEmpty_iff.1 h
  have hbracket : ∀ s : ByteSet, "eps" ≠ s.text := by
    intro s h
    have hspelling : ['e', 'p', 's'] = s.spelling := String.ofList_injective h
    cases hspelling
  -- Without a dash, the empty set shares its text with no other.
  have hne : ∀ {e e' : Edge}, e.isSilent = true → ¬ e'.isSilent = true →
      e.label.text ≠ e'.label.text := by
    intro e e' h h' htext
    rw [hsilent h, ByteSet.text_eq_iff_of_not_mem_dash ByteSet.not_mem_empty] at htext
    exact h' (ByteSet.isEmpty_iff.2 htext.symm)
  unfold text
  by_cases h : e.isSilent = true <;> by_cases h' : e'.isSilent = true
  · rw [if_pos h, if_pos h', hsilent h, hsilent h']
    simp
  · rw [if_pos h, if_neg h']
    exact iff_of_false (hbracket _) (hne h h')
  · rw [if_neg h, if_pos h']
    exact iff_of_false (hbracket _).symm (hne h' h).symm
  · rw [if_neg h, if_neg h']

/-! ## Lines and masks -/

/-- The text of a byte set tells the set, and a line of a dump the mask of its edge and the text of
the states it joins, up to what one dash stands for. -/
theorem ByteSet.text_identifies_up_to_dash :
    (∀ s t : ByteSet, s.text = t.text ↔ s = t ∨ DashTwins s t ∨ DashTwins t s) ∧
      (∀ s t : ByteSet, ¬ 45 ∈ s → (s.text = t.text ↔ s = t)) ∧
      (∀ (a a' : Nfa) (i i' : Nat) (e e' : Edge), a.edgeText i e = a'.edgeText i' e' ↔
        a.nodeText i = a'.nodeText i' ∧
          (e.label = e'.label ∨ DashTwins e.label e'.label ∨ DashTwins e'.label e.label) ∧
          a.nodeText e.target = a'.nodeText e'.target) ∧
      ∀ (d d' : Dfa) (q q' r r' : Nat) (s t : ByteSet), d.edgeText q s r = d'.edgeText q' t r' ↔
        d.stateText q = d'.stateText q' ∧ (s = t ∨ DashTwins s t ∨ DashTwins t s) ∧
          d.stateText r = d'.stateText r' := by
  refine ⟨fun s t => ByteSet.text_eq_iff, fun s t h => ByteSet.text_eq_iff_of_not_mem_dash h,
    fun a a' i i' e e' => ?_, fun d d' q q' r r' s t => ?_⟩
  · rw [Nfa.edgeText, Nfa.edgeText, edgeText_inj (a.blank_not_mem_nodeText i)
      (a'.blank_not_mem_nodeText i') (a.blank_not_mem_nodeText _) (a'.blank_not_mem_nodeText _),
      Edge.text_eq_iff, ByteSet.text_eq_iff]
  · rw [Dfa.edgeText, Dfa.edgeText, edgeText_inj (d.blank_not_mem_stateText q)
      (d'.blank_not_mem_stateText q') (d.blank_not_mem_stateText r) (d'.blank_not_mem_stateText r'),
      ByteSet.text_eq_iff]

/-- The bytes from `+` to `/` print like the three `+`, `-` and `/`. -/
theorem ByteSet.text_of_joint_or_member :
    (range 43 47).text = (ofList [43, 45, 47]).text ∧ range 43 47 ≠ ofList [43, 45, 47] := by
  refine ⟨congrArg String.ofList ?_, by decide⟩
  show spelling _ = spelling _
  decide +kernel

end MaximalMunch
