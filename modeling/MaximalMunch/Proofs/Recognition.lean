import MaximalMunch.Proofs.Lists
import MaximalMunch.Proofs.Parsing

/-! The texts of patterns. The grammar is given once more as it is written, with repetitions and
without what its texts stand for; just the texts that it admits are read. -/

namespace MaximalMunch

namespace Grammar

variable {part : Nonterminal} {t u : Bytes} {p : Pattern} {parts : List Bytes}

/-- The texts of the parts of the grammar. A union is one concatenation or more with bars between
them, and a concatenation is one basic or more. -/
inductive Text : Nonterminal → Bytes → Prop
  | atom {t : Bytes} {s : Set UInt8} (h : Atom t s) : Text .primitive t
  | group {t : Bytes} (h : Text .union t) : Text .primitive (40 :: t ++ [41])
  | bare {t : Bytes} (h : Text .primitive t) : Text .basic t
  | quantified {t : Bytes} (h : Text .primitive t) (q : Quantifier) : Text .basic (t ++ [mark q])
  | concatenation {parts : List Bytes} (hne : parts ≠ []) (h : ∀ t ∈ parts, Text .basic t) :
    Text .concatenation parts.flatten
  | union {parts : List Bytes} (hne : parts ≠ []) (h : ∀ t ∈ parts, Text .concatenation t) :
    Text .union ([124].intercalate parts)

namespace Text

theorem single (h : Text .basic t) : Text .concatenation t := by
  have htext := Text.concatenation (List.cons_ne_nil t []) (List.forall_mem_singleton.2 h)
  rwa [List.flatten_singleton] at htext

/-- One more basic behind a concatenation. -/
theorem seq (h : Text .concatenation t) (h' : Text .basic u) : Text .concatenation (t ++ u) := by
  cases h with
  | @concatenation parts hne h =>
    have hall : ∀ v ∈ parts ++ [u], Text .basic v := by
      simp only [List.mem_append, List.mem_singleton]
      rintro v (hv | rfl)
      · exact h v hv
      · exact h'
    have htext := Text.concatenation (by simp) hall
    rwa [List.flatten_append, List.flatten_singleton] at htext

/-- One more concatenation behind a union and a bar. -/
theorem alt (h : Text .union t) (h' : Text .concatenation u) : Text .union (t ++ 124 :: u) := by
  cases h with
  | @union parts hne h =>
    have hall : ∀ v ∈ parts ++ [u], Text .concatenation v := by
      simp only [List.mem_append, List.mem_singleton]
      rintro v (hv | rfl)
      · exact h v hv
      · exact h'
    have htext := Text.union (by simp) hall
    rwa [intercalate_concat hne] at htext

end Text

/-- A text that stands for a pattern is one of the grammar. -/
theorem text_of_derives (h : Derives part t p) : Text part t := by
  induction h with
  | atom h => exact .atom h
  | group _ ih => exact .group ih
  | bare _ ih => exact .bare ih
  | quantified _ q ih => exact .quantified ih q
  | single _ ih => exact ih.single
  | seq _ _ ihl ihr => exact ihl.seq ihr
  | @choice t p _ ih =>
    have hall : ∀ v ∈ [t], Text .concatenation v := List.forall_mem_singleton.2 ih
    have htext := Text.union (by simp) hall
    rwa [List.intercalate_singleton] at htext
  | alt _ _ ihl ihr => exact ihl.alt ihr

/-- Basics one after the other stand for the sequence of their patterns. -/
theorem derives_flatten (hne : parts ≠ []) (h : ∀ t ∈ parts, ∃ p, Derives .basic t p) :
    ∃ p, Derives .concatenation parts.flatten p := by
  induction parts using List.reverseRecOn with
  | nil => exact absurd rfl hne
  | append_singleton parts u ih =>
    obtain ⟨q, hq⟩ := h u (by simp)
    rw [List.flatten_append, List.flatten_singleton]
    cases parts with
    | nil => exact ⟨q, .single hq⟩
    | cons t parts =>
      obtain ⟨p, hp⟩ := ih (by simp) fun v hv => h v (List.mem_append_left _ hv)
      exact ⟨_, .seq hp hq⟩

/-- Concatenations with bars between them stand for the choice of their patterns. -/
theorem derives_intercalate (hne : parts ≠ [])
    (h : ∀ t ∈ parts, ∃ p, Derives .concatenation t p) :
    ∃ p, Derives .union ([124].intercalate parts) p := by
  induction parts using List.reverseRecOn with
  | nil => exact absurd rfl hne
  | append_singleton parts u ih =>
    obtain ⟨q, hq⟩ := h u (by simp)
    cases parts with
    | nil =>
      rw [List.nil_append, List.intercalate_singleton]
      exact ⟨q, .choice hq⟩
    | cons t parts =>
      obtain ⟨p, hp⟩ := ih (by simp) fun v hv => h v (List.mem_append_left _ hv)
      rw [intercalate_concat (by simp)]
      exact ⟨_, .alt hp hq⟩

/-- A text of the grammar stands for a pattern. -/
theorem Text.derives (h : Text part t) : ∃ p, Derives part t p := by
  induction h with
  | @atom t s h =>
    obtain ⟨s, rfl⟩ := ByteSet.members_surjective s
    exact ⟨_, .atom h⟩
  | group _ ih =>
    obtain ⟨p, hp⟩ := ih
    exact ⟨_, .group hp⟩
  | bare _ ih =>
    obtain ⟨p, hp⟩ := ih
    exact ⟨_, .bare hp⟩
  | quantified _ q ih =>
    obtain ⟨p, hp⟩ := ih
    exact ⟨_, .quantified hp q⟩
  | concatenation hne _ ih => exact derives_flatten hne ih
  | union hne _ ih => exact derives_intercalate hne ih

theorem text_iff_derives : Text part t ↔ ∃ p, Derives part t p :=
  ⟨Text.derives, fun ⟨_, h⟩ => text_of_derives h⟩

end Grammar

/-- In any graph, a pattern is accepted if and only if its whole text is a union of the grammar. -/
theorem Graph.addWritten_ok_iff_text (g : Graph) (text : String) :
    (∃ h c, g.addWritten text = (h, .ok c)) ↔ Grammar.Text .union (bytesOf text) := by
  rw [Grammar.text_iff_derives]
  unfold addWritten
  constructor
  · rintro ⟨h, c, hadd⟩
    split at hadd
    · cases hadd
    · rename_i p hread
      exact ⟨p, Pattern.read_iff_derives.1 hread⟩
  · rintro ⟨p, hp⟩
    rw [Pattern.read_iff_derives.2 hp]
    exact ⟨_, _, rfl⟩

end MaximalMunch
