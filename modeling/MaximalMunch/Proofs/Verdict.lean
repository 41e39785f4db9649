import MaximalMunch.Proofs.Oracle
import MaximalMunch.Proofs.Relocation

/-! What becomes of a list of patterns. All of them are built in one graph, and yet each is accepted
or refused as it is on its own: the first faulty one is reported, and a list without faulty ones is
refused only if it is empty. Each end of the joint automaton belongs to one of the patterns. -/

namespace MaximalMunch

theorem map_eq_error_iff {ε α β : Type} {x : Except ε α} {f : α → β} {e : ε} :
    x.map f = .error e ↔ x = .error e := by
  cases x with
  | error e' => simp [Except.map]
  | ok a => simp [Except.map]

/-- A word is matched by an end that it leads to. -/
theorem Dfa.exists_mem_ends {d : Dfa} {w : Bytes} (h : d.isMatch w = true) :
    ∃ q ∈ d.ends, d.walk? d.start w = some q := by
  obtain ⟨q, hwalk, haccept⟩ := (Option.any_eq_true _ _).1 h
  have hlt : q < d.size := by
    by_contra hge
    have hnone : d.state? q = none := Array.getElem?_eq_none (Nat.le_of_not_lt hge)
    rw [isAccept, hnone] at haccept
    cases haccept
  exact ⟨q, List.mem_filter.2 ⟨List.mem_range.2 hlt, haccept⟩, hwalk⟩

/-- A pattern that is accepted on its own. -/
def Accepted (text : String) : Prop := ∃ c, (Graph.empty.addWritten text).2 = .ok c

/-- A pattern that is refused on its own. -/
def Refused (text : String) (fault : SyntaxError) : Prop :=
  (Graph.empty.addWritten text).2 = .error fault

/-- Of some patterns, the one at an index is refused, and all before it are accepted. -/
structure FirstFault (texts : List String) (index : Nat) (text : String) (fault : SyntaxError) :
    Prop where
  place : texts[index]? = some text
  refused : Refused text fault
  before : ∀ i < index, ∀ earlier, texts[i]? = some earlier → Accepted earlier

variable {text first : String} {texts rest : List String} {index i : Nat} {fault : SyntaxError}

theorem accepted_of_parse {p : Pattern} (h : Pattern.parse text = .ok p) :
    Accepted text := by
  unfold Pattern.parse at h
  unfold Accepted Graph.addWritten
  cases hread : Pattern.read (bytesOf text) with
  | error failure =>
    rw [hread] at h
    cases h
  | ok p => exact ⟨_, rfl⟩

theorem Accepted.not_refused (h : Accepted text) : ¬ Refused text fault := by
  obtain ⟨c, hc⟩ := h
  intro hrefused
  rw [Refused, hc] at hrefused
  cases hrefused

theorem accepted_or_refused (text : String) : Accepted text ∨ ∃ fault, Refused text fault := by
  cases h : (Graph.empty.addWritten text).2 with
  | error fault => exact Or.inr ⟨fault, h⟩
  | ok c => exact Or.inl ⟨c, h⟩

namespace Graph

variable {g : Graph}

/-- The verdict on a written pattern is the same in every graph. -/
theorem addWritten_verdict (g : Graph) (text : String) :
    (g.addWritten text).2 = (empty.addWritten text).2.map (·.shift g.size) := by
  have h := addWritten_append (g := g) (h := empty) text
  rw [append_empty] at h
  rw [h]

theorem addWritten_of_accepted (h : Accepted text) : ∃ k c, g.addWritten text = (k, .ok c) := by
  obtain ⟨c, hc⟩ := h
  have hverdict := g.addWritten_verdict text
  rw [hc] at hverdict
  exact ⟨_, _, Prod.ext rfl hverdict⟩

theorem addWritten_of_refused (h : Refused text fault) :
    ∃ k, g.addWritten text = (k, .error fault) := by
  have hverdict := g.addWritten_verdict text
  rw [h] at hverdict
  exact ⟨_, Prod.ext rfl hverdict⟩

end Graph

/-! ## The first fault -/

theorem firstFault_zero (h : FirstFault (first :: rest) 0 text fault) :
    first = text ∧ Refused first fault := by
  obtain rfl := Option.some.inj h.place
  exact ⟨rfl, h.refused⟩

theorem firstFault_succ : FirstFault (first :: rest) (i + 1) text fault ↔
    Accepted first ∧ FirstFault rest i text fault := by
  constructor
  · intro h
    exact ⟨h.before 0 (Nat.succ_pos i) first rfl, h.place, h.refused,
      fun j hj => h.before (j + 1) (Nat.succ_lt_succ hj)⟩
  · rintro ⟨hfirst, h⟩
    refine ⟨h.place, h.refused, fun j hj earlier hearlier => ?_⟩
    cases j with
    | zero => exact Option.some.inj hearlier ▸ hfirst
    | succ j => exact h.before j (Nat.lt_of_succ_lt_succ hj) earlier hearlier

theorem all_accepted_or_firstFault (texts : List String) :
    (∀ text ∈ texts, Accepted text) ∨ ∃ index text fault, FirstFault texts index text fault := by
  induction texts with
  | nil => exact Or.inl (by simp)
  | cons first rest ih =>
    rcases accepted_or_refused first with hfirst | ⟨fault, hfirst⟩
    · rcases ih with hrest | ⟨index, text, fault, h⟩
      · exact Or.inl (List.forall_mem_cons.2 ⟨hfirst, hrest⟩)
      · exact Or.inr ⟨index + 1, text, fault, firstFault_succ.2 ⟨hfirst, h⟩⟩
    · exact Or.inr ⟨0, first, fault, rfl, hfirst, fun i hi => absurd hi (Nat.not_lt_zero i)⟩

namespace CompiledPatterns

variable {g : Graph} {c : Component} {e : BuildError} {patterns : List (String × Symbol)} {q : Nat}

/-- Patterns are added up to the first that is refused. -/
theorem addAll_of_firstFault (h : FirstFault texts i text fault) :
    addAll g index texts = .error (.pattern (index + i) text fault) := by
  induction texts generalizing g index i with
  | nil => cases h.place
  | cons first rest ih =>
    cases i with
    | zero =>
      obtain ⟨rfl, hrefused⟩ := firstFault_zero h
      obtain ⟨k, hk⟩ := Graph.addWritten_of_refused (g := g) hrefused
      rw [addAll, hk]
      rfl
    | succ i =>
      obtain ⟨hfirst, hrest⟩ := firstFault_succ.1 h
      obtain ⟨k, c, hk⟩ := Graph.addWritten_of_accepted (g := g) hfirst
      rw [addAll, hk]
      simp only [ih hrest]
      rw [Nat.add_assoc, Nat.add_comm 1 i]

theorem addAll_of_accepted (g : Graph) (index : Nat) (h : ∀ text ∈ texts, Accepted text) :
    ∃ added, addAll g index texts = .ok added := by
  induction texts generalizing g index with
  | nil => exact ⟨_, rfl⟩
  | cons first rest ih =>
    obtain ⟨hfirst, hrest⟩ := List.forall_mem_cons.1 h
    obtain ⟨k, c, hk⟩ := Graph.addWritten_of_accepted (g := g) hfirst
    obtain ⟨added, hadded⟩ := ih (k.setPriority c.stop index) (index + 1) hrest
    rw [addAll, hk]
    simp only [hadded]
    exact ⟨_, rfl⟩

theorem join_of_firstFault (h : FirstFault texts i text fault) :
    join texts = .error (.pattern i text fault) := by
  rw [join, addAll_of_firstFault h, Nat.zero_add]

/-- All components carry a priority when they are joined, so that joining never fails. -/
theorem join_of_accepted (hne : texts ≠ []) (h : ∀ text ∈ texts, Accepted text) :
    ∃ joined, join texts = .ok joined := by
  obtain ⟨⟨g, cs⟩, hadd⟩ := addAll_of_accepted .empty 0 h
  obtain ⟨R, patterns, hpatterns, placed, _⟩ := addAll_placed hadd
  have hcs : cs ≠ [] := by
    rintro rfl
    cases patterns with
    | nil => exact hne (List.forall₂_nil_right_iff.1 hpatterns)
    | cons p patterns => cases placed
  obtain ⟨k, c, hjoin, _⟩ := placed.unionAllKeepingStops hcs
  exact ⟨(k, c), by rw [join, hadd]; simp only [hjoin]⟩

/-- A list of patterns is refused for its first fault, or because it is empty. -/
theorem ofList_error_iff : ofList patterns = .error e ↔ (patterns = [] ∧ e = .noPatterns) ∨
    ∃ i text fault, FirstFault (patterns.map (·.1)) i text fault ∧ e = .pattern i text fault := by
  rw [ofList, map_eq_error_iff]
  constructor
  · intro herror
    by_cases hne : patterns.map (·.1) = []
    · rw [hne] at herror
      cases herror
      exact Or.inl ⟨List.map_eq_nil_iff.1 hne, rfl⟩
    · rcases all_accepted_or_firstFault (patterns.map (·.1)) with hall | ⟨i, text, fault, h⟩
      · obtain ⟨joined, hok⟩ := join_of_accepted hne hall
        rw [hok] at herror
        cases herror
      · rw [join_of_firstFault h] at herror
        cases herror
        exact Or.inr ⟨i, text, fault, h, rfl⟩
  · rintro (⟨rfl, rfl⟩ | ⟨i, text, fault, h, rfl⟩)
    · rfl
    · exact join_of_firstFault h

/-- An accepting state of the joint automaton has the number of a pattern. -/
theorem join_priority (h : join texts = .ok (g, c)) (hq : q ∈ (g.automaton c).ends) :
    ∃ n < texts.length, (g.automaton c).priority q = some n := by
  have hcanonical := join_canonical h
  obtain ⟨hlt, haccept⟩ := List.mem_filter.1 hq
  obtain ⟨w, hw⟩ := hcanonical.reached q (List.mem_range.1 hlt)
  have hanswer := join_answer h w
  rw [hcanonical.answer_eq, Dfa.answerFrom, hw, Option.bind_some, if_pos haccept] at hanswer
  obtain ⟨n, hn, hpriority⟩ := Option.map_eq_some_iff.1 hanswer.symm
  exact ⟨n, (List.findIdx?_eq_some_iff_getElem.1 hn).1, hpriority.symm⟩

end CompiledPatterns

/-! ## Builders -/

/-- A setting of a builder other than its patterns. -/
inductive Setting
  | ignored (symbols : List Symbol)
  | lineComment (start : String)
  | blockComment (start stop : String)
  | newline (symbol : Symbol)
  | firstRow (row : UInt64)

namespace TokenizerBuilder

/-- Makes a setting. -/
def adjust (b : TokenizerBuilder) : Setting → TokenizerBuilder
  | .ignored symbols => b.withIgnored symbols
  | .lineComment start => b.withLineComment start
  | .blockComment start stop => b.withBlockComment start stop
  | .newline symbol => b.withNewline symbol
  | .firstRow row => b.withFirstRow row

/-- Makes several settings one after the other. -/
def adjustAll (b : TokenizerBuilder) (settings : List Setting) : TokenizerBuilder :=
  settings.foldl adjust b

variable {b : TokenizerBuilder} {patterns : List (String × Symbol)} {t : Tokenizer} {e : BuildError}
  {q : Nat}

/-- It does not matter whether settings are made before the patterns are given or after it. -/
theorem adjustAll_withPatterns (settings : List Setting) :
    (b.withPatterns patterns).adjustAll settings =
      (b.adjustAll settings).withPatterns patterns := by
  induction settings generalizing b with
  | nil => rfl
  | cons setting settings ih =>
    have hone : (b.withPatterns patterns).adjust setting =
        (b.adjust setting).withPatterns patterns := by
      cases setting <;> rfl
    rw [adjustAll, List.foldl_cons, hone]
    exact ih

theorem build_error_iff : (b.withPatterns patterns).build = .error e ↔
    (patterns = [] ∧ e = .noPatterns) ∨ ∃ i text fault,
      FirstFault (patterns.map (·.1)) i text fault ∧ e = .pattern i text fault := by
  rw [build, map_eq_error_iff]
  exact CompiledPatterns.ofList_error_iff

/-- Patterns that are accepted, if there are any, make a tokenizer. -/
theorem exists_build_ok (hne : patterns ≠ []) (h : ∀ p ∈ patterns, Accepted p.1) :
    ∃ t, (b.withPatterns patterns).build = .ok t := by
  cases hbuild : (b.withPatterns patterns).build with
  | ok t => exact ⟨t, rfl⟩
  | error e =>
    rcases build_error_iff.1 hbuild with ⟨hnil, _⟩ | ⟨i, text, fault, hfault, _⟩
    · exact absurd hnil hne
    · obtain ⟨p, hp, rfl⟩ := List.mem_map.1 (List.mem_of_getElem? hfault.place)
      exact absurd hfault.refused (h p hp).not_refused

theorem isError_iff : b.isError = true ↔ ∃ e, b.build = .error e := by
  unfold isError build
  cases b.compiled with
  | error e => exact iff_of_true rfl ⟨e, rfl⟩
  | ok compiled => exact iff_of_false nofun nofun

theorem build_ends (h : (b.withPatterns patterns).build = .ok t) (hq : q ∈ t.dfa.ends) :
    ∃ (n : Nat) (hn : n < patterns.length),
      t.dfa.priority q = some n ∧ t.symbolFor? n = some patterns[n].2 := by
  obtain ⟨_, hsymbols, g, c, hjoin, hdfa⟩ := build_ok h
  rw [hdfa] at hq
  obtain ⟨n, hn, hpriority⟩ := CompiledPatterns.join_priority hjoin hq
  rw [List.length_map] at hn
  refine ⟨n, hn, hdfa ▸ hpriority, ?_⟩
  rw [Tokenizer.symbolFor?, hsymbols, List.getElem?_toArray, List.getElem?_map,
    List.getElem?_eq_getElem hn, Option.map_some]

/-- Whatever else is set before or after the patterns are given, building fails just if there are
none or one is refused on its own. The error names the first of these with its own fault, and none
is about priorities. If building succeeds, each end of the automaton has the number of a pattern,
which has a symbol. -/
theorem build_verdict (b : TokenizerBuilder) (patterns : List (String × Symbol))
    (settings : List Setting) :
    let adjusted := (b.withPatterns patterns).adjustAll settings
    (∀ e, adjusted.build = .error e ↔ (patterns = [] ∧ e = .noPatterns) ∨ ∃ i text fault,
      FirstFault (patterns.map (·.1)) i text fault ∧ e = .pattern i text fault) ∧
    (adjusted.isError = true ↔ ∃ e, adjusted.build = .error e) ∧
    (∀ source, adjusted.build ≠ .error (.priority source)) ∧
    ∀ t, adjusted.build = .ok t → ∀ q ∈ t.dfa.ends, ∃ (n : Nat) (hn : n < patterns.length),
      t.dfa.priority q = some n ∧ t.symbolFor? n = some patterns[n].2 := by
  intro adjusted
  have heq : adjusted = (b.adjustAll settings).withPatterns patterns :=
    adjustAll_withPatterns settings
  rw [heq]
  refine ⟨fun e => build_error_iff, isError_iff, fun source h => ?_,
    fun t h q hq => build_ends h hq⟩
  rcases build_error_iff.1 h with ⟨_, he⟩ | ⟨_, _, _, _, he⟩
  · cases he
  · cases he

theorem build_verdict_bracket :
    (((({} : TokenizerBuilder).withPatterns [("a", .own 1 "A"), ("(b", .own 2 "B"),
      ("*", .own 3 "C")]).adjustAll [.firstRow 0]).build =
        .error (.pattern 1 "(b" (.unmatchedOpenParen 0))) ∧
    ∃ t, ((({} : TokenizerBuilder).withPatterns [("a", .own 1 "A")]).adjustAll
      [.firstRow 0]).build = .ok t ∧ ∃ q ∈ t.dfa.ends, t.dfa.priority q = some 0 := by
  constructor
  · have hfault : FirstFault ["a", "(b", "*"] 1 "(b" (.unmatchedOpenParen 0) := by
      refine ⟨rfl, by unfold Refused; decide +kernel, fun i hi earlier hearlier => ?_⟩
      obtain rfl := Nat.lt_one_iff.1 hi
      obtain rfl := Option.some.inj hearlier
      exact exists_eq_ok (by decide +kernel)
    exact ((build_verdict {} _ _).1 _).2 (Or.inr ⟨_, _, _, hfault, rfl⟩)
  · obtain ⟨t, h⟩ : ∃ t, ((({} : TokenizerBuilder).withPatterns [("a", .own 1 "A")]).adjustAll
        [.firstRow 0]).build = .ok t :=
      exists_eq_ok (by decide +kernel)
    have hmatch : t.dfa.isMatch [97] = true := by
      have hanswer := build_answer (b := ({} : TokenizerBuilder).adjustAll [.firstRow 0]) h [97]
      have ha : Pattern.textMatches "a" [97] = decide (([97] : Bytes) = [97]) :=
        Pattern.textMatches_byte (by decide +kernel) [97]
      rw [Dfa.isMatch_eq_isSome, hanswer, CompiledPatterns.leastMatch]
      simp [ha]
    obtain ⟨q, hq, _⟩ := Dfa.exists_mem_ends hmatch
    obtain ⟨n, hn, hpriority, _⟩ := (build_verdict {} _ _).2.2.2 t h q hq
    obtain rfl := Nat.lt_one_iff.1 hn
    exact ⟨t, h, q, hq, hpriority⟩

end TokenizerBuilder

end MaximalMunch
