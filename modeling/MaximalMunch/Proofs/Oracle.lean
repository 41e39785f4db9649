import MaximalMunch.Check
import MaximalMunch.Proofs.CanonicalForm
import MaximalMunch.Proofs.Longest

/-! The token at a cursor. The joint automaton of a pattern list finds what running the separate
automata of the patterns one after the other finds: the longest match, by the earliest pattern. -/

namespace MaximalMunch

namespace Check

variable {input : Bytes} {best : Option (Nat × Nat)} {ds : List Dfa} {d : Dfa}

/-- The index of the first automaton that accepts a word. -/
def firstMatch (ds : List Dfa) (w : Bytes) : Option Nat := ds.findIdx? fun d => d.isMatch w

theorem firstMatch_snoc (ds : List Dfa) (d : Dfa) (w : Bytes) : firstMatch (ds ++ [d]) w =
    (firstMatch ds w).or (if d.isMatch w then some ds.length else none) := by
  unfold firstMatch
  rw [List.findIdx?_append, List.findIdx?_singleton]
  cases d.isMatch w <;> cases ds.findIdx? (fun d => d.isMatch w) <;> simp

/-- One more automaton is taken into account. -/
theorem longer_spec (h : IsLongest 1 (firstMatch ds) input best) :
    IsLongest 1 (firstMatch (ds ++ [d])) input
      (longer best ((d.longestMatch input).map (·.1)) ds.length) := by
  have hspec := d.longestMatch_spec input
  have hnone : ∀ w, d.answer w = none → firstMatch (ds ++ [d]) w = firstMatch ds w := by
    intro w hw
    rw [firstMatch_snoc, Dfa.isMatch_eq_isSome, hw]
    simp
  cases hfound : d.longestMatch input with
  | none =>
    rw [hfound] at hspec
    exact h.congr fun n _ hn => hnone _ (hspec n (Nat.zero_le n) hn)
  | some x =>
    obtain ⟨k, p⟩ := x
    rw [hfound] at hspec
    obtain ⟨_, hk, hp, hlonger⟩ := hspec
    cases k with
    | zero => exact h.congr fun n hpos hn => hnone _ (hlonger n hpos hn)
    | succ k =>
      have hnew : firstMatch ds (input.take (k + 1)) = none →
          firstMatch (ds ++ [d]) (input.take (k + 1)) = some ds.length := by
        intro hold
        rw [firstMatch_snoc, hold, Dfa.isMatch_eq_isSome, hp]
        rfl
      have hbeyond : ∀ m, k + 1 < m → m ≤ input.length →
          firstMatch (ds ++ [d]) (input.take m) = firstMatch ds (input.take m) :=
        fun m hm hle => hnone _ (hlonger m hm hle)
      cases best with
      | none =>
        have hold := h (k + 1) (by omega) hk
        show IsLongest 1 _ _ (some (k + 1, ds.length))
        refine ⟨by omega, hk, hnew hold, fun m hm hle => ?_⟩
        rw [hbeyond m hm hle, h m (by omega) hle]
      | some y =>
        obtain ⟨n, i⟩ := y
        obtain ⟨hpos, hn, hi, hold⟩ := h
        simp only [longer, Option.map_some]
        split
        · rename_i hlt
          refine ⟨by omega, hk, hnew (hold _ hlt hk), fun m hm hle => ?_⟩
          rw [hbeyond m hm hle, hold m (by omega) hle]
        · refine ⟨hpos, hn, by rw [firstMatch_snoc, hi]; rfl, fun m hm hle => ?_⟩
          rw [hbeyond m (by omega) hle, hold m hm hle]

/-- The match found so far is that of the automata already run. -/
theorem longestAmong_spec {before : List Dfa} (ds : List Dfa)
    (h : IsLongest 1 (firstMatch before) input best) :
    IsLongest 1 (firstMatch (before ++ ds)) input (longestAmong input best before.length ds) := by
  induction ds generalizing before best with
  | nil => rwa [List.append_nil]
  | cons d ds ih =>
    have hstep := ih (longer_spec (d := d) h)
    rw [List.append_assoc, List.singleton_append, List.length_append, List.length_singleton]
      at hstep
    exact hstep

/-- The oracle finds the longest non-empty match and the first automaton that has it. -/
theorem oracle_spec (ds : List Dfa) (input : Bytes) :
    IsLongest 1 (firstMatch ds) input (oracle ds input) := by
  have hstart : IsLongest 1 (firstMatch []) input none := fun _ _ _ => rfl
  exact longestAmong_spec ds hstart

/-- Patterns that can be read can be compiled one by one. -/
theorem compileAll_ok {texts : List String} {patterns : List Pattern}
    (h : List.Forall₂ (fun text p => Pattern.read (bytesOf text) = .ok p) texts patterns) :
    compileAll texts = .ok (patterns.map Pattern.dfa) := by
  induction h with
  | nil => rfl
  | cons hp _ ih =>
    rw [compileAll, Pattern.compile_of_read hp, ih]
    rfl

theorem length_compileAll {texts : List String} (h : compileAll texts = .ok ds) :
    ds.length = texts.length := by
  induction texts generalizing ds with
  | nil =>
    cases h
    rfl
  | cons text texts ih =>
    rw [compileAll] at h
    split at h
    · cases h
    · cases hrest : compileAll texts with
      | error e =>
        rw [hrest] at h
        cases h
      | ok rest =>
        rw [hrest] at h
        cases h
        rw [List.length_cons, List.length_cons, ih hrest]

/-- What the oracle finds is within the input, and its index is that of an automaton. -/
theorem oracle_bounds {length i : Nat} (h : oracle ds input = some (length, i)) :
    length ≤ input.length ∧ i < ds.length := by
  have hspec := oracle_spec ds input
  rw [h] at hspec
  obtain ⟨_, hle, hindex, _⟩ := hspec
  exact ⟨hle, (List.findIdx?_eq_some_iff_getElem.1 hindex).1⟩

theorem firstMatch_dfa (patterns : List Pattern) (w : Bytes) :
    firstMatch (patterns.map Pattern.dfa) w = patterns.findIdx? fun p => p.nfa.isMatch w := by
  rw [firstMatch, List.findIdx?_map]
  congr 1
  exact funext fun p => p.dfa_isMatch w

end Check

/-! ## Tokens -/

theorem Cursor.pos_advance (c : Cursor) (bytes : Bytes) :
    (c.advance bytes).pos = c.pos + bytes.length := by
  unfold advance
  induction bytes generalizing c with
  | nil => rfl
  | cons b bytes ih =>
    rw [List.foldl_cons, ih, List.length_cons]
    have hstep : (c.step b).pos = c.pos + 1 := by
      unfold step
      split <;> rfl
    omega

namespace Tokenizer

variable {t : Tokenizer} {index : Bytes → Option Nat} {input : Bytes}

/-- The length of the match at the front of an input and the number of the pattern, if the automaton
answers numbers. -/
def numberAt (t : Tokenizer) (input : Bytes) : Option (Nat × Nat) :=
  match t.dfa.longestMatch input with
  | some (length + 1, priority) => priority.map (length + 1, ·)
  | _ => none

theorem numberAt_spec (h : ∀ w, t.dfa.answer w = (index w).map some) (input : Bytes) :
    IsLongest 1 index input (t.numberAt input) ∧ t.matchAt input =
      (t.numberAt input).map fun x => (x.1, (t.symbolFor? x.2).getD .error) := by
  have hnone : ∀ w, t.dfa.answer w = none → index w = none := by
    intro w hw
    rw [h, Option.map_eq_none_iff] at hw
    exact hw
  have hspec := t.dfa.longestMatch_spec input
  unfold numberAt matchAt
  cases hfound : t.dfa.longestMatch input with
  | none =>
    rw [hfound] at hspec
    exact ⟨fun n _ hn => hnone _ (hspec n (Nat.zero_le n) hn), rfl⟩
  | some x =>
    obtain ⟨k, p⟩ := x
    rw [hfound] at hspec
    obtain ⟨_, hk, hp, hlonger⟩ := hspec
    cases k with
    | zero => exact ⟨fun n hpos hn => hnone _ (hlonger n hpos hn), rfl⟩
    | succ k =>
      rw [h, Option.map_eq_some_iff] at hp
      obtain ⟨i, hi, rfl⟩ := hp
      refine ⟨⟨by omega, hk, hi, fun m hm hle => hnone _ (hlonger m hm hle)⟩, rfl⟩

end Tokenizer

namespace TokenizerBuilder

variable {b : TokenizerBuilder} {patterns : List (String × Symbol)} {t : Tokenizer}

/-- A tokenizer that is built from patterns has their joint automaton and their symbols. -/
theorem build_ok (h : (b.withPatterns patterns).build = .ok t) :
    t.newline = b.newline ∧ t.symbols = (patterns.map (·.2)).toArray ∧
      ∃ g c, CompiledPatterns.join (patterns.map (·.1)) = .ok (g, c) ∧ t.dfa = g.automaton c := by
  unfold build withPatterns at h
  simp only at h
  cases hlist : CompiledPatterns.ofList patterns with
  | error e =>
    rw [hlist] at h
    cases h
  | ok compiled =>
    rw [hlist] at h
    obtain ⟨g, c, hjoin, rfl⟩ := CompiledPatterns.ofList_ok hlist
    cases h
    exact ⟨rfl, rfl, g, c, hjoin, rfl⟩

/-- The automaton of a tokenizer answers the least index of a pattern that matches. -/
theorem build_answer (h : (b.withPatterns patterns).build = .ok t) (w : Bytes) :
    t.dfa.answer w = (CompiledPatterns.leastMatch (patterns.map (·.1)) w).map some := by
  obtain ⟨_, _, g, c, hjoin, hdfa⟩ := build_ok h
  rw [hdfa, CompiledPatterns.join_answer hjoin]

/-- Each pattern of a list that a tokenizer is built from compiles on its own, and the joint
automaton finds what the separate ones find. -/
theorem numberAt_eq_oracle (h : (b.withPatterns patterns).build = .ok t) :
    ∃ dfas, Check.compileAll (patterns.map (·.1)) = .ok dfas ∧ ∀ input,
      t.numberAt input = Check.oracle dfas input ∧
        t.matchAt input = (Check.oracle dfas input).map
          fun x => (x.1, (t.symbolFor? x.2).getD .error) := by
  obtain ⟨_, _, g, c, hjoin, _⟩ := build_ok h
  obtain ⟨parsed, _, _, hparsed, _⟩ := CompiledPatterns.join_region hjoin
  refine ⟨parsed.map Pattern.dfa, Check.compileAll_ok hparsed, fun input => ?_⟩
  obtain ⟨hnumber, hmatch⟩ := Tokenizer.numberAt_spec (build_answer h) input
  have horacle := Check.oracle_spec (parsed.map Pattern.dfa) input
  have hindex : Check.firstMatch (parsed.map Pattern.dfa) =
      CompiledPatterns.leastMatch (patterns.map (·.1)) := by
    funext w
    rw [Check.firstMatch_dfa, CompiledPatterns.leastMatch_eq hparsed]
  rw [hindex] at horacle
  have heq := hnumber.unique horacle
  exact ⟨heq, heq ▸ hmatch⟩

/-- A match at a cursor, by its length and the index of a pattern, as a token and the cursor behind
it. The newline symbol is shown as `\n`, others by their bytes; without a match, it is the error
token and the cursor stays. -/
def Shows (newline : Symbol) (symbols : List Symbol) (source : Bytes) (c : Cursor) :
    Option (Nat × Nat) → Token × Cursor → Prop
  | none, shown => shown = (⟨"", .error, c.row, c.column⟩, c)
  | some (length, i), (token, next) => ∃ symbol, symbols[i]? = some symbol ∧
      token = ⟨if symbol == newline then "\\n"
        else Utf8.decode ((source.drop c.pos).take length), symbol, c.row, c.column⟩ ∧
      next.pos = c.pos + length

/-- The token at a cursor is what running the separate automata of the patterns finds there: the
longest non-empty match, by the earliest pattern that has it, or the error token. -/
theorem nextToken_eq_oracle (b : TokenizerBuilder) (patterns : List (String × Symbol))
    (t : Tokenizer) (h : (b.withPatterns patterns).build = .ok t) :
    ∃ dfas, Check.compileAll (patterns.map (·.1)) = .ok dfas ∧
      ∀ (source : Bytes) (c : Cursor), c.pos ≤ source.length →
        Shows b.newline (patterns.map (·.2)) source c (Check.oracle dfas (source.drop c.pos))
          (t.nextToken source c) := by
  obtain ⟨hnewline, hsymbols, _⟩ := build_ok h
  obtain ⟨dfas, hdfas, hequal⟩ := numberAt_eq_oracle h
  refine ⟨dfas, hdfas, fun source c _ => ?_⟩
  obtain ⟨_, hmatch⟩ := hequal (source.drop c.pos)
  cases horacle : Check.oracle dfas (source.drop c.pos) with
  | none =>
    rw [horacle] at hmatch
    simp only [Shows, Tokenizer.nextToken, hmatch, Option.map_none]
  | some found =>
    obtain ⟨length, i⟩ := found
    obtain ⟨hle, hi⟩ := Check.oracle_bounds horacle
    rw [Check.length_compileAll hdfas, List.length_map] at hi
    have hsymbol : (patterns.map (·.2))[i]? = some (patterns[i]).2 := by
      rw [List.getElem?_map, List.getElem?_eq_getElem hi, Option.map_some]
    have hget : t.symbolFor? i = some (patterns[i]).2 := by
      rw [Tokenizer.symbolFor?, hsymbols, List.getElem?_toArray, hsymbol]
    rw [horacle, Option.map_some, hget, Option.getD_some] at hmatch
    simp only [Tokenizer.nextToken, hmatch, Tokenizer.tokenText, hnewline]
    refine ⟨(patterns[i]).2, hsymbol, rfl, ?_⟩
    rw [Cursor.pos_advance, List.length_take, Nat.min_eq_left hle]

theorem nextToken_eq_oracle_repeated : ∃ t dfas,
    (({} : TokenizerBuilder).withPatterns [("a", .own 1 "A"), ("a+", .own 2 "B")]).build = .ok t ∧
      Check.compileAll ["a", "a+"] = .ok dfas ∧ (Cursor.atStart 1).pos ≤ [97, 97, 98].length ∧
      Shows .lineFeed [.own 1 "A", .own 2 "B"] [97, 97, 98] (.atStart 1)
        (Check.oracle dfas [97, 97, 98]) (t.nextToken [97, 97, 98] (.atStart 1)) := by
  obtain ⟨t, h⟩ : ∃ t, (({} : TokenizerBuilder).withPatterns
      [("a", .own 1 "A"), ("a+", .own 2 "B")]).build = .ok t :=
    exists_eq_ok (by decide +kernel)
  obtain ⟨dfas, hdfas, hshows⟩ := nextToken_eq_oracle {} _ t h
  exact ⟨t, dfas, h, hdfas, Nat.zero_le 3, hshows [97, 97, 98] (.atStart 1) (Nat.zero_le 3)⟩

end TokenizerBuilder

end MaximalMunch
