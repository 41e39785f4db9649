import MaximalMunch.Proofs.Bindings
import MaximalMunch.Proofs.Calls
import MaximalMunch.Proofs.Verdict

/-! Lexing to kinds. Of a table that is read from a declaration, all patterns are well formed, so
that only a table without patterns has no tokenizer, and every token has a kind. -/

namespace MaximalMunch

/-! ## Symbols of tokens -/

namespace Scan

variable {t : Tokenizer} {patterns : List (String × Symbol)} {s next : Scan} {token : Token}
  {tokens : List Token}

theorem collect_symbols (r : t.Recognizes patterns) (h : s.collect t = .ok tokens) :
    ∀ token ∈ tokens, ∃ p ∈ patterns, token.symbol = p.2 := by
  fun_induction collect t s generalizing tokens with
  | case1 s hstep =>
    cases h
    simp
  | case2 s fault position hstep => cases h
  | case3 s next hstep ih => exact ih h
  | case4 s token next hstep ih =>
    obtain ⟨rest, hrest, rfl⟩ := eq_ok_of_map h
    obtain ⟨-, length, hmatch, -⟩ := step_eq_emit hstep
    obtain ⟨index, p, _, hp, hsymbol⟩ := r.exists_longest hmatch
    exact List.forall_mem_cons.2 ⟨⟨p, List.mem_of_getElem? hp, hsymbol⟩, ih hrest⟩

end Scan

/-! ## Tables of kinds -/

namespace Kinds

variable {κ : Type} {k : Kinds κ} {tokens : List Token}

/-- If all tokens have kinds, none is left out. -/
theorem pair_tokens (h : ∀ token ∈ tokens, (k.ofSymbol? token.symbol).isSome = true) :
    (k.pair tokens).map (·.2) = tokens := by
  induction tokens with
  | nil => rfl
  | cons token rest ih =>
    obtain ⟨hfirst, hrest⟩ := List.forall_mem_cons.1 h
    obtain ⟨kind, hkind⟩ := Option.isSome_iff_exists.1 hfirst
    have hpair : k.pair (token :: rest) = (kind, token) :: k.pair rest := by
      rw [pair, List.filterMap_cons, hkind]
      rfl
    rw [hpair, List.map_cons, ih hrest]

theorem ofSymbol?_of_mem_pair {p : κ × Token} (h : p ∈ k.pair tokens) :
    p.2 ∈ tokens ∧ k.ofSymbol? p.2.symbol = some p.1 := by
  obtain ⟨token, htoken, hp⟩ := List.mem_filterMap.1 h
  obtain ⟨kind, hkind, rfl⟩ := Option.map_eq_some_iff.1 hp
  exact ⟨htoken, hkind⟩

/-- The patterns with the symbols of their kinds. -/
def symbolPatterns (k : Kinds κ) : List (String × Symbol) :=
  k.patterns.map fun p => (p.1, k.symbol p.2)

theorem builder_compiled (k : Kinds κ) :
    k.builder.compiled = CompiledPatterns.ofList k.symbolPatterns := by
  unfold builder
  cases k.newline <;> cases k.lineComment <;> cases k.blockComment <;> rfl

theorem builder_withPatterns (k : Kinds κ) :
    k.builder.withPatterns k.symbolPatterns = k.builder := by
  rw [TokenizerBuilder.withPatterns, ← builder_compiled]

/-- If the patterns are well formed, there is no tokenizer just if there are none. -/
theorem tokenizer_error_iff (h : ∀ p ∈ k.patterns, Accepted p.1) {e : BuildError} :
    k.tokenizer = .error e ↔ k.patterns = [] ∧ e = .noPatterns := by
  rw [tokenizer, ← builder_withPatterns, TokenizerBuilder.build_error_iff, symbolPatterns,
    List.map_eq_nil_iff]
  constructor
  · rintro (hempty | ⟨i, text, fault, hfault, _⟩)
    · exact hempty
    · have hmem := List.mem_of_getElem? hfault.place
      rw [List.map_map] at hmem
      obtain ⟨p, hp, rfl⟩ := List.mem_map.1 hmem
      exact absurd hfault.refused (h p hp).not_refused
  · exact Or.inl

theorem tokenizer_recognizes {t : Tokenizer} (h : k.tokenizer = .ok t) :
    t.Recognizes k.symbolPatterns := by
  rw [tokenizer, ← builder_withPatterns] at h
  exact TokenizerBuilder.build_recognizes h

end Kinds

/-! ## Patterns of declarations -/

/-- An attribute that gives its variant a pattern. -/
def Attribute.IsPattern (a : Attribute) : Prop := a.name = "token" ∨ a.name = "regex"

theorem Attribute.rule_eq_pattern {a : Attribute} {rule : VariantRule} (h : a.rule = .ok rule) :
    (∃ text, rule = .pattern text) ↔ a.IsPattern := by
  unfold IsPattern
  rcases rule_ok h with ⟨hname, _, -, rfl⟩ | ⟨hname, _, -, rfl⟩ | ⟨hname, rfl⟩ | ⟨hname, rfl⟩ |
    ⟨hname, rfl⟩ | ⟨hname, rfl⟩
  case inr.inr.inr.inr.inr =>
    refine iff_of_false nofun ?_
    rintro (htoken | hregex)
    · exact hname (by simp [htoken])
    · exact hname (by simp [hregex])
  all_goals simp [hname]

namespace KindTable

variable {t t' u : KindTable} {bound bound' : Option Binding} {variant : String}
  {attributes : List Attribute} {read : List Variant} {d : Declaration} {p q : Prop}

/-- Patterns of a variant have been put behind the others. They are well formed, and `p` says
whether there are any. -/
def Gains (p : Prop) (variant : String) (t t' : KindTable) : Prop :=
  ∃ texts, t'.patterns = t.patterns ++ texts.map (·, variant) ∧ (∀ text ∈ texts, Accepted text) ∧
    (texts ≠ [] ↔ p)

theorem Gains.trans (g : Gains p variant t t') (g' : Gains q variant t' u) :
    Gains (p ∨ q) variant t u := by
  obtain ⟨texts, hpatterns, haccepted, hp⟩ := g
  obtain ⟨texts', hpatterns', haccepted', hq⟩ := g'
  refine ⟨texts ++ texts', ?_, ?_, ?_⟩
  · rw [hpatterns', hpatterns, List.map_append, List.append_assoc]
  · intro text htext
    exact (List.mem_append.1 htext).elim (haccepted text) (haccepted' text)
  · rw [← hp, ← hq, ne_eq, List.append_eq_nil_iff, not_and_or]

theorem Gains.of_eq (hp : ¬ p) (h : t'.patterns = t.patterns) : Gains p variant t t' :=
  ⟨[], by rw [h, List.map_nil, List.append_nil], by simp, by simp [hp]⟩

theorem obey_gains {rule : VariantRule} (h : t.obey variant bound rule = .ok (t', bound')) :
    Gains (∃ text, rule = .pattern text) variant t t' := by
  rcases obey_ok h with ⟨text, rfl, ⟨q, hparse⟩, rfl, -⟩ | ⟨rfl, rfl, -⟩ | ⟨rfl, -, rfl, -⟩ |
    ⟨rfl, -, -, rfl, -⟩ | ⟨rfl, rfl, -⟩
  · exact ⟨[text], rfl, by simpa using accepted_of_parse hparse, by simp⟩
  all_goals exact .of_eq (by simp) rfl

theorem readAttributes_gains (h : readAttributes variant t bound attributes = .ok (t', bound')) :
    Gains (∃ a ∈ attributes, a.IsPattern) variant t t' := by
  induction attributes generalizing t bound with
  | nil =>
    cases h
    exact .of_eq (by simp) rfl
  | cons a rest ih =>
    obtain ⟨rule, next, bound'', hrule, hobey, hrest⟩ := readAttributes_cons h
    have g := (obey_gains hobey).trans (ih hrest)
    simpa only [Attribute.rule_eq_pattern hrule, List.mem_cons, exists_eq_or_imp] using g

/-- What the patterns of a table say of the variants that have been read. -/
structure Gathers (t : KindTable) (read : List Variant) : Prop where
  accepted : ∀ p ∈ t.patterns, Accepted p.1
  kinds : ∀ p ∈ t.patterns, p.2 ∈ read.map (·.name)
  nonempty : t.patterns ≠ [] ↔ ∃ v ∈ read, ∃ a ∈ v.attributes, a.IsPattern

theorem Gathers.step {v : Variant} (w : t.Gathers read) (h : t.readVariant v = .ok t') :
    t'.Gathers (read ++ [v]) := by
  unfold readVariant at h
  split_ifs at h
  obtain ⟨⟨u, bound⟩, hread, rfl⟩ := eq_ok_of_map h
  obtain ⟨texts, hpatterns, haccepted, hnonempty⟩ := readAttributes_gains hread
  constructor
  case accepted =>
    intro p hp
    rw [hpatterns, List.mem_append, List.mem_map] at hp
    rcases hp with hp | ⟨text, htext, rfl⟩
    · exact w.accepted p hp
    · exact haccepted text htext
  case kinds =>
    intro p hp
    rw [hpatterns, List.mem_append, List.mem_map] at hp
    rw [List.map_append, List.mem_append]
    rcases hp with hp | ⟨text, htext, rfl⟩
    · exact Or.inl (w.kinds p hp)
    · exact Or.inr (List.mem_singleton.2 rfl)
  case nonempty =>
    have hboth : u.patterns ≠ [] ↔ t.patterns ≠ [] ∨ texts ≠ [] := by
      rw [hpatterns, ne_eq, List.append_eq_nil_iff, List.map_eq_nil_iff, not_and_or]
    rw [hboth, w.nonempty, hnonempty]
    simp [or_and_right, exists_or]

theorem ofDeclaration_gathers (h : ofDeclaration d = .ok t) : t.Gathers d.variants := by
  refine ofDeclaration_keeps (fun read t => t.Gathers read) ?_ (fun w hread => w.step hread) h
  intro t _ hempty
  constructor <;> simp [hempty]

/-! ## Kinds of tokens -/

theorem exists_binding {kind : String} (h : kind ∈ t.bindings.map (·.1)) :
    ∃ b, (kind, b) ∈ t.bindings ∧ t.symbol kind = b.symbol kind := by
  unfold symbol
  cases hlookup : t.bindings.lookup kind with
  | none =>
    obtain ⟨p, hp, rfl⟩ := List.mem_map.1 h
    have hne := List.lookup_eq_none_iff.1 hlookup p hp
    simp at hne
  | some b =>
    obtain ⟨front, back, hbindings, _⟩ := List.lookup_eq_some_iff.1 hlookup
    exact ⟨b, by simp [hbindings], rfl⟩

/-- The symbol of a variant is that of some kind. -/
theorem ofSymbol?_isSome {kind : String} (h : kind ∈ t.bindings.map (·.1)) :
    (t.ofSymbol? (t.symbol kind)).isSome = true := by
  obtain ⟨b, hb, hsymbol⟩ := exists_binding h
  rw [ofSymbol?, Option.isSome_map, List.find?_isSome]
  exact ⟨(kind, b), hb, Symbol.beq_iff.2 (congrArg Symbol.id hsymbol)⟩

/-- Where no name stands for two kinds, the kind of a symbol has this symbol. -/
theorem symbol_of_ofSymbol? (hnames : (t.bindings.map (·.1)).Nodup) {symbol : Symbol}
    {kind : String} (h : t.ofSymbol? symbol = some kind) : (t.symbol kind == symbol) = true := by
  obtain ⟨⟨_, b⟩, hfind, rfl⟩ := Option.map_eq_some_iff.1 h
  have hid := List.find?_some hfind
  rw [Symbol.beq_iff] at hid
  rw [symbol_eq_of_mem hnames (List.mem_of_find?_eq_some hfind), Symbol.beq_iff, hid]

/-- A table that is read from a declaration has a tokenizer just if some attribute gives its
variant a pattern; the only fault is that there are no patterns. Lexing to kinds leaves out no
token: it gives the tokens of the tokenizer in their order, each with a kind that has its symbol,
where different variants have different names. -/
theorem lex_tokens (d : Declaration) (t : KindTable) (h : ofDeclaration d = .ok t) :
    ((∃ lexer, t.kinds.tokenizer = .ok lexer) ↔
      ∃ v ∈ d.variants, ∃ a ∈ v.attributes, a.name = "token" ∨ a.name = "regex") ∧
    (∀ e, t.kinds.tokenizer = .error e → e = .noPatterns) ∧
    ∀ lexer, t.kinds.tokenizer = .ok lexer → ∀ source tokens, lexer.analyze source = .ok tokens →
      ∃ pairs, t.kinds.lex source = some (.ok pairs) ∧ pairs.map (·.2) = tokens ∧
        ((d.variants.map (·.name)).Nodup →
          ∀ p ∈ pairs, (t.symbol p.1 == p.2.symbol) = true) := by
  have w := ofDeclaration_gathers h
  have hnames := (ofDeclaration_binds h).names
  have herror : ∀ {e}, t.kinds.tokenizer = .error e ↔ t.patterns = [] ∧ e = .noPatterns :=
    Kinds.tokenizer_error_iff w.accepted
  refine ⟨?_, fun e he => (herror.1 he).2, ?_⟩
  · refine Iff.trans ?_ w.nonempty
    cases htokenizer : t.kinds.tokenizer with
    | error e => exact iff_of_false nofun fun hne => hne (herror.1 htokenizer).1
    | ok lexer =>
      refine iff_of_true ⟨lexer, rfl⟩ fun hempty => ?_
      rw [herror.2 ⟨hempty, rfl⟩] at htokenizer
      cases htokenizer
  · intro lexer hlexer source tokens hanalyze
    have hkinds : ∀ token ∈ tokens, (t.ofSymbol? token.symbol).isSome = true := by
      intro token htoken
      obtain ⟨p, hp, hsymbol⟩ :=
        Scan.collect_symbols (Kinds.tokenizer_recognizes hlexer) hanalyze token htoken
      obtain ⟨p', hp', rfl⟩ := List.mem_map.1 hp
      rw [hsymbol]
      exact ofSymbol?_isSome (hnames ▸ w.kinds p' hp')
    refine ⟨t.kinds.pair tokens, ?_, Kinds.pair_tokens hkinds, fun hnodup p hp => ?_⟩
    · rw [Kinds.lex, hlexer]
      simp only [hanalyze]
    · obtain ⟨_, hkind⟩ := Kinds.ofSymbol?_of_mem_pair hp
      exact symbol_of_ofSymbol? (hnames ▸ hnodup) hkind

theorem lex_tokens_letter : ∃ t lexer kind token,
    ofDeclaration ⟨"Letters", false, [], [⟨"A", [⟨"token", some ["a"]⟩], .unit⟩]⟩ = .ok t ∧
      t.kinds.tokenizer = .ok lexer ∧ lexer.analyze [97] = .ok [token] ∧
      t.kinds.lex [97] = some (.ok [(kind, token)]) ∧ (t.symbol kind == token.symbol) = true := by
  have h : ofDeclaration ⟨"Letters", false, [], [⟨"A", [⟨"token", some ["a"]⟩], .unit⟩]⟩ =
      .ok ⟨"Letters", [("A", .own 1)], [("a", "A")], [], none, none, none⟩ := by
    decide +kernel
  obtain ⟨hexists, -, hlex⟩ := lex_tokens _ _ h
  obtain ⟨lexer, hlexer⟩ := hexists.2
    ⟨_, List.mem_singleton_self _, _, List.mem_singleton_self _, Or.inl rfl⟩
  obtain ⟨hcomment, hignored, hnewline⟩ : (∀ rest, lexer.commentLength rest = none) ∧
      lexer.ignored = [.space] ∧ lexer.newline = .lineFeed := by
    obtain ⟨_, -, rfl⟩ := eq_ok_of_map hlexer
    exact ⟨fun _ => rfl, rfl, rfl⟩
  have hcut : lexer.Cut ["a"] [97] 0 [.token 1 0] 1 := by
    have ha : ∀ w, Pattern.textMatches "a" w = decide (w = [97]) :=
      Pattern.textMatches_byte (by decide +kernel)
    have hlongest : IsLongest 1 (CompiledPatterns.leastMatch ["a"]) [97] (some (1, 0)) := by
      refine ⟨Nat.le_refl 1, Nat.le_refl 1, ?_, fun m hm hle => absurd hle (Nat.not_le.2 hm)⟩
      simp [CompiledPatterns.leastMatch, ha]
    refine .segment ⟨hcomment _, hlongest⟩ (.stop ⟨hcomment _, fun n hn hle => ?_⟩)
    exact absurd (Nat.le_trans hn hle) (by decide)
  have hanalyze : lexer.analyze [97] = .ok [lexer.tokenAt [97] 0 1 (.own 1 "A")] := by
    have hput : lexer.putOut [] (lexer.tokenAt [97] 0 1 (.own 1 "A")) =
        [lexer.tokenAt [97] 0 1 (.own 1 "A")] := by
      rw [Tokenizer.putOut, Tokenizer.isIgnored, hignored, hnewline]
      rfl
    have hanalyze := Scan.analyze_of_cut (Kinds.tokenizer_recognizes hlexer) (by decide) hcut
    exact hanalyze.trans (congrArg Except.ok hput)
  obtain ⟨pairs, hpairs, htokens, hsymbols⟩ := hlex lexer hlexer _ _ hanalyze
  obtain ⟨⟨kind, _⟩, rfl, rfl⟩ := List.map_eq_singleton_iff.1 htokens
  exact ⟨_, lexer, kind, _, h, hlexer, hanalyze, hpairs,
    hsymbols (by decide) _ (List.mem_singleton_self _)⟩

end KindTable

end MaximalMunch
