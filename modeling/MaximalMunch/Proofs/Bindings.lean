import Mathlib.Data.List.Nodup
import Mathlib.Tactic.TFAE
import MaximalMunch.Kinds
import MaximalMunch.Proofs.CanonicalForm

/-! Bindings. A table that is read from a declaration gives no two kinds the same symbol, if no two
of them are bound to the symbol of spaces: own symbols are counted, and a second line feed is
refused, but nothing refuses a second space. -/

namespace MaximalMunch

/-! ## Runs that succeed -/

section Success

variable {ε α β : Type} {x : Except ε α} {b c : β}

theorem eq_ok_of_bind {f : α → Except ε β} (h : x >>= f = .ok b) :
    ∃ a, x = .ok a ∧ f a = .ok b := by
  cases x with
  | error e => cases h
  | ok a => exact ⟨a, rfl, h⟩

/-- What each step keeps, of the list that has been read, holds of the whole list in the end. -/
theorem foldlM_keeps (P : List α → β → Prop) {f : β → α → Except ε β} {l : List α}
    (hstep : ∀ read a b c, P read b → f b a = .ok c → P (read ++ [a]) c) (hb : P [] b)
    (h : l.foldlM f b = .ok c) : P l c := by
  have hrun : ∀ read b, P read b → l.foldlM f b = .ok c → P (read ++ l) c := by
    clear hb h
    induction l with
    | nil =>
      intro read b hb h
      cases h
      rwa [List.append_nil]
    | cons a rest ih =>
      intro read b hb h
      obtain ⟨next, hnext, hrest⟩ := eq_ok_of_bind h
      rw [List.append_cons]
      exact ih (read ++ [a]) next (hstep read a b next hb hnext) hrest
  exact hrun [] b hb h

end Success

/-! ## Symbols of bindings -/

namespace Binding

/-- The id of the symbol of a binding, as a number without bounds. -/
def number : Binding → Nat
  | own offset => Symbol.firstId.toNat + offset
  | space => Symbol.space.id.toNat
  | newline => Symbol.lineFeed.id.toNat

variable {b : Binding} {kind : String}

theorem number_injective : Function.Injective number := by
  have hfirst : Symbol.firstId.toNat = 10000 := by decide
  have hspace : Symbol.space.id.toNat = 9996 := by decide
  have hline : Symbol.lineFeed.id.toNat = 9995 := by decide
  intro b c h
  cases b <;> cases c <;> simp only [number, hfirst, hspace, hline] at h <;> first
    | rfl
    | omega
    | exact congrArg own (Nat.add_left_cancel h)

theorem symbol_id (h : b.number < UInt32.size) : (b.symbol kind).id.toNat = b.number := by
  cases b with
  | own offset =>
    have hoffset : offset < UInt32.size := Nat.lt_of_le_of_lt (Nat.le_add_left _ _) h
    rw [symbol, Symbol.own, UInt32.toNat_add, UInt32.toNat_ofNat_of_lt' hoffset]
    exact Nat.mod_eq_of_lt h
  | space => rfl
  | newline => rfl

end Binding

/-- The attributes that have a rule, each with its arguments. -/
theorem Attribute.rule_ok {a : Attribute} {rule : VariantRule} (h : a.rule = .ok rule) :
    (a.name = "token" ∧ ∃ literal, a.single = .ok literal ∧
      rule = .pattern (escapePattern literal)) ∨
    (a.name = "regex" ∧ ∃ text, a.single = .ok text ∧ rule = .pattern text) ∨
    (a.name = "skip" ∧ rule = .skip) ∨ (a.name = "space" ∧ rule = .space) ∨
    (a.name = "newline" ∧ rule = .newline) ∨
    (a.name ∉ ["token", "regex", "skip", "space", "newline"] ∧ rule = .foreign) := by
  unfold Attribute.rule at h
  split_ifs at h with htoken hregex hskip hspace hnewline
  · obtain ⟨literal, hliteral, rfl⟩ := eq_ok_of_map h
    exact Or.inl ⟨htoken, literal, hliteral, rfl⟩
  · obtain ⟨text, htext, rfl⟩ := eq_ok_of_map h
    exact Or.inr (Or.inl ⟨hregex, text, htext, rfl⟩)
  · obtain ⟨_, -, rfl⟩ := eq_ok_of_map h
    exact Or.inr (Or.inr (Or.inl ⟨hskip, rfl⟩))
  · obtain ⟨_, -, rfl⟩ := eq_ok_of_map h
    exact Or.inr (Or.inr (Or.inr (Or.inl ⟨hspace, rfl⟩)))
  · obtain ⟨_, -, rfl⟩ := eq_ok_of_map h
    exact Or.inr (Or.inr (Or.inr (Or.inr (Or.inl ⟨hnewline, rfl⟩))))
  · cases h
    exact Or.inr (Or.inr (Or.inr (Or.inr (Or.inr
      ⟨by simp [htoken, hregex, hskip, hspace, hnewline], rfl⟩))))

/-- A variant that an attribute binds to the symbol of spaces. -/
def Variant.isSpace (v : Variant) : Bool := v.attributes.any (·.name == "space")

theorem Attribute.rule_eq_space {a : Attribute} {rule : VariantRule} (h : a.rule = .ok rule) :
    rule = .space ↔ a.name = "space" := by
  rcases rule_ok h with ⟨hname, _, -, rfl⟩ | ⟨hname, _, -, rfl⟩ | ⟨hname, rfl⟩ | ⟨hname, rfl⟩ |
    ⟨hname, rfl⟩ | ⟨hname, rfl⟩
  case inr.inr.inr.inr.inr => exact iff_of_false nofun fun hspace => hname (by simp [hspace])
  all_goals simp [hname]

namespace KindTable

variable {t t' u : KindTable} {bound bound' : Option Binding} {variant : String}
  {attributes : List Attribute} {read : List Variant} {p q : Prop}

/-! ## Attributes of one variant -/

theorem addPattern_ok {text : String} (h : t.addPattern variant text = .ok t') :
    (∃ p, Pattern.parse text = .ok p) ∧
      t' = { t with patterns := t.patterns ++ [(text, variant)] } := by
  unfold addPattern at h
  cases hparse : Pattern.parse text with
  | error e =>
    rw [hparse] at h
    cases h
  | ok p =>
    rw [hparse] at h
    cases h
    exact ⟨⟨p, rfl⟩, rfl⟩

/-- The first attribute has a rule, and the others are read when it has been obeyed. -/
theorem readAttributes_cons {a : Attribute} {rest : List Attribute}
    (h : readAttributes variant t bound (a :: rest) = .ok (t', bound')) :
    ∃ rule next bound'', a.rule = .ok rule ∧ t.obey variant bound rule = .ok (next, bound'') ∧
      readAttributes variant next bound'' rest = .ok (t', bound') := by
  rw [readAttributes] at h
  cases hrule : a.rule with
  | error e =>
    rw [hrule] at h
    cases h
  | ok rule =>
    rw [hrule] at h
    cases hobey : t.obey variant bound rule with
    | error e =>
      simp only [hobey] at h
      cases h
    | ok next =>
      simp only [hobey] at h
      exact ⟨rule, next.1, next.2, rfl, hobey, h⟩

/-- What obeying a rule does to a table and to the binding of the variant. -/
theorem obey_ok {rule : VariantRule} (h : t.obey variant bound rule = .ok (t', bound')) :
    (∃ text, rule = .pattern text ∧ (∃ p, Pattern.parse text = .ok p) ∧
      t' = { t with patterns := t.patterns ++ [(text, variant)] } ∧ bound' = bound) ∨
    (rule = .skip ∧ t' = { t with ignored := t.ignored ++ [variant] } ∧ bound' = bound) ∨
    (rule = .space ∧ bound = none ∧ t' = t ∧ bound' = some .space) ∨
    (rule = .newline ∧ bound = none ∧ t.newline = none ∧
      t' = { t with newline := some variant } ∧ bound' = some .newline) ∨
    (rule = .foreign ∧ t' = t ∧ bound' = bound) := by
  cases rule with
  | pattern text =>
    obtain ⟨u, hu, heq⟩ := eq_ok_of_map h
    cases heq
    obtain ⟨hparse, rfl⟩ := addPattern_ok hu
    exact Or.inl ⟨text, rfl, hparse, rfl, rfl⟩
  | skip =>
    cases h
    exact Or.inr (Or.inl ⟨rfl, rfl, rfl⟩)
  | space =>
    rw [obey] at h
    cases bound with
    | some b => cases h
    | none =>
      cases h
      exact Or.inr (Or.inr (Or.inl ⟨rfl, rfl, rfl, rfl⟩))
  | newline =>
    rw [obey] at h
    cases bound with
    | some b => cases h
    | none =>
      cases hline : t.newline with
      | some kind => simp [hline] at h
      | none =>
        simp only [hline, Option.isSome_none, Bool.false_eq_true, if_false] at h
        cases h
        exact Or.inr (Or.inr (Or.inr (Or.inl ⟨rfl, rfl, rfl, rfl, rfl⟩)))
  | foreign =>
    cases h
    exact Or.inr (Or.inr (Or.inr (Or.inr ⟨rfl, rfl, rfl⟩)))

/-- What attributes may do to a table and to the binding of their variant, where `p` says that one
of them binds it to the symbol of spaces. -/
structure Reads (p : Prop) (t : KindTable) (bound : Option Binding) (t' : KindTable)
    (bound' : Option Binding) : Prop where
  bindings : t'.bindings = t.bindings
  kept : t.newline ≠ none → t'.newline ≠ none
  own : ∀ n, bound' = some (.own n) → bound = some (.own n)
  space : bound' = some .space ↔ bound = some .space ∨ p
  newline : bound' = some .newline →
    bound = some .newline ∨ t.newline = none ∧ t'.newline ≠ none

theorem Reads.trans {bound'' : Option Binding} (r : Reads p t bound t' bound')
    (s : Reads q t' bound' u bound'') : Reads (p ∨ q) t bound u bound'' where
  bindings := s.bindings.trans r.bindings
  kept h := s.kept (r.kept h)
  own n h := r.own n (s.own n h)
  space := by rw [s.space, r.space, or_assoc]
  newline h := by
    rcases s.newline h with hbound | ⟨hnone, hsome⟩
    · rcases r.newline hbound with hbound | ⟨hnone, hsome⟩
      · exact Or.inl hbound
      · exact Or.inr ⟨hnone, s.kept hsome⟩
    · exact Or.inr ⟨by_contra fun hbefore => r.kept hbefore hnone, hsome⟩

/-- Where the binding and the line feed stay as they are. -/
theorem Reads.of_eq (hp : ¬ p) (hbindings : t'.bindings = t.bindings)
    (hnewline : t'.newline = t.newline) : Reads p t bound t' bound where
  bindings := hbindings
  kept h := hnewline ▸ h
  own _ h := h
  space := by simp [hp]
  newline h := Or.inl h

theorem obey_reads {rule : VariantRule} (h : t.obey variant bound rule = .ok (t', bound')) :
    Reads (rule = .space) t bound t' bound' := by
  rcases obey_ok h with ⟨text, rfl, -, rfl, rfl⟩ | ⟨rfl, rfl, rfl⟩ | ⟨rfl, rfl, rfl, rfl⟩ |
    ⟨rfl, rfl, hline, rfl, rfl⟩ | ⟨rfl, rfl, rfl⟩
  · exact .of_eq (by simp) rfl rfl
  · exact .of_eq (by simp) rfl rfl
  · exact ⟨rfl, id, by simp, by simp, by simp⟩
  · exact ⟨rfl, fun _ => by simp, by simp, by simp, fun _ => Or.inr ⟨hline, by simp⟩⟩
  · exact .of_eq (by simp) rfl rfl

theorem readAttributes_reads (h : readAttributes variant t bound attributes = .ok (t', bound')) :
    Reads (attributes.any (·.name == "space") = true) t bound t' bound' := by
  induction attributes generalizing t bound with
  | nil =>
    cases h
    exact .of_eq (by simp) rfl rfl
  | cons a rest ih =>
    obtain ⟨rule, next, bound'', hrule, hobey, hrest⟩ := readAttributes_cons h
    have r := (obey_reads hobey).trans (ih hrest)
    rwa [Attribute.rule_eq_space hrule, ← beq_iff_eq, ← Bool.or_eq_true] at r

/-! ## The variants in order -/

/-- What the bindings of a table say of the variants that have been read. -/
structure Binds (t : KindTable) (read : List Variant) : Prop where
  names : t.bindings.map (·.1) = read.map (·.name)
  spaces : (t.bindings.map (·.2)).count .space = read.countP (·.isSpace)
  once : ∀ b, b ≠ .space → (t.bindings.map (·.2)).count b ≤ 1
  own : ∀ n, .own n ∈ t.bindings.map (·.2) → n ≤ t.ownCount
  newline : .newline ∈ t.bindings.map (·.2) → t.newline ≠ none

/-- A variant is bound to what its attributes say, or to an own symbol if they say nothing. -/
theorem readVariant_ok {v : Variant} (h : t.readVariant v = .ok t') :
    ∃ b, t'.bindings = t.bindings ++ [(v.name, b)] ∧
      (t.newline ≠ none → t'.newline ≠ none) ∧
      (b = .space ↔ v.isSpace = true) ∧ (∀ n, b = .own n → n = t.ownCount + 1) ∧
      (b = .newline → t.newline = none ∧ t'.newline ≠ none) := by
  unfold readVariant at h
  split_ifs at h
  obtain ⟨⟨u, bound⟩, hread, rfl⟩ := eq_ok_of_map h
  have r := readAttributes_reads hread
  have hcount : u.ownCount = t.ownCount := by
    unfold ownCount
    rw [r.bindings]
  refine ⟨_, congrArg (· ++ _) r.bindings, r.kept, ?_, ?_, ?_⟩
  · rw [Variant.isSpace, ← (r.space.trans (or_iff_right (by simp)))]
    cases bound <;> simp
  · intro n hn
    cases hbound : bound with
    | none =>
      rw [hbound, Option.getD_none, hcount] at hn
      exact (Binding.own.inj hn).symm
    | some b =>
      rw [hbound, Option.getD_some] at hn
      cases r.own n (by rw [hbound, hn])
  · intro hb
    cases hbound : bound with
    | none =>
      rw [hbound, Option.getD_none] at hb
      cases hb
    | some b =>
      rw [hbound, Option.getD_some] at hb
      exact (r.newline (by rw [hbound, hb])).resolve_left (by simp)

theorem ownCount_le {more : List (String × Binding)} (h : t'.bindings = t.bindings ++ more) :
    t.ownCount ≤ t'.ownCount := by
  unfold ownCount
  rw [h, List.countP_append]
  exact Nat.le_add_right _ _

theorem ownCount_own {kind : String} {n : Nat}
    (h : t'.bindings = t.bindings ++ [(kind, .own n)]) : t'.ownCount = t.ownCount + 1 := by
  unfold ownCount
  rw [h, List.countP_append, List.countP_singleton]
  rfl

theorem Binds.step {v : Variant} (w : t.Binds read) (h : t.readVariant v = .ok t') :
    t'.Binds (read ++ [v]) := by
  obtain ⟨b, hbindings, hkept, hspace, hown, hnewline⟩ := readVariant_ok h
  have hsymbols : t'.bindings.map (·.2) = t.bindings.map (·.2) ++ [b] := by
    rw [hbindings, List.map_append, List.map_singleton]
  -- Only the symbol of spaces is given out twice.
  have hfresh : b ≠ .space → b ∉ t.bindings.map (·.2) := by
    intro hb hmem
    cases b with
    | own n =>
      have := w.own n hmem
      have := hown n rfl
      omega
    | space => exact hb rfl
    | newline => exact w.newline hmem (hnewline rfl).1
  constructor
  case names => rw [hbindings, List.map_append, List.map_append, w.names]; rfl
  case spaces =>
    rw [hsymbols, List.count_append, List.countP_append, w.spaces, List.count_singleton,
      List.countP_singleton]
    simp only [beq_iff_eq, hspace]
  case once =>
    intro c hc
    rw [hsymbols, List.count_append, List.count_singleton]
    split_ifs with hbc
    · rw [beq_iff_eq] at hbc
      subst hbc
      rw [List.count_eq_zero.2 (hfresh hc)]
    · exact w.once c hc
  case own =>
    intro n hn
    rw [hsymbols, List.mem_append, List.mem_singleton] at hn
    rcases hn with hn | rfl
    · exact (w.own n hn).trans (ownCount_le hbindings)
    · rw [hown n rfl, ownCount_own hbindings]
  case newline =>
    intro hn
    rw [hsymbols, List.mem_append, List.mem_singleton] at hn
    rcases hn with hn | rfl
    · exact hkept (w.newline hn)
    · exact (hnewline rfl).2

/-- The attributes of the enumeration itself add neither kinds nor patterns. -/
theorem readOuter_ok {a : Attribute} (h : t.readOuter a = .ok t') :
    t'.bindings = t.bindings ∧ t'.patterns = t.patterns := by
  unfold readOuter at h
  split_ifs at h
  · obtain ⟨_, -, rfl⟩ := eq_ok_of_map h
    exact ⟨rfl, rfl⟩
  · obtain ⟨_, -, rfl⟩ := eq_ok_of_map h
    exact ⟨rfl, rfl⟩
  · cases h
    exact ⟨rfl, rfl⟩

variable {d : Declaration}

/-- What holds of tables without kinds and patterns, and is kept with each variant that is read,
holds of the table of a declaration. -/
theorem ofDeclaration_keeps (P : List Variant → KindTable → Prop)
    (hstart : ∀ {t}, t.bindings = [] → t.patterns = [] → P [] t)
    (hstep : ∀ {read v t t'}, P read t → t.readVariant v = .ok t' → P (read ++ [v]) t')
    (h : ofDeclaration d = .ok t) : P d.variants t := by
  unfold ofDeclaration at h
  split_ifs at h
  cases houter : d.attributes.foldlM readOuter { name := d.name } with
  | error e =>
    rw [houter] at h
    cases h
  | ok u =>
    rw [houter] at h
    have hempty : u.bindings = [] ∧ u.patterns = [] := by
      refine foldlM_keeps (fun _ u => u.bindings = [] ∧ u.patterns = []) ?_ ⟨rfl, rfl⟩ houter
      intro _ _ _ _ hb hread
      obtain ⟨hbindings, hpatterns⟩ := readOuter_ok hread
      exact ⟨hbindings.trans hb.1, hpatterns.trans hb.2⟩
    exact foldlM_keeps P (fun _ _ _ _ hread hvariant => hstep hread hvariant)
      (hstart hempty.1 hempty.2) h

theorem ofDeclaration_binds (h : ofDeclaration d = .ok t) : t.Binds d.variants := by
  refine ofDeclaration_keeps (fun read t => t.Binds read) ?_ (fun w hread => w.step hread) h
  intro t hempty _
  constructor <;> simp [hempty]

/-- Own symbols are no more than variants. -/
theorem Binds.ownCount_le_length (w : t.Binds read) : t.ownCount ≤ read.length := by
  rw [← List.length_map (f := (·.name)), ← w.names, List.length_map]
  exact List.countP_le_length

/-! ## Kinds of symbols -/

/-- The symbol of a kind that is bound, where no name stands for two kinds. -/
theorem symbol_eq_of_mem (hnames : (t.bindings.map (·.1)).Nodup) {kind : String} {b : Binding}
    (h : (kind, b) ∈ t.bindings) : t.symbol kind = b.symbol kind := by
  have hlookup : t.bindings.lookup kind = some b := by
    obtain ⟨front, back, heq⟩ := List.append_of_mem h
    refine List.lookup_eq_some_iff.2 ⟨front, back, heq, fun p hp => bne_iff_ne.2 ?_⟩
    rintro rfl
    rw [heq, List.map_append, List.nodup_append] at hnames
    exact hnames.2.2 _ (List.mem_map_of_mem hp) _ List.mem_cons_self rfl
  rw [symbol, hlookup]

/-- Kinds and symbols stand for each other if and only if the symbols are different. -/
theorem ofSymbol?_symbol_iff (hnames : (t.bindings.map (·.1)).Nodup) :
    (∀ kind ∈ t.bindings.map (·.1), t.ofSymbol? (t.symbol kind) = some kind) ↔
      ((t.bindings.map (·.1)).map fun kind => (t.symbol kind).id).Nodup := by
  rw [List.nodup_map_iff_inj_on hnames]
  constructor
  · intro h kind hkind other hother hid
    have hfind : t.ofSymbol? (t.symbol kind) = t.ofSymbol? (t.symbol other) := by
      unfold ofSymbol?
      simp only [BEq.beq, hid]
    rw [h kind hkind, h other hother] at hfind
    exact Option.some.inj hfind
  · intro h kind hkind
    obtain ⟨⟨_, b⟩, hb, rfl⟩ := List.mem_map.1 hkind
    have hsymbol := symbol_eq_of_mem hnames hb
    have hsome : (t.bindings.find? fun c => t.symbol _ == c.2.symbol c.1).isSome = true :=
      List.find?_isSome.2 ⟨_, hb, Symbol.beq_iff.2 (congrArg Symbol.id hsymbol)⟩
    obtain ⟨c, hfind⟩ := Option.isSome_iff_exists.1 hsome
    have hc := List.mem_of_find?_eq_some hfind
    have hid := List.find?_some hfind
    rw [Symbol.beq_iff, ← symbol_eq_of_mem hnames hc] at hid
    rw [ofSymbol?, hfind, Option.map_some, h _ hkind c.1 (List.mem_map_of_mem hc) hid]

/-- Only the symbol of spaces can be the symbol of two kinds. -/
theorem Binds.nodup_iff (w : t.Binds read) :
    (t.bindings.map (·.2)).Nodup ↔ read.countP (·.isSpace) ≤ 1 := by
  rw [List.nodup_iff_count_le_one, ← w.spaces]
  refine ⟨fun h => h .space, fun h b => ?_⟩
  by_cases hb : b = .space
  · rwa [hb]
  · exact w.once b hb

theorem Binds.number_lt (w : t.Binds read)
    (hids : Symbol.firstId.toNat + t.ownCount < UInt32.size) {b : Binding}
    (hb : b ∈ t.bindings.map (·.2)) : b.number < UInt32.size := by
  cases b with
  | own n => exact Nat.lt_of_le_of_lt (Nat.add_le_add_left (w.own n hb) _) hids
  | space => decide
  | newline => decide

theorem Binds.symbols_nodup_iff (w : t.Binds read) (hnames : (t.bindings.map (·.1)).Nodup)
    (hids : Symbol.firstId.toNat + t.ownCount < UInt32.size) :
    ((t.bindings.map (·.1)).map fun kind => (t.symbol kind).id).Nodup ↔
      (t.bindings.map (·.2)).Nodup := by
  have hnumbers : ((t.bindings.map (·.1)).map fun kind => (t.symbol kind).id).map UInt32.toNat =
      (t.bindings.map (·.2)).map Binding.number := by
    rw [List.map_map, List.map_map, List.map_map]
    refine List.map_congr_left fun b hb => ?_
    rw [Function.comp_apply, Function.comp_apply, Function.comp_apply, symbol_eq_of_mem hnames hb]
    exact Binding.symbol_id (w.number_lt hids (List.mem_map_of_mem hb))
  rw [← List.nodup_map_iff fun _ _ => UInt32.toNat.inj, hnumbers,
    List.nodup_map_iff Binding.number_injective]

/-- In a table read from a declaration, kinds and symbols stand for each other if and only if no two
kinds have the same symbol, and if and only if at most one variant is bound to the symbol of
spaces. -/
theorem symbols_round_trip_tfae (h : ofDeclaration d = .ok t)
    (hnames : (d.variants.map (·.name)).Nodup)
    (hids : Symbol.firstId.toNat + t.ownCount < UInt32.size) : List.TFAE [
      ∀ v ∈ d.variants, t.ofSymbol? (t.symbol v.name) = some v.name,
      (d.variants.map fun v => (t.symbol v.name).id).Nodup,
      d.variants.countP (·.isSpace) ≤ 1] := by
  have w := ofDeclaration_binds h
  rw [← w.names] at hnames
  have hsymbols : (d.variants.map fun v => (t.symbol v.name).id) =
      (t.bindings.map (·.1)).map fun kind => (t.symbol kind).id := by
    rw [w.names, List.map_map]
    rfl
  tfae_have 1 ↔ 2 := by
    rw [hsymbols, ← ofSymbol?_symbol_iff hnames, w.names, List.forall_mem_map]
  tfae_have 2 ↔ 3 := by
    rw [hsymbols, w.symbols_nodup_iff hnames hids, w.nodup_iff]
  tfae_finish

theorem symbols_round_trip_tfae_text : ∃ t,
    ofDeclaration ⟨"Text", false, [],
      [⟨"Blank", [⟨"regex", some [" +"]⟩, ⟨"space", none⟩], .unit⟩,
        ⟨"Eol", [⟨"newline", none⟩], .unit⟩,
        ⟨"Word", [⟨"token", some ["a"]⟩], .unit⟩]⟩ = .ok t ∧
      t.ofSymbol? (t.symbol "Blank") = some "Blank" ∧ t.ofSymbol? (t.symbol "Eol") = some "Eol" ∧
      t.ofSymbol? (t.symbol "Word") = some "Word" := by
  obtain ⟨t, h⟩ : ∃ t, ofDeclaration ⟨"Text", false, [],
      [⟨"Blank", [⟨"regex", some [" +"]⟩, ⟨"space", none⟩], .unit⟩,
        ⟨"Eol", [⟨"newline", none⟩], .unit⟩,
        ⟨"Word", [⟨"token", some ["a"]⟩], .unit⟩]⟩ = .ok t :=
    exists_eq_ok (by decide +kernel)
  have hids : Symbol.firstId.toNat + t.ownCount < UInt32.size := by
    have hcount := (ofDeclaration_binds h).ownCount_le_length
    exact Nat.lt_of_le_of_lt (Nat.add_le_add_left hcount _) (by decide)
  have hround := ((symbols_round_trip_tfae h (by decide) hids).out 2 0).1 (by decide)
  simp only [List.forall_mem_cons] at hround
  exact ⟨t, h, hround.1, hround.2.1, hround.2.2.1⟩

/-- Two variants may be bound to the symbol of spaces, which then stands for the first of them. -/
theorem symbol_of_second_space : ∃ t,
    ofDeclaration ⟨"Twin", false, [],
      [⟨"Blank", [⟨"space", none⟩], .unit⟩, ⟨"Tab", [⟨"space", none⟩], .unit⟩]⟩ = .ok t ∧
      t.ofSymbol? (t.symbol "Tab") = some "Blank" :=
  ⟨_, rfl, rfl⟩

end KindTable

end MaximalMunch
