import MaximalMunch.Pattern.Parse
import MaximalMunch.Proofs.Scanning

/-! Reading a pattern is deriving it. Whatever the stack holds derives from what has been read, and
what derives from the grammar takes the stack where its pattern is in place. -/

namespace MaximalMunch

open Grammar

namespace Pattern

variable {p q : Pattern} {t u v w : Bytes} {l : Level} {s s' s'' : Stack} {x : Lexeme}
  {xs ys : List Lexeme} {part : Nonterminal} {verdict : Except SyntaxError Nat} {length : Nat}

/-! ## What is read derives -/

/-- A part of a level and its text; a missing part has none. -/
def Part (derives : Bytes → Pattern → Prop) : Option Pattern → Bytes → Prop
  | none, t => t = []
  | some p, t => derives t p

/-- The finished choices and the bar behind them. -/
def Choices : Option Pattern → Bytes → Prop :=
  Part fun t p => ∃ u, t = u ++ [124] ∧ Derives .union u p

/-- What a level holds derives from the text that has been read for it. -/
def Level.Reads (l : Level) (t : Bytes) : Prop :=
  ∃ u v w, t = u ++ v ++ w ∧ Choices l.choices u ∧ Part (Derives .concatenation) l.sequence v ∧
    Part (Derives .primitive) l.operand w

/-- What the levels around the innermost group hold derives from the text before it. -/
def OuterReads : List (Nat × Level) → Bytes → Prop
  | [], t => t = []
  | (_, l) :: outer, t => ∃ u v, t = u ++ v ++ [40] ∧ OuterReads outer u ∧ l.Reads v ∧
      l.operand = none

/-- What a stack holds derives from the text that has been read. -/
def Stack.Reads (s : Stack) (t : Bytes) : Prop :=
  ∃ u v, t = u ++ v ∧ OuterReads s.outer u ∧ s.level.Reads v

theorem sequence_join {o : Option Pattern} (hv : Part (Derives .concatenation) o v)
    (hw : Derives .basic w p) : Derives .concatenation (v ++ w) (join .seq o p) := by
  cases o with
  | none =>
    obtain rfl : v = [] := hv
    exact .single hw
  | some q => exact .seq hv hw

theorem choices_join {o : Option Pattern} (hu : Choices o u)
    (hv : Derives .concatenation v p) : Derives .union (u ++ v) (join .alt o p) := by
  cases o with
  | none =>
    obtain rfl : u = [] := hu
    exact .choice hv
  | some q =>
    obtain ⟨u, rfl, hu⟩ := hu
    rw [List.append_assoc, List.singleton_append]
    exact .alt hu hv

namespace Level

theorem settle_operand (l : Level) : l.settle.operand = none := by
  unfold settle
  split
  · assumption
  · rfl

theorem append_eq (hnone : l.operand = none) (p : Pattern) :
    l.append p = { l with sequence := some (join .seq l.sequence p) } := by
  rw [append, ← hnone]

theorem settle_reads (h : l.Reads t) : l.settle.Reads t := by
  obtain ⟨u, v, w, rfl, hu, hv, hw⟩ := h
  unfold settle
  split
  · rename_i hnone
    exact ⟨u, v, w, rfl, hu, hv, hw⟩
  · rename_i p hsome
    rw [hsome] at hw
    refine ⟨u, v ++ w, [], by simp, hu, ?_, rfl⟩
    exact sequence_join hv (.bare hw)

/-- A level without an operand takes one. -/
theorem operand_reads (h : l.Reads t) (hnone : l.operand = none) (hw : Derives .primitive w p) :
    Reads { l with operand := some p } (t ++ w) := by
  obtain ⟨u, v, z, rfl, hu, hv, hz⟩ := h
  rw [hnone] at hz
  obtain rfl : z = [] := hz
  exact ⟨u, v, w, by simp, hu, hv, hw⟩

/-- A quantifier takes the operand. -/
theorem quantified_reads (h : l.Reads t) (hp : l.operand = some p) (q : Quantifier) :
    (l.append (.quantified q p)).Reads (t ++ [mark q]) := by
  obtain ⟨u, v, w, rfl, hu, hv, hw⟩ := h
  rw [hp] at hw
  exact ⟨u, v ++ (w ++ [mark q]), [], by simp, hu, sequence_join hv (.quantified hw q), rfl⟩

/-- A level that ends in a finished sequence holds a pattern. -/
theorem union_reads (h : l.settle.Reads t) (hp : l.settle.sequence = some p) :
    Derives .union t (join .alt l.settle.choices p) := by
  obtain ⟨u, v, w, rfl, hu, hv, hw⟩ := h
  rw [settle_operand] at hw
  obtain rfl : w = [] := hw
  rw [hp] at hv
  rw [List.append_nil]
  exact choices_join hu hv

end Level

namespace Stack

/-! ## Steps of the stack -/

theorem shift_atom {bytes : ByteSet} (hx : x.kind = .atom bytes) : s.shift x =
    .ok { s with level := { s.level.settle with operand := some (.atom bytes) } } := by
  simp only [shift, hx]

theorem shift_openGroup (hx : x.kind = .openGroup) :
    s.shift x = .ok ⟨{}, (x.offset, s.level.settle) :: s.outer⟩ := by
  simp only [shift, hx]

theorem shift_quantifier {r : Quantifier} (hx : x.kind = .quantifier r) :
    s.shift x = .ok s' ↔ ∃ p, s.level.operand = some p ∧
      s' = { s with level := s.level.append (.quantified r p) } := by
  simp only [shift, hx]
  cases s.level.operand <;> simp [fail, eq_comm]

theorem shift_bar (hx : x.kind = .bar) :
    s.shift x = .ok s' ↔ ∃ p, s.level.settle.sequence = some p ∧
      s' = { s with level := { choices := some (join .alt s.level.settle.choices p) } } := by
  simp only [shift, hx]
  cases s.level.settle.sequence <;> simp [fail, eq_comm]

theorem shift_closeGroup (hx : x.kind = .closeGroup) :
    s.shift x = .ok s' ↔ ∃ p offset l outer, s.level.settle.sequence = some p ∧
      s.outer = (offset, l) :: outer ∧
      s' = ⟨{ l with operand := some (join .alt s.level.settle.choices p) }, outer⟩ := by
  simp only [shift, hx]
  cases s.level.settle.sequence with
  | none => cases s.outer <;> simp [fail]
  | some p =>
    cases s.outer with
    | nil => simp
    | cons interrupted outer =>
      obtain ⟨offset, l⟩ := interrupted
      constructor
      · rintro ⟨⟩
        exact ⟨p, offset, l, outer, rfl, rfl, rfl⟩
      · rintro ⟨_, _, _, _, ⟨⟩, ⟨⟩, rfl⟩
        rfl

theorem finish_eq_ok : s.finish length = .ok p ↔ ∃ q, s.level.settle.sequence = some q ∧
    s.outer = [] ∧ p = join .alt s.level.settle.choices q := by
  simp only [finish]
  cases s.level.settle.sequence <;> cases s.outer <;> simp [fail, eq_comm]

theorem run_nil : s.run verdict [] = .ok p ↔
    ∃ length, verdict = .ok length ∧ s.finish length = .ok p := by
  cases verdict <;> simp [run, fail]

theorem run_cons : s.run verdict (x :: xs) = .ok p ↔
    ∃ s', s.shift x = .ok s' ∧ s'.run verdict xs = .ok p := by
  rw [run]
  cases s.shift x <;> simp

/-- Shifting a lexeme reads its text. -/
theorem shift_reads (h : s.Reads t) (hw : LexemeText w x.kind) (hshift : s.shift x = .ok s') :
    s'.Reads (t ++ w) := by
  obtain ⟨u, v, rfl, hu, hv⟩ := h
  have hsettled := Level.settle_reads hv
  have hnone := s.level.settle_operand
  rw [List.append_assoc]
  generalize hkind : x.kind = kind at hw
  cases hw with
  | atom hatom =>
    rw [shift_atom hkind] at hshift
    cases hshift
    exact ⟨u, _, rfl, hu, Level.operand_reads hsettled hnone (.atom hatom)⟩
  | quantifier q =>
    obtain ⟨p, hp, rfl⟩ := (shift_quantifier hkind).1 hshift
    exact ⟨u, _, rfl, hu, Level.quantified_reads hv hp q⟩
  | openGroup =>
    rw [shift_openGroup hkind] at hshift
    cases hshift
    refine ⟨u ++ (v ++ [40]), [], by simp, ?_, ⟨[], [], [], rfl, rfl, rfl, rfl⟩⟩
    exact ⟨u, v, by simp, hu, hsettled, hnone⟩
  | bar =>
    obtain ⟨p, hp, rfl⟩ := (shift_bar hkind).1 hshift
    refine ⟨u, _, rfl, hu, v ++ [124], [], [], by simp, ⟨v, rfl, ?_⟩, rfl, rfl⟩
    exact Level.union_reads hsettled hp
  | closeGroup =>
    obtain ⟨p, offset, l, outer, hp, houter, rfl⟩ := (shift_closeGroup hkind).1 hshift
    rw [houter] at hu
    obtain ⟨a, b, rfl, ha, hb, hopen⟩ := hu
    refine ⟨a, b ++ (40 :: v ++ [41]), by simp, ha, ?_⟩
    exact Level.operand_reads hb hopen (.group (Level.union_reads hsettled hp))

/-- Whatever a stack finishes as derives from what has been read. -/
theorem finish_reads (h : s.Reads t) (hfinish : s.finish length = .ok p) : Derives .union t p := by
  obtain ⟨u, v, rfl, hu, hv⟩ := h
  obtain ⟨q, hq, houter, rfl⟩ := finish_eq_ok.1 hfinish
  rw [houter] at hu
  obtain rfl : u = [] := hu
  exact Level.union_reads (Level.settle_reads hv) hq

/-- Whatever a run from a stack reads derives from all that has been read. -/
theorem run_reads (h : s.Reads t) (hw : Scans w (xs.map (·.kind)))
    (hrun : s.run verdict xs = .ok p) : Derives .union (t ++ w) p := by
  induction xs generalizing s t w with
  | nil =>
    cases hw
    obtain ⟨length, rfl, hfinish⟩ := run_nil.1 hrun
    rw [List.append_nil]
    exact finish_reads h hfinish
  | cons x xs ih =>
    cases hw with
    | cons hx hxs =>
      obtain ⟨s', hshift, hrun⟩ := run_cons.1 hrun
      rw [← List.append_assoc]
      exact ih (shift_reads h hx hshift) hxs hrun

/-- A run that succeeds has come to the end of the text. -/
theorem verdict_of_run (hrun : s.run verdict xs = .ok p) : ∃ length, verdict = .ok length := by
  induction xs generalizing s with
  | nil =>
    obtain ⟨length, hverdict, _⟩ := run_nil.1 hrun
    exact ⟨length, hverdict⟩
  | cons x xs ih =>
    obtain ⟨s', _, hrun⟩ := run_cons.1 hrun
    exact ih hrun

end Stack

/-- A pattern that is read derives from its text. -/
theorem derives_of_read (h : read t = .ok p) : Derives .union t p := by
  cases t with
  | nil => cases h
  | cons b t =>
    unfold read at h
    cases hsigns : Sign.readAll 0 (b :: t) with
    | mk signs ending =>
      cases hlexemes : Lexeme.readAll ending signs with
      | mk lexemes verdict =>
        simp only [hsigns, hlexemes] at h
        obtain ⟨length, rfl⟩ := Stack.verdict_of_run h
        obtain rfl := ending_of_readLexemes hlexemes
        have hscans := readLexemes_sound hlexemes (readSigns_sound hsigns)
        have hstart : ({} : Stack).Reads [] := ⟨[], [], rfl, rfl, [], [], [], rfl, rfl, rfl, rfl⟩
        exact Stack.run_reads hstart hscans h

/-! ## What derives is read -/

namespace Stack

/-- Shifting some lexemes takes one stack to another. -/
def Leads (s : Stack) (xs : List Lexeme) (s' : Stack) : Prop :=
  ∀ verdict ys, s.run verdict (xs ++ ys) = s'.run verdict ys

theorem Leads.trans (h : s.Leads xs s') (h' : s'.Leads ys s'') : s.Leads (xs ++ ys) s'' := by
  intro verdict zs
  rw [List.append_assoc, h, h']

theorem leads_of_shift (h : s.shift x = .ok s') : s.Leads [x] s' := by
  intro verdict ys
  rw [List.singleton_append, run, h]

/-- Where a part of the grammar may begin. -/
def Begins (s : Stack) : Nonterminal → Prop
  | .union => s.level = {}
  | .concatenation => s.level.settle.sequence = none
  | .basic | .primitive => True

/-- How a part of the grammar that began at a stack leaves another one. -/
def Ends (s s' : Stack) (p : Pattern) : Nonterminal → Prop
  | .union => s'.outer = s.outer ∧
    ∃ q, s'.level.settle.sequence = some q ∧ join .alt s'.level.settle.choices q = p
  | .concatenation => s'.outer = s.outer ∧
    s'.level.settle = { s.level.settle with sequence := some p }
  | .basic => s'.outer = s.outer ∧ s'.level.settle = s.level.settle.append p
  | .primitive => s' = { s with level := { s.level.settle with operand := some p } }

/-- A text that takes every stack where its part begins to one where it ends. -/
def Steers (part : Nonterminal) (t : Bytes) (p : Pattern) : Prop :=
  ∃ kinds, Scans t kinds ∧ ∀ (xs : List Lexeme) (s : Stack), xs.map (·.kind) = kinds →
    s.Begins part → ∃ s', s.Leads xs s' ∧ s.Ends s' p part

theorem steers_atom {bytes : ByteSet} (h : Atom t bytes.members) :
    Steers .primitive t (.atom bytes) := by
  refine ⟨[.atom bytes], t.append_nil ▸ .cons (.atom h) .nil, fun xs s hxs _ => ?_⟩
  obtain ⟨x, rfl, hx⟩ := List.map_eq_singleton_iff.1 hxs
  exact ⟨_, leads_of_shift (shift_atom hx), rfl⟩

theorem Steers.group (h : Steers .union t p) : Steers .primitive (40 :: t ++ [41]) p := by
  obtain ⟨kinds, hscans, h⟩ := h
  have hall : Scans (40 :: t ++ [41]) (.openGroup :: kinds ++ [.closeGroup]) :=
    (Scans.cons .openGroup hscans).append (.cons .closeGroup .nil)
  refine ⟨_, hall, fun xs s hxs _ => ?_⟩
  obtain ⟨front, back, rfl, hfront, hback⟩ := List.map_eq_append_iff.1 hxs
  obtain ⟨x, ys, rfl, hx, hys⟩ := List.map_eq_cons_iff.1 hfront
  obtain ⟨y, rfl, hy⟩ := List.map_eq_singleton_iff.1 hback
  have hopen := leads_of_shift (shift_openGroup (s := s) hx)
  obtain ⟨s', hleads, houter, q, hq, rfl⟩ :=
    h ys ⟨{}, (x.offset, s.level.settle) :: s.outer⟩ hys rfl
  have hclose := leads_of_shift ((shift_closeGroup hy).2 ⟨q, _, _, _, hq, houter, rfl⟩)
  exact ⟨_, (hopen.trans hleads).trans hclose, rfl⟩

theorem Steers.bare (h : Steers .primitive t p) : Steers .basic t p := by
  obtain ⟨kinds, hscans, h⟩ := h
  refine ⟨kinds, hscans, fun xs s hxs _ => ?_⟩
  obtain ⟨s', hleads, rfl⟩ := h xs s hxs trivial
  exact ⟨_, hleads, rfl, rfl⟩

theorem Steers.quantified (h : Steers .primitive t p) (r : Quantifier) :
    Steers .basic (t ++ [mark r]) (.quantified r p) := by
  obtain ⟨kinds, hscans, h⟩ := h
  refine ⟨_, hscans.append (.cons (.quantifier r) .nil), fun xs s hxs _ => ?_⟩
  obtain ⟨front, back, rfl, hfront, hback⟩ := List.map_eq_append_iff.1 hxs
  obtain ⟨x, rfl, hx⟩ := List.map_eq_singleton_iff.1 hback
  obtain ⟨s', hleads, rfl⟩ := h front s hfront trivial
  have hshift : shift ⟨{ s.level.settle with operand := some p }, s.outer⟩ x = .ok _ :=
    (shift_quantifier hx).2 ⟨p, rfl, rfl⟩
  exact ⟨_, hleads.trans (leads_of_shift hshift), rfl, rfl⟩

theorem Steers.single (h : Steers .basic t p) : Steers .concatenation t p := by
  obtain ⟨kinds, hscans, h⟩ := h
  refine ⟨kinds, hscans, fun xs s hxs hbegins => ?_⟩
  obtain ⟨s', hleads, houter, hsettle⟩ := h xs s hxs trivial
  refine ⟨s', hleads, houter, ?_⟩
  rw [hsettle, Level.append_eq s.level.settle_operand, hbegins]
  rfl

theorem Steers.seq (hl : Steers .concatenation t p) (hr : Steers .basic u q) :
    Steers .concatenation (t ++ u) (.seq p q) := by
  obtain ⟨kinds, hscans, hl⟩ := hl
  obtain ⟨kinds', hscans', hr⟩ := hr
  refine ⟨_, hscans.append hscans', fun xs s hxs hbegins => ?_⟩
  obtain ⟨front, back, rfl, hfront, hback⟩ := List.map_eq_append_iff.1 hxs
  obtain ⟨s₁, hleads₁, houter₁, hsettle₁⟩ := hl front s hfront hbegins
  obtain ⟨s₂, hleads₂, houter₂, hsettle₂⟩ := hr back s₁ hback trivial
  refine ⟨s₂, hleads₁.trans hleads₂, houter₂.trans houter₁, ?_⟩
  rw [hsettle₂, Level.append_eq s₁.level.settle_operand, hsettle₁]
  rfl

theorem Steers.choice (h : Steers .concatenation t p) : Steers .union t p := by
  obtain ⟨kinds, hscans, h⟩ := h
  refine ⟨kinds, hscans, fun xs s hxs hbegins => ?_⟩
  have hempty : s.level.settle = {} := by
    rw [show s.level = {} from hbegins]
    rfl
  obtain ⟨s', hleads, houter, hsettle⟩ := h xs s hxs (by rw [Begins, hempty])
  refine ⟨s', hleads, houter, p, by rw [hsettle], ?_⟩
  rw [hsettle, hempty]
  rfl

theorem Steers.alt (hl : Steers .union t p) (hr : Steers .concatenation u q) :
    Steers .union (t ++ 124 :: u) (.alt p q) := by
  obtain ⟨kinds, hscans, hl⟩ := hl
  obtain ⟨kinds', hscans', hr⟩ := hr
  refine ⟨_, hscans.append (.cons .bar hscans'), fun xs s hxs hbegins => ?_⟩
  obtain ⟨front, back, rfl, hfront, hback⟩ := List.map_eq_append_iff.1 hxs
  obtain ⟨x, back, rfl, hx, hback⟩ := List.map_eq_cons_iff.1 hback
  obtain ⟨s₁, hleads₁, houter₁, r, hr₁, rfl⟩ := hl front s hfront hbegins
  have hbar := leads_of_shift ((shift_bar hx).2 ⟨r, hr₁, rfl⟩)
  obtain ⟨s₂, hleads₂, houter₂, hsettle₂⟩ := hr back ⟨{ choices := some _ }, s₁.outer⟩ hback rfl
  refine ⟨s₂, hleads₁.trans (hbar.trans hleads₂), houter₂.trans houter₁, q, ?_, ?_⟩
  · rw [hsettle₂]
  · rw [hsettle₂]
    rfl

/-- A text that derives takes the stack to where its pattern is in place. -/
theorem steers_of_derives (h : Derives part t p) : Steers part t p := by
  induction h with
  | atom h => exact steers_atom h
  | group _ ih => exact ih.group
  | bare _ ih => exact ih.bare
  | quantified _ q ih => exact ih.quantified q
  | single _ ih => exact ih.single
  | seq _ _ ihl ihr => exact ihl.seq ihr
  | choice _ ih => exact ih.choice
  | alt _ _ ihl ihr => exact ihl.alt ihr

end Stack

/-- Only texts that are not empty derive. -/
theorem ne_nil_of_derives (h : Derives part t p) : t ≠ [] := by
  induction h with
  | atom h =>
    generalize ByteSet.members _ = members at h
    cases h with
    | bracketed h => cases h <;> simp
    | _ => simp
  | group _ _ => simp
  | bare _ ih => exact ih
  | quantified _ q _ => simp
  | single _ ih => exact ih
  | seq _ _ ihl _ => simp [ihl]
  | choice _ ih => exact ih
  | alt _ _ _ _ => simp

/-- A text that derives is read. -/
theorem read_of_derives (h : Derives .union t p) : read t = .ok p := by
  obtain ⟨kinds, hscans, hsteers⟩ := Stack.steers_of_derives h
  obtain ⟨gs, hgs, hlexemes⟩ := readLexemes_complete hscans
  obtain ⟨signs, hsigns, hglyphs⟩ := readSigns_complete hgs 0
  obtain ⟨lexemes, hread, hkinds⟩ := hlexemes (0 + t.length) signs hglyphs
  obtain ⟨s', hleads, houter, q, hq, rfl⟩ := hsteers lexemes {} hkinds rfl
  cases t with
  | nil => exact absurd rfl (ne_nil_of_derives h)
  | cons b t =>
    have hrun := hleads (.ok (0 + (b :: t).length)) []
    rw [List.append_nil] at hrun
    unfold read
    simp only [hsigns, hread]
    rw [hrun]
    exact Stack.run_nil.2 ⟨_, rfl, Stack.finish_eq_ok.2 ⟨q, hq, houter, rfl⟩⟩

/-- Reading a pattern is deriving it. -/
theorem read_iff_derives : read t = .ok p ↔ Derives .union t p :=
  ⟨derives_of_read, read_of_derives⟩

end Pattern

end MaximalMunch
