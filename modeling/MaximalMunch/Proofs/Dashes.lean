import MaximalMunch.Proofs.ByteSpelling
import MaximalMunch.Proofs.Runs

/-! What the text of a byte set leaves open. All bytes can be read back from it, but a dash may be a
member or join the ends of a run. Sets that print alike are the same or differ in one dash. -/

namespace MaximalMunch.ByteSet

/-! ## The spelled bytes -/

namespace Runs

variable {rs rs' : Runs} {b lo hi : UInt8} {u : Bytes}

/-- The bytes that are spelled for a run: its one member, or its ends around a dash. -/
def ends (x : UInt8 × UInt8) : Bytes := if x.1 = x.2 then [x.1] else [x.1, 45, x.2]

/-- The bytes that are spelled for runs. -/
def outline (rs : Runs) : Bytes := rs.flatMap ends

theorem outline_append : outline (rs ++ rs') = outline rs ++ outline rs' := List.flatMap_append

theorem outline_cons : outline ((lo, hi) :: rs) =
    lo :: if lo = hi then outline rs else 45 :: hi :: outline rs := by
  rw [outline, List.flatMap_cons, ends]
  split <;> rfl

theorem outline_cons_single : outline ((lo, lo) :: rs) = lo :: outline rs := by
  rw [outline_cons, if_pos rfl]

theorem outline_cons_longer (h : lo ≠ hi) :
    outline ((lo, hi) :: rs) = lo :: 45 :: hi :: outline rs := by
  rw [outline_cons, if_neg h]

/-- The first byte that is spelled begins the first run. -/
theorem exists_of_outline_eq_cons (h : outline rs = b :: u) : ∃ hi rs', rs = (b, hi) :: rs' := by
  cases rs with
  | nil => cases h
  | cons x rs =>
    obtain ⟨lo, hi⟩ := x
    rw [outline_cons, List.cons.injEq] at h
    exact ⟨hi, rs, h.1 ▸ rfl⟩

theorem eq_nil_of_outline_eq_nil (h : outline rs = []) : rs = [] := by
  cases rs with
  | nil => rfl
  | cons x rs =>
    rw [outline_cons] at h
    cases h

theorem flatMap_spelling_ends (x : UInt8 × UInt8) :
    (ends x).flatMap Byte.spelling = runSpelling x := by
  unfold ends runSpelling
  split
  · rw [List.flatMap_singleton]
  · simp only [List.flatMap_cons, List.flatMap_nil, List.append_nil]
    rfl

end Runs

variable {s t rest : ByteSet} {b lo hi : UInt8}

theorem spelling_eq (s : ByteSet) :
    s.spelling = '[' :: (Runs.outline s.runs).flatMap Byte.spelling ++ [']'] := by
  rw [spelling, Runs.outline, List.flatMap_assoc]
  simp only [Runs.flatMap_spelling_ends]

/-- The text tells which bytes are spelled. -/
theorem text_eq_iff_outline : s.text = t.text ↔ Runs.outline s.runs = Runs.outline t.runs := by
  constructor
  · intro h
    have hspelling : s.spelling = t.spelling := String.ofList_injective h
    rw [spelling_eq, spelling_eq, List.append_left_inj, List.cons.injEq] at hspelling
    exact Byte.eq_of_flatMap_spelling hspelling.2
  · intro h
    rw [text, text, spelling_eq, spelling_eq, h]

/-! ## Runs that are spelled alike -/

namespace Runs

variable {rs rs' before after : Runs} {lo hi : UInt8}

/-- Runs that differ in what a dash stands for. It is a run between two others, or joins the ends of
one run. Of two dashes one begins a run and the other joins it, or one joins a run and the other
ends it. -/
inductive Twins : Runs → Runs → Prop
  | between (before after : Runs) (lo hi : UInt8) :
    Twins (before ++ ([(lo, lo), (45, 45), (hi, hi)] ++ after)) (before ++ ([(lo, hi)] ++ after))
  | shared (before after : Runs) (lo hi : UInt8) :
    Twins (before ++ ([(lo, lo), (45, hi)] ++ after)) (before ++ ([(lo, 45), (hi, hi)] ++ after))

theorem Twins.cons (x : UInt8 × UInt8) (h : Twins rs rs') : Twins (x :: rs) (x :: rs') := by
  cases h with
  | between before after lo hi => exact .between (x :: before) after lo hi
  | shared before after lo hi => exact .shared (x :: before) after lo hi

/-- Runs that are spelled alike begin with the same byte. The first runs are the same, or one has
just this byte and the other goes on behind a dash. -/
theorem first_of_outline_eq (heq : outline ((lo, hi) :: rs) = outline rs') :
    ∃ hi' tail, rs' = (lo, hi') :: tail ∧ (hi = hi' ∧ outline rs = outline tail ∨
      lo = hi ∧ lo ≠ hi' ∧ outline rs = 45 :: hi' :: outline tail ∨
      lo = hi' ∧ lo ≠ hi ∧ outline tail = 45 :: hi :: outline rs) := by
  rw [outline_cons] at heq
  obtain ⟨hi', tail, rfl⟩ := exists_of_outline_eq_cons heq.symm
  refine ⟨hi', tail, rfl, ?_⟩
  rw [outline_cons, List.cons_inj_right] at heq
  split_ifs at heq with hone hone' hone'
  · exact Or.inl ⟨hone.symm.trans hone', heq⟩
  · exact Or.inr (Or.inl ⟨hone, hone', heq⟩)
  · exact Or.inr (Or.inr ⟨hone', hone, heq.symm⟩)
  · rw [List.cons_inj_right, List.cons.injEq] at heq
    exact Or.inl heq

/-- Among bytes above the dash, all dashes are joints. -/
theorem eq_of_outline_eq (hrs : ∀ x ∈ rs, 45 < x.1.toNat) (hrs' : ∀ x ∈ rs', 45 < x.1.toNat)
    (heq : outline rs = outline rs') : rs = rs' := by
  induction rs generalizing rs' with
  | nil => exact (eq_nil_of_outline_eq_nil heq.symm).symm
  | cons x rs ih =>
    obtain ⟨lo, hi⟩ := x
    obtain ⟨hi', tail, rfl, hfirst⟩ := first_of_outline_eq heq
    rw [List.forall_mem_cons] at hrs hrs'
    rcases hfirst with ⟨rfl, htail⟩ | ⟨-, -, htail⟩ | ⟨-, -, htail⟩
    · rw [ih hrs.2 hrs'.2 htail]
    · obtain ⟨_, _, rfl⟩ := exists_of_outline_eq_cons htail
      exact absurd (hrs.2 _ List.mem_cons_self) (Nat.lt_irrefl 45)
    · obtain ⟨_, _, rfl⟩ := exists_of_outline_eq_cons htail
      exact absurd (hrs'.2 _ List.mem_cons_self) (Nat.lt_irrefl 45)

/-- If a longer run is spelled like a single byte and what is behind that, its dash is a member
there: as a run of its own between the two ends, or as the first byte of a run behind. -/
theorem twins_of_longer (h : Separated ((lo, lo) :: rs)) (h' : Separated ((lo, hi) :: rs'))
    (heq : outline rs = 45 :: hi :: outline rs') : Twins ((lo, lo) :: rs) ((lo, hi) :: rs') := by
  obtain ⟨last, rs, rfl⟩ := exists_of_outline_eq_cons heq
  obtain ⟨-, -, hdash⟩ := separated_cons.1 h
  obtain ⟨hle, hgap, -⟩ := separated_cons.1 hdash
  obtain ⟨-, hgap', -⟩ := separated_cons.1 h'
  -- Behind this dash all members are above it, so the rest is spelled in one way only.
  by_cases hone : (45 : UInt8) = last
  · subst hone
    rw [outline_cons_single, List.cons_inj_right] at heq
    have habove : ∀ x ∈ rs, 45 < x.1.toNat := fun x hx => Nat.lt_of_succ_lt (hgap x hx)
    have hhi : 45 < hi.toNat := by
      obtain ⟨_, _, rfl⟩ := exists_of_outline_eq_cons heq
      exact habove _ List.mem_cons_self
    obtain rfl : rs = (hi, hi) :: rs' := by
      refine eq_of_outline_eq habove ?_ (heq.trans outline_cons_single.symm)
      refine List.forall_mem_cons.2 ⟨hhi, fun x hx => ?_⟩
      have := hgap' x hx
      omega
    exact .between [] rs' lo hi
  · rw [outline_cons_longer hone, List.cons_inj_right, List.cons.injEq] at heq
    obtain ⟨rfl, heq⟩ := heq
    have habove : ∀ x ∈ rs', 45 < x.1.toNat := fun x hx => Nat.lt_of_succ_lt (hgap' x hx)
    have hlast : 45 < last.toNat := Nat.lt_of_le_of_ne hle fun h => hone (UInt8.toNat_inj.1 h)
    obtain rfl : rs' = (last, last) :: rs := by
      refine eq_of_outline_eq habove ?_ (heq.symm.trans outline_cons_single.symm)
      refine List.forall_mem_cons.2 ⟨hlast, fun x hx => ?_⟩
      have := hgap x hx
      omega
    exact .shared [] rs lo last

/-- Separated runs that are spelled alike are the same or twins. -/
theorem eq_or_twins (h : Separated rs) (h' : Separated rs') (heq : outline rs = outline rs') :
    rs = rs' ∨ Twins rs rs' ∨ Twins rs' rs := by
  induction rs generalizing rs' with
  | nil => exact Or.inl (eq_nil_of_outline_eq_nil heq.symm).symm
  | cons x rs ih =>
    obtain ⟨lo, hi⟩ := x
    obtain ⟨hi', tail, rfl, hfirst⟩ := first_of_outline_eq heq
    rcases hfirst with ⟨rfl, htail⟩ | ⟨rfl, -, htail⟩ | ⟨rfl, -, htail⟩
    · rcases ih (separated_cons.1 h).2.2 (separated_cons.1 h').2.2 htail with rfl | htwins | htwins
      · exact Or.inl rfl
      · exact Or.inr (Or.inl (htwins.cons _))
      · exact Or.inr (Or.inr (htwins.cons _))
    · exact Or.inr (Or.inl (twins_of_longer h h' htail))
    · exact Or.inr (Or.inr (twins_of_longer h' h htail))

end Runs

/-! ## Sets that print alike -/

/-- Two bytes with the dash well between them, and members that keep away from where they are. -/
structure Apart (rest : ByteSet) (lo hi : UInt8) : Prop where
  below : lo < 44
  above : 46 < hi
  away : ∀ b ∈ rest, b.toNat + 1 < lo.toNat ∨ hi.toNat + 1 < b.toNat

theorem Apart.lo_le (h : Apart rest lo hi) : lo ≤ 45 :=
  UInt8.le_of_lt (UInt8.lt_trans h.below (by decide))

theorem Apart.le_hi (h : Apart rest lo hi) : 45 ≤ hi :=
  UInt8.le_of_lt (UInt8.lt_trans (by decide) h.above)

theorem Apart.lo_le_hi (h : Apart rest lo hi) : lo ≤ hi := UInt8.le_trans h.lo_le h.le_hi

theorem Apart.lo_ne (h : Apart rest lo hi) : lo ≠ 45 := by
  rintro rfl
  exact absurd h.below (by decide)

theorem Apart.ne_hi (h : Apart rest lo hi) : 45 ≠ hi := by
  rintro rfl
  exact absurd h.above (by decide)

theorem Apart.lo_ne_hi (h : Apart rest lo hi) : lo ≠ hi := by
  rintro rfl
  exact h.lo_ne (UInt8.le_antisymm h.lo_le h.le_hi)

/-- Two sets that differ in what a dash of their text stands for; the members in `rest` are in both.
One dash between `lo` and `hi` is a member, or it joins all bytes from `lo` to `hi`. Of two dashes
between them one is a member and the other a joint: the first begins the bytes up to `hi`, or the
second ends those from `lo` on. -/
inductive DashTwins : ByteSet → ByteSet → Prop
  | between {rest : ByteSet} {lo hi : UInt8} (h : Apart rest lo hi) :
    DashTwins (rest ∪ .ofList [lo, 45, hi]) (rest ∪ .range lo hi)
  | shared {rest : ByteSet} {lo hi : UInt8} (h : Apart rest lo hi) :
    DashTwins (rest ∪ (.singleton lo ∪ .range 45 hi)) (rest ∪ (.range lo 45 ∪ .singleton hi))

namespace Runs

variable {rs rs' before mid mid' after : Runs} {lo hi : UInt8}

theorem covers_singleton : Covers [(lo, hi)] b ↔ b ∈ range lo hi := by
  rw [covers_cons, mem_range, UInt8.le_iff_toNat_le, UInt8.le_iff_toNat_le]
  exact or_iff_left not_covers_nil

/-- The runs of three members that lie apart. -/
theorem covers_between : Covers [(lo, lo), (45, 45), (hi, hi)] b ↔ b ∈ ofList [lo, 45, hi] := by
  show Covers ([(lo, lo)] ++ ([(45, 45)] ++ [(hi, hi)])) b ↔ _
  simp only [covers_append, covers_singleton, mem_range_self, mem_ofList, List.mem_cons,
    List.not_mem_nil, or_false]

theorem covers_first : Covers [(lo, lo), (45, hi)] b ↔ b ∈ singleton lo ∪ range 45 hi := by
  show Covers ([(lo, lo)] ++ [(45, hi)]) b ↔ _
  rw [covers_append, covers_singleton, covers_singleton, mem_range_self, mem_union, mem_singleton]

theorem covers_last : Covers [(lo, 45), (hi, hi)] b ↔ b ∈ range lo 45 ∪ singleton hi := by
  show Covers ([(lo, 45)] ++ [(hi, hi)]) b ↔ _
  rw [covers_append, covers_singleton, covers_singleton, mem_range_self, mem_union, mem_singleton]

theorem separated_singleton : Separated [(lo, hi)] ↔ lo ≤ hi := by
  rw [separated_cons, UInt8.le_iff_toNat_le]
  exact and_iff_left ⟨by simp, separated_nil⟩

theorem separated_pair {lo' hi' : UInt8} : Separated [(lo, hi), (lo', hi')] ↔
    lo ≤ hi ∧ hi.toNat + 1 < lo'.toNat ∧ lo' ≤ hi' := by
  rw [separated_cons, separated_singleton, List.forall_mem_singleton, ← UInt8.le_iff_toNat_le]

theorem separated_first : Separated [(lo, lo), (45, hi)] ↔ lo < 44 ∧ 45 ≤ hi := by
  rw [separated_pair, UInt8.lt_iff_toNat_lt]
  show lo ≤ lo ∧ lo.toNat + 1 < 45 ∧ 45 ≤ hi ↔ lo.toNat < 44 ∧ 45 ≤ hi
  simp only [UInt8.le_refl, true_and]
  exact and_congr_left fun _ => by omega

theorem separated_last : Separated [(lo, 45), (hi, hi)] ↔ lo ≤ 45 ∧ 46 < hi := by
  rw [separated_pair, UInt8.lt_iff_toNat_lt]
  exact and_congr_right fun _ => and_iff_left (UInt8.le_refl hi)

theorem separated_between : Separated [(lo, lo), (45, 45), (hi, hi)] ↔ lo < 44 ∧ 46 < hi := by
  rw [separated_cons, separated_last, List.forall_mem_cons, List.forall_mem_singleton,
    UInt8.lt_iff_toNat_lt, UInt8.lt_iff_toNat_lt]
  show lo.toNat ≤ lo.toNat ∧ (lo.toNat + 1 < 45 ∧ lo.toNat + 1 < hi.toNat) ∧
    (45 : UInt8) ≤ 45 ∧ 46 < hi.toNat ↔ lo.toNat < 44 ∧ 46 < hi.toNat
  simp only [UInt8.le_refl, true_and]
  omega

/-! Where runs in the middle are exchanged, the other members stay. -/

/-- The members outside of the runs in the middle, which keep away from these. -/
theorem exists_rest (hs : s.runs = before ++ (mid ++ after))
    (ht : t.runs = before ++ (mid' ++ after)) :
    ∃ rest : ByteSet,
      (∀ x ∈ mid, ∀ y ∈ mid, ∀ b ∈ rest, b.toNat + 1 < x.1.toNat ∨ y.2.toNat + 1 < b.toNat) ∧
      (∀ m, (∀ b, Covers mid b ↔ b ∈ m) → s = rest ∪ m) ∧
      ∀ m, (∀ b, Covers mid' b ↔ b ∈ m) → t = rest ∪ m := by
  obtain ⟨rest, hmembers⟩ := members_surjective {b | Covers before b ∨ Covers after b}
  have hrest : ∀ b, b ∈ rest ↔ Covers before b ∨ Covers after b := fun b => Set.ext_iff.1 hmembers b
  have hunion : ∀ {r : ByteSet} {inner : Runs}, r.runs = before ++ (inner ++ after) →
      ∀ m, (∀ b, Covers inner b ↔ b ∈ m) → r = rest ∪ m := by
    intro r inner hr m hm
    refine ext_mem fun b => ?_
    rw [← covers_runs, hr, covers_append, covers_append, mem_union, hrest, hm]
    tauto
  refine ⟨rest, fun x hx y hy b hb => ?_, hunion hs, hunion ht⟩
  obtain ⟨-, hinner, hbefore⟩ := separated_append.1 (hs ▸ runs_separated s)
  obtain ⟨-, -, hafter⟩ := separated_append.1 hinner
  rcases (hrest b).1 hb with ⟨z, hz, -, hle⟩ | ⟨z, hz, hle, -⟩
  · have := hbefore z hz x (List.mem_append_left _ hx)
    omega
  · have := hafter y hy z hz
    omega

theorem separated_mid (hs : s.runs = before ++ (mid ++ after)) : Separated mid :=
  (separated_append.1 (separated_append.1 (hs ▸ runs_separated s)).2.1).1

/-- Twins among runs are twins among sets. -/
theorem Twins.dashTwins (h : Twins rs rs') (hs : s.runs = rs) (ht : t.runs = rs') :
    DashTwins s t := by
  cases h with
  | between before after lo hi =>
    obtain ⟨rest, haway, hs', ht'⟩ := exists_rest hs ht
    obtain ⟨hlo, hhi⟩ := separated_between.1 (separated_mid hs)
    rw [hs' _ fun _ => covers_between, ht' _ fun _ => covers_singleton]
    exact .between ⟨hlo, hhi, haway (lo, lo) (by simp) (hi, hi) (by simp)⟩
  | shared before after lo hi =>
    obtain ⟨rest, haway, hs', ht'⟩ := exists_rest hs ht
    obtain ⟨hlo, -⟩ := separated_first.1 (separated_mid hs)
    obtain ⟨-, hhi⟩ := separated_last.1 (separated_mid ht)
    rw [hs' _ fun _ => covers_first, ht' _ fun _ => covers_last]
    exact .shared ⟨hlo, hhi, haway (lo, lo) (by simp) (45, hi) (by simp)⟩

/-- Members that keep away from a place have runs before and after it, and what is put there has its
runs between them. -/
theorem exists_runs_union (h : Apart rest lo hi) : ∃ before after, ∀ (m : ByteSet) (mid : Runs),
    Separated mid → (∀ b, Covers mid b ↔ b ∈ m) → (∀ x ∈ mid, lo ≤ x.1 ∧ x.2 ≤ hi) →
      (rest ∪ m).runs = before ++ (mid ++ after) := by
  obtain ⟨low, hlow⟩ := members_surjective {b | b ∈ rest ∧ b.toNat + 1 < lo.toNat}
  obtain ⟨high, hhigh⟩ := members_surjective {b | b ∈ rest ∧ hi.toNat + 1 < b.toNat}
  have hlow : ∀ b, b ∈ low ↔ b ∈ rest ∧ b.toNat + 1 < lo.toNat := fun b => Set.ext_iff.1 hlow b
  have hhigh : ∀ b, b ∈ high ↔ b ∈ rest ∧ hi.toNat + 1 < b.toNat := fun b => Set.ext_iff.1 hhigh b
  have hlohi := UInt8.le_iff_toNat_le.1 h.lo_le_hi
  have hbefore : ∀ x ∈ low.runs, x.2.toNat + 1 < lo.toNat := by
    intro x hx
    have hle := (runs_separated low).ordered x hx
    exact ((hlow x.2).1 (covers_runs.1 ⟨x, hx, hle, Nat.le_refl _⟩)).2
  have hafter : ∀ x ∈ high.runs, hi.toNat + 1 < x.1.toNat := by
    intro x hx
    have hle := (runs_separated high).ordered x hx
    exact ((hhigh x.1).1 (covers_runs.1 ⟨x, hx, Nat.le_refl _, hle⟩)).2
  refine ⟨low.runs, high.runs, fun m mid hmid hm hwithin => runs_eq ?_ fun b => ?_⟩
  · refine separated_append.2 ⟨runs_separated low,
      separated_append.2 ⟨hmid, runs_separated high, fun x hx y hy => ?_⟩, fun x hx y hy => ?_⟩
    · have hle := UInt8.le_iff_toNat_le.1 (hwithin x hx).2
      have hlt := hafter y hy
      omega
    · have hlt := hbefore x hx
      rcases List.mem_append.1 hy with hy | hy
      · have hle := UInt8.le_iff_toNat_le.1 (hwithin y hy).1
        omega
      · have hlt' := hafter y hy
        omega
  · rw [covers_append, covers_append, covers_runs, covers_runs, hm, hlow, hhigh, mem_union]
    have haway := h.away b
    tauto

end Runs

open Runs

/-- Twins print alike. -/
theorem DashTwins.text_eq (h : DashTwins s t) : s.text = t.text := by
  rw [text_eq_iff_outline]
  cases h with
  | @between rest lo hi h =>
    obtain ⟨before, after, hruns⟩ := exists_runs_union h
    have hmember := hruns _ _ (separated_between.2 ⟨h.below, h.above⟩) (fun _ => covers_between)
      (by simp [h.lo_le, h.le_hi, h.lo_le_hi])
    have hjoint := hruns _ _ (separated_singleton.2 h.lo_le_hi) (fun _ => covers_singleton)
      (by simp)
    rw [hmember, hjoint]
    simp only [outline_append, outline_cons_single, outline_cons_longer h.lo_ne_hi]
  | @shared rest lo hi h =>
    obtain ⟨before, after, hruns⟩ := exists_runs_union h
    have hfirst := hruns _ _ (separated_first.2 ⟨h.below, h.le_hi⟩) (fun _ => covers_first)
      (by simp [h.lo_le, h.lo_le_hi])
    have hlast := hruns _ _ (separated_last.2 ⟨h.lo_le, h.above⟩) (fun _ => covers_last)
      (by simp [h.le_hi, h.lo_le_hi])
    rw [hfirst, hlast]
    simp only [outline_append, outline_cons_single, outline_cons_longer h.lo_ne,
      outline_cons_longer h.ne_hi]

/-- Both twins have the dash. -/
theorem DashTwins.mem_dash (h : DashTwins s t) : 45 ∈ s ∧ 45 ∈ t := by
  cases h with
  | between h => simp [h.lo_le, h.le_hi]
  | shared h => simp [h.lo_le, h.le_hi]

/-- Sets with one text are the same or twins. -/
theorem text_eq_iff : s.text = t.text ↔ s = t ∨ DashTwins s t ∨ DashTwins t s := by
  constructor
  · intro h
    rcases eq_or_twins (runs_separated s) (runs_separated t) (text_eq_iff_outline.1 h) with
      hruns | htwins | htwins
    · refine Or.inl (ext_mem fun b => ?_)
      rw [← covers_runs, hruns, covers_runs]
    · exact Or.inr (Or.inl (htwins.dashTwins rfl rfl))
    · exact Or.inr (Or.inr (htwins.dashTwins rfl rfl))
  · rintro (rfl | h | h)
    · rfl
    · exact h.text_eq
    · exact h.text_eq.symm

theorem text_eq_iff_of_not_mem_dash (h : ¬ 45 ∈ s) : s.text = t.text ↔ s = t :=
  text_eq_iff.trans (or_iff_left fun htwins =>
    h (htwins.elim (fun h => h.mem_dash.1) fun h => h.mem_dash.2))

end MaximalMunch.ByteSet
