import Mathlib
import MaximalMunch.Dfa

/-! Automata in canonical form: the states are reached, lead to accepting ones, are told apart by
what is accepted from them, and are numbered by the shortlex-least words that lead to them. What
such an automaton answers determines it, and no automaton with the same answers is smaller. -/

namespace MaximalMunch

/-- Rows with the same transitions are the same. -/
theorem Row.ext_get? {r r' : Row} (h : ∀ b, r.get? b = r'.get? b) : r = r' := by
  refine Row.ext (Vector.ext fun i hi => ?_)
  have hb := h (UInt8.ofNat i)
  have hn : (UInt8.ofNat i).toNat = i := UInt8.toNat_ofNat_of_lt hi
  simp only [get?, hn] at hb
  exact hb

theorem Row.get?_map (r : Row) (f : Nat → Nat) (b : UInt8) :
    (r.map f).get? b = (r.get? b).map f := by
  have hb : b.toNat < 256 := b.toNat_lt
  exact Vector.getElem_map (Option.map f) hb

namespace Dfa

variable {d e : Dfa} {q r i j : Nat} {v w : Bytes} {b c : UInt8}

/-- What is said to a word that is read from a state: nothing if it is rejected, the priority of the
state it ends in if it is accepted. -/
def answerFrom (d : Dfa) (q : Nat) (w : Bytes) : Option Priority :=
  (d.walk? q w).bind fun r => if d.isAccept r then some (d.priority r) else none

/-- What is said to a word. -/
def answer (d : Dfa) (w : Bytes) : Option Priority := d.answerFrom d.start w

theorem walk?_append : d.walk? q (v ++ w) = (d.walk? q v).bind (d.walk? · w) := by
  induction v generalizing q with
  | nil => rfl
  | cons b v ih =>
    simp only [List.cons_append, walk?]
    cases d.step? q b with
    | none => rfl
    | some r => exact ih

theorem walk?_snoc : d.walk? q (w ++ [b]) = (d.walk? q w).bind (d.step? · b) := by
  rw [walk?_append]
  congr 1
  funext r
  simp only [walk?]
  cases d.step? r b <;> rfl

theorem answerFrom_append (h : d.walk? q v = some r) :
    d.answerFrom q (v ++ w) = d.answerFrom r w := by
  rw [answerFrom, walk?_append, h]
  rfl

theorem answerFrom_eq_none_of_walk? (h : d.walk? q v = none) : d.answerFrom q (v ++ w) = none := by
  rw [answerFrom, walk?_append, h]
  rfl

theorem answerFrom_nil :
    d.answerFrom q [] = if d.isAccept q then some (d.priority q) else none := rfl

theorem isMatch_eq_isSome : d.isMatch w = (d.answer w).isSome := by
  unfold isMatch answer answerFrom
  cases d.walk? d.start w with
  | none => rfl
  | some q => cases h : d.isAccept q <;> simp [h]

theorem isAccept_eq_isSome : d.isAccept q = (d.answerFrom q []).isSome := by
  rw [answerFrom_nil]
  cases d.isAccept q <;> rfl

/-! ## Numbering -/

/-- Edges and marks are sound, all states are reached, and they are numbered by the shortlex-least
words that lead to them. -/
structure Numbered (d : Dfa) : Prop where
  start : d.start = 0
  nonempty : 0 < d.size
  target : ∀ q b r, d.step? q b = some r → r < d.size
  mark : ∀ q s, d.state? q = some s → s.tag.isStart = (q == 0)
  unset : ∀ q, d.isAccept q = false → d.priority q = none
  reached : ∀ q < d.size, ∃ w, d.walk? 0 w = some q
  shortlex : ∀ w j i, d.walk? 0 w = some j → i < j →
    ∃ v, List.Shortlex (· < ·) v w ∧ d.walk? 0 v = some i

/-- An accepting state can be reached from every state. -/
def Live (d : Dfa) : Prop := ∀ q < d.size, ∃ w, d.answerFrom q w ≠ none

/-- Any two states are told apart by some word. -/
def Reduced (d : Dfa) : Prop :=
  ∀ q < d.size, ∀ r < d.size, (∀ w, d.answerFrom q w = d.answerFrom r w) → q = r

structure Canonical (d : Dfa) : Prop extends d.Numbered where
  live : d.Live
  reduced : d.Reduced

theorem Numbered.walk?_lt_of_lt (h : d.Numbered) (hq : q < d.size) (hw : d.walk? q w = some r) :
    r < d.size := by
  induction w generalizing q with
  | nil =>
    cases hw
    exact hq
  | cons b w ih =>
    obtain ⟨x, hx, hw⟩ := Option.bind_eq_some_iff.1 hw
    exact ih (h.target q b x hx) hw

theorem Numbered.walk?_lt (h : d.Numbered) (hw : d.walk? 0 w = some q) : q < d.size :=
  h.walk?_lt_of_lt h.nonempty hw

theorem Numbered.answer_eq (h : d.Numbered) (w : Bytes) : d.answer w = d.answerFrom 0 w := by
  rw [answer, h.start]

/-- A word that leads nowhere begins no accepted word, and the other way round. -/
theorem Canonical.walk?_eq_none_iff (h : d.Canonical) :
    d.walk? 0 v = none ↔ ∀ w, d.answer (v ++ w) = none := by
  constructor
  · intro hv w
    rw [h.answer_eq, answerFrom_eq_none_of_walk? hv]
  · intro hall
    cases hq : d.walk? 0 v with
    | none => rfl
    | some q =>
      obtain ⟨w, hw⟩ := h.live q (h.walk?_lt hq)
      have := hall w
      rw [h.answer_eq, answerFrom_append hq] at this
      exact absurd this hw

/-- Two words lead to the same state if they are told the same whatever follows them. -/
theorem Canonical.walk?_eq_of_answers (h : d.Canonical) (hv : d.walk? 0 v = some q)
    (hw : d.walk? 0 w = some r) (hall : ∀ x, d.answer (v ++ x) = d.answer (w ++ x)) : q = r := by
  refine h.reduced q (h.walk?_lt hv) r (h.walk?_lt hw) fun x => ?_
  have := hall x
  rwa [h.answer_eq, h.answer_eq, answerFrom_append hv, answerFrom_append hw] at this

/-! ## Breadth-first numbering -/

theorem shortlex_snoc (h : List.Shortlex (· < ·) v w) (b c : UInt8) :
    List.Shortlex (· < ·) (v ++ [b]) (w ++ [c]) := by
  rcases List.shortlex_def.1 h with hlt | ⟨hlen, hlex⟩
  · exact List.Shortlex.of_length_lt (by simpa using hlt)
  · refine List.Shortlex.of_lex (by simp [hlen]) ?_
    clear h
    induction hlex with
    | nil => simp at hlen
    | cons _ ih => exact List.Lex.cons (ih (by simpa using hlen))
    | rel hab => exact List.Lex.rel hab

/-- Every state but the first is found from one before it. -/
theorem reached_of_found
    (found : ∀ r, 0 < r → r < d.size → ∃ q b, q < r ∧ d.step? q b = some r) (hq : q < d.size) :
    ∃ w, d.walk? 0 w = some q := by
  induction q using Nat.strongRecOn with
  | ind q ih =>
    rcases Nat.eq_zero_or_pos q with rfl | hpos
    · exact ⟨[], rfl⟩
    · obtain ⟨r, b, hr, hstep⟩ := found q hpos hq
      obtain ⟨w, hw⟩ := ih r hr (by omega)
      exact ⟨w ++ [b], by rw [walk?_snoc, hw, Option.bind_some, hstep]⟩

/-- If states found from lower states, or from the same state by lower bytes, have lower numbers,
then the numbers follow the shortlex order. -/
theorem shortlex_of_ordered
    (ordered : ∀ q b r, d.step? q b = some r → ∀ s, 0 < s → s < r →
      ∃ q' b', d.step? q' b' = some s ∧ (q' < q ∨ q' = q ∧ b' < b))
    (hw : d.walk? 0 w = some j) (hij : i < j) :
    ∃ v, List.Shortlex (· < ·) v w ∧ d.walk? 0 v = some i := by
  induction w using List.reverseRecOn generalizing i j with
  | nil =>
    cases hw
    omega
  | append_singleton w b ih =>
    rw [walk?_snoc, Option.bind_eq_some_iff] at hw
    obtain ⟨q, hq, hstep⟩ := hw
    rcases Nat.eq_zero_or_pos i with rfl | hpos
    · exact ⟨[], List.Shortlex.of_length_lt (by simp), rfl⟩
    · obtain ⟨q', b', hstep', hlt | ⟨rfl, hlt⟩⟩ := ordered q b j hstep i hpos hij
      · obtain ⟨v, hvw, hv⟩ := ih hq hlt
        exact ⟨v ++ [b'], shortlex_snoc hvw b' b, by rw [walk?_snoc, hv, Option.bind_some, hstep']⟩
      · refine ⟨w ++ [b'], ?_, by rw [walk?_snoc, hq, Option.bind_some, hstep']⟩
        exact ((List.shortlex_singleton_iff b' b).2 hlt).append_left w

/-! ## Uniqueness -/

section Unique

variable (hd : d.Canonical) (he : e.Canonical) (h : ∀ w, d.answer w = e.answer w)

include hd he h

/-- Words that lead to one state of the one automaton lead to one state of the other. -/
private theorem Canonical.walk?_transfer (hv : d.walk? 0 v = some q) (hw : d.walk? 0 w = some q)
    (hv' : e.walk? 0 v = some i) (hw' : e.walk? 0 w = some j) : i = j := by
  refine he.walk?_eq_of_answers hv' hw' fun x => ?_
  rw [← h, ← h, hd.answer_eq, hd.answer_eq, answerFrom_append hv, answerFrom_append hw]

omit hd he h in
theorem byte_lt_wf : WellFounded ((· < ·) : UInt8 → UInt8 → Prop) :=
  InvImage.wf UInt8.toNat Nat.lt_wfRel.wf

/-- Every word leads to equally numbered states. The induction is on the word in shortlex order:
were the numbers different, the smaller of them would be reached by a smaller word. -/
theorem Canonical.walk?_eq (w : Bytes) : d.walk? 0 w = e.walk? 0 w := by
  induction w using (List.Shortlex.wf byte_lt_wf).induction with
  | _ w ih => ?_
  have hnone : d.walk? 0 w = none ↔ e.walk? 0 w = none := by
    rw [hd.walk?_eq_none_iff, he.walk?_eq_none_iff]
    simp only [h]
  cases hq : d.walk? 0 w with
  | none => rw [hnone.1 hq]
  | some q =>
    cases hr : e.walk? 0 w with
    | none => rw [hnone.2 hr] at hq; cases hq
    | some r =>
      rw [Option.some.injEq]
      rcases Nat.lt_trichotomy q r with hlt | heq | hgt
      · obtain ⟨v, hvw, hv⟩ := he.shortlex w r q hr hlt
        have hv' : d.walk? 0 v = some q := (ih v hvw).trans hv
        exact hd.walk?_transfer he h hv' hq hv hr
      · exact heq
      · obtain ⟨v, hvw, hv⟩ := hd.shortlex w q r hq hgt
        have hv' : e.walk? 0 v = some r := (ih v hvw).symm.trans hv
        exact (he.walk?_transfer hd (fun w => (h w).symm) hv' hr hv hq).symm

/-- States of one number take the same bytes to the same states. -/
theorem Canonical.step?_eq (hq : q < d.size) (b : UInt8) : d.step? q b = e.step? q b := by
  obtain ⟨w, hw⟩ := hd.reached q hq
  have hw' : e.walk? 0 w = some q := (hd.walk?_eq he h w) ▸ hw
  have hb := hd.walk?_eq he h (w ++ [b])
  rwa [walk?_snoc, walk?_snoc, hw, hw'] at hb

theorem Canonical.answerFrom_eq (hq : q < d.size) (w : Bytes) :
    d.answerFrom q w = e.answerFrom q w := by
  obtain ⟨v, hv⟩ := hd.reached q hq
  have hv' : e.walk? 0 v = some q := (hd.walk?_eq he h v) ▸ hv
  rw [← answerFrom_append hv, ← answerFrom_append hv', ← hd.answer_eq, ← he.answer_eq, h]

theorem Canonical.size_le_of_answers : d.size ≤ e.size := by
  by_contra hlt
  obtain ⟨w, hw⟩ := hd.reached e.size (by omega)
  have := he.walk?_lt ((hd.walk?_eq he h w) ▸ hw)
  omega

theorem Canonical.state_eq (hq : q < d.size) {s t : State} (hs : d.state? q = some s)
    (ht : e.state? q = some t) : s = t := by
  have haccept : d.isAccept q = e.isAccept q := by
    rw [isAccept_eq_isSome, isAccept_eq_isSome, hd.answerFrom_eq he h hq]
  have hpriority : d.priority q = e.priority q := by
    have hnil := hd.answerFrom_eq he h hq []
    rw [answerFrom_nil, answerFrom_nil, ← haccept] at hnil
    cases hacc : d.isAccept q with
    | true => simpa [hacc] using hnil
    | false => rw [hd.unset q hacc, he.unset q (haccept ▸ hacc)]
  have hmark : s.tag = t.tag := by
    apply Tag.ext
    · rw [hd.mark q s hs, he.mark q t ht]
    · simpa [isAccept, hs, ht] using haccept
  have hrow : s.row = t.row := by
    refine Row.ext_get? fun b => ?_
    simpa [step?, hs, ht] using hd.step?_eq he h hq b
  have hset : s.priority = t.priority := by simpa [priority, hs, ht] using hpriority
  cases s
  cases t
  simp_all

/-- Automata in canonical form that answer the same are the same. -/
theorem Canonical.unique : d = e := by
  have hsize : d.size = e.size :=
    Nat.le_antisymm (hd.size_le_of_answers he h)
      (he.size_le_of_answers hd fun w => (h w).symm)
  refine Dfa.ext (hd.start.trans he.start.symm) (Array.ext hsize fun q hq hq' => ?_)
  exact hd.state_eq he h hq (Array.getElem?_eq_getElem hq) (Array.getElem?_eq_getElem hq')

end Unique

end Dfa

/-! ## Minimality -/

/-- Any deterministic automaton with partial transitions: it answers to its states. -/
structure Acceptor (σ : Type) where
  start : σ
  step : σ → UInt8 → Option σ
  output : σ → Option Priority

namespace Acceptor

variable {σ : Type} (m : Acceptor σ)

/-- The state a string leads to. -/
def walk (q : σ) : Bytes → Option σ
  | [] => some q
  | b :: rest => (m.step q b).bind fun r => walk r rest

/-- What is said to a string. -/
def answer (w : Bytes) : Option Priority := (m.walk m.start w).bind m.output

theorem walk_append (q : σ) (v w : Bytes) :
    m.walk q (v ++ w) = (m.walk q v).bind (m.walk · w) := by
  induction v generalizing q with
  | nil => rfl
  | cons b v ih =>
    simp only [List.cons_append, walk]
    cases m.step q b with
    | none => rfl
    | some r => exact ih r

end Acceptor

/-- No automaton with the same answers has fewer states: the words that lead to different states
lead to different states of it too. -/
theorem Dfa.Canonical.size_le_card {d : Dfa} (hd : d.Canonical) {σ : Type} [Fintype σ]
    (m : Acceptor σ) (h : ∀ w, m.answer w = d.answer w) : d.size ≤ Fintype.card σ := by
  have hstate : ∀ q : Fin d.size, ∃ w x, d.walk? 0 w = some q.val ∧ m.walk m.start w = some x := by
    intro q
    obtain ⟨w, hw⟩ := hd.reached q q.isLt
    cases hx : m.walk m.start w with
    | some x => exact ⟨w, x, hw, hx⟩
    | none =>
      have hnone : d.walk? 0 w = none := by
        rw [hd.walk?_eq_none_iff]
        intro v
        rw [← h, Acceptor.answer, m.walk_append, hx]
        rfl
      rw [hnone] at hw
      cases hw
  choose word state hword hstate using hstate
  have hinj : Function.Injective state := by
    intro q r hqr
    refine Fin.ext (hd.walk?_eq_of_answers (hword q) (hword r) fun x => ?_)
    rw [← h, ← h, Acceptor.answer, Acceptor.answer, m.walk_append, m.walk_append, hstate, hstate,
      hqr]
  have hcard := Fintype.card_le_of_injective state hinj
  rwa [Fintype.card_fin] at hcard

end MaximalMunch
