import MaximalMunch.Proofs.Compile

/-! Programs that make components. A program runs on a graph that may hold other nodes already. Each
of its instructions makes a component, of bytes or of components made before, which it uses up. -/

namespace MaximalMunch

open Computability

/-- What a program can do in one step. -/
inductive Instruction
  | ofSet (label : ByteSet)
  | concatenate (l r : Component)
  | union (l r : Component)
  | star (c : Component)
  | plus (c : Component)
  | optional (c : Component)
  | concatenateAll (cs : List Component)
  | unionAll (cs : List Component)

namespace Instruction

def ofByte (b : UInt8) : Instruction := ofSet (.singleton b)

def ofRange (lo hi : UInt8) : Instruction := ofSet (.range lo hi)

def ofBytes (bytes : Bytes) : Instruction := ofSet (.ofList bytes)

/-- The components an instruction uses up. -/
def operands : Instruction → List Component
  | ofSet _ => []
  | concatenate l r => [l, r]
  | union l r => [l, r]
  | star c => [c]
  | plus c => [c]
  | optional c => [c]
  | concatenateAll cs => cs
  | unionAll cs => cs

/-- The graph after an instruction, and the component made in it. -/
def execute (g : Graph) : Instruction → Graph × Option Component
  | ofSet label => (g.ofSet label).map id some
  | concatenate l r => (g.concatenate l r).map id some
  | union l r => (g.union l r).map id some
  | star c => (g.star c).map id some
  | plus c => (g.plus c).map id some
  | optional c => (g.optional c).map id some
  | concatenateAll cs => g.concatenateAll cs
  | unionAll cs => g.unionAll cs

/-- What the component made is to accept, given what the operands accept. -/
def language (L : Component → Language UInt8) : Instruction → Language UInt8
  | ofSet label => label.labelWords
  | concatenate l r => L l * L r
  | union l r => L l + L r
  | star c => (L c)∗
  | plus c => L c * (L c)∗
  | optional c => 1 + L c
  | concatenateAll cs => (cs.map L).prod
  | unionAll cs => (cs.map L).sum

/-- The language made depends on the operands only. -/
theorem language_congr {L M : Component → Language UInt8} (i : Instruction)
    (h : ∀ c ∈ i.operands, L c = M c) : i.language L = i.language M := by
  cases i with
  | ofSet label => rfl
  | concatenate l r =>
    simp only [language, h l (List.mem_cons_self ..), h r (List.mem_pair.2 (Or.inr rfl))]
  | union l r =>
    simp only [language, h l (List.mem_cons_self ..), h r (List.mem_pair.2 (Or.inr rfl))]
  | star c => simp only [language, h c (List.mem_cons_self ..)]
  | plus c => simp only [language, h c (List.mem_cons_self ..)]
  | optional c => simp only [language, h c (List.mem_cons_self ..)]
  | concatenateAll cs => simp only [language, List.map_congr_left (l := cs) h]
  | unionAll cs => simp only [language, List.map_congr_left (l := cs) h]

end Instruction

/-- A graph with the components made in it that have not been used up. -/
structure Workbench where
  graph : Graph
  live : List Component

namespace Workbench

/-- Executes an instruction, which uses up live components, each of them once. -/
def step? (b : Workbench) (i : Instruction) : Option Workbench :=
  if i.operands ⊆ b.live ∧ i.operands.Nodup then
    let (g, made) := i.execute b.graph
    some ⟨g, made.toList ++ b.live.filter (· ∉ i.operands)⟩
  else none

/-- Executes instructions one after the other. -/
def run? (b : Workbench) (program : List Instruction) : Option Workbench := program.foldlM step? b

end Workbench

namespace Graph

variable {g h : Graph} {c d : Component} {S : Component → Set Nat} {cs ds : List Component}
  {Q : Set Nat} {L : Language UInt8}

/-! ## One instruction -/

/-- The words read on the way through a component. -/
def reading (g : Graph) (c : Component) : Language UInt8 := words g.edges c.start c.stop

/-- An instruction turns its operands into a component that reads what the instruction says. Only
from an empty list nothing is made. -/
theorem execute_turns (i : Instruction) (a : g.Layout S i.operands) (hnodup : i.operands.Nodup) :
    (i.execute g = (g, none) ∧ (i = .concatenateAll [] ∨ i = .unionAll [])) ∨
      ∃ d Q, (i.execute g).2 = some d ∧
        g.Turns (span S i.operands) (i.execute g).1 d Q (i.language g.reading) := by
  cases i with
  | ofSet label =>
    have t := g.ofSet_turns label
    rw [← span_nil (S := S)] at t
    exact Or.inr ⟨_, _, rfl, t⟩
  | concatenate l r =>
    obtain ⟨hl, hr, hd⟩ := a.pair hnodup
    have t := concatenate_turns hl hr hd
    rw [← span_pair] at t
    exact Or.inr ⟨_, _, rfl, t⟩
  | union l r =>
    obtain ⟨hl, hr, hd⟩ := a.pair hnodup
    have t := union_turns hl hr hd
    rw [← span_pair] at t
    exact Or.inr ⟨_, _, rfl, t⟩
  | star c =>
    have t := star_turns a.single
    rw [← span_singleton (S := S) (c := c)] at t
    exact Or.inr ⟨_, _, rfl, t⟩
  | plus c =>
    have t := plus_turns a.single
    rw [← span_singleton (S := S) (c := c)] at t
    exact Or.inr ⟨_, _, rfl, t⟩
  | optional c =>
    have t := optional_turns a.single
    rw [← span_singleton (S := S) (c := c)] at t
    exact Or.inr ⟨_, _, rfl, t⟩
  | concatenateAll cs =>
    by_cases hcs : cs = []
    · subst hcs
      exact Or.inl ⟨rfl, Or.inl rfl⟩
    · exact Or.inr (combineAll_turns mul_one (fun hl hr hd => ⟨_, concatenate_turns hl hr hd⟩) a
        hnodup hcs)
  | unionAll cs =>
    by_cases hcs : cs = []
    · subst hcs
      exact Or.inl ⟨rfl, Or.inr rfl⟩
    · exact Or.inr (combineAll_turns add_zero (fun hl hr hd => ⟨_, union_turns hl hr hd⟩) a
        hnodup hcs)

/-- The words a component accepts, by its nondeterministic automaton. -/
def accepted (g : Graph) (c : Component) : Language UInt8 :=
  {w | (Nfa.ofGraph g c).isMatch w = true}

theorem Region.accepted_eq (f : g.Region Q c.start {c.stop}) : g.accepted c = g.reading c :=
  Set.ext fun _ => nfa_isMatch_iff_reads f

namespace Layout

section Keep

variable (a : g.Layout S cs) (hds : ds ⊆ cs) (t : g.Turns (span S ds) h d Q L) (hc : c ∈ cs)
  (hn : c ∉ ds)

include a hds t hc hn

/-- When some of the components are turned into one, the others keep their regions. -/
theorem region_keep : h.Region (S c) c.start {c.stop} :=
  (a.region c hc).keep (t.node?_region (a.region c hc) (a.disjoint_span hc hds hn))

theorem disjoint_keep : Disjoint (S c) Q :=
  t.disjoint (a.region c hc) (a.disjoint_span hc hds hn)

theorem accepted_keep : h.accepted c = g.accepted c := by
  have f := a.region c hc
  have hkeep := t.node?_region f (a.disjoint_span hc hds hn)
  rw [(f.keep hkeep).accepted_eq, f.accepted_eq, reading, reading, f.words_keep hkeep]

end Keep

/-- When some of the components are turned into one, it takes their place. -/
theorem turns (a : g.Layout S cs) (hds : ds ⊆ cs) (t : g.Turns (span S ds) h d Q L) :
    h.Layout (Function.update S d Q) (d :: cs.filter (· ∉ ds)) := by
  have hrest : ∀ c ∈ cs.filter (· ∉ ds), c ∈ cs ∧ c ∉ ds := by
    intro c hc
    simpa using List.mem_filter.1 hc
  have hregion : ∀ c ∈ cs.filter (· ∉ ds), h.Region (S c) c.start {c.stop} := fun c hc =>
    a.region_keep hds t (hrest c hc).1 (hrest c hc).2
  have hapart : ∀ c ∈ cs.filter (· ∉ ds), Disjoint (S c) Q := fun c hc =>
    a.disjoint_keep hds t (hrest c hc).1 (hrest c hc).2
  -- the new component starts outside of all regions that are left
  have hne : ∀ c ∈ cs.filter (· ∉ ds), c ≠ d := by
    rintro c hc rfl
    exact Set.disjoint_left.1 (hapart c hc) (hregion c hc).fragment.entry_mem
      t.region.fragment.entry_mem
  constructor
  · intro c hmem
    rcases List.mem_cons.1 hmem with rfl | hc
    · rw [Function.update_self]
      exact t.region
    · rw [Function.update_of_ne (hne c hc)]
      exact hregion c hc
  · intro c hmem e hmem' hce
    rcases List.mem_cons.1 hmem with rfl | hc
    · have he := (List.mem_cons.1 hmem').resolve_left (Ne.symm hce)
      rw [Function.update_self, Function.update_of_ne (hne e he)]
      exact (hapart e he).symm
    · rw [Function.update_of_ne (hne c hc)]
      rcases List.mem_cons.1 hmem' with rfl | he
      · rw [Function.update_self]
        exact hapart c hc
      · rw [Function.update_of_ne (hne e he)]
        exact a.disjoint c (hrest c hc).1 e (hrest e he).1 hce

end Layout

end Graph

/-! ## Whole programs -/

namespace Workbench

variable {b b' : Workbench} {i : Instruction} {program : List Instruction}

/-- The live components lie apart from each other. -/
def Sound (b : Workbench) : Prop := ∃ S, b.graph.Layout S b.live

theorem sound_nil (g : Graph) : (Workbench.mk g []).Sound :=
  ⟨fun _ => ∅, by simp, by simp⟩

theorem Sound.step (hb : b.Sound) (hstep : b.step? i = some b') : b'.Sound := by
  obtain ⟨S, a⟩ := hb
  unfold step? at hstep
  split at hstep
  · rename_i hi
    obtain ⟨hlive, honce⟩ := hi
    rw [Option.some.injEq] at hstep
    subst hstep
    rcases Graph.execute_turns i (a.mono hlive) honce with ⟨hnone, _⟩ | ⟨d, Q, hd, t⟩
    · rw [hnone]
      exact ⟨S, a.mono (List.filter_subset_self _)⟩
    · rw [hd]
      exact ⟨_, a.turns hlive t⟩
  · cases hstep

theorem Sound.run (hb : b.Sound) (hrun : b.run? program = some b') : b'.Sound :=
  foldlM_some_keeps (fun _ _ _ hb hstep => hb.step hstep) hb hrun

/-- After any program, the component an instruction makes accepts what the instruction says of the
languages of its operands, and all other live components accept what they did before. Only the
folds of an empty list make nothing. -/
theorem execute_accepted {g : Graph} (hrun : (Workbench.mk g []).run? program = some b)
    (hlive : i.operands ⊆ b.live) (honce : i.operands.Nodup) :
    let h := (i.execute b.graph).1
    let made := (i.execute b.graph).2
    (made = none ↔ i = .concatenateAll [] ∨ i = .unionAll []) ∧
      (∀ d ∈ made, h.accepted d = i.language b.graph.accepted) ∧
      ∀ c ∈ b.live, c ∉ i.operands → h.accepted c = b.graph.accepted c := by
  intro h made
  obtain ⟨S, a⟩ := (sound_nil g).run hrun
  have hlanguage : i.language b.graph.accepted = i.language b.graph.reading :=
    i.language_congr fun c hc => (a.region c (hlive hc)).accepted_eq
  rcases Graph.execute_turns i (a.mono hlive) honce with ⟨hnone, hempty⟩ | ⟨d, Q, hd, t⟩
  · have hh : h = b.graph := congrArg Prod.fst hnone
    have hmade : made = none := congrArg Prod.snd hnone
    rw [hh, hmade]
    exact ⟨iff_of_true rfl hempty, by simp, fun _ _ _ => rfl⟩
  · have hmade : made = some d := hd
    rw [hmade, hlanguage]
    refine ⟨iff_of_false (by simp) ?_, ?_, fun c hc hn => a.accepted_keep hlive t hc hn⟩
    · rintro (rfl | rfl) <;> cases hd
    · intro e he
      cases he
      rw [t.region.accepted_eq, Graph.reading, t.reads]

/-- Between two nodes of another use, `([b-c]|a)*` and `[de]` are made, and one byte beside them. -/
def repetition : List Instruction :=
  [.ofByte 97, .ofRange 98 99, .ofBytes [100, 101], .union ⟨4, 5⟩ ⟨2, 3⟩, .star ⟨4, 8⟩, .ofByte 102]

theorem execute_accepted_repetition : ∃ b,
    (Workbench.mk (Graph.empty.ofSet .full).1 []).run? repetition = some b ∧
      b.live = [⟨11, 12⟩, ⟨9, 10⟩, ⟨6, 7⟩] ∧
      let i := Instruction.concatenateAll [⟨9, 10⟩, ⟨6, 7⟩]
      let h := (i.execute b.graph).1
      (i.execute b.graph).2 = some ⟨9, 7⟩ ∧
        h.accepted ⟨9, 7⟩ = b.graph.accepted ⟨9, 10⟩ * b.graph.accepted ⟨6, 7⟩ ∧
        h.accepted ⟨11, 12⟩ = b.graph.accepted ⟨11, 12⟩ := by
  obtain ⟨b, hb⟩ : ∃ b, (Workbench.mk (Graph.empty.ofSet .full).1 []).run? repetition = some b :=
    Option.isSome_iff_exists.1 (by decide +kernel)
  have hlive : b.live = [⟨11, 12⟩, ⟨9, 10⟩, ⟨6, 7⟩] := by
    have h : ((Workbench.mk (Graph.empty.ofSet .full).1 []).run? repetition).map (·.live) =
        some [⟨11, 12⟩, ⟨9, 10⟩, ⟨6, 7⟩] := by decide +kernel
    rw [hb] at h
    exact Option.some.inj h
  refine ⟨b, hb, hlive, ?_⟩
  intro i h
  have hmade : (i.execute b.graph).2 = some ⟨9, 7⟩ := rfl
  obtain ⟨_, haccepted, hrest⟩ := execute_accepted (i := i) hb (by rw [hlive]; decide) (by decide)
  refine ⟨hmade, ?_, hrest _ (by rw [hlive]; decide) (by decide)⟩
  rw [haccepted _ hmade]
  show List.prod [_, _] = _
  rw [List.prod_pair]

end Workbench

end MaximalMunch
