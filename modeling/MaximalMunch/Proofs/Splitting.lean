import MaximalMunch.Dfa.Minimal
import MaximalMunch.Proofs.FixedPoint
import MaximalMunch.Proofs.Lists

/-! Partition refinement. Every pass that splits a block makes more blocks, so there are fewer
passes than states. What is kept from pass to pass is that the blocks are a partition, that the
states of a block accept alike, and that states that are observed alike stay together. The partition
in the end is the coarsest that the transitions respect, and it is that of the stable colouring. -/

namespace MaximalMunch.Dfa

variable {d : Dfa} {blocks other parts : Partition} {block part : List Nat} {q r : Nat}

/-- Two states are in one block. -/
def Together (blocks : Partition) (q r : Nat) : Prop := ∃ block ∈ blocks, q ∈ block ∧ r ∈ block

/-- States that are together in one partition are together in the other. -/
def Refines (blocks other : Partition) : Prop := ∀ q r, Together blocks q r → Together other q r

/-- States that are together are taken by each byte to states that are together, or none of them has
a transition for it. -/
def Stable (d : Dfa) (blocks : Partition) : Prop :=
  ∀ q r, Together blocks q r → ∀ b, Option.Rel (Together blocks) (d.step? q b) (d.step? r b)

/-- No block is empty, and the states, each once, are what the blocks are made of. -/
structure IsPartition (d : Dfa) (blocks : Partition) : Prop where
  nonempty : ∀ block ∈ blocks, block ≠ []
  perm : blocks.flatten.Perm (List.range d.size)

/-! ## Parts by a key -/

section Parts

variable {α : Type} [BEq α] [LawfulBEq α] {key : Nat → α}

/-- The members that have one of some different keys, key by key. -/
theorem flatMap_filter_perm (key : Nat → α) (block : List Nat) {keys : List α}
    (hkeys : keys.Nodup) :
    (keys.flatMap fun k => block.filter (key · == k)).Perm
      (block.filter fun q => keys.contains (key q)) := by
  induction keys with
  | nil => simp
  | cons k keys ih =>
    rw [List.nodup_cons] at hkeys
    have hfront : (block.filter fun q => (k :: keys).contains (key q)).filter (key · == k) =
        block.filter (key · == k) := by
      rw [List.filter_filter]
      refine List.filter_congr fun q _ => ?_
      by_cases hq : key q = k <;> simp [hq]
    have hbehind : (block.filter fun q => (k :: keys).contains (key q)).filter (!key · == k) =
        block.filter fun q => keys.contains (key q) := by
      rw [List.filter_filter]
      refine List.filter_congr fun q _ => ?_
      by_cases hq : key q = k
      · simp [hq, hkeys.1]
      · simp [hq]
    have hperm := List.filter_append_perm (key · == k)
      (block.filter fun q => (k :: keys).contains (key q))
    rw [hfront, hbehind] at hperm
    exact ((ih hkeys.2).append_left _).trans hperm

variable [Ord α]

theorem mem_partsBy :
    part ∈ partsBy key block ↔ ∃ q ∈ block, block.filter (key · == key q) = part := by
  simp only [partsBy, List.mem_map, List.mem_mergeSort, List.mem_eraseDups]
  constructor
  · rintro ⟨_, ⟨q, hq, rfl⟩, rfl⟩
    exact ⟨q, hq, rfl⟩
  · rintro ⟨q, hq, rfl⟩
    exact ⟨key q, ⟨q, hq, rfl⟩, rfl⟩

theorem together_partsBy :
    Together (partsBy key block) q r ↔ q ∈ block ∧ r ∈ block ∧ key q = key r := by
  constructor
  · rintro ⟨part, hpart, hq, hr⟩
    obtain ⟨x, _, rfl⟩ := mem_partsBy.1 hpart
    rw [List.mem_filter, beq_iff_eq] at hq hr
    exact ⟨hq.1, hr.1, hq.2.trans hr.2.symm⟩
  · rintro ⟨hq, hr, hkey⟩
    refine ⟨_, mem_partsBy.2 ⟨q, hq, rfl⟩, ?_, ?_⟩ <;> simp [hq, hr, hkey]

/-- The parts of a block are made of its members. -/
theorem partsBy_flatten_perm : (partsBy key block).flatten.Perm block := by
  have hkeys := (List.mergeSort_perm (block.map key).eraseDups
    fun k l => (compare k l).isLE).nodup_iff.2 (nodup_eraseDups _)
  have hperm := flatMap_filter_perm key block hkeys
  have hall : (block.filter fun q => ((block.map key).eraseDups.mergeSort
      fun k l => (compare k l).isLE).contains (key q)) = block := by
    rw [List.filter_eq_self]
    intro q hq
    simpa using ⟨q, hq, rfl⟩
  rwa [hall] at hperm

theorem ne_nil_of_mem_partsBy (h : part ∈ partsBy key block) : part ≠ [] := by
  obtain ⟨q, hq, rfl⟩ := mem_partsBy.1 h
  exact List.ne_nil_of_mem (List.mem_filter.2 ⟨hq, beq_self_eq_true _⟩)

/-- When there are not two parts, all members have one key. -/
theorem key_eq_of_length_le_one (h : (partsBy key block).length ≤ 1) (hq : q ∈ block)
    (hr : r ∈ block) : key q = key r := by
  have hpart : ∀ x ∈ block, block.filter (key · == key x) ∈ partsBy key block :=
    fun x hx => mem_partsBy.2 ⟨x, hx, rfl⟩
  obtain ⟨i, hi, hqi⟩ := List.getElem_of_mem (hpart q hq)
  obtain ⟨j, hj, hrj⟩ := List.getElem_of_mem (hpart r hr)
  obtain rfl : i = j := by omega
  have hmem : q ∈ block.filter (key · == key r) := by
    rw [← hrj, hqi]
    simp [hq]
  simpa using (List.mem_filter.1 hmem).2

end Parts

/-! ## Partitions -/

namespace IsPartition

variable (p : d.IsPartition blocks)

include p

theorem length_le : blocks.length ≤ d.size := by
  have hlen := p.perm.length_eq
  have hsum := List.length_le_sum_of_one_le (blocks.map List.length) fun n hn => by
    obtain ⟨block, hblock, rfl⟩ := List.mem_map.1 hn
    exact List.length_pos_iff.2 (p.nonempty block hblock)
  rw [List.length_flatten, List.length_range] at hlen
  rw [List.length_map] at hsum
  omega

theorem exists_block (hq : q < d.size) : ∃ block ∈ blocks, q ∈ block :=
  List.mem_flatten.1 (p.perm.mem_iff.2 (List.mem_range.2 hq))

/-- A state is in one block only. -/
theorem block_eq {block' : List Nat} (hblock : block ∈ blocks) (hblock' : block' ∈ blocks)
    (hq : q ∈ block) (hq' : q ∈ block') : block = block' := by
  have hdisjoint := (List.nodup_flatten.1 (p.perm.nodup_iff.2 List.nodup_range)).2
  by_contra hne
  have : Std.Symm (List.Disjoint (α := Nat)) := ⟨fun _ _ h => h.symm⟩
  exact hdisjoint.forall hblock hblock' hne hq hq'

theorem blockOf_eq_iff (hq : q < d.size) :
    blockOf blocks q = blockOf blocks r ↔ Together blocks q r := by
  constructor
  · intro h
    obtain ⟨block, hblock, hmem⟩ := p.exists_block hq
    have hlt : blockOf blocks q < blocks.length :=
      List.findIdx_lt_length_of_exists ⟨block, hblock, by simpa using hmem⟩
    have hlt' : blockOf blocks r < blocks.length := h ▸ hlt
    have hqmem : blocks[blockOf blocks q].contains q = true := List.findIdx_getElem
    have hrmem : blocks[blockOf blocks r].contains r = true := List.findIdx_getElem
    exact ⟨_, List.getElem_mem hlt, by simpa using hqmem, by simpa [h] using hrmem⟩
  · rintro ⟨block, hblock, hqblock, hrblock⟩
    refine findIdx_congr fun block' hblock' => ?_
    rw [Bool.eq_iff_iff, List.contains_iff_mem, List.contains_iff_mem]
    constructor
    · intro hmem
      exact p.block_eq hblock hblock' hqblock hmem ▸ hrblock
    · intro hmem
      exact p.block_eq hblock hblock' hrblock hmem ▸ hqblock

end IsPartition

/-! ## Observations -/

theorem together_groups_iff : Together d.groups q r ↔
    q < d.size ∧ r < d.size ∧ d.isAccept q = d.isAccept r ∧ d.priority q = d.priority r := by
  let _ : Ord (Bool × Priority) := lexOrd
  rw [groups, together_partsBy, List.mem_range, List.mem_range, Prod.mk.injEq]

/-- What is observed of words does not tell apart the states of a block, if the transitions respect
the blocks. The induction is on the word. -/
theorem observe_eq_of_together (hgroups : Refines blocks d.groups) (hstable : d.Stable blocks)
    (h : Together blocks q r) (w : Bytes) : d.observe q w = d.observe r w := by
  induction w generalizing q r with
  | nil =>
    obtain ⟨_, _, haccept, hpriority⟩ := together_groups_iff.1 (hgroups q r h)
    simp only [observe, walk?, Option.map_some, haccept, hpriority]
  | cons b w ih =>
    rw [observe_cons, observe_cons]
    have hrel := hstable q r h b
    generalize d.step? q b = x, d.step? r b = y at hrel
    cases hrel with
    | none => rfl
    | some hxy => exact ih hxy

/-! ## Passes -/

/-- A block that splits has more than one part by some byte. -/
theorem exists_of_split? (h : d.split? blocks block = some parts) :
    ∃ b, d.splitByByte blocks block b = parts ∧ 1 < parts.length := by
  obtain ⟨b, _, hparts⟩ := List.mem_map.1 (List.mem_of_find?_eq_some h)
  exact ⟨b, hparts, by simpa using List.find?_some h⟩

/-- In a block that does not split, every byte leads all states into one block, or none of them. -/
theorem target_eq_of_split?_eq_none (h : d.split? blocks block = none) (hq : q ∈ block)
    (hr : r ∈ block) (b : UInt8) :
    (d.step? q b).map (blockOf blocks) = (d.step? r b).map (blockOf blocks) := by
  by_cases hb : b ∈ d.edgeBytes block
  · rw [split?, List.find?_eq_none] at h
    have hlen := h _ (List.mem_map.2 ⟨b, hb, rfl⟩)
    rw [decide_eq_true_eq, Nat.not_lt] at hlen
    exact key_eq_of_length_le_one hlen hq hr
  · have hnone : ∀ x ∈ block, d.step? x b = none := by
      intro x hx
      by_contra hne
      have hmem : b ∈ Byte.all := List.mem_of_getElem? (Byte.getElem?_all b)
      refine hb (List.mem_filter.2 ⟨hmem, List.any_eq_true.2 ⟨x, hx, ?_⟩⟩)
      exact Option.isSome_iff_ne_none.2 hne
    rw [hnone q hq, hnone r hr]

/-- The parts that a pass puts in the place of a block are made of its members. -/
theorem parts_perm (d : Dfa) (blocks : Partition) (block : List Nat) :
    ((d.split? blocks block).getD [block]).flatten.Perm block := by
  cases h : d.split? blocks block with
  | none => simp
  | some parts =>
    obtain ⟨b, rfl, _⟩ := exists_of_split? h
    exact partsBy_flatten_perm

theorem IsPartition.pass (p : d.IsPartition blocks) : d.IsPartition (d.pass blocks) where
  nonempty part hpart := by
    obtain ⟨block, hblock, hpart⟩ := List.mem_flatMap.1 hpart
    cases h : d.split? blocks block with
    | none =>
      rw [h, Option.getD_none, List.mem_singleton] at hpart
      exact hpart ▸ p.nonempty block hblock
    | some parts =>
      rw [h, Option.getD_some] at hpart
      obtain ⟨b, rfl, _⟩ := exists_of_split? h
      exact ne_nil_of_mem_partsBy hpart
  perm := by
    refine List.Perm.trans ?_ p.perm
    rw [Dfa.pass, List.flatMap_def, List.flatten_flatten, List.map_map, ← List.flatMap_def,
      ← List.flatMap_id]
    exact List.Perm.flatMap_left blocks fun block _ => d.parts_perm blocks block

/-- A pass that splits a block makes more blocks. -/
theorem length_lt_pass (h : ∃ block ∈ blocks, (d.split? blocks block).isSome = true) :
    blocks.length < (d.pass blocks).length := by
  have hone : ∀ block, 1 ≤ ((d.split? blocks block).getD [block]).length := by
    intro block
    cases hsplit : d.split? blocks block with
    | none => rfl
    | some parts =>
      obtain ⟨_, _, hlen⟩ := exists_of_split? hsplit
      exact hlen.le
  obtain ⟨block, hblock, hsome⟩ := h
  obtain ⟨parts, hsplit⟩ := Option.isSome_iff_exists.1 hsome
  obtain ⟨_, _, hlen⟩ := exists_of_split? hsplit
  have hsum := List.sum_lt_sum (l := blocks) (fun _ => 1)
    (fun block => ((d.split? blocks block).getD [block]).length) (fun block _ => hone block)
    ⟨block, hblock, by rwa [hsplit]⟩
  simpa [Dfa.pass, List.length_flatMap] using hsum

/-- What holds of the blocks after every pass. -/
structure Refining (d : Dfa) (blocks : Partition) : Prop extends d.IsPartition blocks where
  refines : Refines blocks d.groups
  merges : ∀ q < d.size, ∀ r < d.size, (∀ w, d.observe q w = d.observe r w) → Together blocks q r

theorem groups_refining (d : Dfa) : d.Refining d.groups where
  nonempty part hpart := by
    let _ : Ord (Bool × Priority) := lexOrd
    exact ne_nil_of_mem_partsBy hpart
  perm := by
    let _ : Ord (Bool × Priority) := lexOrd
    exact partsBy_flatten_perm
  refines q r h := h
  merges q hq r hr h := by
    rw [together_groups_iff]
    exact ⟨hq, hr, Prod.mk.inj (Option.some.inj (h []))⟩

section Pass

variable (target : ∀ q b r, d.step? q b = some r → r < d.size)

include target

/-- A byte takes states that are observed alike into one block, or none of them. -/
theorem Refining.target_eq (p : d.Refining blocks) (h : ∀ w, d.observe q w = d.observe r w)
    (b : UInt8) : (d.step? q b).map (blockOf blocks) = (d.step? r b).map (blockOf blocks) := by
  refine rel_iff_map_eq.1 (rel_imp (step?_of_observe h b) fun x y hx hy hxy => ?_)
  have hlt := target q b x hx
  exact (p.blockOf_eq_iff hlt).2 (p.merges x hlt y (target r b y hy) hxy)

theorem Refining.pass (p : d.Refining blocks) : d.Refining (d.pass blocks) where
  toIsPartition := p.toIsPartition.pass
  refines q r h := by
    obtain ⟨part, hpart, hq, hr⟩ := h
    obtain ⟨block, hblock, hpart⟩ := List.mem_flatMap.1 hpart
    have hperm := d.parts_perm blocks block
    exact p.refines q r ⟨block, hblock, hperm.mem_iff.1 (List.mem_flatten.2 ⟨part, hpart, hq⟩),
      hperm.mem_iff.1 (List.mem_flatten.2 ⟨part, hpart, hr⟩)⟩
  merges q hq r hr h := by
    obtain ⟨block, hblock, hqblock, hrblock⟩ := p.merges q hq r hr h
    have hparts : Together ((d.split? blocks block).getD [block]) q r := by
      cases hsplit : d.split? blocks block with
      | none => exact ⟨block, List.mem_singleton_self block, hqblock, hrblock⟩
      | some parts =>
        obtain ⟨b, rfl, _⟩ := exists_of_split? hsplit
        exact together_partsBy.2 ⟨hqblock, hrblock, p.target_eq target h b⟩
    obtain ⟨part, hpart, hmem⟩ := hparts
    exact ⟨part, List.mem_flatMap.2 ⟨block, hblock, hpart⟩, hmem⟩

/-- When no block splits, the transitions respect the blocks. -/
theorem Refining.stable (p : d.Refining blocks) (h : d.pass? blocks = none) : d.Stable blocks := by
  rintro q r ⟨block, hblock, hq, hr⟩ b
  have hunsplit : d.split? blocks block = none := by
    by_contra hne
    rw [pass?, if_pos (List.any_eq_true.2 ⟨block, hblock, Option.isSome_iff_ne_none.2 hne⟩)] at h
    cases h
  have heq := target_eq_of_split?_eq_none hunsplit hq hr b
  exact rel_imp (rel_iff_map_eq.2 heq) fun x y hx _ hxy =>
    (p.blockOf_eq_iff (target q b x hx)).1 hxy

/-- Refinement ends, after fewer passes than there are states. -/
theorem exists_passes (hpos : 0 < d.size) : ∃ n blocks,
    RunsOut d.pass? n d.groups blocks ∧ n < d.size ∧ d.Refining blocks ∧ d.Stable blocks := by
  have hshrinks : ∀ blocks next, d.Refining blocks → d.pass? blocks = some next →
      d.Refining next ∧ d.size - next.length < d.size - blocks.length := by
    intro blocks next p h
    rw [pass?, Option.ite_none_right_eq_some, Option.some.injEq] at h
    obtain ⟨hsplits, rfl⟩ := h
    have p' := p.pass target
    have hle := p'.length_le
    have hlt := length_lt_pass (List.any_eq_true.1 hsplits)
    exact ⟨p', by omega⟩
  obtain ⟨n, blocks, hrun, p, hle⟩ := RunsOut.exists_of_shrinks
    (fun blocks : Partition => d.size - blocks.length) hshrinks d.groups_refining
  have hgroups : 0 < d.groups.length := by
    obtain ⟨block, hblock, _⟩ := d.groups_refining.exists_block hpos
    exact List.length_pos_of_mem hblock
  exact ⟨n, blocks, hrun, by omega, p, p.stable target hrun.stopped⟩

end Pass

/-- Refining the partition of any deterministic automaton made from a component ends, after fewer
passes than there are states, with a partition of the states. It is the coarsest of those that
refine the groups and that the transitions respect. Two states are in one block just if the same is
observed of every word read from them, and just if they have one colour. -/
theorem refinement_coarsest (g : Graph) (c : Component) :
    let d := ofNfa (.ofGraph g c)
    ∃ n blocks, RunsOut d.pass? n d.groups blocks ∧ n < d.size ∧
      d.IsPartition blocks ∧ Refines blocks d.groups ∧ d.Stable blocks ∧
      (∀ other, d.IsPartition other → Refines other d.groups → d.Stable other →
        Refines other blocks) ∧
      ∀ q < d.size, ∀ r < d.size,
        (Together blocks q r ↔ ∀ w, d.observe q w = d.observe r w) ∧
        (Together blocks q r ↔ colorOf d.stableColoring q = colorOf d.stableColoring r) := by
  intro d
  have hn : d.Numbered := ofNfa_numbered (Nfa.ofGraph_valid g c)
  obtain ⟨n, blocks, hrun, hlt, p, hstable⟩ := exists_passes hn.target hn.nonempty
  have hobserve : ∀ q < d.size, ∀ r < d.size,
      (Together blocks q r ↔ ∀ w, d.observe q w = d.observe r w) := fun q hq r hr =>
    ⟨observe_eq_of_together p.refines hstable, p.merges q hq r hr⟩
  refine ⟨n, blocks, hrun, hlt, p.toIsPartition, p.refines, hstable, ?_, fun q hq r hr => ?_⟩
  · intro other _ hrefines hstable' q r h
    obtain ⟨hq, hr, _⟩ := together_groups_iff.1 (hrefines q r h)
    exact p.merges q hq r hr (observe_eq_of_together hrefines hstable' h)
  · have m := stableColoring_mergeable hn
    rw [hobserve q hq r hr]
    exact ⟨Iff.rfl, m.merges q hq r hr, m.observe_eq hq hr⟩

end MaximalMunch.Dfa
