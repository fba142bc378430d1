import Inliner.SlotSet
import Mathlib.Data.Finset.Card

/-!
# Members of slot sets

The packing of a slot set is canonical, so a set is determined by its capacity and its members
(`eq_of_contains`), and everything that is computed from the words can be said about members: which
are listed and in what order, how many there are, whether there are none or all, and which are in a
join.
-/

namespace Inliner

/-- The bits of one word in a row. -/
lemma Packed.bit_mul_add {words : List (BitVec 64)} {k b : Nat} (hk : k < words.length)
    (hb : b < 64) : bit words (64 * k + b) = words[k].getLsbD b := by
  have hdiv : (64 * k + b) / 64 = k := by omega
  have hmod : (64 * k + b) % 64 = b := by omega
  rw [bit, hdiv, hmod, List.getD_eq_getElem?_getD, List.getElem?_eq_getElem hk, Option.getD_some]

/-- All words are zero exactly if no bit is on. -/
lemma Packed.all_eq_zero_iff {words : List (BitVec 64)} :
    words.all (· == 0#64) = true ↔ ∀ i, bit words i = false := by
  rw [List.all_eq_true]
  constructor
  · intro hwords i
    rw [bit, List.getD_eq_getElem?_getD]
    cases hword : words[i / 64]? with
    | none => simp
    | some w =>
      have hzero : w = 0#64 := by simpa using hwords w (List.mem_of_getElem? hword)
      simp [hzero]
  · intro hnone w hw
    obtain ⟨k, hk, rfl⟩ := List.getElem_of_mem hw
    rw [beq_iff_eq]
    refine BitVec.eq_of_getLsbD_eq fun b hb => ?_
    rw [← bit_mul_add hk hb, BitVec.getLsbD_zero]
    exact hnone (64 * k + b)

/-- Bits past the end of the shorter row are off in it. -/
lemma Packed.bit_zipWith_and (v w : List (BitVec 64)) (i : Nat) :
    bit (List.zipWith (· &&& ·) v w) i = (bit v i && bit w i) := by
  simp only [bit, List.getD_eq_getElem?_getD, List.getElem?_zipWith]
  cases v[i / 64]? <;> cases w[i / 64]? <;> simp

namespace SlotSet

open Packed

variable {s t u : SlotSet}

/-- Sets of one capacity with the same members are equal. -/
lemma eq_of_contains (hcap : s.capacity = t.capacity)
    (h : ∀ i, s.contains i = t.contains i) : s = t := by
  have hlen : s.words.length = t.words.length := by rw [s.length_words, t.length_words, hcap]
  refine SlotSet.ext hcap (List.ext_getElem hlen fun k hs ht => ?_)
  refine BitVec.eq_of_getLsbD_eq fun b hb => ?_
  rw [← bit_mul_add hs hb, ← bit_mul_add ht hb]
  exact h (64 * k + b)

/-! ## The listing -/

/-- The members are listed in ascending order. -/
lemma pairwise_toList (s : SlotSet) : s.toList.Pairwise (· < ·) := by
  have hindices : s.words.zipIdx.Pairwise fun p q => p.2 < q.2 := by
    rw [← List.pairwise_map (f := Prod.snd) (R := (· < ·)), List.zipIdx_map_snd]
    exact List.pairwise_lt_range'
  refine List.pairwise_flatMap.2 ⟨fun p _ => ?_, hindices.imp fun {p q} hlt => ?_⟩
  · refine List.pairwise_map.2 ((List.pairwise_lt_range.filter _).imp fun hlt => ?_)
    omega
  · intro i hi j hj
    obtain ⟨b, hb, rfl⟩ := List.mem_map.1 hi
    obtain ⟨c, hc, rfl⟩ := List.mem_map.1 hj
    have hb' := (mem_bitsOn.1 hb).1
    omega

/-- The number of members is the length of their list. -/
lemma length_toList (s : SlotSet) : s.toList.length = s.count := by
  have hwords : ∀ (words : List (BitVec 64)) (n : Nat),
      ((words.zipIdx n).flatMap fun p => (bitsOn p.1).map (64 * p.2 + ·)).length =
        words.foldr (fun w n => (bitsOn w).length + n) 0 := by
    intro words
    induction words with
    | nil => simp
    | cons w words ih => simp [ih]
  exact hwords s.words 0

/-- Only slots within the capacity are listed. -/
lemma lt_capacity_of_mem_toList {i : Nat} (h : i ∈ s.toList) : i < s.capacity :=
  lt_capacity_of_contains (mem_toList.1 h)

/-- The members as a finite set of numbers. -/
def members (s : SlotSet) : Finset Nat :=
  (Finset.range s.capacity).filter fun i => s.contains i = true

/-- The members are the slots that the set contains. -/
lemma mem_members {i : Nat} : i ∈ s.members ↔ s.contains i = true := by
  rw [members, Finset.mem_filter, Finset.mem_range]
  exact and_iff_right_of_imp lt_capacity_of_contains

/-- They are listed. -/
lemma toFinset_toList (s : SlotSet) : s.toList.toFinset = s.members := by
  ext i
  rw [List.mem_toFinset, mem_toList, mem_members]

/-- They are counted. -/
lemma card_members (s : SlotSet) : s.members.card = s.count := by
  rw [← toFinset_toList, List.toFinset_card_of_nodup s.pairwise_toList.nodup, length_toList]

/-- They are within the capacity. -/
lemma members_subset_range (s : SlotSet) : s.members ⊆ Finset.range s.capacity :=
  Finset.filter_subset _ _

/-- There are as many members as the capacity allows only if all slots are members. -/
lemma isFull_iff_members : s.isFull = true ↔ s.members = Finset.range s.capacity := by
  rw [isFull, beq_iff_eq, ← card_members]
  constructor
  · intro hfull
    exact Finset.eq_of_subset_of_card_le s.members_subset_range (by rw [Finset.card_range, hfull])
  · intro hall
    rw [hall, Finset.card_range]

/-- The set is full exactly if it contains every slot below the capacity. -/
lemma isFull_iff : s.isFull = true ↔ ∀ i < s.capacity, s.contains i = true := by
  rw [isFull_iff_members, ← s.members_subset_range.ge_iff_eq]
  simp only [Finset.subset_iff, Finset.mem_range, mem_members]

/-- The set is empty exactly if it contains no slot. -/
lemma isEmpty_iff : s.isEmpty = true ↔ ∀ i, s.contains i = false :=
  all_eq_zero_iff

/-! ## Two sets of any capacities -/

/-- The test is one for inclusion. -/
lemma isSubset_iff : s.isSubset t = true ↔ ∀ i, s.contains i = true → t.contains i = true := by
  rw [isSubset, List.all_eq_true]
  simp only [mem_toList]

/-- Only the words that both sets have are compared, and a slot past them is in one of the sets at
most. -/
lemma isDisjoint_iff : s.isDisjoint t = true ↔
    ∀ i, s.contains i = true → t.contains i = false := by
  rw [isDisjoint, all_eq_zero_iff]
  simp only [bit_zipWith_and, Bool.and_eq_false_imp]
  rfl

/-! ## More capacity -/

/-- The capacity does not shrink. -/
lemma capacity_extend (s : SlotSet) (n : Nat) : (s.extend n).capacity = max s.capacity n := by
  unfold extend
  split
  · exact (Nat.max_eq_left ‹_›).symm
  · exact (Nat.max_eq_right (Nat.le_of_not_le ‹_›)).symm

/-- A larger capacity adds no slots. -/
lemma contains_extend (s : SlotSet) (n i : Nat) : (s.extend n).contains i = s.contains i := by
  unfold extend
  split
  · rfl
  · exact bit_append_zero _ _ _

/-! ## Sets built by insertions -/

@[simp] lemma contains_empty (n i : Nat) : (empty n).contains i = false :=
  bit_replicate_zero _ _

/-- Inserting a slot adds this one only. -/
lemma contains_insert {i : Nat} (hi : i < s.capacity) (j : Nat) :
    (s.insert i hi).contains j = (s.contains j || decide (j = i)) :=
  bit_switchOn (s.div_lt_length_words hi) j

/-- A set of one slot contains it. -/
lemma contains_singleton {n i : Nat} (h : singleton? n i = some s) : s.contains i = true := by
  unfold singleton? insert? at h
  split at h
  · cases h
    simp [contains_insert]
  · cases h

/-- Slots below the capacity can be inserted, and then they are members. -/
lemma exists_insertAll {slots : List Nat} (hslots : ∀ i ∈ slots, i < s.capacity) :
    ∃ t, s.insertAll? slots = some t ∧ t.capacity = s.capacity ∧
      ∀ j, t.contains j = (s.contains j || decide (j ∈ slots)) := by
  induction slots generalizing s with
  | nil => exact ⟨s, rfl, rfl, by simp⟩
  | cons i slots ih =>
    have hi : i < s.capacity := hslots i List.mem_cons_self
    obtain ⟨t, ht, hcap, hcontains⟩ :=
      ih (s := s.insert i hi) fun j hj => hslots j (List.mem_cons_of_mem _ hj)
    refine ⟨t, ?_, hcap, fun j => ?_⟩
    · rw [insertAll?, List.foldlM_cons, insert?, dif_pos hi]
      exact ht
    · rw [hcontains, contains_insert hi]
      simp [Bool.or_assoc]

/-- Every set is built from the empty one by inserting its members. -/
lemma insertAll?_toList (s : SlotSet) : (empty s.capacity).insertAll? s.toList = some s := by
  have hslots : ∀ i ∈ s.toList, i < (empty s.capacity).capacity := by
    intro i hi
    exact lt_capacity_of_mem_toList (s := s) hi
  obtain ⟨t, ht, hcap, hcontains⟩ := exists_insertAll hslots
  have heq : t = s := eq_of_contains hcap fun i => by
    rw [hcontains, contains_empty, Bool.false_or]
    simp [mem_toList]
  rw [ht, heq]

/-! ## Full sets and joins -/

/-- A full set contains all slots within its capacity. -/
lemma contains_full (n i : Nat) : (full n).contains i = decide (i < n) :=
  bit_ones n i

/-- Only sets of one capacity have a join. -/
lemma capacity_eq_of_join (h : Domain.join s t = some u) : s.capacity = t.capacity := by
  by_contra hne
  simp [Domain.join, union?, hne] at h

/-- Sets of the same capacity can be joined. -/
lemma exists_join (h : s.capacity = t.capacity) : ∃ u, Domain.join s t = some u :=
  ⟨s.union t h, by simp [Domain.join, union?, h]⟩

/-- The members of a join are those of both sets. -/
lemma contains_join (h : Domain.join s t = some u) (i : Nat) :
    u.contains i = (s.contains i || t.contains i) := by
  rw [eq_union_of_join (capacity_eq_of_join h) h, contains_union]

end SlotSet

end Inliner
