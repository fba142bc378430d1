import Inliner.Proofs.SlotSets

/-!
# Slot sets are finite sets

A slot set is a row of words with a capacity. This file compares it with what it stands for, a
finite set of numbers below a bound.

* The members are found one by one by a cursor that walks through the bits of the words. It stops at
  every member once, in ascending order, and then at the end (`yields_toList`).
* Calls on several sets are run on slot sets and on finite sets alike, because they are run on
  anything that offers the operations (`SetOps`). Each operation on slot sets is the operation on
  their members, the failures included, so the two runs agree (`map_run`). It also agrees with the
  bare operation on words, which knows of no bits that have to be zero.
* Every set that is left by such a run tells the truth about its members when it is asked
  (`Exact`, `Compares`).
-/

namespace Inliner

namespace SlotSet

open Packed

variable {s t : SlotSet}

/-! ## The walk through the bits -/

/-- A place in a row of words: the bit that is looked at next, and the word that it belongs to. -/
structure Cursor where
  word : Nat
  bit : Nat

namespace Cursor

/-- The place before all bits. -/
def start : Cursor :=
  ⟨0, 0⟩

/-- The number of the bit that is looked at next. -/
def place (c : Cursor) : Nat :=
  64 * c.word + c.bit

end Cursor

/-- The first member from the cursor on, and the place behind it. The walk ends at the capacity, or
behind the last word, and goes no further. -/
def next (s : SlotSet) (c : Cursor) : Option Nat × Cursor :=
  if hword : c.word < s.words.length then
    if c.bit < 64 then
      if s.capacity ≤ c.place then (none, c)
      else if s.words[c.word].getLsbD c.bit then (some c.place, ⟨c.word, c.bit + 1⟩)
      else s.next ⟨c.word, c.bit + 1⟩
    else s.next ⟨c.word + 1, 0⟩
  else (none, c)
termination_by (s.words.length - c.word, 64 - c.bit)

/-- From the cursor on, exactly the listed members are found, in this order. Nothing is found
afterwards, however often one asks. -/
inductive Yields (s : SlotSet) : Cursor → List Nat → Prop
  | done {c c' : Cursor} (hend : s.next c = (none, c')) (hstay : s.next c' = (none, c')) :
      Yields s c []
  | more {c c' : Cursor} {i : Nat} {rest : List Nat} (hnext : s.next c = (some i, c'))
      (hrest : Yields s c' rest) : Yields s c (i :: rest)

/-- One step of the walk: there are no members from the cursor on, or the first of them is found. -/
lemma next_cases (s : SlotSet) (c : Cursor) (hc : c.bit ≤ 64) :
    (∃ c', s.next c = (none, c') ∧ s.next c' = (none, c') ∧
      ∀ j, c.place ≤ j → s.contains j = false) ∨
    ∃ i c', s.next c = (some i, c') ∧ c'.bit ≤ 64 ∧ c'.place = i + 1 ∧ c.place ≤ i ∧
      s.contains i = true ∧ ∀ j, c.place ≤ j → j < i → s.contains j = false := by
  fun_induction next s c with
  | case1 c hword hbit hcap =>
    refine .inl ⟨c, rfl, ?_, fun j hj => s.bit_of_le j (hcap.trans hj)⟩
    rw [next, dif_pos hword, if_pos hbit, if_pos hcap]
  | case2 c hword hbit hcap hon =>
    refine .inr ⟨c.place, _, rfl, hbit, rfl, le_rfl, (bit_mul_add hword hbit).trans hon, ?_⟩
    intro j hj hlt
    omega
  | case3 c hword hbit hcap hoff ih =>
    -- the bit at the cursor is off, so nothing is missed behind it
    have hplace : s.contains c.place = false :=
      (bit_mul_add hword hbit).trans (Bool.eq_false_iff.2 hoff)
    have hskip : ∀ j, c.place ≤ j → (Cursor.mk c.word (c.bit + 1)).place ≤ j ∨ j = c.place := by
      intro j hj
      simp only [Cursor.place] at hj ⊢
      omega
    rcases ih hbit with ⟨c', hend, hstay, hnone⟩ | ⟨i, c', hnext, hbit', hplace', hle, hi, hfirst⟩
    · refine .inl ⟨c', hend, hstay, fun j hj => ?_⟩
      rcases hskip j hj with hj | rfl
      · exact hnone j hj
      · exact hplace
    · refine .inr ⟨i, c', hnext, hbit', hplace', Nat.le_of_succ_le hle, hi, fun j hj hlt => ?_⟩
      rcases hskip j hj with hj | rfl
      · exact hfirst j hj hlt
      · exact hplace
  | case4 c hword hbit ih =>
    have hplace : (Cursor.mk (c.word + 1) 0).place = c.place := by
      simp only [Cursor.place]
      omega
    rw [hplace] at ih
    exact ih (Nat.zero_le _)
  | case5 c hword =>
    refine .inl ⟨c, rfl, ?_, fun j hj => s.bit_of_le j ?_⟩
    · rw [next, dif_neg hword]
    · have hlength := s.length_words
      unfold wordCount at hlength
      simp only [Cursor.place] at hj
      omega

/-- The walk from a cursor finds the members from there on. -/
lemma yields_of_pairwise {l : List Nat} (hl : l.Pairwise (· < ·)) {c : Cursor} (hc : c.bit ≤ 64)
    (hmem : ∀ i, i ∈ l ↔ c.place ≤ i ∧ s.contains i = true) : s.Yields c l := by
  induction l generalizing c with
  | nil =>
    rcases s.next_cases c hc with ⟨c', hend, hstay, -⟩ | ⟨i, c', -, -, -, hle, hi, -⟩
    · exact .done hend hstay
    · exact absurd ((hmem i).2 ⟨hle, hi⟩) List.not_mem_nil
  | cons i rest ih =>
    obtain ⟨hle, hi⟩ := (hmem i).1 List.mem_cons_self
    obtain ⟨hlt, hrest⟩ := List.pairwise_cons.1 hl
    rcases s.next_cases c hc with ⟨c', -, -, hnone⟩ | ⟨j, c', hnext, hbit, hplace, hle', hj, hfirst⟩
    · rw [hnone i hle] at hi
      cases hi
    · -- what is found first is the least one, which stands at the head of the list
      have hij : i = j := by
        rcases List.mem_cons.1 ((hmem j).2 ⟨hle', hj⟩) with hj' | hj'
        · exact hj'.symm
        · rw [hfirst i hle (hlt j hj')] at hi
          cases hi
      subst hij
      refine .more hnext (ih hrest hbit fun k => ?_)
      rw [hplace]
      constructor
      · intro hk
        exact ⟨hlt k hk, ((hmem k).1 (List.mem_cons_of_mem _ hk)).2⟩
      · rintro ⟨hk, hcontains⟩
        rcases List.mem_cons.1 ((hmem k).2 ⟨by omega, hcontains⟩) with rfl | hmem'
        · omega
        · exact hmem'

/-- The whole walk finds the members in the order in which they are listed. -/
lemma yields_toList (s : SlotSet) : s.Yields .start s.toList := by
  refine yields_of_pairwise s.pairwise_toList (Nat.zero_le _) fun i => ?_
  rw [mem_toList]
  exact (and_iff_right (Nat.zero_le i)).symm

/-! ## Operations on members -/

/-- An empty set has no members. -/
@[simp] lemma members_empty (n : Nat) : (empty n).members = ∅ := by
  ext i
  simp [mem_members]

/-- A full set has all slots as members. -/
@[simp] lemma members_full (n : Nat) : (full n).members = Finset.range n := by
  ext i
  simp [mem_members, contains_full]

/-- Inserting a slot makes it a member. -/
lemma members_insert {i : Nat} (hi : i < s.capacity) :
    (s.insert i hi).members = Insert.insert i s.members := by
  ext j
  simp [mem_members, contains_insert, or_comm]

/-- A union has the members of both sets. -/
lemma members_union (h : s.capacity = t.capacity) :
    (s.union t h).members = s.members ∪ t.members := by
  ext i
  simp [mem_members, contains_union]

/-- A larger capacity adds no members. -/
lemma members_extend (s : SlotSet) (n : Nat) : (s.extend n).members = s.members := by
  ext i
  rw [mem_members, mem_members, contains_extend]

/-- Sets are equal if they have the same capacity and the same members. -/
lemma eq_iff_members : s = t ↔ s.capacity = t.capacity ∧ s.members = t.members := by
  constructor
  · rintro rfl
    exact ⟨rfl, rfl⟩
  · rintro ⟨hcap, hmembers⟩
    refine eq_of_contains hcap fun i => ?_
    rw [Bool.eq_iff_iff, ← mem_members, hmembers, mem_members]

/-- The words of a union differ from those before exactly if there was something to add. -/
lemma words_union_ne_iff (h : s.capacity = t.capacity) :
    (s.union t h).words ≠ s.words ↔ ¬ t.members ⊆ s.members := by
  have hwords : (s.union t h).words = s.words ↔ s.union t h = s :=
    ⟨fun hwords => SlotSet.ext rfl hwords, fun heq => congrArg SlotSet.words heq⟩
  have hcap : (s.union t h).capacity = s.capacity := rfl
  rw [Ne, hwords, eq_iff_members, and_iff_right hcap, members_union, Finset.union_eq_left]

end SlotSet

/-! ## Calls on several sets -/

/-- The operations on sets with a capacity. An operation that has no result is a failure. -/
structure SetOps (σ : Type) where
  new : Nat → σ
  full : Nat → σ
  singleton? : Nat → Nat → Option σ
  insert? : σ → Nat → Option σ
  fill : σ → σ
  /-- The union, and whether it has more members than the first set. -/
  union? : σ → σ → Option (σ × Bool)
  extended : σ → Nat → σ

/-- A call. The sets are numbered; a call that makes a set gives it the next number. -/
inductive SetCall where
  | new (capacity : Nat)
  | full (capacity : Nat)
  | singleton (capacity i : Nat)
  | insert (set i : Nat)
  | fill (set : Nat)
  | union (set other : Nat)
  | extended (set capacity : Nat)

namespace SetOps

variable {σ τ : Type}

/-- The sets after a call, and the answer that is given by a union. -/
def perform (ops : SetOps σ) (sets : List σ) : SetCall → Option (List σ × Option Bool)
  | .new n => some (sets ++ [ops.new n], none)
  | .full n => some (sets ++ [ops.full n], none)
  | .singleton n i => (ops.singleton? n i).map fun s => (sets ++ [s], none)
  | .insert k i => sets[k]?.bind fun s => (ops.insert? s i).map fun s' => (sets.set k s', none)
  | .fill k => sets[k]?.map fun s => (sets.set k (ops.fill s), none)
  | .union k j => sets[k]?.bind fun s => sets[j]?.bind fun t =>
      (ops.union? s t).map fun r => (sets.set k r.1, some r.2)
  | .extended k n => sets[k]?.map fun s => (sets ++ [ops.extended s n], none)

/-- The sets after some calls, and the answers given on the way. -/
def run (ops : SetOps σ) : List σ → List SetCall → Option (List σ × List Bool)
  | sets, [] => some (sets, [])
  | sets, call :: calls =>
    (ops.perform sets call).bind fun r =>
      (ops.run r.1 calls).map fun r' => (r'.1, r.2.toList ++ r'.2)

/-- Each operation of `ops` is an operation of `ops'` on what `view` shows. -/
structure ViewedAs (view : σ → τ) (ops : SetOps σ) (ops' : SetOps τ) : Prop where
  new : ∀ n, view (ops.new n) = ops'.new n
  full : ∀ n, view (ops.full n) = ops'.full n
  singleton? : ∀ n i, (ops.singleton? n i).map view = ops'.singleton? n i
  insert? : ∀ s i, (ops.insert? s i).map view = ops'.insert? (view s) i
  fill : ∀ s, view (ops.fill s) = ops'.fill (view s)
  union? : ∀ s t, (ops.union? s t).map (Prod.map view id) = ops'.union? (view s) (view t)
  extended : ∀ s n, view (ops.extended s n) = ops'.extended (view s) n

namespace ViewedAs

variable {view : σ → τ} {ops : SetOps σ} {ops' : SetOps τ}

/-- A call does the same to the views. -/
lemma map_perform (h : ViewedAs view ops ops') (sets : List σ) (call : SetCall) :
    (ops.perform sets call).map (Prod.map (List.map view) id) =
      ops'.perform (sets.map view) call := by
  cases call with
  | new n => simp [perform, h.new]
  | full n => simp [perform, h.full]
  | singleton n i => simp [perform, ← h.singleton?, Function.comp_def]
  | insert k i =>
    simp only [perform, List.getElem?_map]
    cases sets[k]? with
    | none => rfl
    | some s => simp [← h.insert?, Function.comp_def, List.map_set]
  | fill k =>
    simp only [perform, List.getElem?_map]
    cases sets[k]? with
    | none => rfl
    | some s => simp [h.fill, List.map_set]
  | union k j =>
    simp only [perform, List.getElem?_map]
    cases sets[k]? with
    | none => rfl
    | some s =>
      cases sets[j]? with
      | none => rfl
      | some t => simp [← h.union?, Function.comp_def, List.map_set]
  | extended k n =>
    simp only [perform, List.getElem?_map]
    cases sets[k]? with
    | none => rfl
    | some s => simp [h.extended]

/-- What one call keeps, a run keeps. -/
lemma map_run (h : ViewedAs view ops ops') (sets : List σ) (calls : List SetCall) :
    (ops.run sets calls).map (Prod.map (List.map view) id) = ops'.run (sets.map view) calls := by
  induction calls generalizing sets with
  | nil => rfl
  | cons call calls ih =>
    rw [run, run, ← h.map_perform]
    cases ops.perform sets call with
    | none => rfl
    | some r =>
      rw [Option.bind_some, Option.map_some, Option.bind_some, Prod.map_fst, Prod.map_snd, id,
        ← ih r.1]
      cases ops.run r.1 calls <;> rfl

end ViewedAs

end SetOps

/-- A finite set of numbers, with a bound that members are to lie below. -/
structure BoundedSet where
  capacity : Nat
  members : Finset Nat
  deriving DecidableEq

/-- The operations on finite sets. -/
def BoundedSet.ops : SetOps BoundedSet where
  new n := ⟨n, ∅⟩
  full n := ⟨n, Finset.range n⟩
  singleton? n i := if i < n then some ⟨n, {i}⟩ else none
  insert? s i := if i < s.capacity then some ⟨s.capacity, insert i s.members⟩ else none
  fill s := ⟨s.capacity, Finset.range s.capacity⟩
  union? s t :=
    if s.capacity = t.capacity then
      some (⟨s.capacity, s.members ∪ t.members⟩, !decide (t.members ⊆ s.members))
    else none
  extended s n := ⟨max s.capacity n, s.members⟩

namespace SlotSet

variable {s t : SlotSet}

/-- The operations on slot sets. -/
def ops : SetOps SlotSet where
  new := empty
  full := full
  singleton? := singleton?
  insert? := insert?
  fill := fill
  union? := union?
  extended := extend

/-- What a slot set stands for. -/
def view (s : SlotSet) : BoundedSet :=
  ⟨s.capacity, s.members⟩

/-- Insertion succeeds on a set as it does on its view. -/
lemma map_view_insert? (s : SlotSet) (i : Nat) :
    (s.insert? i).map view = BoundedSet.ops.insert? s.view i := by
  by_cases hi : i < s.capacity
  · have hview : (s.insert i hi).view = ⟨s.capacity, Insert.insert i s.members⟩ :=
      congrArg (BoundedSet.mk s.capacity) (members_insert hi)
    simp only [insert?, dif_pos hi, Option.map_some, hview]
    exact (if_pos hi).symm
  · rw [insert?, dif_neg hi]
    exact (if_neg hi).symm

/-- So does the union of two sets. -/
lemma map_view_union? (s t : SlotSet) :
    (s.union? t).map (Prod.map view id) = BoundedSet.ops.union? s.view t.view := by
  by_cases h : s.capacity = t.capacity
  · have hview : (s.union t h).view = ⟨s.capacity, s.members ∪ t.members⟩ :=
      congrArg (BoundedSet.mk s.capacity) (members_union h)
    have hchanged : ((s.union t h).words != s.words) = !decide (t.members ⊆ s.members) := by
      rw [Bool.eq_iff_iff, bne_iff_ne, words_union_ne_iff]
      simp
    simp only [union?, dif_pos h, Option.map_some, Prod.map_apply, hview, hchanged]
    exact (if_pos h).symm
  · rw [union?, dif_neg h]
    exact (if_neg h).symm

/-- Operations on slot sets are operations on their members. -/
lemma viewedAs_ops : ops.ViewedAs view BoundedSet.ops where
  new n := congrArg (BoundedSet.mk n) (members_empty n)
  full n := congrArg (BoundedSet.mk n) (members_full n)
  singleton? n i := by
    have hempty : (empty n).view = ⟨n, ∅⟩ := congrArg (BoundedSet.mk n) (members_empty n)
    exact (map_view_insert? (empty n) i).trans (by rw [hempty]; rfl)
  insert? := map_view_insert?
  fill s := congrArg (BoundedSet.mk s.capacity) (members_full s.capacity)
  union? := map_view_union?
  extended s n := by
    change BoundedSet.mk (s.extend n).capacity (s.extend n).members = _
    rw [capacity_extend, members_extend]
    rfl

/-! ### Words on their own -/

end SlotSet

/-- A capacity and words, whether or not they fit together. -/
structure WordRow where
  capacity : Nat
  words : List (BitVec 64)
  deriving DecidableEq

namespace WordRow

open Packed

/-- A row for `n` bits that are all off. -/
def blank (n : Nat) : WordRow :=
  ⟨n, List.replicate (wordCount n) 0#64⟩

/-- All bits of all the words that are there, and then the last word again up to the capacity, where
the capacity ends within a word. -/
def filled (r : WordRow) : WordRow :=
  let words := r.words.map fun _ => BitVec.allOnes 64
  let last := 1#64 <<< (r.capacity % 64) - 1#64
  ⟨r.capacity, if r.capacity % 64 = 0 then words else words.set (words.length - 1) last⟩

/-- As many of the words that are there as `n` bits take, with words of zeros after them where they
are too few. -/
def resized (r : WordRow) (n : Nat) : WordRow :=
  ⟨n, (r.words ++ List.replicate (wordCount n - r.words.length) 0#64).take (wordCount n)⟩

/-- What the operations do with words. -/
def ops : SetOps WordRow where
  new := blank
  full n := (blank n).filled
  singleton? n i := if i < n then some ⟨n, switchOn (blank n).words i⟩ else none
  insert? r i := if i < r.capacity then some ⟨r.capacity, switchOn r.words i⟩ else none
  fill := filled
  union? r r' :=
    let words := List.zipWith (· ||| ·) r.words r'.words
    if r.capacity = r'.capacity then some (⟨r.capacity, words⟩, words != r.words) else none
  extended r n := if n ≤ r.capacity then r else r.resized n

/-- Words that are as many as the capacity takes are filled up to the capacity. -/
lemma filled_of_length {r : WordRow} (h : r.words.length = wordCount r.capacity) :
    r.filled = ⟨r.capacity, ones r.capacity⟩ := by
  unfold wordCount at h
  refine congrArg (WordRow.mk r.capacity) ?_
  split
  · apply List.ext_getElem (by simp [ones, wordCount, h])
    intro k hk _
    rw [List.length_map] at hk
    have hfull : 64 * (k + 1) ≤ r.capacity := by omega
    simp [ones, onesWord, hfull]
  · apply List.ext_getElem (by simp [ones, wordCount, h])
    intro k hk _
    rw [List.length_set, List.length_map] at hk
    by_cases hlast : r.words.length - 1 = k
    · have hcut : ¬ 64 * (k + 1) ≤ r.capacity := by omega
      have hsome : ¬ r.capacity ≤ 64 * k := by omega
      simp [ones, onesWord, hlast, hcut, hsome]
    · have hfull : 64 * (k + 1) ≤ r.capacity := by omega
      simp [ones, onesWord, hlast, hfull]

/-- Words that are as many as a smaller capacity takes are only added to. -/
lemma resized_of_length {r : WordRow} (h : r.words.length = wordCount r.capacity) {n : Nat}
    (hn : r.capacity ≤ n) :
    r.resized n = ⟨n, r.words ++ List.replicate (wordCount n - wordCount r.capacity) 0#64⟩ := by
  have hle : wordCount r.capacity ≤ wordCount n := by
    unfold wordCount
    omega
  rw [resized, List.take_of_length_le (by simp [h, hle]), h]

end WordRow

namespace SlotSet

variable {s t : SlotSet}

/-- The words of a slot set, without what is known about them. -/
def row (s : SlotSet) : WordRow :=
  ⟨s.capacity, s.words⟩

/-- Insertion switches on the bit of the slot. -/
lemma map_row_insert? (s : SlotSet) (i : Nat) :
    (s.insert? i).map row = WordRow.ops.insert? s.row i := by
  by_cases hi : i < s.capacity
  · rw [insert?, dif_pos hi]
    exact (if_pos hi).symm
  · rw [insert?, dif_neg hi]
    exact (if_neg hi).symm

/-- Operations on slot sets are the bare operations on their words. -/
lemma viewedAs_row : ops.ViewedAs row WordRow.ops where
  new _ := rfl
  full n := (WordRow.filled_of_length (r := (empty n).row) (empty n).length_words).symm
  singleton? n i := map_row_insert? (empty n) i
  insert? := map_row_insert?
  fill s := (WordRow.filled_of_length (r := s.row) s.length_words).symm
  union? s t := by
    change (s.union? t).map _ = _
    by_cases h : s.capacity = t.capacity
    · rw [union?, dif_pos h]
      exact (if_pos h).symm
    · rw [union?, dif_neg h]
      exact (if_neg h).symm
  extended s n := by
    change (s.extend n).row = _
    by_cases h : n ≤ s.capacity
    · rw [extend, dif_pos h]
      exact (if_pos h).symm
    · rw [extend, dif_neg h]
      have hresized : s.row.resized n = _ :=
        WordRow.resized_of_length s.length_words (Nat.le_of_not_le h)
      exact ((if_neg h).trans hresized).symm

/-! ## What sets tell about their members -/

/-- The words are packed tightly, and whatever is computed from them is true of the members. -/
structure Exact (s : SlotSet) : Prop where
  length_words : s.words.length = (s.capacity + 63) / 64
  /-- The bits at the capacity and above it are zero. -/
  tail : ∀ k w, s.words[k]? = some w → ∀ b < 64, s.capacity ≤ 64 * k + b → w.getLsbD b = false
  contains : ∀ i, s.contains i = decide (i ∈ s.members)
  /-- The walk through the bits finds the members in ascending order, and ends. -/
  listed : s.Yields .start s.toList ∧ s.toList.Pairwise (· < ·) ∧ s.toList.toFinset = s.members
  count : s.count = s.members.card
  isEmpty : s.isEmpty = true ↔ s.members = ∅
  isFull : s.isFull = true ↔ s.members = Finset.range s.capacity

/-- Comparing two sets of any capacities compares their members. -/
structure Compares (s t : SlotSet) : Prop where
  isSubset : s.isSubset t = true ↔ s.members ⊆ t.members
  isDisjoint : s.isDisjoint t = true ↔ Disjoint s.members t.members
  beq : (s == t) = true ↔ s.capacity = t.capacity ∧ s.members = t.members

/-- Every set is exact. -/
lemma exact (s : SlotSet) : s.Exact where
  length_words := s.length_words
  tail k w hw b hb hcap := by
    obtain ⟨hk, rfl⟩ := List.getElem?_eq_some_iff.1 hw
    rw [← Packed.bit_mul_add hk hb]
    exact s.bit_of_le _ hcap
  contains i := by rw [Bool.eq_iff_iff, decide_eq_true_iff, mem_members]
  listed := ⟨s.yields_toList, s.pairwise_toList, s.toFinset_toList⟩
  count := s.card_members.symm
  isEmpty := by simp [isEmpty_iff, Finset.eq_empty_iff_forall_notMem, mem_members]
  isFull := isFull_iff_members

/-- Any two sets are compared by their members. -/
lemma compares (s t : SlotSet) : s.Compares t where
  isSubset := by
    rw [isSubset_iff]
    simp only [Finset.subset_iff, mem_members]
  isDisjoint := by
    rw [isDisjoint_iff, Finset.disjoint_left]
    simp only [mem_members, Bool.not_eq_true]
  beq := by rw [beq_iff_eq, eq_iff_members]

/-- Slot sets implement finite sets. Every sequence of calls has the same answers on slot sets as on
finite sets and as on bare words, fails in the same cases, and leaves slot sets that stand for the
finite sets and have those words. Each of them is packed tightly and tells the truth about its
members, and so do comparisons of any two. -/
theorem finite_sets_of_run (calls : List SetCall) :
    (ops.run [] calls).map (Prod.map (List.map view) id) = BoundedSet.ops.run [] calls ∧
      (ops.run [] calls).map (Prod.map (List.map row) id) = WordRow.ops.run [] calls ∧
      ∀ sets answers, ops.run [] calls = some (sets, answers) →
        (∀ s ∈ sets, s.Exact) ∧ ∀ s ∈ sets, ∀ t ∈ sets, s.Compares t := by
  refine ⟨viewedAs_ops.map_run [] calls, viewedAs_row.map_run [] calls, fun sets answers _ => ?_⟩
  exact ⟨fun s _ => s.exact, fun s _ t _ => s.compares t⟩

/-- Sets with a last word that is used up, partly used and not there at all; one of them grows by a
word and takes in another one twice. -/
def mixedCalls : List SetCall :=
  [.full 70, .new 64, .insert 1 63, .extended 1 70, .union 2 0, .union 2 0, .singleton 130 129,
    .new 0, .fill 1]

/-- The first union adds members and the second one does not. -/
theorem finite_sets_mixedCalls :
    ∃ sets, ops.run [] mixedCalls = some (sets, [true, false]) ∧
      sets.map view = [⟨70, .range 70⟩, ⟨64, .range 64⟩, ⟨70, .range 70⟩, ⟨130, {129}⟩, ⟨0, ∅⟩] ∧
      (∀ s ∈ sets, s.Exact) ∧ ∀ s ∈ sets, ∀ t ∈ sets, s.Compares t := by
  have hideal : BoundedSet.ops.run [] mixedCalls =
      some ([⟨70, .range 70⟩, ⟨64, .range 64⟩, ⟨70, .range 70⟩, ⟨130, {129}⟩, ⟨0, ∅⟩],
        [true, false]) := by decide +kernel
  obtain ⟨hview, -, htrue⟩ := finite_sets_of_run mixedCalls
  rw [hideal] at hview
  obtain ⟨⟨sets, answers⟩, hrun, hsets⟩ := Option.map_eq_some_iff.1 hview
  obtain ⟨hmembers, rfl⟩ := Prod.mk.inj hsets
  exact ⟨sets, hrun, hmembers, htrue sets _ hrun⟩

end SlotSet

end Inliner
