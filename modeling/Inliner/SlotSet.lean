import Inliner.Domain
import Inliner.Packed

/-!
# Sets of slots

A finite set of slot numbers below a fixed capacity, packed sixty-four to a word. The capacity is the
number of arguments or locals of the method at hand. The order is inclusion and the join is union.

The packing is canonical: there are just enough words, and no bit is set at or above the capacity.
Both are part of the type, so two sets of one capacity are equal when they have the same members.
-/

namespace Inliner

/-- A set of slot numbers below `capacity`. -/
@[ext]
structure SlotSet where
  capacity : Nat
  words : List (BitVec 64)
  /-- There are just enough words. -/
  length_words : words.length = Packed.wordCount capacity
  /-- Nothing is stored at or above the capacity. -/
  bit_of_le : ∀ i, capacity ≤ i → Packed.bit words i = false
  deriving DecidableEq

namespace SlotSet

open Packed

/-- Slot `i` is a member. No slot at or above the capacity is. -/
def contains (s : SlotSet) (i : Nat) : Bool :=
  bit s.words i

/-- The members in ascending order. -/
def toList (s : SlotSet) : List Nat :=
  s.words.zipIdx.flatMap fun (w, k) => (bitsOn w).map (64 * k + ·)

/-- The number of members. -/
def count (s : SlotSet) : Nat :=
  s.words.foldr (fun w n => (bitsOn w).length + n) 0

/-- The set has no member. -/
def isEmpty (s : SlotSet) : Bool :=
  s.words.all (· == 0#64)

/-- Every slot below the capacity is a member. -/
def isFull (s : SlotSet) : Bool :=
  s.count == s.capacity

/-- The set without members. -/
def empty (capacity : Nat) : SlotSet where
  capacity
  words := List.replicate (wordCount capacity) 0#64
  length_words := by simp
  bit_of_le := by simp

/-- The set of all slots below the capacity. -/
def full (capacity : Nat) : SlotSet where
  capacity
  words := ones capacity
  length_words := by simp [ones]
  bit_of_le i h := by simp [bit_ones, Nat.not_lt.2 h]

/-- The set with all slots below its capacity. -/
def fill (s : SlotSet) : SlotSet :=
  full s.capacity

/-- There is a word for each slot below the capacity. -/
theorem div_lt_length_words (s : SlotSet) {i : Nat} (h : i < s.capacity) :
    i / 64 < s.words.length := by
  rw [s.length_words]
  unfold wordCount
  omega

theorem length_switchOn (s : SlotSet) (i : Nat) :
    (switchOn s.words i).length = wordCount s.capacity := by
  simp [switchOn, s.length_words]

theorem bit_switchOn_of_le (s : SlotSet) {i : Nat} (h : i < s.capacity) (j : Nat)
    (hj : s.capacity ≤ j) : bit (switchOn s.words i) j = false := by
  have hji : j ≠ i := by omega
  simp [bit_switchOn (s.div_lt_length_words h), s.bit_of_le j hj, hji]

/-- The set with slot `i` added. -/
def insert (s : SlotSet) (i : Nat) (h : i < s.capacity) : SlotSet where
  capacity := s.capacity
  words := switchOn s.words i
  length_words := s.length_switchOn i
  bit_of_le := s.bit_switchOn_of_le h

/-- The set with slot `i` added, if `i` lies below the capacity. -/
def insert? (s : SlotSet) (i : Nat) : Option SlotSet :=
  if h : i < s.capacity then some (s.insert i h) else none

/-- The set with the listed slots added one by one, if all of them lie below the capacity. -/
def insertAll? (s : SlotSet) (slots : List Nat) : Option SlotSet :=
  slots.foldlM insert? s

/-- The set whose only member is `i`, if `i` lies below the capacity. -/
def singleton? (capacity i : Nat) : Option SlotSet :=
  (empty capacity).insert? i

/-- The union of two sets of one capacity. -/
def union (s t : SlotSet) (h : s.capacity = t.capacity) : SlotSet where
  capacity := s.capacity
  words := List.zipWith (· ||| ·) s.words t.words
  length_words := by simp [s.length_words, t.length_words, h]
  bit_of_le i hi := by
    have hlen : s.words.length = t.words.length := by rw [s.length_words, t.length_words, h]
    simp [bit_zipWith_or hlen, s.bit_of_le i hi, t.bit_of_le i (h ▸ hi)]

/-- The union, and whether it has more members than `s`. Only sets of one capacity have a union. -/
def union? (s t : SlotSet) : Option (SlotSet × Bool) :=
  if h : s.capacity = t.capacity then some (s.union t h, (s.union t h).words != s.words) else none

/-- Every member of `s` is a member of `t`, whatever their capacities. -/
def isSubset (s t : SlotSet) : Bool :=
  s.toList.all t.contains

/-- The sets share no member, whatever their capacities. -/
def isDisjoint (s t : SlotSet) : Bool :=
  (List.zipWith (· &&& ·) s.words t.words).all (· == 0#64)

/-- The same members at a capacity of at least `n`. -/
def extend (s : SlotSet) (n : Nat) : SlotSet :=
  if h : n ≤ s.capacity then s
  else
    { capacity := n
      words := s.words ++ List.replicate (wordCount n - wordCount s.capacity) 0#64
      length_words := by
        have hle : wordCount s.capacity ≤ wordCount n := by unfold wordCount; omega
        simp only [List.length_append, List.length_replicate, s.length_words]
        omega
      bit_of_le := fun i hi => by
        rw [bit_append_zero]
        exact s.bit_of_le i (by omega) }

/-- The members in braces, as in `{0, 2}`. -/
def render (s : SlotSet) : String :=
  "\x7b" ++ ", ".intercalate (s.toList.map toString) ++ "\x7d"

/-! ### Members -/

theorem mem_bitsOn {w : BitVec 64} {b : Nat} : b ∈ bitsOn w ↔ b < 64 ∧ w.getLsbD b = true := by
  simp [bitsOn]

/-- The listing holds exactly the members. -/
theorem mem_toList {s : SlotSet} {i : Nat} : i ∈ s.toList ↔ s.contains i = true := by
  simp only [toList, List.mem_flatMap, List.mem_map, mem_bitsOn, contains, bit, Prod.exists,
    List.mem_zipIdx_iff_getElem?]
  constructor
  · rintro ⟨w, k, hk, b, ⟨hb, hbit⟩, rfl⟩
    have hdiv : (64 * k + b) / 64 = k := by omega
    have hmod : (64 * k + b) % 64 = b := by omega
    rw [hdiv, hmod, List.getD_eq_getElem?_getD, hk]
    exact hbit
  · intro h
    cases hk : s.words[i / 64]? with
    | none => simp [List.getD_eq_getElem?_getD, hk] at h
    | some w =>
      refine ⟨w, i / 64, hk, i % 64, ⟨Nat.mod_lt _ (by decide), ?_⟩, Nat.div_add_mod i 64⟩
      simpa [List.getD_eq_getElem?_getD, hk] using h

theorem lt_capacity_of_contains {s : SlotSet} {i : Nat} (h : s.contains i = true) :
    i < s.capacity := by
  refine Nat.lt_of_not_le fun hle => ?_
  rw [contains, s.bit_of_le i hle] at h
  exact Bool.false_ne_true h

theorem contains_union {s t : SlotSet} (h : s.capacity = t.capacity) (i : Nat) :
    (s.union t h).contains i = (s.contains i || t.contains i) :=
  bit_zipWith_or (by rw [s.length_words, t.length_words, h]) i

/-- How many slots below the capacity are still missing. -/
def room (s : SlotSet) : Nat :=
  (List.range s.capacity).countP fun i => !s.contains i

end SlotSet

/-- Inclusion and union, for sets of one capacity. Two sets interfere when they share a member. -/
instance : Domain SlotSet where
  le s t := s.capacity == t.capacity && s.isSubset t
  join s t := (s.union? t).map Prod.fst
  isBottom s := s.isEmpty
  isTop s := s.isFull
  commutes s t := s.isDisjoint t

namespace SlotSet

theorem eq_union_of_join {s t u : SlotSet} (h : s.capacity = t.capacity)
    (hu : Domain.join s t = some u) : u = s.union t h := by
  simpa [Domain.join, union?, h, eq_comm] using hu

/-- No set gains room by a union. -/
theorem countP_union_le {s t : SlotSet} (h : s.capacity = t.capacity) (l : List Nat) :
    l.countP (fun i => !(s.union t h).contains i) ≤ l.countP fun i => !s.contains i := by
  refine List.countP_mono_left fun i _ hi => ?_
  simp only [contains_union, Bool.not_or, Bool.and_eq_true] at hi
  exact hi.1

/-- A set loses room when a new member is joined in. -/
theorem room_union_lt {s t : SlotSet} (h : s.capacity = t.capacity) {i : Nat}
    (ht : t.contains i = true) (hs : s.contains i = false) : (s.union t h).room < s.room := by
  have hi : i < s.capacity := h ▸ lt_capacity_of_contains ht
  have hcap : (s.union t h).capacity = s.capacity := rfl
  obtain ⟨l, r, hlr⟩ := List.append_of_mem (List.mem_range.2 hi)
  have hl := countP_union_le h l
  have hr := countP_union_le h r
  simp only [room, hcap, hlr, List.countP_append, List.countP_cons, contains_union h i, hs, ht,
    Bool.or_true, Bool.not_true, Bool.not_false, Bool.false_eq_true, if_true, if_false]
  omega

end SlotSet

instance : FiniteHeight SlotSet where
  room := SlotSet.room
  room_le {x y z} hz := by
    by_cases h : x.capacity = y.capacity
    · rw [SlotSet.eq_union_of_join h hz]
      exact SlotSet.countP_union_le h _
    · simp [Domain.join, SlotSet.union?, h] at hz
  room_lt {x y z} hz hy := by
    by_cases h : x.capacity = y.capacity
    · obtain ⟨i, hiy, hix⟩ : ∃ i, y.contains i = true ∧ x.contains i = false := by
        simpa [Domain.le, h, SlotSet.isSubset, SlotSet.mem_toList] using hy
      rw [SlotSet.eq_union_of_join h hz]
      exact SlotSet.room_union_lt h hiy hix
    · simp [Domain.join, SlotSet.union?, h] at hz

end Inliner
