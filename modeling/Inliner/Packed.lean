/-!
# Packed bits

A row of bits, packed sixty-four to a word, the lowest bit first.
-/

namespace Inliner

namespace Packed

/-- The number of words that hold `n` bits. -/
def wordCount (n : Nat) : Nat :=
  (n + 63) / 64

/-- Bit `i` of a row of words; bits past the last word are off. -/
def bit (words : List (BitVec 64)) (i : Nat) : Bool :=
  (words.getD (i / 64) 0#64).getLsbD (i % 64)

/-- The positions of the bits that are on in one word, ascending. -/
def bitsOn (w : BitVec 64) : List Nat :=
  (List.range 64).filter w.getLsbD

/-- Word `k` of the row in which exactly the first `n` bits are on. -/
def onesWord (n k : Nat) : BitVec 64 :=
  if 64 * (k + 1) ≤ n then BitVec.allOnes 64
  else if n ≤ 64 * k then 0#64
  else (1#64 <<< (n % 64)) - 1#64

/-- The row in which exactly the first `n` bits are on. -/
def ones (n : Nat) : List (BitVec 64) :=
  (List.range (wordCount n)).map (onesWord n)

/-- The row with bit `i` switched on. -/
def switchOn (words : List (BitVec 64)) (i : Nat) : List (BitVec 64) :=
  words.modify (i / 64) (· ||| 1#64 <<< (i % 64))

@[simp] theorem bit_replicate_zero (n i : Nat) : bit (List.replicate n 0#64) i = false := by
  simp only [bit, List.getD_eq_getElem?_getD, List.getElem?_replicate]
  split <;> simp

theorem bit_append_zero (words : List (BitVec 64)) (n i : Nat) :
    bit (words ++ List.replicate n 0#64) i = bit words i := by
  simp only [bit, List.getD_eq_getElem?_getD, List.getElem?_append, List.getElem?_replicate]
  by_cases h : i / 64 < words.length
  · simp [h]
  · simp only [h, if_false, List.getElem?_eq_none (Nat.le_of_not_lt h)]
    split <;> simp

theorem bit_zipWith_or {v w : List (BitVec 64)} (h : v.length = w.length) (i : Nat) :
    bit (List.zipWith (· ||| ·) v w) i = (bit v i || bit w i) := by
  simp only [bit, List.getD_eq_getElem?_getD, List.getElem?_zipWith]
  by_cases hi : i / 64 < v.length
  · rw [List.getElem?_eq_getElem hi, List.getElem?_eq_getElem (h ▸ hi)]
    simp
  · rw [List.getElem?_eq_none (Nat.le_of_not_lt hi),
      List.getElem?_eq_none (h ▸ Nat.le_of_not_lt hi)]
    simp

theorem getLsbD_one_shift {b c : Nat} (hb : b < 64) :
    (1#64 <<< b).getLsbD c = decide (c = b) := by
  simp only [BitVec.getLsbD_shiftLeft, BitVec.getLsbD_one]
  by_cases h : c = b
  · subst h; simp [hb]
  · by_cases hlt : c < b
    · simp [h, hlt]
    · have : c - b ≠ 0 := by omega
      simp [h, this]

theorem bit_switchOn {words : List (BitVec 64)} {i : Nat} (hi : i / 64 < words.length) (j : Nat) :
    bit (switchOn words i) j = (bit words j || decide (j = i)) := by
  simp only [bit, switchOn, List.getD_eq_getElem?_getD, List.getElem?_modify]
  have hb : i % 64 < 64 := Nat.mod_lt _ (by decide)
  by_cases hw : i / 64 = j / 64
  · rw [← hw, List.getElem?_eq_getElem hi]
    have hji : (j % 64 = i % 64) ↔ j = i := by omega
    simp [getLsbD_one_shift hb, hji]
  · have hji : j ≠ i := fun h => hw (by rw [h])
    simp [hw, hji]

theorem getLsbD_onesWord (n k b : Nat) (hb : b < 64) :
    (onesWord n k).getLsbD b = decide (64 * k + b < n) := by
  unfold onesWord
  split
  · have : 64 * k + b < n := by omega
    rw [BitVec.getLsbD_allOnes]
    simp [hb, this]
  · split
    · have : ¬ 64 * k + b < n := by omega
      simp [this]
    · have hr : n % 64 = n - 64 * k := by omega
      have hlt : n - 64 * k < 64 := by omega
      have hone : (1#64 <<< (n % 64) - 1#64) = BitVec.ofNat 64 (2 ^ (n % 64) - 1) := by
        apply BitVec.eq_of_toNat_eq
        have hpow : 2 ^ (n % 64) < 2 ^ 64 := Nat.pow_lt_pow_right (by decide) (by omega)
        have hpos : 0 < 2 ^ (n % 64) := Nat.pow_pos (by decide)
        simp only [BitVec.toNat_sub, BitVec.toNat_shiftLeft, BitVec.toNat_ofNat, Nat.shiftLeft_eq]
        omega
      rw [hone]
      simp only [BitVec.getLsbD_ofNat, hb, decide_true, Bool.true_and, Nat.testBit_two_pow_sub_one]
      rw [decide_eq_decide]
      omega

theorem bit_ones (n i : Nat) : bit (ones n) i = decide (i < n) := by
  simp only [bit, ones, List.getD_eq_getElem?_getD, List.getElem?_map]
  by_cases h : i / 64 < wordCount n
  · rw [List.getElem?_range h]
    simp only [Option.map_some, Option.getD_some]
    rw [getLsbD_onesWord n _ _ (Nat.mod_lt _ (by decide)), Nat.div_add_mod]
  · have hn : ¬ i < n := by unfold wordCount at h; omega
    rw [List.getElem?_eq_none (by simpa using h)]
    simp [hn]

end Packed

end Inliner
