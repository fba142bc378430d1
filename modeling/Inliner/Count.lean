/-!
# Numbers that references are counted with

References are counted with words of 32 bits, where a sum that is too large turns up as a negative
number. The same operations can be carried out with unbounded integers, and what the counts in words
are worth is told by comparing them with those.
-/

namespace Inliner

/-- Numbers that references are counted with. The sum of two positive numbers is exact if it fits, and
it is never too large. -/
class Count (ν : Type) extends One ν, Neg ν, Add ν, Min ν where
  /-- The integer that a number stands for. -/
  toInt : ν → Int
  /-- The sums that are exact. -/
  Fits : Nat → Prop
  toInt_inj : ∀ {a b : ν}, toInt a = toInt b → a = b
  toInt_one : toInt 1 = 1
  toInt_neg_one : toInt (-1) = -1
  toInt_min : ∀ a b : ν, toInt (min a b) = if toInt a ≤ toInt b then toInt a else toInt b
  toInt_add : ∀ {a b : ν}, 0 < toInt a → 0 < toInt b → Fits (toInt a + toInt b).toNat →
    toInt (a + b) = toInt a + toInt b
  toInt_add_le : ∀ {a b : ν}, 0 < toInt a → 0 < toInt b → toInt (a + b) ≤ toInt a + toInt b
  fits_of_le : ∀ {m n : Nat}, m ≤ n → Fits n → Fits m

namespace Count

/-- All sums of unbounded integers are exact. -/
instance : Count Int where
  one := 1
  toInt n := n
  Fits _ := True
  toInt_inj h := h
  toInt_one := rfl
  toInt_neg_one := rfl
  toInt_min _ _ := rfl
  toInt_add _ _ _ := rfl
  toInt_add_le _ _ := Int.le_refl _
  fits_of_le _ _ := trivial

/-- The sum of two positive words wraps around at most once. -/
theorem toInt_add_word {a b : Int32} (ha : 0 < a.toInt) (hb : 0 < b.toInt) :
    (a + b).toInt =
      if a.toInt + b.toInt < 2147483648 then a.toInt + b.toInt
      else a.toInt + b.toInt - 4294967296 := by
  have ha' := a.toInt_lt
  have hb' := b.toInt_lt
  rw [Int32.toInt_add, Int.bmod_def]
  split <;> split <;> omega

/-- Sums of words are exact below `2 ^ 31`. -/
instance : Count Int32 where
  one := 1
  toInt := Int32.toInt
  Fits n := n < 2147483648
  toInt_inj := Int32.toInt_inj.1
  toInt_one := by decide
  toInt_neg_one := by decide
  toInt_min a b := by
    simp only [Min.min, Int32.le_iff_toInt_le]
    split <;> rfl
  toInt_add ha hb hfits := by
    rw [toInt_add_word ha hb, if_pos (by omega)]
  toInt_add_le ha hb := by
    rw [toInt_add_word ha hb]
    split <;> omega
  fits_of_le := Nat.lt_of_le_of_lt

end Count

end Inliner
