import Mathlib.Data.Nat.Bitwise

/-!
# Bit fields of a machine word

A *field* of an `n`-bit word is the run of `len` bits that starts at bit `lo`. Code that packs
several fields into one word reads a field with a mask and a shift, and writes it by clearing
the mask and or-ing the shifted value in. The two laws below are what such code relies on:

* reading a field back gives what was written (`extractLsb'_setField_self`);
* writing a field leaves every disjoint field alone (`extractLsb'_setField_of_disjoint`).

The reading side is core's `BitVec.extractLsb'`, so only the mask, the write and their
relation to it are defined here. Everything is over an arbitrary width `n`.
-/

namespace BitField

variable {n : Nat}

/-- `len` ones from bit `lo` on. -/
def mask (n lo len : Nat) : BitVec n := BitVec.ofNat n (2 ^ len - 1) <<< lo

/-- Write `v` at bit `lo`: clear the field, then or the shifted value in. -/
def setField {len : Nat} (lo : Nat) (x : BitVec n) (v : BitVec len) : BitVec n :=
  (x &&& ~~~(mask n lo len)) ||| (v.setWidth n <<< lo)

theorem getLsbD_mask (lo len i : Nat) :
    (mask n lo len).getLsbD i = (decide (i < n) && decide (lo ≤ i) && decide (i < lo + len)) := by
  simp only [mask, BitVec.getLsbD_shiftLeft, BitVec.getLsbD_ofNat, Nat.testBit_two_pow_sub_one]
  by_cases hn : i < n
  · by_cases hlo : lo ≤ i
    · have hlt : i - lo < n := by omega
      have hlen : i - lo < len ↔ i < lo + len := by omega
      simp [hn, hlo, hlt, hlen]
    · simp [hn, hlo, show i < lo by omega]
  · simp [hn]

theorem getLsbD_setField {len : Nat} (lo : Nat) (x : BitVec n) (v : BitVec len) (i : Nat) :
    (setField lo x v).getLsbD i =
      if lo ≤ i ∧ i < lo + len then decide (i < n) && v.getLsbD (i - lo) else x.getLsbD i := by
  simp only [setField, BitVec.getLsbD_or, BitVec.getLsbD_and, BitVec.getLsbD_not, getLsbD_mask,
    BitVec.getLsbD_shiftLeft, BitVec.getLsbD_setWidth]
  by_cases hn : i < n
  · by_cases hin : lo ≤ i ∧ i < lo + len
    · have hlt : i - lo < n := by omega
      simp [hn, hin.1, hin.2, hlt]
    · rw [if_neg hin]
      by_cases hlo : lo ≤ i
      · have hv : v.getLsbD (i - lo) = false := BitVec.getLsbD_of_ge v _ (by omega)
        have hhi : ¬ i < lo + len := fun h => hin ⟨hlo, h⟩
        simp [hn, hlo, hhi, hv]
      · simp [hn, hlo, show i < lo by omega]
  · have hx : x.getLsbD i = false := BitVec.getLsbD_of_ge x _ (by omega)
    simp [hn, hx]

/-- Masking and shifting down, the way a getter reads a field, extracts it. -/
theorem and_mask_ushiftRight (lo len : Nat) (x : BitVec n) :
    (x &&& mask n lo len) >>> lo = (x.extractLsb' lo len).setWidth n := by
  apply BitVec.eq_of_getLsbD_eq
  intro i hi
  simp only [BitVec.getLsbD_ushiftRight, BitVec.getLsbD_and, getLsbD_mask,
    BitVec.getLsbD_setWidth, BitVec.getLsbD_extractLsb']
  by_cases hn : lo + i < n
  · by_cases hlen : i < len <;> simp [hi, hn, hlen]
  · have hx : x.getLsbD (lo + i) = false := BitVec.getLsbD_of_ge x _ (by omega)
    simp [hx]

theorem and_mask_zero (len : Nat) (x : BitVec n) :
    x &&& mask n 0 len = (x.extractLsb' 0 len).setWidth n := by
  simpa using and_mask_ushiftRight 0 len x

theorem ushiftRight_and_mask (lo len : Nat) (x : BitVec n) :
    (x >>> lo) &&& mask n 0 len = (x.extractLsb' lo len).setWidth n := by
  rw [and_mask_zero]
  apply BitVec.eq_of_getLsbD_eq
  intro i hi
  simp [BitVec.getLsbD_extractLsb', hi]

theorem ushiftRight_eq_extractLsb' (lo len : Nat) (x : BitVec n) (h : n ≤ lo + len) :
    x >>> lo = (x.extractLsb' lo len).setWidth n := by
  apply BitVec.eq_of_getLsbD_eq
  intro i hi
  simp only [BitVec.getLsbD_ushiftRight, BitVec.getLsbD_setWidth, BitVec.getLsbD_extractLsb', hi,
    decide_true, Bool.true_and]
  by_cases hlen : i < len
  · simp [hlen]
  · simp [hlen, BitVec.getLsbD_of_ge x (lo + i) (by omega)]

theorem ushiftRight_of_toNat_extractLsb' (lo len : Nat) {x : BitVec n} (h : n ≤ lo + len) {v : Nat}
    (hv : (x.extractLsb' lo len).toNat = v) : x >>> lo = BitVec.ofNat n v := by
  apply BitVec.eq_of_toNat_eq
  rw [ushiftRight_eq_extractLsb' lo len x h, BitVec.toNat_setWidth, BitVec.toNat_ofNat, hv]

theorem setWidth_and_mask_ushiftRight (lo len k : Nat) (x : BitVec n) (h : k ≤ n) :
    ((x &&& mask n lo len) >>> lo).setWidth k = (x.extractLsb' lo len).setWidth k := by
  rw [and_mask_ushiftRight, BitVec.setWidth_setWidth_of_le _ h]

/-- A getter that masks, shifts and returns a flag. -/
theorem and_mask_ushiftRight_bne_zero (lo : Nat) (x : BitVec n) (h : lo < n) :
    ((x &&& mask n lo 1) >>> lo != 0#n) = x.getLsbD lo := by
  have hbit : (x &&& mask n lo 1) >>> lo = (BitVec.ofBool (x.getLsbD lo)).setWidth n := by
    rw [and_mask_ushiftRight]
    apply BitVec.eq_of_getLsbD_eq
    intro i hi
    by_cases h0 : i = 0
    · subst h0
      simp [hi]
    · simp [h0]
  rw [hbit]
  cases x.getLsbD lo with
  | false => simp
  | true =>
    have hne : (BitVec.ofBool true).setWidth n ≠ 0#n := by
      intro hz
      have := congrArg (BitVec.getLsbD · 0) hz
      simp [show 0 < n by omega] at this
    simpa using hne

theorem ushiftRight_and_one_bne_zero (lo : Nat) (x : BitVec n) (h : lo < n) :
    (((x >>> lo) &&& mask n 0 1) != 0#n) = x.getLsbD lo := by
  rw [ushiftRight_and_mask, ← and_mask_ushiftRight, and_mask_ushiftRight_bne_zero lo x h]

theorem toNat_extractLsb'_one (lo : Nat) (x : BitVec n) :
    (x.extractLsb' lo 1).toNat = (x.getLsbD lo).toNat := by
  have hbit : x.extractLsb' lo 1 = BitVec.ofBool (x.getLsbD lo) := by
    apply BitVec.eq_of_getLsbD_eq
    intro i hi
    obtain rfl : i = 0 := by omega
    simp
  rw [hbit, BitVec.toNat_ofBool]

theorem getLsbD_congr {lo : Nat} {x y : BitVec n}
    (h : (x.extractLsb' lo 1).toNat = (y.extractLsb' lo 1).toNat) :
    x.getLsbD lo = y.getLsbD lo := by
  have hbit := congrArg (BitVec.getLsbD · 0) (BitVec.eq_of_toNat_eq h)
  simpa using hbit

/-- A setter that masks its argument and shifts it up writes the argument's low bits. -/
theorem or_shiftLeft_eq_setField {k : Nat} (lo len : Nat) (x : BitVec n) (v : BitVec k) :
    (x &&& ~~~(mask n lo len)) ||| ((v.setWidth n &&& mask n 0 len) <<< lo) =
      setField lo x (BitVec.ofNat len v.toNat) := by
  have hv : v.setWidth n &&& mask n 0 len = (BitVec.ofNat len v.toNat).setWidth n := by
    apply BitVec.eq_of_getLsbD_eq
    intro i hi
    rw [BitVec.getLsbD_and, getLsbD_mask, BitVec.getLsbD_setWidth, BitVec.getLsbD_setWidth,
      BitVec.getLsbD_ofNat, BitVec.testBit_toNat]
    simp [hi, Bool.and_comm]
  rw [setField, hv]

theorem setWidth_and_mask_of_le {k len : Nat} (v : BitVec k) (h : k ≤ len) :
    v.setWidth n &&& mask n 0 len = v.setWidth n := by
  apply BitVec.eq_of_getLsbD_eq
  intro i hi
  by_cases hk : i < k
  · simp [getLsbD_mask, hi, show i < len by omega]
  · simp [getLsbD_mask, BitVec.getLsbD_of_ge v i (by omega)]

/-- **Read back.** A field holds what was last written to it. -/
@[simp] theorem extractLsb'_setField_self {len : Nat} (lo : Nat) (x : BitVec n) (v : BitVec len)
    (h : lo + len ≤ n) : (setField lo x v).extractLsb' lo len = v := by
  apply BitVec.eq_of_getLsbD_eq
  intro i hi
  rw [BitVec.getLsbD_extractLsb', getLsbD_setField]
  simp [hi, show lo + i < n by omega]

/-- **Frame.** Writing one field leaves every field disjoint from it as it was. -/
theorem extractLsb'_setField_of_disjoint {len : Nat} (lo lo' len' : Nat) (x : BitVec n)
    (v : BitVec len) (h : lo' + len' ≤ lo ∨ lo + len ≤ lo') :
    (setField lo x v).extractLsb' lo' len' = x.extractLsb' lo' len' := by
  apply BitVec.eq_of_getLsbD_eq
  intro i hi
  rw [BitVec.getLsbD_extractLsb', BitVec.getLsbD_extractLsb', getLsbD_setField, if_neg (by omega)]

theorem toNat_extractLsb' (lo len : Nat) (x : BitVec n) :
    (x.extractLsb' lo len).toNat = x.toNat / 2 ^ lo % 2 ^ len := by
  rw [BitVec.extractLsb'_toNat, Nat.shiftRight_eq_div_pow]

/-- A word whose low bits are clear and one with nothing above them do not overlap. -/
theorem and_eq_zero_of_lt {x y : BitVec n} {a k : Nat} (hx : x.toNat = 2 ^ k * a)
    (hy : y.toNat < 2 ^ k) : x &&& y = 0#n := by
  apply BitVec.eq_of_getLsbD_eq
  intro i _
  rw [BitVec.getLsbD_and, BitVec.getLsbD_zero, ← BitVec.testBit_toNat, ← BitVec.testBit_toNat, hx,
    Nat.testBit_two_pow_mul]
  by_cases hk : i < k
  · simp [show ¬ k ≤ i by omega]
  · have hlt : y.toNat < 2 ^ i :=
      Nat.lt_of_lt_of_le hy (Nat.pow_le_pow_right Nat.two_pos (Nat.not_lt.mp hk))
    rw [Nat.testBit_lt_two_pow hlt, Bool.and_false]

theorem toNat_append {k : Nat} (x : BitVec n) (y : BitVec k) :
    (x ++ y).toNat = x.toNat * 2 ^ k + y.toNat := by
  rw [BitVec.toNat_append, ← Nat.shiftLeft_add_eq_or_of_lt y.isLt, Nat.shiftLeft_eq]

end BitField
