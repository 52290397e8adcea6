import HkRbu.Decode.Scan
import Mathlib.Tactic.NormNum

/-!
# Bins as arithmetic

The decoder puts a bin together from a 16-bit window of `current_counter` and the upper bits of
a 32-bit counter, with masks, shifts and ors. The parts do not overlap, so the bin is the sum
written here, and bins are below `2 ^ 38`.
-/

namespace HkRbu

/-- The bin of an object with counter `c`, in the window of `current_counter`. -/
def counterBin (currentCounter : U64) (c : U32) : Nat :=
  currentCounter.toNat / 2 ^ 48 * 2 ^ 22 + c.toNat / 2 ^ 10

/-- The bin of a ped object with coarse time `p` after a sync with counter `t`. -/
def pedBin (currentCounter : U64) (t p : U32) : Nat :=
  currentCounter.toNat / 2 ^ 48 * 2 ^ 22 + t.toNat / 2 ^ 13 * 8 + p.toNat / 2 ^ 21

/-- A bin has 38 bits: 16 of the window and 22 of the counter. -/
theorem counterBin_lt (currentCounter : U64) (c : U32) : counterBin currentCounter c < 2 ^ 38 := by
  have hc := c.isLt
  have hcc := currentCounter.isLt
  unfold counterBin
  omega

theorem pedBin_lt (currentCounter : U64) (t : U32) {p : U32} (hp : p.toNat < 2 ^ 24) :
    pedBin currentCounter t p < 2 ^ 38 := by
  have ht := t.isLt
  have hcc := currentCounter.isLt
  unfold pedBin
  omega

theorem toNat_window (currentCounter : U64) :
    (Scan.window currentCounter).toNat = currentCounter.toNat / 2 ^ 48 * 2 ^ 22 := by
  have hcc := currentCounter.isLt
  rw [Scan.window, show (-281474976710656#64) = BitField.mask 64 48 16 from rfl]
  have hsplit : (currentCounter &&& BitField.mask 64 48 16) >>> 26 =
      ((currentCounter &&& BitField.mask 64 48 16) >>> 48) <<< 22 := by
    apply BitVec.eq_of_getLsbD_eq
    intro i hi
    simp only [BitVec.getLsbD_ushiftRight, BitVec.getLsbD_shiftLeft, BitVec.getLsbD_and,
      BitField.getLsbD_mask]
    by_cases h22 : i < 22
    · simp [h22, show ¬ 48 ≤ 26 + i by omega]
    · simp [h22, hi, show 48 + (i - 22) = 26 + i by omega]
  rw [hsplit, BitField.and_mask_ushiftRight, BitVec.toNat_shiftLeft,
    BitVec.toNat_setWidth_of_le (by simp), BitField.toNat_extractLsb', Nat.shiftLeft_eq]
  omega

theorem toNat_or_setWidth {w : U64} {a k : Nat} (hw : w.toNat = 2 ^ k * a) {x : U32}
    (hx : x.toNat < 2 ^ k) : (w ||| x.setWidth 64).toNat = 2 ^ k * a + x.toNat := by
  rw [BitVec.toNat_or, BitVec.toNat_setWidth_of_le (by simp), hw, Nat.two_pow_add_eq_or_of_lt hx]

theorem toNat_counterBin (currentCounter : U64) (c : U32) :
    (Scan.window currentCounter ||| (c >>> 10).setWidth 64).toNat =
      counterBin currentCounter c := by
  have hc := c.isLt
  have hw : (Scan.window currentCounter).toNat = 2 ^ 22 * (currentCounter.toNat / 2 ^ 48) := by
    rw [toNat_window, Nat.mul_comm]
  have hx : (c >>> 10).toNat = c.toNat / 2 ^ 10 := by
    rw [BitVec.toNat_ushiftRight, Nat.shiftRight_eq_div_pow]
  rw [toNat_or_setWidth hw (by omega), hx, counterBin]
  omega

/-- Clearing the low three bits after a shift by ten is a shift by thirteen moved back up. -/
theorem toNat_pedTime (t : U32) :
    ((t >>> 10) &&& 0b11111111111111111111111111111000#32).toNat = t.toNat / 2 ^ 13 * 8 := by
  have ht := t.isLt
  have hsplit : (t >>> 10) &&& 0b11111111111111111111111111111000#32 = (t >>> 13) <<< 3 := by
    rw [show 0b11111111111111111111111111111000#32 = BitField.mask 32 3 29 from rfl]
    apply BitVec.eq_of_getLsbD_eq
    intro i hi
    simp only [BitVec.getLsbD_and, BitVec.getLsbD_ushiftRight, BitVec.getLsbD_shiftLeft,
      BitField.getLsbD_mask]
    by_cases h3 : i < 3
    · simp [h3, show ¬ 3 ≤ i by omega]
    · simp [h3, hi, show 3 ≤ i by omega, show 13 + (i - 3) = 10 + i by omega]
  rw [hsplit, BitVec.toNat_shiftLeft, BitVec.toNat_ushiftRight, Nat.shiftRight_eq_div_pow,
    Nat.shiftLeft_eq]
  omega

theorem toNat_pedBin (currentCounter : U64) (t p : U32) (hp : p.toNat < 2 ^ 24) :
    (Scan.window currentCounter |||
      ((t >>> 10) &&& 0b11111111111111111111111111111000#32).setWidth 64 |||
      (p >>> 21).setWidth 64).toNat = pedBin currentCounter t p := by
  have ht := t.isLt
  have hmask := toNat_pedTime t
  have hw : (Scan.window currentCounter).toNat = 2 ^ 22 * (currentCounter.toNat / 2 ^ 48) := by
    rw [toNat_window, Nat.mul_comm]
  have hupper := toNat_or_setWidth hw
    (x := (t >>> 10) &&& 0b11111111111111111111111111111000#32) (by omega)
  have hx : (p >>> 21).toNat = p.toNat / 2 ^ 21 := by
    rw [BitVec.toNat_ushiftRight, Nat.shiftRight_eq_div_pow]
  rw [toNat_or_setWidth (k := 3)
    (a := 2 ^ 19 * (currentCounter.toNat / 2 ^ 48) + t.toNat / 2 ^ 13)
    (by rw [hupper, hmask]; omega) (by omega), hx, pedBin]
  omega

end HkRbu
