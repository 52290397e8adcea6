import HkRbu.Decode.Trace

/-!
# The bin arithmetic of a round

What one round of the scan assigns to `bin`, as a law about numbers. The sync, error and special
branches count in units of one tick, the ped branch puts its own 24-bit time under the block of
8192 ticks its sync came in; the law says when the two kinds agree.
-/

namespace HkRbu

namespace Scan

/-- The scan is at a sync, error or special object, and `c` is its 32-bit counter. -/
inductive CounterAt (s : Scan) : U32 → Prop where
  | sync (h : s.kind = .sync) : CounterAt s (RAWIDODSync.getCounter s.at_)
  | error (h : s.kind = .error) : CounterAt s (RAWIDODError.getCoarse s.at_)
  | special (h : s.kind = .special) : CounterAt s (RAWIDODSpecial.getCoarse s.at_)

/-- The words that are or-ed together to make the bin. -/
def binParts (inp : Inputs) (s : Scan) : List U64 :=
  match s.kind with
  | .hit => [s.bin]
  | .ped =>
    [window inp.currentCounter,
      ((s.currentTime >>> 10) &&& 0b11111111111111111111111111111000#32).setWidth 64,
      (RAWIDODPed.getCoarse s.at_ >>> 21).setWidth 64]
  | .sync => [window inp.currentCounter, (RAWIDODSync.getCounter s.at_ >>> 10).setWidth 64]
  | .error => [window inp.currentCounter, (RAWIDODError.getCoarse s.at_ >>> 10).setWidth 64]
  | .special => [window inp.currentCounter, (RAWIDODSpecial.getCoarse s.at_ >>> 10).setWidth 64]

end Scan

/-- The laws of `bin`, for the round a scan `s` begins with the message `inp`. Another scan is in
    the same window if `current_counter` is the same there. -/
structure BinLaw (inp : Inputs) (s : Scan) : Prop where
  counter : ∀ c, s.CounterAt c → (s.step inp).bin.toNat =
    inp.currentCounter.toNat / 2 ^ 48 * 2 ^ 22 + c.toNat / 2 ^ 10
  ped : s.kind = .ped → (s.step inp).bin.toNat =
    inp.currentCounter.toNat / 2 ^ 48 * 2 ^ 22 + s.currentTime.toNat / 2 ^ 13 * 8 +
      (RAWIDODPed.getCoarse s.at_).toNat / 2 ^ 21
  lt : s.kind ≠ .hit → (s.step inp).bin.toNat < 2 ^ 38
  parts : (s.step inp).bin = (s.binParts inp).foldl (· ||| ·) 0#64
  apart : (s.binParts inp).Pairwise fun x y => x &&& y = 0#64
  share : ∀ (inp' : Inputs) (s' : Scan) (c c' : U32),
    inp'.currentCounter = inp.currentCounter → s.CounterAt c → s'.CounterAt c' →
    ((s.step inp).bin = (s'.step inp').bin ↔ c.toNat / 1024 = c'.toNat / 1024)
  ordered : ∀ (inp' : Inputs) (s' : Scan) (c c' : U32),
    inp'.currentCounter = inp.currentCounter → s.CounterAt c → s'.CounterAt c' →
    c ≤ c' → (s.step inp).bin ≤ (s'.step inp').bin
  /-- A ped whose counter is `T` has the bin of a sync with that counter. -/
  agree : ∀ (inp' : Inputs) (s' : Scan) (T : U32) (r : Nat),
    inp'.currentCounter = inp.currentCounter → s.kind = .ped → s'.CounterAt T →
    T.toNat / 8192 = s.currentTime.toNat / 8192 →
    (RAWIDODPed.getCoarse s.at_).toNat = T.toNat % 8192 * 2 ^ 11 + r → r < 2 ^ 11 →
    (s.step inp).bin = (s'.step inp').bin

/-! ## What a round assigns -/

namespace Scan

variable {inp : Inputs} {s : Scan}

/-- All objects but hits and peds have a counter in their second word. -/
theorem kind_eq_ped_or_counterAt (h : s.kind ≠ .hit) : s.kind = .ped ∨ ∃ c, s.CounterAt c := by
  cases hk : s.kind with
  | hit => exact absurd hk h
  | ped => exact Or.inl rfl
  | sync => exact Or.inr ⟨_, .sync hk⟩
  | error => exact Or.inr ⟨_, .error hk⟩
  | special => exact Or.inr ⟨_, .special hk⟩

theorem step_bin (inp : Inputs) (s : Scan) : (s.step inp).bin = (s.arrive inp).bin := by
  obtain ⟨hk, hs, -⟩ | ⟨-, hs, -⟩ := s.step_cases inp
  · rw [hs, arrive, hk]
    rfl
  · rw [hs, fileObject_eq]

theorem toNat_step_bin_of_counterAt {c : U32} (h : s.CounterAt c) :
    (s.step inp).bin.toNat = counterBin inp.currentCounter c := by
  rw [step_bin, arrive]
  cases h with
  | sync hk | error hk | special hk =>
    rw [hk]
    exact toNat_counterBin inp.currentCounter _

theorem toNat_step_bin_of_ped (h : s.kind = .ped) :
    (s.step inp).bin.toNat =
      HkRbu.pedBin inp.currentCounter s.currentTime (RAWIDODPed.getCoarse s.at_) := by
  rw [step_bin, arrive, h]
  exact toNat_pedBin inp.currentCounter s.currentTime _ (RAWIDODPed.toNat_getCoarse_lt s.at_)

theorem toNat_step_bin_lt (h : s.kind ≠ .hit) : (s.step inp).bin.toNat < 2 ^ 38 := by
  obtain hped | ⟨c, hc⟩ := kind_eq_ped_or_counterAt h
  · rw [toNat_step_bin_of_ped hped]
    exact pedBin_lt _ _ (RAWIDODPed.toNat_getCoarse_lt s.at_)
  · rw [toNat_step_bin_of_counterAt hc]
    exact counterBin_lt _ _

/-! ## The parts do not overlap -/

/-- A round sets the bin to the disjunction of its parts. -/
theorem step_bin_eq_parts (inp : Inputs) (s : Scan) :
    (s.step inp).bin = (s.binParts inp).foldl (· ||| ·) 0#64 := by
  rw [step_bin, arrive, binParts]
  cases s.kind with
  | hit => exact (BitVec.zero_or).symm
  | ped | sync | error | special =>
    simp only [List.foldl_cons, List.foldl_nil, BitVec.zero_or]
    rfl

theorem window_and_setWidth (currentCounter : U64) {x : U32} (hx : x.toNat < 2 ^ 22) :
    window currentCounter &&& x.setWidth 64 = 0#64 := by
  have hw : (window currentCounter).toNat = 2 ^ 22 * (currentCounter.toNat / 2 ^ 48) := by
    rw [toNat_window, Nat.mul_comm]
  refine BitField.and_eq_zero_of_lt hw ?_
  rwa [BitVec.toNat_setWidth_of_le (by simp)]

theorem toNat_ushiftRight_lt (x : U32) {k n : Nat} (hx : x.toNat < 2 ^ n * 2 ^ k) :
    (x >>> k).toNat < 2 ^ n := by
  rw [BitVec.toNat_ushiftRight, Nat.shiftRight_eq_div_pow]
  exact Nat.div_lt_of_lt_mul (by rwa [Nat.mul_comm])

/-- The parts have no bit in common, so that none covers another. -/
theorem binParts_apart (inp : Inputs) (s : Scan) :
    (s.binParts inp).Pairwise fun x y => x &&& y = 0#64 := by
  -- A 32-bit counter without its lower ten bits fits under the window.
  have hcounter : ∀ c : U32, window inp.currentCounter &&& (c >>> 10).setWidth 64 = 0#64 :=
    fun c => window_and_setWidth _ (toNat_ushiftRight_lt (n := 22) c c.isLt)
  unfold binParts
  cases s.kind with
  | hit => exact List.pairwise_singleton _ _
  | sync | error | special => exact List.pairwise_pair.mpr (hcounter _)
  | ped =>
    have ht := s.currentTime.isLt
    have htime := toNat_pedTime s.currentTime
    have hcoarse : (RAWIDODPed.getCoarse s.at_ >>> 21).toNat < 2 ^ 3 :=
      toNat_ushiftRight_lt (n := 3) _ (RAWIDODPed.toNat_getCoarse_lt s.at_)
    have hlow : ((s.currentTime >>> 10) &&& 0b11111111111111111111111111111000#32).setWidth 64 &&&
        (RAWIDODPed.getCoarse s.at_ >>> 21).setWidth 64 = 0#64 := by
      refine BitField.and_eq_zero_of_lt (k := 3) (a := s.currentTime.toNat / 2 ^ 13) ?_ ?_
      · rw [BitVec.toNat_setWidth_of_le (by simp), htime, Nat.mul_comm _ 8]
        rfl
      · rwa [BitVec.toNat_setWidth_of_le (by simp)]
    refine List.pairwise_cons.mpr ⟨?_, List.pairwise_pair.mpr hlow⟩
    intro y hy
    rcases List.mem_pair.mp hy with rfl | rfl
    · exact window_and_setWidth _ (by omega)
    · exact window_and_setWidth _ (by omega)

end Scan

/-- **The bin arithmetic**, for every round of every scan. -/
theorem binLaw (inp : Inputs) (s : Scan) : BinLaw inp s where
  counter c hc := Scan.toNat_step_bin_of_counterAt hc
  ped hk := Scan.toNat_step_bin_of_ped hk
  lt hk := Scan.toNat_step_bin_lt hk
  parts := s.step_bin_eq_parts inp
  apart := s.binParts_apart inp
  share inp' s' c c' hw hc hc' := by
    rw [← BitVec.toNat_inj, Scan.toNat_step_bin_of_counterAt hc,
      Scan.toNat_step_bin_of_counterAt hc', hw]
    exact Nat.add_left_cancel_iff
  ordered inp' s' c c' hw hc hc' hle := by
    rw [BitVec.le_def, Scan.toNat_step_bin_of_counterAt hc, Scan.toNat_step_bin_of_counterAt hc',
      hw]
    exact Nat.add_le_add_left (Nat.div_le_div_right hle) _
  agree inp' s' T r hw hk hT hblock hcoarse hr := by
    rw [← BitVec.toNat_inj, Scan.toNat_step_bin_of_ped hk, Scan.toNat_step_bin_of_counterAt hT, hw,
      pedBin, counterBin, hcoarse]
    -- `T / 1024` is its block of 8192 times eight and the 1024s in the rest of the block.
    omega

end HkRbu
