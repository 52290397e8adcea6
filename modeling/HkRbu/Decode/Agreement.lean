import HkRbu.Decode.Reference

/-!
# Bin and time of a hit

A hit is filed under `bin`, and its time is built from `current_time`. All four non-hit branches
set `bin`, but only the sync branch sets `current_time`; the declaration of `bin` calls it the
time bin of the data object being decoded. So the two agree on a hit exactly when the last
non-hit object before it lies in the bin of the last sync (`hitsAgree_iff`).
-/

namespace HkRbu

/-- The last object that was not a hit, which is the one that last set `bin`. -/
def lastNonHit (past : List Obj) : Option Obj := past.find? fun o => !o.isHit

/-- The counter of the object lies in the bin of the sync counter `S`. A sync sets the time
    itself, and a ped has only the three low bits of the bin. -/
def Obj.inStep (S : U32) : Obj → Prop
  | .hit .. | .sync .. => True
  | .ped w₀ _ _ _ => (w₀.extractLsb' 0 24).toNat / 2 ^ 21 = S.toNat / 2 ^ 10 % 8
  | .error _ w₁ _ | .special _ w₁ _ => w₁.toNat / 2 ^ 10 = S.toNat / 2 ^ 10

/-- The two objects a hit is filed and timed by agree: the last one that is not a hit lies in the
    bin of the last sync. -/
def InStep (past : List Obj) : Prop := ∀ o ∈ lastNonHit past, o.inStep (syncCounter past)

/-- Every reduced hit in `tpu_hit_collection`, which is made of the inserts of the scan, is filed
    under the bin of the last sync before its hit, and its time lies in that bin. -/
structure HitsAgree (m : WellFormed) (s : Scan) : Prop where
  tpuHitCollection : ∀ b, IndexMap.get (s.run m.toInputs).tpuHitCollection b =
    (s.log m.toInputs).flatMap (Insert.tpuAt b)
  agree : ∀ b pos h, Insert.tpuHit b pos h ∈ s.log m.toInputs →
    ∃ before o rest, m.objs = before.reverse ++ o :: rest ∧ o.isHit = true ∧
      WellFormed.size before = pos ∧
      b.toNat = counterBin m.currentCounter (syncCounter before) ∧
      (h.getTime >>> 26).toNat = b.toNat % 64

/-! ## The bin of the last non-hit object -/

/-- **When the bin is that of the sync counter.** -/
theorem lastBin_eq_counterBin_iff (currentCounter : U64) {past : List Obj} {o : Obj}
    (h : lastNonHit past = some o) :
    lastBin currentCounter past = counterBin currentCounter (syncCounter past) ↔
      o.inStep (syncCounter past) := by
  induction past with
  | nil => exact absurd h (by simp [lastNonHit])
  | cons x past ih =>
    cases x with
    | hit w₀ w₁ subs type notPed len =>
      -- A hit changes neither the bin nor the last sync.
      exact ih h
    | sync w₀ w₁ type =>
      obtain rfl := Option.some.inj h
      exact iff_of_true rfl trivial
    | error w₀ w₁ type | special w₀ w₁ type =>
      obtain rfl := Option.some.inj h
      exact Nat.add_left_cancel_iff
    | ped w₀ w₁ type isPed =>
      obtain rfl := Option.some.inj h
      have hcoarse : ((w₀.extractLsb' 0 24).setWidth 32).toNat = (w₀.extractLsb' 0 24).toNat :=
        BitVec.toNat_setWidth_of_le (by simp)
      show pedBin currentCounter (syncCounter past) ((w₀.extractLsb' 0 24).setWidth 32) =
          counterBin currentCounter (syncCounter past) ↔
        (w₀.extractLsb' 0 24).toNat / 2 ^ 21 = (syncCounter past).toNat / 2 ^ 10 % 8
      rw [pedBin, counterBin, hcoarse]
      omega

theorem toNat_time_ushiftRight (S : U32) (c : U8) (f : U16) :
    ((S.extractLsb' 8 8 ++ c ++ f : U32) >>> 26).toNat = S.toNat / 2 ^ 10 % 64 := by
  have htop : ((S.extractLsb' 8 8 ++ c ++ f : U32) >>> 26) = (S.extractLsb' 10 6).setWidth 32 := by
    apply BitVec.eq_of_getLsbD_eq
    intro i hi
    simp only [BitVec.getLsbD_ushiftRight, BitVec.getLsbD_append, BitVec.getLsbD_extractLsb',
      BitVec.getLsbD_setWidth]
    by_cases h6 : i < 6
    · simp [hi, h6, show ¬ 26 + i < 16 by omega, show ¬ 26 + i - 16 < 8 by omega,
        show 26 + i - 16 - 8 < 8 by omega, show 8 + (26 + i - 16 - 8) = 10 + i by omega]
    · simp [h6, show ¬ 26 + i < 16 by omega, show ¬ 26 + i - 16 < 8 by omega,
        show ¬ 26 + i - 16 - 8 < 8 by omega]
  rw [htop, BitVec.toNat_setWidth_of_le (by simp), BitField.toNat_extractLsb']
  rfl

/-! ## Inserts and hits of the stream -/

theorem before_inj {before before' rest rest' : List Obj} {o o' : Obj}
    (h : before.reverse ++ o :: rest = before'.reverse ++ o' :: rest')
    (hsize : WellFormed.size before = WellFormed.size before') : before = before' := by
  rw [← WellFormed.size_reverse before, ← WellFormed.size_reverse before'] at hsize
  refine List.reverse_injective ?_
  obtain ⟨l, hl, _⟩ | ⟨l, hl, _⟩ := List.append_eq_append_iff.mp h
  · rw [hl, WellFormed.size_append] at hsize
    have hzero : WellFormed.size l = 0 := by omega
    rw [hl, WellFormed.eq_nil_of_size hzero, List.append_nil]
  · rw [hl, WellFormed.size_append] at hsize
    have hzero : WellFormed.size l = 0 := by omega
    rw [hl, WellFormed.eq_nil_of_size hzero, List.append_nil]

/-- Whatever is filed as a reduced hit is a hit of the message, in the bin of the last object before
    it that is not a hit. -/
theorem exists_of_tpuHit_mem {m : WellFormed} {s : Scan} {b : U64} {pos : Nat} {h : TPUHit}
    (hi : Insert.tpuHit b pos h ∈ s.log m.toInputs) :
    ∃ before o rest, m.objs = before.reverse ++ o :: rest ∧ o.isHit = true ∧
      WellFormed.size before = pos ∧ b.toNat = lastBin m.currentCounter before ∧
      h.decode = referenceFields m.header s.pmtIdMap before o := by
  have hr : (⟨b.toNat, pos, h.decode⟩ : ReferenceHit) ∈
      (s.log m.toInputs).filterMap Insert.reduced := List.mem_filterMap.mpr ⟨_, hi, rfl⟩
  rw [log_eq_referenceDecode] at hr
  obtain ⟨before, o, after, heq, ho, hrec⟩ := mem_referenceDecode.mp hr
  obtain ⟨hbin, hpos, hfields⟩ := ReferenceHit.mk.inj hrec
  refine ⟨before, o, after.reverse, ?_, ho, hpos.symm, hbin, hfields⟩
  rw [← List.reverse_reverse m.objs, heq]
  simp

/-- The bin of a reduced hit, from the position of the hit. -/
theorem toNat_bin_of_tpuHit {m : WellFormed} {s : Scan} {before rest : List Obj} {o : Obj} {b : U64}
    {h : TPUHit} (hobjs : m.objs = before.reverse ++ o :: rest)
    (hi : Insert.tpuHit b (WellFormed.size before) h ∈ s.log m.toInputs) :
    b.toNat = lastBin m.currentCounter before := by
  obtain ⟨before', o', rest', hobjs', -, hsize, hbin, -⟩ := exists_of_tpuHit_mem hi
  obtain rfl := before_inj (hobjs'.symm.trans hobjs) hsize
  exact hbin

/-- Every hit of the message is filed. -/
theorem exists_tpuHit_mem {m : WellFormed} {before rest : List Obj} {o : Obj} (s : Scan)
    (hobjs : m.objs = before.reverse ++ o :: rest) (ho : o.isHit = true) :
    ∃ b h, Insert.tpuHit b (WellFormed.size before) h ∈ s.log m.toInputs := by
  have hr : (⟨lastBin m.currentCounter before, WellFormed.size before,
      referenceFields m.header s.pmtIdMap before o⟩ : ReferenceHit) ∈
      (s.log m.toInputs).filterMap Insert.reduced := by
    rw [log_eq_referenceDecode]
    exact mem_referenceDecode.mpr ⟨before, o, rest.reverse, by simp [hobjs], ho, rfl⟩
  obtain ⟨i, hi, hred⟩ := List.mem_filterMap.mp hr
  cases i with
  | header | segment => exact absurd hred (by simp [Insert.reduced])
  | tpuHit b pos h =>
    obtain ⟨-, rfl, -⟩ := ReferenceHit.mk.inj (Option.some.inj hred)
    exact ⟨b, h, hi⟩

theorem exists_lastNonHit {before rest objs : List Obj} {o x : Obj} (hx : x.kind = .sync)
    (hobjs : x :: objs = before.reverse ++ o :: rest) (ho : o.isHit = true) :
    ∃ y, lastNonHit before = some y := by
  have hx' : x.isHit = false := isHit_of_kind_ne_hit (by simp [hx])
  have hmem : x ∈ before := by
    cases hrev : before.reverse with
    | nil =>
      rw [hrev] at hobjs
      obtain ⟨rfl, -⟩ := List.cons.inj hobjs
      exact absurd ho (by simp [hx'])
    | cons y ys =>
      rw [hrev] at hobjs
      obtain ⟨rfl, -⟩ := List.cons.inj hobjs
      rw [← List.mem_reverse, hrev]
      exact List.mem_cons_self
  refine Option.ne_none_iff_exists'.mp ?_
  intro hnone
  have := List.find?_eq_none.mp hnone x hmem
  simp [hx'] at this

/-- **When bin and time of every hit agree**: every hit follows a non-hit object that lies in the
    bin of the last sync. -/
theorem hitsAgree_iff (m : WellFormed) (s : Scan)
    (hsync : ∃ x objs, m.objs = x :: objs ∧ x.kind = .sync) :
    HitsAgree m s ↔ ∀ before o rest, m.objs = before.reverse ++ o :: rest → o.isHit = true →
      InStep before := by
  obtain ⟨x, objs, hobjs, hx⟩ := hsync
  constructor
  · intro h before o rest hsplit ho y hy
    obtain ⟨b, hit, hi⟩ := exists_tpuHit_mem s hsplit ho
    obtain ⟨before', _, _, hsplit', _, hsize, hbin, _⟩ := h.agree b _ hit hi
    obtain rfl := before_inj (hsplit'.symm.trans hsplit) hsize
    have hlast := toNat_bin_of_tpuHit hsplit hi
    exact (lastBin_eq_counterBin_iff m.currentCounter hy).mp (hlast.symm.trans hbin)
  · intro h
    refine ⟨s.get_run_tpuHitCollection m.toInputs, ?_⟩
    intro b pos hit hi
    obtain ⟨before, o, rest, hsplit, ho, hsize, hbin, hfields⟩ := exists_of_tpuHit_mem hi
    obtain ⟨y, hy⟩ := exists_lastNonHit hx (hobjs.symm.trans hsplit) ho
    have hagree : b.toNat = counterBin m.currentCounter (syncCounter before) :=
      hbin.trans
        ((lastBin_eq_counterBin_iff m.currentCounter hy).mpr (h before o rest hsplit ho y hy))
    have htime : hit.getTime = _ := congrArg TPUHit.Fields.time hfields
    refine ⟨before, o, rest, hsplit, ho, hsize, hagree, ?_⟩
    rw [htime, hagree, referenceFields, toNat_time_ushiftRight, counterBin]
    omega

/-- A sync and a hit: the hit is filed under the bin of its time. -/
def syncHit : WellFormed := .sample [.syncAt 0x12345678#32, .plainHit]

theorem hitsAgree_syncHit : HitsAgree syncHit Scan.new ↔
    ∀ before o rest, syncHit.objs = before.reverse ++ o :: rest → o.isHit = true → InStep before :=
  hitsAgree_iff syncHit Scan.new ⟨_, _, rfl, rfl⟩

/-- A sync of bin 0, then an error of bin 1; newest first. -/
def syncError : List Obj := [.errorAt 1024#32, .syncAt 0#32]

/-- An error object of a later bin stands between the sync and the hit. -/
def syncErrorHit : WellFormed := .sample (syncError.reverse ++ [.plainHit])

theorem not_hitsAgree_syncErrorHit : ¬ HitsAgree syncErrorHit Scan.new := by
  intro h
  have hobjs : syncErrorHit.objs = syncError.reverse ++ [.plainHit] := rfl
  obtain ⟨b, hit, hi⟩ := exists_tpuHit_mem Scan.new hobjs rfl
  obtain ⟨before, _, _, hsplit, _, hsize, hbin, _⟩ := h.agree b _ hit hi
  obtain rfl := before_inj (hsplit.symm.trans hobjs) hsize
  exact absurd ((toNat_bin_of_tpuHit hobjs hi).symm.trans hbin) (by decide)

end HkRbu
