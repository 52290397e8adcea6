import HkRbu.Decode.Run

/-!
# The reference decoder

What the reduced hits of a message should be, said without a loop: one for every hit object, with
the attributes the objects before it give it. `log_eq_referenceDecode` says that the scan makes
exactly these inserts, in stream order; it never looks inside the sub-hits, because the reference
does not.
-/

namespace HkRbu

/-- The key the code looks a hit up under, from the header part and the hit's first word. -/
def pmtKey (header : Buffer) (w₀ : U32) : U32 :=
  ((DAQHeader.overlay header).getType.setWidth 32 <<< 18) |||
    (((DAQHeader.overlay header).getCardID &&& 0b111111111111#16).setWidth 32 <<< 6) ||| (w₀ >>> 24)

/-- A reduced hit of the reference: where it is filed, the word its hit starts at, and its
    fields. -/
structure ReferenceHit where
  bin : Nat
  pos : Nat
  hit : TPUHit.Fields
  deriving DecidableEq, Repr

/-- The fields of the reduced hit of the hit `o`, from the words of `o`, the last sync before it and
    the PMT of its channel. -/
def referenceFields (header : Buffer) (ids : IndexMap U32 U16) (past : List Obj) (o : Obj) :
    TPUHit.Fields where
  type := 0
  badSync := syncIsBad past
  gain := o.word₁.getLsbD 24
  charge := (o.word₁.extractLsb' 12 12).setWidth 16
  pmtID := IndexMap.get ids (pmtKey header o.word₀)
  time := (syncCounter past).extractLsb' 8 8 ++ o.word₀.extractLsb' 16 8 ++
    o.word₀.extractLsb' 0 16

/-- The reduced hits of a message, in stream order; the objects are listed newest first. -/
def referenceDecode (inp : Inputs) (ids : IndexMap U32 U16) : List Obj → List ReferenceHit
  | [] => []
  | o :: past => referenceDecode inp ids past ++
      if o.isHit then
        [⟨lastBin inp.currentCounter past, WellFormed.size past,
          referenceFields inp.header ids past o⟩]
      else []

/-- The reference hits of the bin `b`. -/
def referenceBin (inp : Inputs) (ids : IndexMap U32 U16) (past : List Obj) (b : U64) :
    List TPUHit.Fields :=
  ((referenceDecode inp ids past).filter (·.bin = b.toNat)).map (·.hit)

theorem mem_referenceDecode {inp : Inputs} {ids : IndexMap U32 U16} {past : List Obj}
    {r : ReferenceHit} :
    r ∈ referenceDecode inp ids past ↔
      ∃ before o after, past = after ++ o :: before ∧ o.isHit = true ∧
        r = ⟨lastBin inp.currentCounter before, WellFormed.size before,
          referenceFields inp.header ids before o⟩ := by
  induction past with
  | nil => simp [referenceDecode]
  | cons o past ih =>
    rw [referenceDecode, List.mem_append, ih]
    constructor
    · rintro (⟨before, o', after, rfl, ho, rfl⟩ | h)
      · exact ⟨before, o', o :: after, rfl, ho, rfl⟩
      · split at h
        · rename_i ho
          exact ⟨past, o, [], rfl, ho, List.mem_singleton.mp h⟩
        · exact absurd h List.not_mem_nil
    · rintro ⟨before, o', after, heq, ho, rfl⟩
      cases after with
      | nil =>
        obtain ⟨rfl, rfl⟩ := List.cons.inj heq
        rw [if_pos ho]
        exact Or.inr (List.mem_singleton.mpr rfl)
      | cons a after =>
        obtain ⟨rfl, rfl⟩ := List.cons.inj heq
        exact Or.inl ⟨before, o', after, rfl, ho, rfl⟩

/-! ## The scan makes the reference's inserts -/

/-- The reduced hit that is filed, with its bin and the word it was read at. -/
def Insert.reduced : Insert → Option ReferenceHit
  | .tpuHit b pos h => some ⟨b.toNat, pos, h.decode⟩
  | .header .. | .segment .. => none

/-- The shifts and masks of the time put three fields side by side. -/
theorem pack_time (t : U32) (c : U8) (f : U16) :
    (((t &&& 0b00000000000000001111111100000000#32) |||
        (c &&& 0b11111111#8).setWidth 32) <<< 16) ||| f.setWidth 32 =
      t.extractLsb' 8 8 ++ c ++ f := by
  rw [show 0b00000000000000001111111100000000#32 = BitField.mask 32 8 8 from rfl,
    show 0b11111111#8 = BitField.mask 8 0 8 from rfl]
  apply BitVec.eq_of_getLsbD_eq
  intro i hi
  simp only [BitVec.getLsbD_or, BitVec.getLsbD_shiftLeft, BitVec.getLsbD_and, BitField.getLsbD_mask,
    BitVec.getLsbD_setWidth, BitVec.getLsbD_append, BitVec.getLsbD_extractLsb']
  by_cases h16 : i < 16
  · simp [h16, hi]
  · have hf : f.getLsbD i = false := BitVec.getLsbD_of_ge f i (by omega)
    by_cases h24 : i < 24
    · simp [h16, hi, hf, show i - 16 < 8 by omega, show ¬ 8 ≤ i - 16 by omega,
        show i - 16 < 32 by omega]
    · simp [h16, hi, hf, show ¬ i - 16 < 8 by omega, show 8 ≤ i - 16 by omega,
        show i - 16 < 16 by omega, show i - 16 < 32 by omega, show i - 16 - 8 < 8 by omega,
        show 8 + (i - 16 - 8) = i - 16 by omega]

/-- **The reduced hit the code constructs has the reference's fields.** -/
theorem decode_reducedHit {m : WellFormed} {s₀ s : Scan} {past : List Obj} {o : Obj}
    (h : Inv m s₀ past s) (hr : Reads s o) :
    (s.reducedHit m.toInputs).decode = referenceFields m.header s₀.pmtIdMap past o := by
  have h0 : s.hitAt.data 0 = o.word₀ := hr.at_.1
  have h1 : s.hitAt.data 1 = o.word₁ := hr.at_.2
  have hkey : s.pmtInfo = pmtKey m.header o.word₀ := by
    rw [Scan.pmtInfo, h.daqHeader, h.cardId, hr.at_.1]
    rfl
  have htime : s.hitTime = (syncCounter past).extractLsb' 8 8 ++ o.word₀.extractLsb' 16 8 ++
      o.word₀.extractLsb' 0 16 := by
    rw [Scan.hitTime, pack_time, h.currentTime, RAWrIDODHit.getCoarse, RAWrIDODHit.getFine,
      HitWords.getCoarse_eq, HitWords.getFine_eq, h0]
  have hgain : s.hitAt.getGain = o.word₁.getLsbD 24 :=
    (HitWords.getGain_eq _).trans (by rw [h1])
  have hcharge : (s.hitAt.getCharge.extractLsb' 0 12).setWidth 16 =
      (o.word₁.extractLsb' 12 12).setWidth 16 := by
    rw [RAWrIDODHit.getCharge, HitWords.getCharge_eq, h1]
    refine congrArg (BitVec.setWidth 16) (BitVec.eq_of_getLsbD_eq ?_)
    intro i hi
    simp [hi, show i < 16 by omega]
  rw [Scan.reducedHit, TPUHit.decode_new, h.badSync, hgain, hcharge, Scan.pmtid, h.pmtIdMap, hkey,
    htime]
  rfl

theorem reduced_fileInserts (s : Scan) (n : Nat) :
    (s.fileInserts n).filterMap Insert.reduced = [] := by
  rw [Scan.fileInserts, Scan.openInserts, Scan.flushInserts]
  split <;> split <;> rfl

/-- **The reduced hits of a run are the reference's**, in stream order. -/
theorem log_eq_referenceDecode (m : WellFormed) (s : Scan) :
    (s.log m.toInputs).filterMap Insert.reduced =
      referenceDecode m.toInputs s.pmtIdMap m.objs.reverse := by
  have hstep : ∀ past o (t : Logged), Inv m s past t.scan → Reads t.scan o → t.Replays m.toInputs →
      t.log.filterMap Insert.reduced = referenceDecode m.toInputs s.pmtIdMap past →
      (t.step m.toInputs).log.filterMap Insert.reduced =
        referenceDecode m.toInputs s.pmtIdMap (o :: past) := by
    intro past o t hinv hr _ ih
    obtain ⟨ho, -, hi⟩ | ⟨ho, -, hi⟩ := hr.step_cases m.toInputs
    · rw [Logged.step, hi, List.filterMap_append, ih, referenceDecode, if_pos ho,
        ← decode_reducedHit hinv hr, ← hinv.bin, ← hinv.currentWord]
      rfl
    · rw [Logged.step, hi, List.filterMap_append, ih, reduced_fileInserts, referenceDecode,
        if_neg (by simp [ho])]
  obtain ⟨-, h⟩ := loop_induct m s (P := fun past t => t.log.filterMap Insert.reduced =
    referenceDecode m.toInputs s.pmtIdMap past) rfl hstep
  rw [Scan.log, List.filterMap_append, h]
  exact List.append_nil _

theorem decode_tpuAt (log : List Insert) (b : U64) :
    (log.flatMap (Insert.tpuAt b)).map TPUHit.decode =
      ((log.filterMap Insert.reduced).filter (·.bin = b.toNat)).map (·.hit) := by
  induction log with
  | nil => rfl
  | cons i log ih =>
    rw [List.flatMap_cons, List.map_append, ih]
    cases i with
    | header | segment => rfl
    | tpuHit b' pos h =>
      by_cases hb : b' = b
      · subst hb
        simp [Insert.tpuAt, Insert.reduced]
      · simp [Insert.tpuAt, Insert.reduced, hb, BitVec.toNat_inj]

/-- **The scan refines the reference decoder**, bin by bin. -/
theorem run_refines_reference (m : WellFormed) (s : Scan) (b : U64) :
    (IndexMap.get (s.run m.toInputs).tpuHitCollection b).map TPUHit.decode =
      referenceBin m.toInputs s.pmtIdMap m.objs.reverse b := by
  rw [Scan.get_run_tpuHitCollection, decode_tpuAt, log_eq_referenceDecode, referenceBin]

end HkRbu
