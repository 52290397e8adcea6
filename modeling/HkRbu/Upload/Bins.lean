import HkRbu.Decode.Header
import HkRbu.Upload.Process

/-!
# Which bins get a slice

`ProcessDataIDOD` looks up a slice, and makes one if there is none, for every key of the two maps
the scan has filled. Those keys are meant to be the bins of the message's non-hit objects. They are,
but for bin 0: the first non-hit object flushes the bin the scan starts in, and the flush creates
an entry. So the bins looked up are the right ones exactly for the messages with an object in
bin 0.
-/

namespace HkRbu

/-- A non-hit object among `past` is in bin `b`. -/
def isBin (currentCounter : U64) (b : U64) : List Obj → Bool
  | [] => false
  | o :: past => isBin currentCounter b past ||
      (!o.isHit && binOf currentCounter past o == b.toNat)

/-- The bins for which `ProcessDataIDOD` looks up a slice, the raw words first. -/
def lookedUp (inp : Inputs) (dm : DataModel) (job : DataReceiverJobArgs) : List U64 :=
  let s : Scan := Scan.run inp { job with pmtIdMap := dm.pmtIdMap }
  UploadJob.bins ⟨s.collections, s.tpuHitCollection⟩

/-- Slices are looked up for the bins of the non-hit objects, and made for no other. -/
structure BinsExact (pool : TimeSlicePool) (m : WellFormed) (dm : DataModel)
    (job : DataReceiverJobArgs) : Prop where
  lookedUp : ∀ b, b ∈ lookedUp m.toInputs dm job ↔ isBin m.currentCounter b m.objs.reverse = true
  added : ∀ b, b ∈ (processDataIDOD pool m.toInputs dm job).1.aggrigationBuffer →
    b ∈ dm.aggrigationBuffer ∨ isBin m.currentCounter b m.objs.reverse = true

theorem hasEntry_eq (currentCounter : U64) (b : U64) (past : List Obj) :
    hasEntry currentCounter b past =
      (isBin currentCounter b past || (b == 0#64 && anyFiled past)) := by
  induction past with
  | nil => simp [hasEntry, isBin, anyFiled]
  | cons o past ih =>
    have hany : anyFiled (o :: past) = (!o.isHit || anyFiled past) := rfl
    rw [hasEntry, isBin, hany, ih]
    cases o.isHit with
    | true => simp
    | false =>
      have hzero : (isBin currentCounter b past || (b == 0#64 && anyFiled past) || b == 0#64) =
          (isBin currentCounter b past || b == 0#64) := by
        cases b == 0#64 <;> simp
      simp only [Bool.not_false, Bool.true_and, Bool.true_or, Bool.and_true]
      rw [Bool.or_comm (binOf currentCounter past o == b.toNat), ← Bool.or_assoc, hzero,
        Bool.or_right_comm]

/-! ## The keys of the two maps -/

/-- The oldest object of `past`, if there is one, is not a hit. -/
def StartsFiled (past : List Obj) : Prop := ∀ o, past.getLast? = some o → o.isHit = false

theorem StartsFiled.of_cons {past : List Obj} {o : Obj} (h : StartsFiled (o :: past)) :
    StartsFiled past := by
  intro x hx
  cases past with
  | nil => exact absurd hx (by simp)
  | cons y past => exact h x (by rwa [List.getLast?_cons_cons])

theorem StartsFiled.anyFiled {past : List Obj} (h : StartsFiled past) (hne : past ≠ []) :
    anyFiled past = true := by
  refine List.any_eq_true.mpr ⟨past.getLast hne, List.getLast_mem hne, ?_⟩
  rw [h _ (List.getLast?_eq_some_getLast hne)]
  rfl

/-- With a hit read, something older has been filed. -/
theorem StartsFiled.anyFiled_of_hit {past : List Obj} {o : Obj} (ho : o.isHit = true)
    (h : StartsFiled (o :: past)) : HkRbu.anyFiled past = true := by
  refine h.of_cons.anyFiled ?_
  rintro rfl
  exact absurd (ho.symm.trans (h o rfl)) (by simp)

/-- The bins of reduced hits have entries in the raw collection, too. -/
structure BinsInv (m : WellFormed) (s₀ : Scan) (past : List Obj) (t : Logged) : Prop
    extends HeaderInv m s₀ past t where
  tpu : StartsFiled past →
    ∀ b, b ∈ t.scan.tpuHitCollection → hasEntry m.currentCounter b past = true

theorem BinsInv.init (m : WellFormed) (s₀ : Scan) :
    BinsInv m s₀ [] ⟨s₀.start m.toInputs, []⟩ where
  toHeaderInv := .init m s₀
  tpu _ b hb := absurd hb (AList.notMem_empty b)

theorem BinsInv.step {m : WellFormed} {s₀ : Scan} {past : List Obj} {o : Obj} {t : Logged}
    (hinv : Inv m s₀ past t.scan) (hr : Reads t.scan o) (h : BinsInv m s₀ past t) :
    BinsInv m s₀ (o :: past) (t.step m.toInputs) := by
  refine ⟨h.toHeaderInv.step hinv hr, ?_⟩
  intro hstart b hb
  have hold : hasEntry m.currentCounter b past = true := by
    obtain ⟨ho, hs, -⟩ | ⟨-, hs, -⟩ := hr.step_cases m.toInputs
    -- A hit is filed under the bin of the last object that is not a hit.
    · rw [Logged.step, hs] at hb
      rcases (IndexMap.mem_update _ _ _ _).mp hb with rfl | hb
      · exact hasEntry_lastBin m.currentCounter hinv.bin (hstart.anyFiled_of_hit ho)
      · exact h.tpu hstart.of_cons b hb
    · rw [Logged.step, hs, Scan.arrive_eq, Scan.fileObject_eq] at hb
      exact h.tpu hstart.of_cons b hb
  rw [hasEntry, hold, Bool.true_or]

theorem mem_lookedUp (m : WellFormed) (dm : DataModel) (job : DataReceiverJobArgs)
    (hstart : StartsFiled m.objs.reverse) (hne : m.objs ≠ []) (b : U64) :
    b ∈ lookedUp m.toInputs dm job ↔ hasEntry m.currentCounter b m.objs.reverse = true := by
  let s₀ : Scan := { job with pmtIdMap := dm.pmtIdMap }
  obtain ⟨hinv, hbins⟩ := loop_induct m s₀ (P := BinsInv m s₀) (BinsInv.init m s₀)
    (fun past o t hinv hr _ h => h.step hinv hr)
  rw [← Logged.scan_loop] at hinv
  have hany := hstart.anyFiled (mt List.reverse_eq_nil_iff.mp hne)
  have hcurrent : hasEntry m.currentCounter (Logged.loop m.toInputs s₀).scan.currentBin
      m.objs.reverse = true := by
    rw [hinv.currentBin]
    exact hasEntry_lastBin m.currentCounter hinv.bin hany
  have hrun : Scan.run m.toInputs s₀ = (Logged.loop m.toInputs s₀).scan.finish := by
    rw [Scan.run, Logged.scan_loop]
  show b ∈ UploadJob.bins ⟨(Scan.run m.toInputs s₀).collections,
    (Scan.run m.toInputs s₀).tpuHitCollection⟩ ↔ _
  rw [hrun, UploadJob.bins, List.mem_append, AList.mem_keys.symm, AList.mem_keys.symm]
  constructor
  · rintro (hb | hb)
    -- The words after the last flush go to the bin the loop ends in.
    · rcases (IndexMap.mem_update _ _ _ _).mp hb with rfl | hb
      · exact hcurrent
      · exact (hbins.entries b).mp hb
    · exact hbins.tpu hstart b hb
  · intro hb
    exact Or.inl ((IndexMap.mem_update _ _ _ _).mpr (Or.inr ((hbins.entries b).mpr hb)))

/-! ## The buffer after the upload -/

namespace Aggregation

theorem uploadRaw_buffer (a : Aggregation) (it : List (Σ _ : U64, List U32)) (ids : List SliceId) :
    (a.uploadRaw it ids).aggrigationBuffer = a.aggrigationBuffer := by
  induction it generalizing a ids with
  | nil => rfl
  | cons e it ih =>
    cases ids with
    | nil => rfl
    | cons id ids => exact ih (a.appendRaw id e.2) ids

theorem uploadReduced_buffer (a : Aggregation) (it : List (Σ _ : U64, List TPUHit))
    (ids : List SliceId) :
    (a.uploadReduced it ids).aggrigationBuffer = a.aggrigationBuffer := by
  induction it generalizing a ids with
  | nil => rfl
  | cons e it ih =>
    cases ids with
    | nil => rfl
    | cons id ids => exact ih (a.appendReduced id e.2) ids

/-- The upload adds the bins of the job and no others. -/
theorem mem_upload (pool : TimeSlicePool) (a : Aggregation) (j : UploadJob) (b : U64) :
    b ∈ (a.upload pool j).aggrigationBuffer ↔ b ∈ a.aggrigationBuffer ∨ b ∈ j.bins := by
  have hraw := (findAll_found pool a j.collections.keys).mem b
  have htpu := (findAll_found pool (a.findAll pool j.collections.keys).1
    j.tpuHitCollection.keys).mem b
  rw [upload, uploadReduced_buffer, uploadRaw_buffer, htpu, hraw, UploadJob.bins, List.mem_append]
  tauto

end Aggregation

/-- **Slices for the right bins**: of the messages that start with a non-hit object, exactly those
    with an object in bin 0 have slices looked up and made for the bins of their objects only. -/
theorem binsExact_iff (pool : TimeSlicePool) (m : WellFormed) (dm : DataModel)
    (job : DataReceiverJobArgs) {o : Obj} {rest : List Obj} (hobjs : m.objs = o :: rest)
    (ho : o.isHit = false) :
    BinsExact pool m dm job ↔ isBin m.currentCounter 0#64 m.objs.reverse = true := by
  have hstart : StartsFiled m.objs.reverse := by
    intro x hx
    rw [List.getLast?_reverse, hobjs] at hx
    exact Option.some.inj hx ▸ ho
  have hne : m.objs ≠ [] := by
    rw [hobjs]
    exact List.cons_ne_nil o rest
  have hlookedUp := mem_lookedUp m dm job hstart hne
  have hany := hstart.anyFiled (mt List.reverse_eq_nil_iff.mp hne)
  constructor
  · intro h
    rw [← h.lookedUp, hlookedUp, hasEntry_zero]
    exact hany
  · intro hzero
    have hsame : ∀ b, hasEntry m.currentCounter b m.objs.reverse =
        isBin m.currentCounter b m.objs.reverse := by
      intro b
      rw [hasEntry_eq]
      by_cases hb : b = 0#64
      · rw [hb, hzero, Bool.true_or]
      · rw [beq_eq_false_iff_ne.mpr hb, Bool.false_and, Bool.or_false]
    refine ⟨fun b => by rw [hlookedUp, hsame], ?_⟩
    intro b hb
    rw [← hsame, ← hlookedUp]
    exact (Aggregation.mem_upload pool dm.toAggregation _ b).mp hb

/-- A message of one sync, in bin 1. -/
def syncOfBin1 : WellFormed := .sample [.syncAt 1024#32]

/-- A message with an object in bin 0 and one in bin 1. -/
theorem binsExact_bins01 :
    BinsExact .counting (.sample [.syncAt 0#32, .syncAt 1024#32]) (.empty ∅) .new :=
  (binsExact_iff .counting (.sample [.syncAt 0#32, .syncAt 1024#32]) (.empty ∅) .new rfl
    rfl).mpr (by decide)

/-- A sync of bin 1: a slice is looked up for bin 0 as well. -/
theorem not_binsExact_syncOfBin1 : ¬ BinsExact .counting syncOfBin1 (.empty ∅) .new := by
  intro h
  have hzero : 0#64 ∈ lookedUp syncOfBin1.toInputs (.empty ∅) .new := by decide
  exact absurd ((h.lookedUp 0#64).mp hzero) (by decide)

end HkRbu
