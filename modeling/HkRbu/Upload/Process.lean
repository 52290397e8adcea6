import HkRbu.Decode.Trace
import HkRbu.Upload.Interleaving
import Mathlib.Algebra.BigOperators.Group.Finset.Piecewise

/-!
# `ProcessDataIDOD`, from the message to the counters

The whole function as one job runs it when nothing interferes: the scan, the upload, the clearing
of the job's collections, and the merge of the job's per-PMT counts into the shared ones. The
upload here is the straight-line one; `upload_run` shows that it is a run of the locked sections,
so that what holds of those holds of it.

Three tallies are kept separately: the reduced hits in the slices, the job's `pmt_counters`, and
the shared `pmt_counters`. They agree (`counters_processAll`).
-/

namespace HkRbu

/-- What `ProcessDataIDOD` reads and writes of the data model. -/
structure DataModel extends Aggregation where
  pmtIdMap : IndexMap U32 U16
  cardCounters : IndexMap U16 U64
  pmtCounters : IndexMap U16 U64

/-- Before the first message: no bin, no count, and the PMTs as they are configured. -/
def DataModel.empty (pmtIdMap : IndexMap U32 U16) : DataModel :=
  { Aggregation.empty with pmtIdMap := pmtIdMap, cardCounters := ∅, pmtCounters := ∅ }

namespace Aggregation

/-- The loop that uploads the raw words, with the queue `time_slices`. -/
def uploadRaw (a : Aggregation) : List (Σ _ : U64, List U32) → List SliceId → Aggregation
  | ⟨_, ws⟩ :: it, id :: ids => (a.appendRaw id ws).uploadRaw it ids
  | _, _ => a

/-- The loop that uploads the reduced hits, with the queue `tpu_time_slices`. -/
def uploadReduced (a : Aggregation) : List (Σ _ : U64, List TPUHit) → List SliceId → Aggregation
  | ⟨_, hits⟩ :: tpuIt, id :: tpuIds => (a.appendReduced id hits).uploadReduced tpuIt tpuIds
  | _, _ => a

/-- The upload without interference: the slices of all bins are found, then the entries are appended
    in turn. -/
def upload (pool : TimeSlicePool) (a : Aggregation) (j : UploadJob) : Aggregation :=
  let (a, timeSlices) := a.findAll pool j.collections.keys
  let (a, tpuTimeSlices) := a.findAll pool j.tpuHitCollection.keys
  (a.uploadRaw j.collections.entries timeSlices).uploadReduced j.tpuHitCollection.entries
    tpuTimeSlices

theorem length_findAll (pool : TimeSlicePool) (a : Aggregation) (bins : List U64) :
    (a.findAll pool bins).2.length = bins.length :=
  (findAll_found pool a bins).aligned.length_eq.symm

theorem update_phase (p q : Phase) : Function.update (fun _ : Unit => p) () q = fun _ => q :=
  funext fun _ => Function.update_self _ _ _

theorem uploadRaw_run (j : UploadJob) (a : Aggregation) (it : List (Σ _ : U64, List U32))
    (ids : List SliceId) (tpuIt : List (Σ _ : U64, List TPUHit)) (tpuIds : List SliceId)
    (hlen : ids.length = it.length) :
    Relation.ReflTransGen (UploadStep fun _ : Unit => j)
      ⟨a, fun _ => .uploading it ids tpuIt tpuIds⟩
      ⟨a.uploadRaw it ids, fun _ => .uploading [] [] tpuIt tpuIds⟩ := by
  induction it generalizing a ids with
  | nil =>
    obtain rfl := List.length_eq_zero_iff.mp hlen
    exact .refl
  | cons e it ih =>
    obtain ⟨id, ids, rfl⟩ := List.exists_cons_of_length_eq_add_one hlen
    refine .head (.raw () rfl) ?_
    rw [update_phase]
    exact ih (a.appendRaw id e.2) ids (by simpa using hlen)

theorem uploadReduced_run (j : UploadJob) (a : Aggregation) (tpuIt : List (Σ _ : U64, List TPUHit))
    (tpuIds : List SliceId) (hlen : tpuIds.length = tpuIt.length) :
    Relation.ReflTransGen (UploadStep fun _ : Unit => j)
      ⟨a, fun _ => .uploading [] [] tpuIt tpuIds⟩
      ⟨a.uploadReduced tpuIt tpuIds, fun _ => .uploading [] [] [] []⟩ := by
  induction tpuIt generalizing a tpuIds with
  | nil =>
    obtain rfl := List.length_eq_zero_iff.mp hlen
    exact .refl
  | cons e tpuIt ih =>
    obtain ⟨id, tpuIds, rfl⟩ := List.exists_cons_of_length_eq_add_one hlen
    refine .head (.reduced () rfl) ?_
    rw [update_phase]
    exact ih (a.appendReduced id e.2) tpuIds (by simpa using hlen)

/-- **The upload is a run of its locked sections**, to the end. -/
theorem upload_run (pool : TimeSlicePool) (a : Aggregation) (j : UploadJob) :
    Relation.ReflTransGen (UploadStep fun _ : Unit => j) (uploadStart a)
      ⟨a.upload pool j, fun _ => .uploading [] [] [] []⟩ := by
  have hraw := uploadRaw_run j (a.lookup pool j).1 j.collections.entries
    (a.findAll pool j.collections.keys).2 j.tpuHitCollection.entries
    ((a.findAll pool j.collections.keys).1.findAll pool j.tpuHitCollection.keys).2
    ((length_findAll _ _ _).trans (List.length_map _))
  have hreduced := uploadReduced_run j ((a.lookup pool j).1.uploadRaw j.collections.entries
    (a.findAll pool j.collections.keys).2) j.tpuHitCollection.entries
    ((a.findAll pool j.collections.keys).1.findAll pool j.tpuHitCollection.keys).2
    ((length_findAll _ _ _).trans (List.length_map _))
  refine (Relation.ReflTransGen.single (.lookup () pool rfl)).trans ?_
  rw [uploadStart, update_phase]
  exact hraw.trans hreduced

/-- What the upload does to the buffer, bin by bin. -/
theorem upload_spec (pool : TimeSlicePool) {a : Aggregation} (h : a.Distinct) (j : UploadJob) :
    (a.upload pool j).Distinct ∧
    (∀ b, b ∈ (a.upload pool j).aggrigationBuffer ↔ b ∈ a.aggrigationBuffer ∨ b ∈ j.bins) ∧
    ∀ b, contents TimeSlice.reducedHits (a.upload pool j) b =
      contents TimeSlice.reducedHits a b ++ IndexMap.get j.tpuHitCollection b := by
  have hinv := UploadInv.of_run h (upload_run pool a j)
  have hdone : ∀ i : Unit, (Phase.uploading [] [] [] []).Finished := fun _ => ⟨rfl, rfl⟩
  refine ⟨hinv.distinct, ?_, ?_⟩
  · intro b
    refine (hinv.mem_of_finished hdone b).trans (or_congr_right ?_)
    exact ⟨fun ⟨_, hb⟩ => hb, fun hb => ⟨(), hb⟩⟩
  · intro b
    obtain ⟨order, hlog, horder⟩ := hinv.reduced_of_finished hdone b
    refine hlog.trans (congrArg _ ?_)
    -- The one job has at most one chunk for the bin.
    have hone : order = (j.tpuHitCollection.lookup b).toList := by
      rw [Fintype.sum_unique] at horder
      have hperm := Multiset.coe_eq_coe.mp horder
      cases hl : j.tpuHitCollection.lookup b with
      | none =>
        rw [hl] at hperm
        exact List.perm_nil.mp hperm
      | some c =>
        rw [hl] at hperm
        exact List.perm_singleton.mp hperm
    rw [hone, IndexMap.get]
    cases j.tpuHitCollection.lookup b with
    | none => rfl
    | some c => exact List.append_nil c

end Aggregation

/-! ## The job's own counts -/

/-- The insertion is that of a reduced hit of PMT `p`. -/
def Insert.isHitOf (p : U16) : Insert → Bool
  | .tpuHit _ _ h => h.getPMTID = p
  | .header .. | .segment .. => false

/-- The card id and the counts at a loop head, on any data part. -/
structure Tally (inp : Inputs) (t : Logged) : Prop where
  cardId : t.scan.cardId = (DAQHeader.overlay inp.header).getCardID
  pmtCounters : ∀ p, IndexMap.get t.scan.pmtCounters p =
    BitVec.ofNat 64 (t.log.countP (Insert.isHitOf p))

theorem countP_fileInserts (s : Scan) (n : Nat) (p : U16) :
    (s.fileInserts n).countP (Insert.isHitOf p) = 0 := by
  rw [Scan.fileInserts, Scan.openInserts, Scan.flushInserts]
  split <;> split <;> rfl

theorem Tally.step {inp : Inputs} {t : Logged} (h : Tally inp t) : Tally inp (t.step inp) := by
  obtain ⟨_, hs, hi⟩ | ⟨_, hs, hi⟩ := t.scan.step_cases inp
  · constructor
    · rw [Logged.step, hs]
      exact h.cardId
    · intro p
      have hid : (t.scan.reducedHit inp).getPMTID = t.scan.pmtid := TPUHit.getPMTID_new ..
      have hcount : IndexMap.get (t.scan.hitBranch inp).pmtCounters p =
          if p = t.scan.pmtid then IndexMap.get t.scan.pmtCounters p + 1
          else IndexMap.get t.scan.pmtCounters p := IndexMap.get_update _ _ _ _
      rw [Logged.step, hs, hi, hcount, List.countP_append, List.countP_singleton, Insert.isHitOf,
        hid, h.pmtCounters p]
      by_cases hp : t.scan.pmtid = p
      · rw [if_pos hp.symm, if_pos (by simpa using hp), BitVec.ofNat_add]
        rfl
      · rw [if_neg (Ne.symm hp), if_neg (by simpa using hp), Nat.add_zero]
  · rw [Scan.arrive_eq] at hs
    constructor
    · rw [Logged.step, hs, Scan.fileObject_eq]
      exact h.cardId
    · intro p
      rw [Logged.step, hs, hi, List.countP_append, countP_fileInserts, Scan.fileObject_eq]
      exact h.pmtCounters p

/-- **The job's counts are its reduced hits**, whatever the message. -/
theorem run_tally (inp : Inputs) (s : Scan) :
    (s.run inp).cardId = (DAQHeader.overlay inp.header).getCardID ∧
    ∀ p, IndexMap.get (s.run inp).pmtCounters p =
      BitVec.ofNat 64 ((s.log inp).countP (Insert.isHitOf p)) := by
  have h := Logged.loop_invariant (s := s) (P := Tally inp) ⟨rfl, fun _ => rfl⟩
    (fun _ _ h => h.step)
  have hloop := Logged.scan_loop inp s
  constructor
  · rw [Scan.run, ← hloop]
    exact h.cardId
  · intro p
    rw [Scan.run, ← hloop, Scan.log, List.countP_append]
    exact h.pmtCounters p

theorem sum_countP_tpuAt (p : U16) (bins : Finset U64) {log : List Insert}
    (hbins : ∀ b pos h, Insert.tpuHit b pos h ∈ log → b ∈ bins) :
    ∑ b ∈ bins, (log.flatMap (Insert.tpuAt b)).countP (·.getPMTID = p) =
      log.countP (Insert.isHitOf p) := by
  induction log with
  | nil => simp
  | cons i log ih =>
    have hrest := ih fun b pos h hi => hbins b pos h (List.mem_cons_of_mem i hi)
    simp only [List.flatMap_cons, List.countP_append, Finset.sum_add_distrib, hrest,
      List.countP_cons]
    cases i with
    | header | segment => simp [Insert.tpuAt, Insert.isHitOf]
    | tpuHit b' pos h =>
      have hb' : b' ∈ bins := hbins b' pos h List.mem_cons_self
      have hone : ∑ b ∈ bins, (Insert.tpuAt b (.tpuHit b' pos h)).countP (·.getPMTID = p) =
          if h.getPMTID = p then 1 else 0 := by
        rw [Finset.sum_eq_single_of_mem b' hb' fun b _ hb => by simp [Insert.tpuAt, Ne.symm hb]]
        simp [Insert.tpuAt, List.countP_singleton]
      rw [hone, Nat.add_comm]
      simp [Insert.isHitOf]

/-! ## The whole function -/

/-- `for (it : job_counters) shared[it->first] += it->second;`. -/
def mergeCounters (shared job : IndexMap U16 U64) : IndexMap U16 U64 :=
  job.entries.foldl (fun c e => IndexMap.update c e.1 (· + e.2)) shared

theorem get_mergeCounters (shared job : IndexMap U16 U64) (p : U16) :
    IndexMap.get (mergeCounters shared job) p = IndexMap.get shared p + IndexMap.get job p := by
  obtain ⟨entries, nodup⟩ := job
  show IndexMap.get (entries.foldl _ shared) p = _ + (entries.dlookup p).getD 0
  induction entries generalizing shared with
  | nil => exact (BitVec.add_zero _).symm
  | cons e entries ih =>
    obtain ⟨k, v⟩ := e
    obtain ⟨hk, hnodup⟩ := List.nodupKeys_cons.mp nodup
    rw [List.foldl_cons, ih _ hnodup, IndexMap.get_update]
    by_cases hp : p = k
    · subst hp
      rw [if_pos rfl, List.dlookup_cons_eq, List.dlookup_eq_none.mpr hk]
      exact BitVec.add_zero _
    · rw [if_neg hp, List.dlookup_cons_ne _ _ hp]

/-- `DataReceiver::ProcessDataIDOD`, without interference; the job's data is left cleared. -/
def processDataIDOD (pool : TimeSlicePool) (inp : Inputs) (dm : DataModel)
    (job : DataReceiverJobArgs) : DataModel × DataReceiverJobArgs :=
  let s : Scan := Scan.run inp { job with pmtIdMap := dm.pmtIdMap }
  ({ dm.toAggregation.upload pool ⟨s.collections, s.tpuHitCollection⟩ with
      pmtIdMap := s.pmtIdMap
      cardCounters := IndexMap.update dm.cardCounters s.cardId (· + 1)
      pmtCounters := mergeCounters dm.pmtCounters s.pmtCounters },
    { s.toDataReceiverJobArgs with
      collections := ∅
      tpuHitCollection := ∅
      timeSlices := []
      tpuTimeSlices := [] })

/-- How many reduced hits of PMT `p` the slices hold. -/
def Aggregation.hitsOf (a : Aggregation) (p : U16) : Nat :=
  ∑ b ∈ a.aggrigationBuffer.keys.toFinset,
    (a.contents TimeSlice.reducedHits b).countP (·.getPMTID = p)

/-- The upload adds the reduced hits that the scan has filed. -/
theorem Aggregation.hitsOf_upload (pool : TimeSlicePool) {a : Aggregation} (h : a.Distinct)
    (inp : Inputs) (s : Scan) (p : U16) :
    (a.upload pool ⟨(s.run inp).collections, (s.run inp).tpuHitCollection⟩).hitsOf p =
      a.hitsOf p + (s.log inp).countP (Insert.isHitOf p) := by
  obtain ⟨-, hmem, hreduced⟩ :=
    a.upload_spec pool h ⟨(s.run inp).collections, (s.run inp).tpuHitCollection⟩
  simp only [hitsOf, hreduced, List.countP_append, Finset.sum_add_distrib]
  congr 1
  · refine (Finset.sum_subset ?_ ?_).symm
    · intro b hb
      rw [List.mem_toFinset] at hb ⊢
      exact (hmem b).mpr (Or.inl hb)
    · intro b _ hb
      have hnone : a.sliceOf b = none :=
        IndexMap.get_of_notMem fun hb' => hb (List.mem_toFinset.mpr hb')
      rw [contents, hnone]
      rfl
  · simp only [Scan.get_run_tpuHitCollection]
    refine sum_countP_tpuAt p _ ?_
    intro b pos hit hi
    have hb : b ∈ (s.run inp).tpuHitCollection := by
      rw [Scan.run_tpuHitCollection]
      exact (Insert.mem_foldl_applyTPU _ _ _).mpr (Or.inr ⟨pos, hit, hi⟩)
    exact List.mem_toFinset.mpr ((hmem b).mpr (Or.inr (List.mem_append_right _ hb)))

/-- One call of `ProcessDataIDOD`: the message and the recycled job it runs on, and the state of
    the slice pool. -/
structure Call where
  pool : TimeSlicePool
  message : Inputs
  job : DataReceiverJobArgs

/-- The card of the message. -/
def Call.card (c : Call) : U16 := (DAQHeader.overlay c.message.header).getCardID

/-- The calls one after the other. -/
def processAll (dm : DataModel) (calls : List Call) : DataModel :=
  calls.foldl (fun dm c => (processDataIDOD c.pool c.message dm c.job).1) dm

/-- The counters tell what is stored: the hits of each PMT and the messages of each card, up to the
    width of the counters. -/
structure Counted (calls : List Call) (dm : DataModel) : Prop where
  distinct : dm.Distinct
  pmtCounters : ∀ p, IndexMap.get dm.pmtCounters p = BitVec.ofNat 64 (dm.hitsOf p)
  cardCounters : ∀ c, IndexMap.get dm.cardCounters c =
    BitVec.ofNat 64 (calls.countP fun call => call.card = c)

theorem Counted.empty (ids : IndexMap U32 U16) : Counted [] (DataModel.empty ids) where
  distinct := Aggregation.distinct_empty
  pmtCounters _ := rfl
  cardCounters _ := rfl

/-- **A job keeps the tallies in step.** -/
theorem Counted.process {calls : List Call} {dm : DataModel} (h : Counted calls dm) (c : Call) :
    Counted (calls ++ [c]) (processDataIDOD c.pool c.message dm c.job).1 := by
  let s : Scan := { c.job with pmtIdMap := dm.pmtIdMap }
  obtain ⟨hcard, hpmt⟩ : (s.run c.message).cardId = c.card ∧ _ := run_tally c.message s
  refine ⟨(dm.upload_spec c.pool h.distinct _).1, ?_, ?_⟩
  · intro p
    calc IndexMap.get (mergeCounters dm.pmtCounters (s.run c.message).pmtCounters) p
        = BitVec.ofNat 64 (dm.hitsOf p) +
            BitVec.ofNat 64 ((s.log c.message).countP (Insert.isHitOf p)) := by
          rw [get_mergeCounters, h.pmtCounters p, hpmt p]
      _ = BitVec.ofNat 64 ((processDataIDOD c.pool c.message dm c.job).1.hitsOf p) := by
          rw [← BitVec.ofNat_add, ← dm.hitsOf_upload c.pool h.distinct c.message s p]
          rfl
  · intro card
    show IndexMap.get (IndexMap.update dm.cardCounters (s.run c.message).cardId (· + 1)) card = _
    rw [hcard, IndexMap.get_update, h.cardCounters card, List.countP_append, List.countP_singleton]
    by_cases hc : c.card = card
    · rw [if_pos (Eq.symm hc), if_pos (by simpa using hc), BitVec.ofNat_add]
      rfl
    · rw [if_neg (Ne.symm hc), if_neg (by simpa using hc), Nat.add_zero]

theorem counted_processAll (ids : IndexMap U32 U16) (calls : List Call) :
    Counted calls (processAll (DataModel.empty ids) calls) := by
  induction calls using List.reverseRecOn with
  | nil => exact Counted.empty ids
  | append_singleton calls c ih =>
    rw [processAll, List.foldl_append]
    exact ih.process c

/-- **The counters count.** After any jobs have run to completion, in any order, on any messages,
    `pmt_counters` is the number of reduced hits of each PMT in the slices, and `card_counters`
    the number of jobs of each card; both are 64-bit counters. -/
theorem counters_processAll (ids : IndexMap U32 U16) (calls : List Call) :
    (∀ p, (IndexMap.get (processAll (DataModel.empty ids) calls).pmtCounters p).toNat =
      (processAll (DataModel.empty ids) calls).hitsOf p % 2 ^ 64) ∧
    ∀ c, (IndexMap.get (processAll (DataModel.empty ids) calls).cardCounters c).toNat =
      (calls.countP fun call => call.card = c) % 2 ^ 64 := by
  have h := counted_processAll ids calls
  constructor
  · intro p
    rw [h.pmtCounters p, BitVec.toNat_ofNat]
  · intro c
    rw [h.cardCounters c, BitVec.toNat_ofNat]

theorem cardCounters_replicate (ids : IndexMap U32 U16) (n : Nat) (c : Call) :
    (IndexMap.get (processAll (DataModel.empty ids) (List.replicate n c)).cardCounters
      c.card).toNat = n % 2 ^ 64 := by
  rw [(counted_processAll ids _).cardCounters, List.countP_replicate, if_pos (by simp),
    BitVec.toNat_ofNat]

/-- A call for a message without objects. -/
def emptyCall : Call := ⟨.counting, (WellFormed.sample []).toInputs, .new⟩

/-- After `2 ^ 64` jobs of a card its counter is back at 0. -/
theorem cardCounters_ne_jobs :
    ¬ ∀ c, (IndexMap.get (processAll (DataModel.empty ∅)
        (List.replicate (2 ^ 64) emptyCall)).cardCounters c).toNat =
      (List.replicate (2 ^ 64) emptyCall).countP fun call => call.card = c := by
  intro h
  have hcount := (cardCounters_replicate ∅ (2 ^ 64) emptyCall).symm.trans (h emptyCall.card)
  rw [List.countP_replicate, if_pos (by simp)] at hcount
  omega

end HkRbu
