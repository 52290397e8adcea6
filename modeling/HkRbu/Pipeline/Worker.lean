import HkRbu.Receiver.System
import HkRbu.Upload.Process

/-!
# A worker inside `ProcessDataIDOD`

The function cut into the steps that other workers can come between: its top with the card
counter, one round of the scan, the section that finds the slices, one append, and one of the
per-PMT counts. A worker has the job's variables to itself; what it reads and writes of the data
model at a step is what the data model holds then.

The buffer and its slices are only accessed with their mutexes locked, so that these steps are the
locked sections of `HkRbu.Upload.Interleaving`. The maps `card_counters` and `pmt_counters` have
atomic values, but like `pmt_id_map` they have no mutex, although `operator[]` may insert: that each
access to one of the three is one step is an assumption of the machine, and what is said of the
counters rests on it.
-/

namespace HkRbu

/-- Where a worker is in the function of its job. -/
inductive Stage where
  /-- Before the first statement. -/
  | entered
  /-- At the head of the loop over the words. -/
  | scanning
  | uploading (phase : Phase)
  /-- In the loop that merges the job's counts, with the entries it still has to visit. -/
  | merging (it : List (Σ _ : U16, U64))

/-- A worker: its job, the variables of the job, and where in the function it is. -/
structure Worker (ι : Type) where
  job : Job ι
  args : DataReceiverJobArgs
  stage : Stage

variable {ι : Type}

namespace Worker

/-- What the worker uploads. -/
def uploadJob (w : Worker ι) : UploadJob := ⟨w.args.collections, w.args.tpuHitCollection⟩

/-- The worker's variables, with the data model's `pmt_id_map` as it is now. -/
def scan (w : Worker ι) (dm : DataModel) : Scan := { w.args with pmtIdMap := dm.pmtIdMap }

/-- The next step of `ProcessDataIDOD`. At the end of the function, and where a queue is empty that
    should not be, there is none. Each access to `card_counters`, to `pmt_id_map` and to
    `pmt_counters` is taken as one atomic step, although these maps have no mutex. -/
def next (pool : TimeSlicePool) (inp : Inputs) (dm : DataModel) (w : Worker ι) :
    DataModel × Worker ι :=
  match w.stage with
  | .entered =>
    let s := (w.scan dm).start inp
    ({ dm with cardCounters := IndexMap.update dm.cardCounters s.cardId (· + 1) },
      { w with args := s.toDataReceiverJobArgs, stage := .scanning })
  | .scanning =>
    let s := w.scan dm
    if s.more inp then
      let s := s.step inp
      ({ dm with pmtIdMap := s.pmtIdMap },
        { w with args := s.toDataReceiverJobArgs, stage := .scanning })
    else (dm, { w with args := s.finish.toDataReceiverJobArgs, stage := .uploading .built })
  | .uploading .built =>
    let (a, phase) := dm.toAggregation.lookup pool w.uploadJob
    ({ dm with toAggregation := a }, { w with stage := .uploading phase })
  | .uploading (.uploading (⟨_, ws⟩ :: it) (id :: ids) tpuIt tpuIds) =>
    ({ dm with toAggregation := dm.appendRaw id ws },
      { w with stage := .uploading (.uploading it ids tpuIt tpuIds) })
  | .uploading (.uploading [] ids (⟨_, hits⟩ :: tpuIt) (id :: tpuIds)) =>
    ({ dm with toAggregation := dm.appendReduced id hits },
      { w with stage := .uploading (.uploading [] ids tpuIt tpuIds) })
  | .uploading (.uploading [] _ [] _) =>
    let args := { w.args with collections := ∅, tpuHitCollection := ∅ }
    (dm, { w with args := args, stage := .merging w.args.pmtCounters.entries })
  | .merging (⟨p, n⟩ :: it) =>
    ({ dm with pmtCounters := IndexMap.update dm.pmtCounters p (· + n) },
      { w with stage := .merging it })
  | .uploading _ | .merging [] => (dm, w)

/-- Whether the function is about to return `true`: that of an IDOD job at its end, that of an MPMT
    job at once. -/
def atEnd (w : Worker ι) : Bool :=
  match w.job.func, w.stage with
  | some .idod, .merging [] => true
  | some .idod, _ => false
  | _, _ => true

end Worker

/-! ## What the steps write -/

/-- Something a step adds to the data model. -/
inductive Item where
  | card (c : U16)
  /-- Slices for the bins of a job. -/
  | bins (bs : List U64)
  | raw (b : U64) (ws : List U32)
  | reduced (b : U64) (hits : List TPUHit)
  | count (p : U16) (n : U64)

/-- The data model as the tools after this one see it: whatever slices hold it. -/
@[ext] structure View where
  bins : Set U64
  raw : U64 → List U32
  reduced : U64 → List TPUHit
  pmt : U16 → U64
  card : U16 → U64

/-- The view of a data model. -/
def DataModel.view (dm : DataModel) : View where
  bins := {b | b ∈ dm.aggrigationBuffer}
  raw := dm.contents TimeSlice.rawIdod
  reduced := dm.contents TimeSlice.reducedHits
  pmt := IndexMap.get dm.pmtCounters
  card := IndexMap.get dm.cardCounters

/-- What an item changes. -/
def Item.apply (v : View) : Item → View
  | card c => { v with card := Function.update v.card c (v.card c + 1) }
  | bins bs => { v with bins := {b | b ∈ bs} ∪ v.bins }
  | raw b ws => { v with raw := Function.update v.raw b (v.raw b ++ ws) }
  | reduced b hits => { v with reduced := Function.update v.reduced b (v.reduced b ++ hits) }
  | count p n => { v with pmt := Function.update v.pmt p (v.pmt p + n) }

/-- What the next step writes. -/
def Worker.writes (inp : Inputs) (w : Worker ι) : List Item :=
  match w.stage with
  | .entered => [.card (DAQHeader.overlay inp.header).getCardID]
  | .uploading .built => [.bins w.uploadJob.bins]
  | .uploading (.uploading (⟨b, ws⟩ :: _) (_ :: _) _ _) => [.raw b ws]
  | .uploading (.uploading [] _ (⟨b, hits⟩ :: _) (_ :: _)) => [.reduced b hits]
  | .merging (⟨p, n⟩ :: _) => [.count p n]
  | .scanning | .uploading _ | .merging [] => []

namespace Worker

/-- The queues of a worker hold the slices of the bins it still has to visit. -/
def Aligned (dm : DataModel) (w : Worker ι) : Prop :=
  ∀ phase, w.stage = .uploading phase → phase.Aligned dm.toAggregation

theorem atEnd_iff {w : Worker ι} (h : w.job.func = some .idod) :
    w.atEnd = true ↔ w.stage = .merging [] := by
  unfold atEnd
  rw [h]
  constructor
  · intro hend
    split at hend
    · assumption
    · exact absurd hend (by simp)
    · rename_i hne _
      exact absurd rfl hne
  · intro hstage
    rw [hstage]

theorem next_job (pool : TimeSlicePool) (inp : Inputs) (dm : DataModel) (w : Worker ι) :
    (w.next pool inp dm).2.job = w.job := by
  unfold next
  split
  case h_2 =>
    cases hmore : (w.scan dm).more inp <;> simp [hmore]
  all_goals rfl

/-! ## The step -/

/-- A step of a worker: what it writes, and what the data model and the worker are afterwards. -/
inductive Advances (pool : TimeSlicePool) (inp : Inputs) (dm : DataModel) (w : Worker ι) :
    List Item → DataModel → Worker ι → Prop where
  | enter (at_ : w.stage = .entered) :
      Advances pool inp dm w [.card (DAQHeader.overlay inp.header).getCardID]
        { dm with cardCounters :=
            IndexMap.update dm.cardCounters (DAQHeader.overlay inp.header).getCardID (· + 1) }
        { w with args := ((w.scan dm).start inp).toDataReceiverJobArgs, stage := .scanning }
  | round (at_ : w.stage = .scanning) (more : (w.scan dm).more inp = true) :
      Advances pool inp dm w [] { dm with pmtIdMap := ((w.scan dm).step inp).pmtIdMap }
        { w with args := ((w.scan dm).step inp).toDataReceiverJobArgs, stage := .scanning }
  | leave (at_ : w.stage = .scanning) (exit : (w.scan dm).more inp = false) :
      Advances pool inp dm w [] dm
        { w with
          args := (w.scan dm).finish.toDataReceiverJobArgs
          stage := .uploading .built }
  | lookup (at_ : w.stage = .uploading .built) :
      Advances pool inp dm w [.bins w.uploadJob.bins]
        { dm with toAggregation := (dm.toAggregation.lookup pool w.uploadJob).1 }
        { w with stage := .uploading (dm.toAggregation.lookup pool w.uploadJob).2 }
  | raw {b : U64} {ws : List U32} {it : List (Σ _ : U64, List U32)} {id : SliceId}
      {ids : List SliceId} {tpuIt : List (Σ _ : U64, List TPUHit)} {tpuIds : List SliceId}
      (at_ : w.stage = .uploading (.uploading (⟨b, ws⟩ :: it) (id :: ids) tpuIt tpuIds)) :
      Advances pool inp dm w [.raw b ws] { dm with toAggregation := dm.appendRaw id ws }
        { w with stage := .uploading (.uploading it ids tpuIt tpuIds) }
  | reduced {b : U64} {hits : List TPUHit} {ids : List SliceId}
      {tpuIt : List (Σ _ : U64, List TPUHit)} {id : SliceId} {tpuIds : List SliceId}
      (at_ : w.stage = .uploading (.uploading [] ids (⟨b, hits⟩ :: tpuIt) (id :: tpuIds))) :
      Advances pool inp dm w [.reduced b hits]
        { dm with toAggregation := dm.appendReduced id hits }
        { w with stage := .uploading (.uploading [] ids tpuIt tpuIds) }
  | clear {ids tpuIds : List SliceId}
      (at_ : w.stage = .uploading (.uploading [] ids [] tpuIds)) :
      Advances pool inp dm w [] dm
        { w with
          args := { w.args with collections := ∅, tpuHitCollection := ∅ }
          stage := .merging w.args.pmtCounters.entries }
  | count {p : U16} {n : U64} {it : List (Σ _ : U16, U64)}
      (at_ : w.stage = .merging (⟨p, n⟩ :: it)) :
      Advances pool inp dm w [.count p n]
        { dm with pmtCounters := IndexMap.update dm.pmtCounters p (· + n) }
        { w with stage := .merging it }
  | done (at_ : w.stage = .merging []) : Advances pool inp dm w [] dm w

variable {pool : TimeSlicePool} {inp : Inputs} {dm dm' : DataModel} {w w' : Worker ι}
  {written : List Item}

/-- **Inversion of the step**: while the queues are aligned, no other thing can happen. -/
theorem next_advances (pool : TimeSlicePool) (inp : Inputs) (h : w.Aligned dm) :
    Advances pool inp dm w (w.writes inp) (w.next pool inp dm).1 (w.next pool inp dm).2 := by
  unfold next writes
  cases hstage : w.stage with
  | entered => exact .enter hstage
  | scanning =>
    cases hmore : (w.scan dm).more inp with
    | true =>
      simp only [hmore, if_true]
      exact .round hstage hmore
    | false =>
      simp only [hmore, Bool.false_eq_true, if_false]
      exact .leave hstage hmore
  | merging it =>
    cases it with
    | nil => exact .done hstage
    | cons e it => exact .count hstage
  | uploading phase =>
    have hal := h phase hstage
    cases phase with
    | built => exact .lookup hstage
    | uploading it ids tpuIt tpuIds =>
      obtain ⟨hraw, hreduced⟩ := hal
      cases hraw with
      | cons _ _ => exact .raw hstage
      | nil =>
        cases hreduced with
        | cons _ _ => exact .reduced hstage
        | nil => exact .clear hstage

end Worker
end HkRbu
