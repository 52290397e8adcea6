import HkRbu.Lib.Journal
import HkRbu.Pipeline.Items
import HkRbu.Receiver.Contents

/-!
# From the sockets to the slices

The receivers, the queue, the workers and the data model in one machine, while the receivers exist:
there is no step that deletes one. A worker that has taken a job goes through its function step by
step (`Worker.next`); it may also give up anywhere between two steps, as after an exception, and
then the fail function is run. With the workers' places forgotten, the machine is the one of
`HkRbu.Receiver.System` (`Pipeline.step_system`).
-/

namespace HkRbu

/-- `idle` is what the recycled jobs hold. Which job of a pool is handed out is up to the pool, so
    it is not kept which job holds what. -/
structure Pipeline (ι : Type) where
  receivers : ι → ReceiverArgs ι
  jobQueue : List (Job ι)
  workers : List (Worker ι)
  idle : List DataReceiverJobArgs
  vectors : VecId → List Message
  nextVec : VecId
  currentCounter : U64
  dataModel : DataModel

/-- The variables of a job when its worker lets go of it. What the source does to the two queues is
    done to the stage here. -/
def Worker.left {ι : Type} (w : Worker ι) : DataReceiverJobArgs :=
  match w.stage with
  | .uploading (.uploading _ ids _ tpuIds) =>
    { w.args with timeSlices := ids, tpuTimeSlices := tpuIds }
  | .entered | .scanning | .uploading .built | .merging _ => w.args

namespace Pipeline

variable {ι : Type}

/-- What can happen: an iteration of a receiver's thread, its stop, a worker taking the `k`-th
    queued job, the `k`-th worker making a step (`Worker.next`, each access to a map without a
    mutex being one step) or letting go of its job. -/
inductive Label (ι : Type) where
  | thread (i : ι) (it : Iteration)
  | kill (i : ι)
  | take (k : Nat) (pick : Option Nat)
  | work (k : Nat) (pool : TimeSlicePool) (uninit : Nat → TPUHit)
  | finish (k : Nat) (ok : Bool)

/-- What a run records. -/
inductive Event where
  /-- A message for the IDOD functions is in the queue. -/
  | accepted (header data : Buffer)
  | wrote (i : Item)
  /-- A worker has given up on such a message. -/
  | failed

/-- Before the first message: the receivers are new, and nothing has been allocated. -/
def start (currentCounter : U64) (dm : DataModel) : Pipeline ι where
  receivers _ := .new
  jobQueue := []
  workers := []
  idle := []
  vectors _ := []
  nextVec := 0
  currentCounter := currentCounter
  dataModel := dm

/-- The receivers, the queue and the jobs of the workers. -/
def system (P : Pipeline ι) : System ι :=
  ⟨P.receivers, P.jobQueue, P.workers.map Worker.job, P.vectors, P.nextVec⟩

/-- The pipeline with the receivers, the queue and the vectors of `S`, as a step of
    `HkRbu.Receiver.System` leaves them; workers, recycled jobs and data model stay as they are. -/
def withSystem (P : Pipeline ι) (S : System ι) : Pipeline ι :=
  { P with
    receivers := S.receivers
    jobQueue := S.jobQueue
    vectors := S.vectors
    nextVec := S.nextVec }

/-- What a job's function reads: the second and the third part of its message, and the counter. -/
def inputs (P : Pipeline ι) (job : Job ι) (uninit : Nat → TPUHit) : Inputs :=
  let parts := job.vector.elim [] P.vectors
  ⟨(parts.getD 1 .empty).data, (parts.getD 2 .empty).data, P.currentCounter, uninit⟩

variable [DecidableEq ι] (service : ι → Service)

/-- A step of the machine. What is not possible in a state leaves it as it is. -/
def step (P : Pipeline ι) : Label ι → Pipeline ι
  | .thread i it => P.withSystem (P.system.step service (.thread i it))
  | .kill i => P.withSystem (P.system.step service (.kill i))
  | .take k pick =>
    match P.jobQueue[k]? with
    | some job =>
      let (args, idle) := Pool.getNew pick .new P.idle
      { P.withSystem (P.system.step service (.take k)) with
        workers := ⟨job, args, .entered⟩ :: P.workers
        idle := idle }
    | none => P
  | .work k pool uninit =>
    match P.workers[k]? with
    | some w =>
      if w.job.func = some .idod then
        let (dm, w) := w.next pool (P.inputs w.job uninit) P.dataModel
        { P with dataModel := dm, workers := P.workers.set k w }
      else P
    | none => P
  | .finish k ok =>
    match P.workers[k]? with
    | some w =>
      if ok = false ∨ w.atEnd = true then
        { P.withSystem (P.system.step service (.finish k ok)) with
          workers := P.workers.eraseIdx k
          idle := w.left :: P.idle }
      else P
    | none => P

/-- What a step records: the message that is accepted, what is written, a job of the IDOD functions
    that is given up. -/
def record (P : Pipeline ι) : Label ι → List Event
  | .thread i it =>
    if (P.receivers i).up = true ∧ service i = .idod then
      it.message.toList.map fun m => .accepted m.1 m.2
    else []
  | .work k _ uninit =>
    match P.workers[k]? with
    | some w =>
      if w.job.func = some .idod then (w.writes (P.inputs w.job uninit)).map .wrote else []
    | none => []
  | .finish k ok =>
    match P.workers[k]? with
    | some w => if ok = false ∧ w.job.func = some .idod then [.failed] else []
    | none => []
  | .kill _ | .take .. => []

/-- The pipeline after a run from its start, and what the run has recorded. -/
def exec (currentCounter : U64) (dm : DataModel) (ls : List (Label ι)) : Pipeline ι :=
  Runs.exec (step service) (start currentCounter dm) ls

/-- What a run from the start records. -/
def journal (currentCounter : U64) (dm : DataModel) (ls : List (Label ι)) : List Event :=
  Runs.journal (step service) (record service) (start currentCounter dm) ls

variable {service} {P : Pipeline ι}

/-! ## The step -/

section Moving

variable (service) (P) {k : Nat}

theorem step_take (pick : Option Nat) (hlt : k < P.jobQueue.length) :
    P.step service (.take k pick) =
      { P with
        jobQueue := P.jobQueue.eraseIdx k
        workers := ⟨P.jobQueue[k], (Pool.getNew pick .new P.idle).1, .entered⟩ :: P.workers
        idle := (Pool.getNew pick .new P.idle).2 } := by
  simp [step, withSystem, System.step, system, hlt]

theorem step_work (pool : TimeSlicePool) (uninit : Nat → TPUHit) (hlt : k < P.workers.length)
    (hidod : P.workers[k].job.func = some .idod) :
    P.step service (.work k pool uninit) =
      { P with
        dataModel :=
          (P.workers[k].next pool (P.inputs P.workers[k].job uninit) P.dataModel).1
        workers := P.workers.set k
          (P.workers[k].next pool (P.inputs P.workers[k].job uninit) P.dataModel).2 } := by
  simp [step, hlt, hidod]

theorem step_finish {ok : Bool} (hlt : k < P.workers.length)
    (hmay : ok = false ∨ P.workers[k].atEnd = true) :
    P.step service (.finish k ok) =
      { P.withSystem
          ({ P.system with running := P.system.running.eraseIdx k }.finishJob P.workers[k].job ok)
        with
        workers := P.workers.eraseIdx k
        idle := P.workers[k].left :: P.idle } := by
  have hsystem : P.system.step service (.finish k ok) =
      { P.system with running := P.system.running.eraseIdx k }.finishJob P.workers[k].job ok := by
    simp [System.step, system, hlt]
  simp only [step, List.getElem?_eq_getElem hlt, if_pos hmay, hsystem]

theorem jobQueue_finish {ok : Bool} (hlt : k < P.workers.length)
    (hmay : ok = false ∨ P.workers[k].atEnd = true) :
    (P.step service (.finish k ok)).jobQueue = P.jobQueue := by
  rw [P.step_finish service hlt hmay]
  exact ({ P.system with
    running := P.system.running.eraseIdx k }.finishJob_rest P.workers[k].job ok).2

end Moving

/-- A step: what it records, and the pipeline after it. -/
inductive Effect (service : ι → Service) (P : Pipeline ι) :
    Label ι → List Event → Pipeline ι → Prop where
  | none (l : Label ι) : Effect service P l [] P
  | thread (i : ι) (it : Iteration) :
      Effect service P (.thread i it)
        (if (P.receivers i).up = true ∧ service i = .idod then
          it.message.toList.map fun m => .accepted m.1 m.2 else [])
        (P.withSystem (P.system.step service (.thread i it)))
  | kill (i : ι) : Effect service P (.kill i) [] (P.withSystem (P.system.step service (.kill i)))
  | take {k : Nat} {job : Job ι} (pick : Option Nat) (queued : P.jobQueue[k]? = some job) :
      Effect service P (.take k pick) []
        { P with
          jobQueue := P.jobQueue.eraseIdx k
          workers := ⟨job, (Pool.getNew pick .new P.idle).1, .entered⟩ :: P.workers
          idle := (Pool.getNew pick .new P.idle).2 }
  | work {k : Nat} {w : Worker ι} (pool : TimeSlicePool) (uninit : Nat → TPUHit)
      (running : P.workers[k]? = some w) (idod : w.job.func = some .idod) :
      Effect service P (.work k pool uninit)
        ((w.writes (P.inputs w.job uninit)).map .wrote)
        { P with
          dataModel := (w.next pool (P.inputs w.job uninit) P.dataModel).1
          workers := P.workers.set k (w.next pool (P.inputs w.job uninit) P.dataModel).2 }
  | finish {k : Nat} {w : Worker ι} {ok : Bool} (running : P.workers[k]? = some w)
      (may : ok = false ∨ w.atEnd = true) :
      Effect service P (.finish k ok)
        (if ok = false ∧ w.job.func = some .idod then [.failed] else [])
        { P.withSystem
            ({ P.system with running := P.system.running.eraseIdx k }.finishJob w.job ok) with
          workers := P.workers.eraseIdx k
          idle := w.left :: P.idle }

/-- **Inversion of the step.** -/
theorem step_effect (service : ι → Service) (P : Pipeline ι) (l : Label ι) :
    Effect service P l (P.record service l) (P.step service l) := by
  cases l with
  | thread i it => exact .thread i it
  | kill i => exact .kill i
  | take k pick =>
    cases hk : P.jobQueue[k]? with
    | none =>
      simp only [record, step, hk]
      exact .none _
    | some job =>
      obtain ⟨hlt, rfl⟩ := List.getElem?_eq_some_iff.mp hk
      rw [P.step_take service pick hlt]
      exact .take pick hk
  | work k pool uninit =>
    cases hk : P.workers[k]? with
    | none =>
      simp only [record, step, hk]
      exact .none _
    | some w =>
      simp only [record, step, hk]
      split_ifs with hidod
      · exact .work pool uninit hk hidod
      · exact .none _
  | finish k ok =>
    cases hk : P.workers[k]? with
    | none =>
      simp only [record, step, hk]
      exact .none _
    | some w =>
      by_cases hmay : ok = false ∨ w.atEnd = true
      · obtain ⟨hlt, rfl⟩ := List.getElem?_eq_some_iff.mp hk
        rw [P.step_finish service hlt hmay]
        simp only [record, hk]
        exact .finish hk hmay
      · simp only [record, step, hk, if_neg hmay]
        rw [if_neg fun h => hmay (Or.inl h.1)]
        exact .none _

/-! ## The receivers in it -/

omit [DecidableEq ι] in
/-- If the workers have the same jobs, the machine of the receivers is `S` again. -/
theorem system_withSystem (P : Pipeline ι) {S : System ι} (h : S.running = P.system.running) :
    (P.withSystem S).system = S := by
  obtain ⟨_, _, running, _, _⟩ := S
  obtain rfl : running = P.system.running := h
  rfl

/-- **A step of the pipeline is one of the receivers, or none.** No receiver is deleted. -/
theorem step_system (service : ι → Service) (P : Pipeline ι) (l : Label ι) :
    (P.step service l).system = P.system ∨
      ∃ l', (∀ i, l' ≠ .delete i) ∧ (P.step service l).system = P.system.step service l' := by
  have heffect := P.step_effect service l
  generalize P.record service l = es, P.step service l = P' at heffect
  cases heffect with
  | none => exact Or.inl rfl
  | thread i it =>
    refine Or.inr ⟨.thread i it, fun _ => by simp, ?_⟩
    exact P.system_withSystem (P.system.thread_running service i it)
  | kill i => exact Or.inr ⟨.kill i, fun _ => by simp, rfl⟩
  | @take k job pick hk =>
    refine Or.inr ⟨.take k, fun _ => by simp, ?_⟩
    simp [System.step, system, hk]
  | @work k w pool uninit hk hidod =>
    obtain ⟨hlt, rfl⟩ := List.getElem?_eq_some_iff.mp hk
    refine Or.inl (congrArg (fun jobs => System.mk _ _ jobs _ _) ?_)
    have hlt' : k < (P.workers.map Worker.job).length := by simpa using hlt
    rw [List.map_set, Worker.next_job, ← List.getElem_map Worker.job (h := hlt'),
      List.set_getElem_self]
  | @finish k w ok hk hmay =>
    refine Or.inr ⟨.finish k ok, fun _ => by simp, ?_⟩
    have hstep : P.system.step service (.finish k ok) =
        { P.system with running := P.system.running.eraseIdx k }.finishJob w.job ok := by
      simp [System.step, system, hk]
    have hrunning := ({ P.system with
      running := P.system.running.eraseIdx k }.finishJob_rest w.job ok).1
    rw [hstep]
    generalize System.finishJob _ w.job ok = S at hrunning
    obtain ⟨_, _, running, _, _⟩ := S
    obtain rfl : running = (P.workers.map Worker.job).eraseIdx k := hrunning
    rw [List.eraseIdx_map]
    rfl

end Pipeline
end HkRbu
