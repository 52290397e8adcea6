import HkRbu.Receiver.System

/-!
# What the steps do

One lemma for each function of the receivers and the workers. A job in the queue is always a
`filled` one, because a job in a receiver's pool has kept the pointers it was given when it was
new (`Reusable`); so what a worker does with a job depends only on its service, its receiver and
its vector. An iteration of `Thread` either has no input, or takes a vector and drops it, or takes
a vector and enqueues it (`thread_cases`).
-/

namespace HkRbu

variable {ι : Type}

/-- The job `Thread` makes for the vector `v` of receiver `i`. -/
def Job.filled (service : Service) (i : ι) (v : VecId) : Job ι where
  data := some ⟨true, some v, some i⟩
  outPool := some i
  func := some service
  failFunc := some service

/-- What a job in the pool of receiver `i` has kept. -/
structure Job.Reusable (i : ι) (job : Job ι) : Prop where
  data : ∃ messages, job.data = some ⟨true, messages, some i⟩
  outPool : job.outPool = some i

theorem Job.fill_new (service : Service) (i : ι) (v : VecId) :
    Job.new.fill service i v = .filled service i v := rfl

theorem Job.Reusable.fill {i : ι} {job : Job ι} (h : job.Reusable i) (service : Service)
    (v : VecId) : job.fill service i v = .filled service i v := by
  obtain ⟨data, outPool, func, failFunc⟩ := job
  obtain ⟨⟨messages, rfl⟩, rfl⟩ := h
  rfl

theorem Job.reusable_filled (service : Service) (i : ι) (v : VecId) :
    (Job.filled service i v).Reusable i := ⟨⟨some v, rfl⟩, rfl⟩

theorem Job.fill_getNew (service : Service) (i : ι) (v : VecId) (pick : Option Nat)
    {jobPool : List (Job ι)} (h : ∀ job ∈ jobPool, job.Reusable i) :
    (Pool.getNew pick .new jobPool).1.fill service i v = .filled service i v ∧
      ∀ job ∈ (Pool.getNew pick .new jobPool).2, job.Reusable i := by
  obtain he | ⟨job, rest, he, hperm⟩ := Pool.getNew_cases pick Job.new jobPool
  · rw [he]
    exact ⟨Job.fill_new service i v, h⟩
  · rw [he]
    have hjob := h job (hperm.mem_iff.mpr List.mem_cons_self)
    refine ⟨hjob.fill service v, ?_⟩
    intro x hx
    exact h x (hperm.mem_iff.mpr (List.mem_cons_of_mem job hx))

/-! ## Taking a vector -/

/-- `a` is what the arguments of receiver `i` have become when `v` has been taken from the pool. -/
structure System.Taken (S : System ι) (i : ι) (a : ReceiverArgs ι) (v : VecId) : Prop where
  source : (v = S.nextVec ∧ a.messagePool = (S.receivers i).messagePool) ∨
    (S.receivers i).messagePool.Perm (v :: a.messagePool)
  messages : a.messages = some v
  jobPool : a.jobPool = (S.receivers i).jobPool
  tmpJob : a.tmpJob = (S.receivers i).tmpJob
  tmpData : a.tmpData = (S.receivers i).tmpData
  up : a.up = (S.receivers i).up
  deleted : a.deleted = (S.receivers i).deleted

theorem System.taken_getNew (S : System ι) (i : ι) (pick : Option Nat) :
    S.Taken i { S.receivers i with
      messagePool := (Pool.getNew pick S.nextVec (S.receivers i).messagePool).2
      messages := some (Pool.getNew pick S.nextVec (S.receivers i).messagePool).1 }
      (Pool.getNew pick S.nextVec (S.receivers i).messagePool).1 := by
  refine ⟨?_, rfl, rfl, rfl, rfl, rfl, rfl⟩
  obtain he | ⟨v, rest, he, hperm⟩ :=
    Pool.getNew_cases pick S.nextVec (S.receivers i).messagePool
  · rw [he]
    exact Or.inl ⟨rfl, rfl⟩
  · rw [he]
    exact Or.inr hperm

theorem System.Taken.sendReply {S : System ι} {i : ι} {a : ReceiverArgs ι} {v : VecId}
    (h : S.Taken i a v) (identity header : Buffer) (it : Iteration) :
    S.Taken i (a.sendReply identity header it) v := by
  obtain ⟨hsource, hmessages, hjobPool, htmpJob, htmpData, hup, hdeleted⟩ := h
  unfold ReceiverArgs.sendReply
  cases it.sendIdentity with
  | false => exact ⟨hsource, hmessages, hjobPool, htmpJob, htmpData, hup, hdeleted⟩
  | true =>
    cases it.sendReply with
    | false => exact ⟨hsource, hmessages, hjobPool, htmpJob, htmpData, hup, hdeleted⟩
    | true => exact ⟨hsource, hmessages, hjobPool, htmpJob, htmpData, hup, hdeleted⟩

namespace System

variable [DecidableEq ι] {service : ι → Service}

theorem deliver_cases {S₀ : System ι} (S : System ι) {i : ι} {a : ReceiverArgs ι} {v : VecId}
    (ht : S₀.Taken i a v) (it : Iteration) :
    ∃ a', S₀.Taken i a' v ∧ (S.deliver service i a v it = S.drop i a' v ∨
      ∃ parts, S.deliver service i a v it = S.enqueue service i a' v parts it.jobPick) := by
  unfold deliver
  split
  rename_i parts returnCheck _
  have hsent := ht.sendReply (parts.getD 0 .empty).data (parts.getD 1 .empty).data it
  split_ifs with hbad hfail
  · exact ⟨a, ht, Or.inl rfl⟩
  · exact ⟨_, hsent, Or.inl rfl⟩
  · exact ⟨_, hsent, Or.inr ⟨_, rfl⟩⟩

/-- The vector an iteration of receiver `i` takes, and the pool without it. -/
def takenBy (S : System ι) (i : ι) (it : Iteration) : VecId × List VecId :=
  Pool.getNew it.vecPick S.nextVec (S.receivers i).messagePool

/-- An iteration with input: a vector is taken, and what is received into it is delivered. -/
theorem thread_ready (service : ι → Service) (S : System ι) {i : ι} {it : Iteration}
    (hready : it.ready = true) :
    S.thread service i it = (S.made (S.takenBy i it).1).deliver service i
      { S.receivers i with
        messagePool := (S.takenBy i it).2
        messages := some (S.takenBy i it).1 } (S.takenBy i it).1 it := if_pos hready

/-- **The cases of an iteration** with input: a message dropped, a message enqueued. -/
theorem thread_ready_cases (service : ι → Service) (S : System ι) {i : ι} {it : Iteration}
    (hready : it.ready = true) :
    ∃ a, S.Taken i a (S.takenBy i it).1 ∧
      (S.thread service i it = (S.made (S.takenBy i it).1).drop i a (S.takenBy i it).1 ∨
        ∃ parts, S.thread service i it =
          (S.made (S.takenBy i it).1).enqueue service i a (S.takenBy i it).1 parts it.jobPick) := by
  rw [thread_ready service S hready]
  exact deliver_cases (S.made _) (taken_getNew S i it.vecPick) it

/-- The cases of an iteration, with input or without. -/
theorem thread_cases (service : ι → Service) (S : System ι) (i : ι) (it : Iteration) :
    S.thread service i it = S ∨ ∃ a v, S.Taken i a v ∧
      (S.thread service i it = (S.made v).drop i a v ∨
        ∃ parts, S.thread service i it = (S.made v).enqueue service i a v parts it.jobPick) := by
  cases hready : it.ready with
  | false =>
    left
    simp [thread, hready]
  | true =>
    obtain ⟨a, ha, h⟩ := thread_ready_cases service S hready
    exact Or.inr ⟨a, _, ha, h⟩

/-! ## Workers and destructors -/

/-- A worker returns the vector of an IDOD job, whether the job succeeds or fails, and the job. -/
theorem finish_idod (S : System ι) (i : ι) (v : VecId) (ok : Bool) :
    S.finishJob (.filled .idod i v) ok =
      { S with
        receivers := Function.update S.receivers i { S.receivers i with
          messagePool := v :: (S.receivers i).messagePool
          jobPool := ⟨some ⟨true, none, some i⟩, some i, some .idod, some .idod⟩ ::
            (S.receivers i).jobPool }
        vectors := Function.update S.vectors v [] } := by
  cases ok <;> simp [finishJob, runJob, recycle, returnMessages, Job.filled]

/-- Of an MPMT job the worker only returns the job. -/
theorem finish_mpmt (S : System ι) (i : ι) (v : VecId) (ok : Bool) :
    S.finishJob (.filled .mpmt i v) ok =
      { S with
        receivers := Function.update S.receivers i { S.receivers i with
          jobPool := .filled .mpmt i v :: (S.receivers i).jobPool } } := by
  cases ok <;> simp [finishJob, runJob, recycle, Job.filled]

theorem destroy_eq (S : System ι) {i : ι} (htmpJob : (S.receivers i).tmpJob = none)
    (htmpData : (S.receivers i).tmpData = none) :
    S.destroy i =
      { S with
        receivers := Function.update S.receivers i { S.receivers i with
          messagePool := (S.receivers i).messages.toList ++ (S.receivers i).messagePool
          deleted := true } } := by
  simp [destroy, htmpJob, htmpData]

/-! ## The step -/

/-- All that a step can do, with what makes it possible. -/
inductive Effect (service : ι → Service) (S : System ι) : Label ι → System ι → Prop where
  | none (l : Label ι) : Effect service S l S
  | dropped {i : ι} {a : ReceiverArgs ι} {v : VecId} (it : Iteration)
      (up : (S.receivers i).up = true) (taken : S.Taken i a v) :
      Effect service S (.thread i it) ((S.made v).drop i a v)
  | enqueued {i : ι} {a : ReceiverArgs ι} {v : VecId} (it : Iteration) (parts : List Message)
      (up : (S.receivers i).up = true) (taken : S.Taken i a v) :
      Effect service S (.thread i it) ((S.made v).enqueue service i a v parts it.jobPick)
  | taken {k : Nat} {job : Job ι} (queued : S.jobQueue[k]? = some job) :
      Effect service S (.take k)
        { S with jobQueue := S.jobQueue.eraseIdx k, running := job :: S.running }
  | finished {k : Nat} {job : Job ι} (ok : Bool) (running : S.running[k]? = some job) :
      Effect service S (.finish k ok)
        ({ S with running := S.running.eraseIdx k }.finishJob job ok)
  | killed (i : ι) :
      Effect service S (.kill i)
        { S with receivers := Function.update S.receivers i { S.receivers i with up := false } }
  | deleted {i : ι} (down : (S.receivers i).up = false)
      (exists_ : (S.receivers i).deleted = false) : Effect service S (.delete i) (S.destroy i)

/-- **Inversion of the step.** -/
theorem step_effect (service : ι → Service) (S : System ι) (l : Label ι) :
    Effect service S l (S.step service l) := by
  cases l with
  | thread i it =>
    cases hup : (S.receivers i).up with
    | false =>
      have hstep : S.step service (.thread i it) = S := by simp [step, hup]
      rw [hstep]
      exact .none _
    | true =>
      have hstep : S.step service (.thread i it) = S.thread service i it := by simp [step, hup]
      rw [hstep]
      obtain he | ⟨a, v, ht, he | ⟨parts, he⟩⟩ := thread_cases service S i it
      · rw [he]
        exact .none _
      · rw [he]
        exact .dropped it hup ht
      · rw [he]
        exact .enqueued it parts hup ht
  | take k =>
    cases hk : S.jobQueue[k]? with
    | none =>
      have hstep : S.step service (.take k) = S := by simp [step, hk]
      rw [hstep]
      exact .none _
    | some job =>
      simp only [step, hk]
      exact .taken hk
  | finish k ok =>
    cases hk : S.running[k]? with
    | none =>
      have hstep : S.step service (.finish k ok) = S := by simp [step, hk]
      rw [hstep]
      exact .none _
    | some job =>
      simp only [step, hk]
      exact .finished ok hk
  | kill i => exact .killed i
  | delete i =>
    by_cases hgone : (S.receivers i).up = true ∨ (S.receivers i).deleted = true
    · rw [show S.step service (.delete i) = S from if_pos hgone]
      exact .none _
    · rw [show S.step service (.delete i) = S.destroy i from if_neg hgone]
      simp only [not_or, Bool.not_eq_true] at hgone
      exact .deleted hgone.1 hgone.2

end System
end HkRbu
