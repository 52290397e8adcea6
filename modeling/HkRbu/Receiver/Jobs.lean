import HkRbu.Receiver.Steps

/-!
# The jobs

Whatever happens, a pending job is one that `Thread` has just filled in, and a job in a receiver's
pool has kept its pointers to that receiver. It does not matter for this which vectors the jobs
point to, nor whether the receivers still exist. With the jobs in order, a step can do only what
`Change` lists, and the other invariants of the receivers are proved from that.
-/

namespace HkRbu

variable {ι : Type}

/-- What holds of the arguments of receiver `i` between two iterations. -/
structure ReceiverArgs.Inv (i : ι) (a : ReceiverArgs ι) : Prop where
  jobPool : ∀ job ∈ a.jobPool, job.Reusable i
  tmpJob : a.tmpJob = none
  tmpData : a.tmpData = none
  up : a.up = true → a.deleted = false

namespace System

/-- The jobs that are queued or being run. -/
def pending (S : System ι) : List (Job ι) := S.jobQueue ++ S.running

/-- **The invariant of the jobs.** -/
structure JobsInv (service : ι → Service) (S : System ι) : Prop where
  receivers : ∀ i, (S.receivers i).Inv i
  pending : ∀ job ∈ S.pending, ∃ i v, job = .filled (service i) i v

theorem JobsInv.start (service : ι → Service) : JobsInv service (start : System ι) where
  receivers _ := ⟨fun _ hjob => absurd hjob List.not_mem_nil, rfl, rfl, fun _ => rfl⟩
  pending _ hjob := absurd hjob List.not_mem_nil

variable {service : ι → Service} {S : System ι} {i : ι} {a : ReceiverArgs ι} {v : VecId}

theorem Taken.inv (ht : S.Taken i a v) (h : (S.receivers i).Inv i) : a.Inv i where
  jobPool := ht.jobPool ▸ h.jobPool
  tmpJob := ht.tmpJob.trans h.tmpJob
  tmpData := ht.tmpData.trans h.tmpData
  up := fun hup => ht.deleted.trans (h.up (ht.up.symm.trans hup))

theorem take_pending {k : Nat} {job : Job ι} (hk : S.jobQueue[k]? = some job) :
    (S.jobQueue.eraseIdx k ++ job :: S.running).Perm S.pending := by
  obtain ⟨hlt, rfl⟩ := List.getElem?_eq_some_iff.mp hk
  exact List.perm_middle.trans ((List.getElem_cons_eraseIdx_perm hlt).append_right S.running)

theorem finish_pending {k : Nat} {job : Job ι} (hk : S.running[k]? = some job) :
    S.pending.Perm (job :: { S with running := S.running.eraseIdx k }.pending) := by
  obtain ⟨hlt, rfl⟩ := List.getElem?_eq_some_iff.mp hk
  exact ((List.getElem_cons_eraseIdx_perm hlt).symm.append_left S.jobQueue).trans List.perm_middle

theorem JobsInv.rest (h : S.JobsInv service) {k : Nat} {job : Job ι}
    (hk : S.running[k]? = some job) :
    ∀ x ∈ { S with running := S.running.eraseIdx k }.pending,
      ∃ i v, x = .filled (service i) i v := by
  intro x hx
  exact h.pending x ((finish_pending hk).mem_iff.mpr (List.mem_cons_of_mem job hx))

variable [DecidableEq ι]

theorem receivers_update (h : ∀ i, (S.receivers i).Inv i) (ha : a.Inv i) (j : ι) :
    (Function.update S.receivers i a j).Inv j := by
  by_cases hj : j = i
  · subst hj
    rwa [Function.update_self]
  · rw [Function.update_of_ne hj]
    exact h j

/-- What a change to the arguments of one receiver keeps, it keeps for every receiver. -/
theorem update_eq {β : Type} {T : System ι} (f : ReceiverArgs ι → β)
    (hreceivers : T.receivers = Function.update S.receivers i a) (ha : f a = f (S.receivers i))
    (j : ι) : f (T.receivers j) = f (S.receivers j) := by
  rw [hreceivers]
  by_cases hj : j = i
  · subst hj
    rw [Function.update_self, ha]
  · rw [Function.update_of_ne hj]

theorem enqueue_eq (service : ι → Service) (S : System ι) (v : VecId)
    (h : ∀ job ∈ a.jobPool, job.Reusable i) (parts : List Message) (pick : Option Nat) :
    ∃ jobPool, (∀ job ∈ jobPool, job.Reusable i) ∧ S.enqueue service i a v parts pick =
      { S with
        receivers := Function.update S.receivers i
          { a with jobPool := jobPool, tmpJob := none, tmpData := none }
        vectors := Function.update S.vectors v parts
        jobQueue := S.jobQueue ++ [.filled (service i) i v] } := by
  obtain ⟨hfill, hrest⟩ := Job.fill_getNew (service i) i v pick h
  refine ⟨_, hrest, ?_⟩
  rw [← hfill]
  rfl

theorem enqueue_pending (service : ι → Service) (S : System ι) (v : VecId)
    (h : ∀ job ∈ a.jobPool, job.Reusable i) (parts : List Message) (pick : Option Nat) :
    (S.enqueue service i a v parts pick).pending.Perm (.filled (service i) i v :: S.pending) := by
  obtain ⟨jobPool, -, he⟩ := enqueue_eq service S v h parts pick
  rw [he, pending, pending, List.append_assoc]
  exact List.perm_middle

theorem filled_mem_enqueue (service : ι → Service) (S : System ι) (v : VecId)
    (h : ∀ job ∈ a.jobPool, job.Reusable i) (parts : List Message) (pick : Option Nat) :
    .filled (service i) i v ∈ (S.enqueue service i a v parts pick).pending :=
  (enqueue_pending service S v h parts pick).mem_iff.mpr List.mem_cons_self

/-! ## The step, when the jobs are in order -/

/-- What a step does when the jobs are in order. A worker finishes a job that `Thread` has filled
    in, of either service, and a deleted receiver gives back the vector it points to. -/
inductive Change (service : ι → Service) (S : System ι) : Label ι → System ι → Prop where
  | none (l : Label ι) : Change service S l S
  | dropped {i : ι} {a : ReceiverArgs ι} {v : VecId} (it : Iteration)
      (up : (S.receivers i).up = true) (live : (S.receivers i).deleted = false)
      (taken : S.Taken i a v) : Change service S (.thread i it) ((S.made v).drop i a v)
  | enqueued {i : ι} {a : ReceiverArgs ι} {v : VecId} (it : Iteration) (parts : List Message)
      (up : (S.receivers i).up = true) (live : (S.receivers i).deleted = false)
      (taken : S.Taken i a v) (reusable : ∀ job ∈ a.jobPool, job.Reusable i) :
      Change service S (.thread i it) ((S.made v).enqueue service i a v parts it.jobPick)
  | taken {k : Nat} {job : Job ι} (queued : S.jobQueue[k]? = some job) :
      Change service S (.take k)
        { S with jobQueue := S.jobQueue.eraseIdx k, running := job :: S.running }
  | returned {k : Nat} {i : ι} {v : VecId} (ok : Bool) (idod : service i = .idod)
      (running : S.running[k]? = some (.filled (service i) i v)) :
      Change service S (.finish k ok)
        { S with
          running := S.running.eraseIdx k
          receivers := Function.update S.receivers i { S.receivers i with
            messagePool := v :: (S.receivers i).messagePool
            jobPool := ⟨some ⟨true, Option.none, some i⟩, some i, some .idod, some .idod⟩ ::
              (S.receivers i).jobPool }
          vectors := Function.update S.vectors v [] }
  | kept {k : Nat} {i : ι} {v : VecId} (ok : Bool) (mpmt : service i = .mpmt)
      (running : S.running[k]? = some (.filled (service i) i v)) :
      Change service S (.finish k ok)
        { S with
          running := S.running.eraseIdx k
          receivers := Function.update S.receivers i { S.receivers i with
            jobPool := .filled .mpmt i v :: (S.receivers i).jobPool } }
  | killed (i : ι) :
      Change service S (.kill i)
        { S with receivers := Function.update S.receivers i { S.receivers i with up := false } }
  | deleted {i : ι} (down : (S.receivers i).up = false)
      (exists_ : (S.receivers i).deleted = false) :
      Change service S (.delete i)
        { S with
          receivers := Function.update S.receivers i { S.receivers i with
            messagePool := (S.receivers i).messages.toList ++ (S.receivers i).messagePool
            deleted := true } }

/-- **Inversion of the step, when the jobs are in order.** -/
theorem JobsInv.change (h : S.JobsInv service) (l : Label ι) :
    Change service S l (S.step service l) := by
  have heffect := S.step_effect service l
  generalize S.step service l = T at heffect ⊢
  cases heffect with
  | none => exact .none l
  | @dropped i a v it up ht => exact .dropped it up ((h.receivers i).up up) ht
  | @enqueued i a v it parts up ht =>
    exact .enqueued it parts up ((h.receivers i).up up) ht (ht.inv (h.receivers i)).jobPool
  | taken hk => exact .taken hk
  | @finished k job ok hk =>
    obtain ⟨i, v, rfl⟩ := h.pending job ((finish_pending hk).mem_iff.mpr List.mem_cons_self)
    cases hs : service i with
    | idod =>
      rw [finish_idod]
      exact .returned ok hs hk
    | mpmt =>
      rw [finish_mpmt]
      exact .kept ok hs hk
  | killed i => exact .killed i
  | @deleted i hdown hexists =>
    have ha := h.receivers i
    rw [destroy_eq S ha.tmpJob ha.tmpData]
    exact .deleted hdown hexists

/-- Only `Finalise` deletes a receiver, after its thread has been stopped. -/
theorem Change.deleted_cases {T : System ι} {l : Label ι} (hchange : Change service S l T)
    (j : ι) : (T.receivers j).deleted = (S.receivers j).deleted ∨
      l = .delete j ∧ (S.receivers j).up = false ∧ (S.receivers j).deleted = false ∧
        (T.receivers j).deleted = true := by
  cases hchange with
  | none | taken => exact Or.inl rfl
  | @dropped i a v it up live ht =>
    refine Or.inl (update_eq (i := i) ReceiverArgs.deleted rfl ?_ j)
    exact ht.deleted
  | @enqueued i a v it parts up live ht hreusable =>
    refine Or.inl (update_eq (i := i) ReceiverArgs.deleted rfl ?_ j)
    exact ht.deleted
  | @returned _ i _ _ _ _ | @kept _ i _ _ _ _ | killed i =>
    refine Or.inl (update_eq (i := i) ReceiverArgs.deleted rfl ?_ j)
    rfl
  | @deleted i hdown hexists =>
    by_cases hj : j = i
    · subst hj
      exact Or.inr ⟨rfl, hdown, hexists, by simp⟩
    · exact Or.inl (by simp [hj])

/-- **Every step keeps the invariant of the jobs.** -/
theorem JobsInv.step (h : S.JobsInv service) (l : Label ι) :
    (S.step service l).JobsInv service := by
  have hchange := h.change l
  generalize S.step service l = T at hchange ⊢
  cases hchange with
  | none => exact h
  | @dropped i a v it up live ht =>
    have ha := ht.inv (h.receivers i)
    refine ⟨receivers_update (i := i) h.receivers ?_, h.pending⟩
    exact ⟨ha.jobPool, ha.tmpJob, ha.tmpData, ha.up⟩
  | @enqueued i a v it parts up live ht hreusable =>
    have hperm := enqueue_pending service (S.made v) v hreusable parts it.jobPick
    obtain ⟨jobPool, hrest, he⟩ := enqueue_eq service (S.made v) v hreusable parts it.jobPick
    constructor
    · rw [he]
      exact receivers_update (i := i) h.receivers ⟨hrest, rfl, rfl, (ht.inv (h.receivers i)).up⟩
    · intro job hjob
      rcases List.mem_cons.mp (hperm.mem_iff.mp hjob) with rfl | hjob
      · exact ⟨i, v, rfl⟩
      · exact h.pending job hjob
  | taken hk =>
    refine ⟨h.receivers, ?_⟩
    intro x hx
    exact h.pending x ((take_pending hk).mem_iff.mp hx)
  | @returned k i v ok hs hk =>
    have ha := h.receivers i
    refine ⟨receivers_update (i := i) h.receivers ?_, h.rest hk⟩
    -- The job has lost its vector, and kept its pool.
    exact ⟨List.forall_mem_cons.mpr ⟨⟨⟨none, rfl⟩, rfl⟩, ha.jobPool⟩, ha.tmpJob, ha.tmpData, ha.up⟩
  | @kept k i v ok hs hk =>
    have ha := h.receivers i
    refine ⟨receivers_update (i := i) h.receivers ?_, h.rest hk⟩
    exact ⟨List.forall_mem_cons.mpr ⟨Job.reusable_filled .mpmt i v, ha.jobPool⟩, ha.tmpJob,
      ha.tmpData, ha.up⟩
  | killed i =>
    have ha := h.receivers i
    refine ⟨receivers_update (i := i) h.receivers ?_, h.pending⟩
    exact ⟨ha.jobPool, ha.tmpJob, ha.tmpData, fun hup => absurd hup (by simp)⟩
  | @deleted i hdown hexists =>
    have ha := h.receivers i
    refine ⟨receivers_update (i := i) h.receivers ?_, h.pending⟩
    exact ⟨ha.jobPool, ha.tmpJob, ha.tmpData, fun hup => absurd (hup.symm.trans hdown) (by simp)⟩

end System
end HkRbu
