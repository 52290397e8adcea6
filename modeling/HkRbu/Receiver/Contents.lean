import HkRbu.Receiver.Delivery

/-!
# What the vectors of the jobs hold

The vector of a pending job holds the three parts of its message from the moment the job is
enqueued until a worker has finished it: nobody else writes to it, because nobody else has it. So a
worker may read the parts whenever it likes, and `messages->at(1)` and `messages->at(2)` are in
range.
-/

namespace HkRbu

variable {ι : Type}

/-- The header and the data part of the message an iteration makes a job of. -/
def Iteration.message (it : Iteration) : Option (Buffer × Buffer) :=
  match it.ready, it.recvs, it.sendIdentity, it.sendReply with
  | true, some ⟨_, true⟩ :: some ⟨header, true⟩ :: some ⟨data, false⟩ :: _, true, true =>
    some (header, data)
  | _, _, _, _ => none

theorem Iteration.message_of_accepted {it : Iteration} {identity header data : Buffer}
    (h : it.Accepted identity header data) (hready : it.ready = true) :
    it.message = some (header, data) := by
  obtain ⟨⟨rest, hrest⟩, hidentity, hreply⟩ := h
  rw [message, ← hrest, hready, hidentity, hreply]
  rfl

theorem Iteration.accepted_of_message {it : Iteration} {header data : Buffer}
    (h : it.message = some (header, data)) :
    it.ready = true ∧ ∃ identity, it.Accepted identity header data := by
  unfold message at h
  split at h
  · rename_i identity header' data' rest hready hrecvs hidentity hreply
    obtain ⟨rfl, rfl⟩ := Prod.mk.inj (Option.some.inj h)
    exact ⟨hready, identity, ⟨rest, hrecvs.symm⟩, hidentity, hreply⟩
  · exact absurd h (by simp)

namespace System

variable [DecidableEq ι] {service : ι → Service} {S T : System ι} {i : ι} {it : Iteration}

theorem thread_running (service : ι → Service) (S : System ι) (i : ι) (it : Iteration) :
    (S.step service (.thread i it)).running = S.running := by
  have heffect := S.step_effect service (.thread i it)
  generalize S.step service (.thread i it) = T at heffect ⊢
  cases heffect <;> rfl

theorem returnMessages_rest (S : System ι) (data : JobPointers ι) :
    (S.returnMessages data).1.running = S.running ∧
      (S.returnMessages data).1.jobQueue = S.jobQueue := by
  unfold returnMessages
  split <;> exact ⟨rfl, rfl⟩

theorem recycle_rest (S : System ι) (job : Job ι) :
    (S.recycle job).running = S.running ∧ (S.recycle job).jobQueue = S.jobQueue := by
  unfold recycle
  split <;> exact ⟨rfl, rfl⟩

/-- A worker that finishes a job leaves the other jobs alone. -/
theorem finishJob_rest (S : System ι) (job : Job ι) (ok : Bool) :
    (S.finishJob job ok).running = S.running ∧ (S.finishJob job ok).jobQueue = S.jobQueue := by
  have hrun : (S.runJob job ok).1.running = S.running ∧
      (S.runJob job ok).1.jobQueue = S.jobQueue := by
    unfold runJob
    split
    · exact returnMessages_rest S _
    · exact ⟨rfl, rfl⟩
  obtain ⟨hrunning, hqueue⟩ := (S.runJob job ok).1.recycle_rest (S.runJob job ok).2
  exact ⟨hrunning.trans hrun.1, hqueue.trans hrun.2⟩

/-- An iteration does not stop its receiver. -/
theorem up_thread (service : ι → Service) (S : System ι) (i : ι) (it : Iteration) :
    ((S.step service (.thread i it)).receivers i).up = (S.receivers i).up := by
  cases hup : (S.receivers i).up with
  | false => simp [step, hup]
  | true =>
    cases hready : it.ready with
    | false => simp [step, thread, hready, hup]
    | true =>
      have hstep : S.step service (.thread i it) = S.thread service i it := if_pos hup
      obtain ⟨a, ht, hthread | ⟨parts, hthread⟩⟩ := thread_ready_cases service S hready
      · rw [hstep, hthread]
        simp [drop, ht.up, hup]
      · rw [hstep, hthread]
        simp [enqueue, ht.up, hup]

/-- What an iteration does to the queue: nothing, or it appends the job of its message. -/
inductive Received (service : ι → Service) (S : System ι) (i : ι) (it : Iteration)
    (T : System ι) : Prop where
  | none (quiet : (S.receivers i).up = true → it.message = none)
      (jobQueue : T.jobQueue = S.jobQueue)
  | job {v : VecId} {header data : Buffer} (up : (S.receivers i).up = true)
      (message : it.message = some (header, data))
      (jobQueue : T.jobQueue = S.jobQueue ++ [.filled (service i) i v])
      (parts : T.vectors v = [.empty, ⟨header, true⟩, ⟨data, false⟩])

theorem received (hjobs : S.JobsInv service) (hstock : S.StockInv) (i : ι) (it : Iteration) :
    Received service S i it (S.step service (.thread i it)) := by
  cases hup : (S.receivers i).up with
  | false =>
    refine .none (fun h => absurd (hup.symm.trans h) (by simp)) ?_
    simp [step, hup]
  | true =>
    cases hready : it.ready with
    | false =>
      refine .none (fun _ => ?_) ?_
      · simp [Iteration.message, hready]
      · simp [step, thread, hready]
    | true =>
      obtain ⟨hdelivered, hdropped⟩ := step_outcome hjobs hstock hup hready
      cases hmessage : it.message with
      | none =>
        refine .none (fun _ => hmessage) (hdropped ?_).jobQueue
        rintro ⟨identity, header, data, haccepted⟩
        exact absurd (hmessage.symm.trans (Iteration.message_of_accepted haccepted hready))
          (by simp)
      | some m =>
        obtain ⟨header, data⟩ := m
        obtain ⟨-, identity, haccepted⟩ := Iteration.accepted_of_message hmessage
        obtain ⟨⟨job, hjob, hdata, hout, hfunc, hfail⟩, hparts⟩ :=
          hdelivered identity header data haccepted
        obtain ⟨_, _, _, _⟩ := job
        obtain rfl : _ = _ := hdata
        obtain rfl : _ = _ := hout
        obtain rfl : _ = _ := hfunc
        obtain rfl : _ = _ := hfail
        exact .job hup hmessage hjob hparts

/-- **The vector of a pending job keeps its contents**, whatever the step. -/
theorem Change.vectors_pending {l : Label ι} (hchange : Change service S l T)
    (hS : S.VectorsInv) (hT : T.VectorsInv) {v : VecId} (hv : v ∈ S.custody .jobs)
    (hv' : v ∈ T.custody .jobs) : T.vectors v = S.vectors v := by
  have hapart : ∀ {i : ι} {w : VecId}, w ∈ (T.receivers i).messagePool → v ≠ w := by
    rintro i w hw rfl
    exact absurd (hT.exclusive.place (p := .pool i) hw hv') (by simp)
  cases hchange with
  | none | taken | killed | kept | deleted => rfl
  | @dropped i a w it up live ht =>
    exact Function.update_of_ne (hapart (i := i) (by simp [drop])) _ _
  | @returned k i w ok hs hk =>
    exact Function.update_of_ne (hapart (i := i) (by simp)) _ _
  | @enqueued i a w it parts up live ht hreusable =>
    refine Function.update_of_ne ?_ _ _
    rintro rfl
    -- The vector of a new job is itself new, or comes from a pool.
    rcases ht.made_or_held with ⟨hmade, -⟩ | hheld
    · exact absurd (hS.made .jobs v hv) (Nat.not_lt.mpr hmade.1)
    · have hpool : v ∈ S.custody (.pool i) := hheld ▸ Multiset.mem_cons_self v _
      exact absurd (hS.exclusive.place hpool hv) (by simp)

/-- Only a receiver makes jobs. -/
theorem Change.mem_jobs {l : Label ι} (hchange : Change service S l T)
    (hl : ∀ i it, l ≠ .thread i it) {v : VecId} (hv : v ∈ T.custody .jobs) :
    v ∈ S.custody .jobs := by
  cases hchange with
  | none | killed | deleted => exact hv
  | dropped | enqueued => exact absurd rfl (hl _ _)
  | taken hk => exact take_custody hk ▸ hv
  | returned ok hs hk | kept ok hs hk =>
    rw [finish_jobs hk]
    exact Multiset.mem_cons_of_mem hv

/-- **The jobs' vectors hold whole messages.** -/
def Whole (S : System ι) : Prop :=
  ∀ v ∈ S.custody .jobs, ∃ header data, S.vectors v = [.empty, ⟨header, true⟩, ⟨data, false⟩]

omit [DecidableEq ι] in
theorem Whole.start : (start : System ι).Whole :=
  fun v hv => absurd hv (Multiset.notMem_zero v)

theorem Whole.step (h : S.Whole) (hjobs : S.JobsInv service) (hvectors : S.VectorsInv)
    (hstock : S.StockInv) {l : Label ι} (hl : S.LastDropped l) : (S.step service l).Whole := by
  intro v hv
  have hchange := hjobs.change l
  by_cases hold : v ∈ S.custody .jobs
  · rw [hchange.vectors_pending hvectors (hvectors.step hjobs hl) hold hv]
    exact h v hold
  · cases l with
    | thread i it =>
      have hrunning := S.thread_running service i it
      have hreceived := received hjobs hstock i it
      generalize S.step service (.thread i it) = T at hrunning hreceived hv
      cases hreceived with
      | none _ hqueue =>
        rw [custody, pending, hqueue, hrunning] at hv
        exact absurd hv hold
      | @job w header data _ _ hqueue hparts =>
        have hjobs' : T.custody .jobs = w ::ₘ S.custody .jobs := by
          have hperm : T.pending.Perm (.filled (service i) i w :: S.pending) := by
            rw [pending, hqueue, hrunning, List.append_assoc]
            exact List.perm_middle
          exact Multiset.coe_eq_coe.mpr (hperm.filterMap Job.vector)
        rw [hjobs'] at hv
        obtain rfl := (Multiset.mem_cons.mp hv).resolve_right hold
        exact ⟨header, data, hparts⟩
    | take | finish | kill | delete =>
      exact absurd (hchange.mem_jobs (fun _ _ => by simp) hv) hold

end System
end HkRbu
