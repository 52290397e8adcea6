import HkRbu.Pipeline.Machine

/-!
# The invariant of the pipeline

What every run keeps, whatever its workers and its receivers do: the receivers are in order, no two
bins share a slice, the queues of every worker hold the slices of its bins, the map of PMT ids
answers as at the start, and no job has a `header[0]` other than 0. A step leaves every pending job
that it is not about alone (`Inv.total_step`).
-/

namespace HkRbu
namespace Pipeline

variable {ι : Type} [DecidableEq ι]

/-! ## The invariant -/

/-- **The invariant of the pipeline**, started on the data model `dm₀`. -/
structure Inv (service : ι → Service) (currentCounter : U64) (dm₀ : DataModel)
    (P : Pipeline ι) : Prop where
  jobs : P.system.JobsInv service
  vectors : P.system.VectorsInv
  stock : P.system.StockInv
  whole : P.system.Whole
  currentCounter : P.currentCounter = currentCounter
  distinct : P.dataModel.Distinct
  aligned : ∀ w ∈ P.workers, w.Aligned P.dataModel
  ids : ∀ k, IndexMap.get P.dataModel.pmtIdMap k = IndexMap.get dm₀.pmtIdMap k
  running : ∀ w ∈ P.workers, w.args.header 0 = 0
  idle : ∀ a ∈ P.idle, a.header 0 = 0

variable {service : ι → Service} {currentCounter : U64} {dm₀ : DataModel} {P : Pipeline ι}

theorem Inv.start (service : ι → Service) (currentCounter : U64) (h₀ : dm₀.Distinct) :
    Inv service currentCounter dm₀ (start currentCounter dm₀) where
  jobs := .start service
  vectors := .start
  stock := .start
  whole := .start
  currentCounter := rfl
  distinct := h₀
  aligned _ hw := absurd hw List.not_mem_nil
  ids _ := rfl
  running _ hw := absurd hw List.not_mem_nil
  idle _ ha := absurd ha List.not_mem_nil

omit [DecidableEq ι] in
theorem header₀_left (w : Worker ι) : w.left.header 0 = w.args.header 0 := by
  unfold Worker.left
  split <;> rfl

/-- The receivers stay in order: their machine takes a step, or none. -/
theorem Inv.system_step (h : Inv service currentCounter dm₀ P) (l : Label ι) :
    (P.step service l).system.JobsInv service ∧ (P.step service l).system.VectorsInv ∧
      (P.step service l).system.StockInv ∧ (P.step service l).system.Whole := by
  rcases P.step_system service l with hs | ⟨l', hl', hs⟩
  · rw [hs]
    exact ⟨h.jobs, h.vectors, h.stock, h.whole⟩
  · have hlast : P.system.LastDropped l' := by
      cases l' with
      | delete i => exact absurd rfl (hl' i)
      | thread | take | finish | kill => trivial
    rw [hs]
    exact ⟨h.jobs.step l', h.vectors.step h.jobs hlast, h.stock.step h.jobs l',
      h.whole.step h.jobs h.vectors h.stock hlast⟩

/-- **Every step of the pipeline keeps the invariant.** -/
theorem Inv.step (h : Inv service currentCounter dm₀ P) (l : Label ι) :
    Inv service currentCounter dm₀ (P.step service l) := by
  obtain ⟨hjobs, hvectors, hstock, hwhole⟩ := h.system_step l
  have heffect := P.step_effect service l
  generalize P.record service l = es, P.step service l = P' at *
  cases heffect with
  | none | thread | kill =>
    exact ⟨hjobs, hvectors, hstock, hwhole, h.currentCounter, h.distinct, h.aligned, h.ids,
      h.running, h.idle⟩
  | @take k job pick hk =>
    have hget := Pool.getNew_cases pick DataReceiverJobArgs.new P.idle
    refine ⟨hjobs, hvectors, hstock, hwhole, h.currentCounter, h.distinct, ?_, h.ids, ?_, ?_⟩
    · refine List.forall_mem_cons.mpr ⟨Worker.aligned_of_ne fun _ => by simp, h.aligned⟩
    · refine List.forall_mem_cons.mpr ⟨?_, h.running⟩
      rcases hget with he | ⟨a, rest, he, hperm⟩
      · rw [he]
        rfl
      · rw [he]
        exact h.idle a (hperm.mem_iff.mpr List.mem_cons_self)
    · exact fun a ha => h.idle a (Pool.mem_of_mem_getNew ha)
  | @work k w pool uninit hk hidod =>
    have hw := List.mem_of_getElem? hk
    have hadv := Worker.next_advances pool (P.inputs w.job uninit) (h.aligned w hw)
    generalize w.next pool (P.inputs w.job uninit) P.dataModel = r at *
    have hset : ∀ {Q : Worker ι → Prop}, (∀ x ∈ P.workers, Q x) → Q r.2 →
        ∀ x ∈ P.workers.set k r.2, Q x := by
      intro Q hQ hr x hx
      rcases List.mem_or_eq_of_mem_set hx with hx | rfl
      · exact hQ x hx
      · exact hr
    refine ⟨hjobs, hvectors, hstock, hwhole, h.currentCounter, hadv.distinct h.distinct, ?_, ?_, ?_,
      h.idle⟩
    · exact hset (fun x hx => (h.aligned x hx).mono fun b id hb => hadv.kept hb)
        (hadv.aligned (h.aligned w hw))
    · exact fun key => (hadv.get_pmtIdMap key).trans (h.ids key)
    · exact hset h.running (hadv.header₀.trans (h.running w hw))
  | @finish k w ok hk hmay =>
    have hrest : ∀ x ∈ P.workers.eraseIdx k, x ∈ P.workers := fun x hx =>
      List.mem_of_mem_eraseIdx hx
    refine ⟨hjobs, hvectors, hstock, hwhole, h.currentCounter, h.distinct,
      fun x hx => h.aligned x (hrest x hx), h.ids, fun x hx => h.running x (hrest x hx), ?_⟩
    exact List.forall_mem_cons.mpr
      ⟨(header₀_left w).trans (h.running w (List.mem_of_getElem? hk)), h.idle⟩

/-! ## The pending jobs -/

/-- A job in the queue, as a worker that has not entered it. -/
def queued (job : Job ι) : Worker ι := ⟨job, .new, .entered⟩

/-- The pending jobs, as workers. -/
def tasks (P : Pipeline ι) : List (Worker ι) :=
  P.jobQueue.map queued ++ P.workers

/-- The message a job is about. What its hits are built over makes no difference to it. -/
def message (P : Pipeline ι) (job : Job ι) : Inputs := P.inputs job fun _ => default

/-- What the pending jobs come to, each with the message it is about. -/
def total {M : Type} [AddCommMonoid M] (f : Inputs → Worker ι → M) (P : Pipeline ι) : M :=
  (P.tasks.map fun w => f (P.message w.job) w).sum

omit [DecidableEq ι] in
theorem map_job_tasks (P : Pipeline ι) : P.tasks.map Worker.job = P.system.pending := by
  rw [tasks, List.map_append, List.map_map]
  exact congrArg (· ++ _) (List.map_id P.jobQueue)

/-- A pending job that is still pending after a step reads the same message. -/
theorem Inv.inputs_step (h : Inv service currentCounter dm₀ P) (l : Label ι) {w : Worker ι}
    (hw : w ∈ P.tasks) (hw' : w ∈ (P.step service l).tasks) (uninit : Nat → TPUHit) :
    (P.step service l).inputs w.job uninit = P.inputs w.job uninit := by
  have hcounter : (P.step service l).currentCounter = P.currentCounter :=
    (h.step l).currentCounter.trans h.currentCounter.symm
  have hpending : w.job ∈ P.system.pending := P.map_job_tasks ▸ List.mem_map_of_mem hw
  have hpending' : w.job ∈ (P.step service l).system.pending :=
    (P.step service l).map_job_tasks ▸ List.mem_map_of_mem hw'
  obtain ⟨i, v, hjob⟩ := h.jobs.pending _ hpending
  have hv : w.job.vector = some v := by
    rw [hjob]
    rfl
  have hvectors : (P.step service l).vectors v = P.vectors v := by
    rcases P.step_system service l with hs | ⟨l', -, hs⟩
    · exact congrFun (congrArg System.vectors hs) v
    · have hchange := h.jobs.change l'
      rw [← hs] at hchange
      exact hchange.vectors_pending h.vectors (h.step l).vectors
        (List.mem_filterMap.mpr ⟨_, hpending, hv⟩) (List.mem_filterMap.mpr ⟨_, hpending', hv⟩)
  simp [inputs, hv, hvectors, hcounter]

omit [DecidableEq ι] in
theorem tasks_perm (P : Pipeline ι) {k : Nat} (hlt : k < P.workers.length) :
    P.tasks.Perm ([P.workers[k]] ++
      (P.jobQueue.map queued ++ P.workers.eraseIdx k)) :=
  ((List.getElem_cons_eraseIdx_perm hlt).symm.append_left _).trans List.perm_middle

/-- The step has turned the pending jobs `before` into `after`, and left the others alone. -/
def Moves (service : ι → Service) (P : Pipeline ι) (l : Label ι) (before after : List (Worker ι)) :
    Prop :=
  ∃ rest, P.tasks.Perm (before ++ rest) ∧ (P.step service l).tasks.Perm (after ++ rest)

theorem moves_take (service : ι → Service) (P : Pipeline ι) {k : Nat} (pick : Option Nat)
    (hlt : k < P.jobQueue.length) :
    Moves service P (.take k pick) [queued P.jobQueue[k]]
      [⟨P.jobQueue[k], (Pool.getNew pick .new P.idle).1, .entered⟩] := by
  refine ⟨(P.jobQueue.eraseIdx k).map queued ++ P.workers, ?_, ?_⟩
  · exact ((List.getElem_cons_eraseIdx_perm hlt).symm.map _).append_right P.workers
  · rw [P.step_take service pick hlt]
    exact List.perm_middle

theorem moves_work (service : ι → Service) (P : Pipeline ι) {k : Nat} (pool : TimeSlicePool)
    (uninit : Nat → TPUHit) (hlt : k < P.workers.length)
    (hidod : P.workers[k].job.func = some .idod) :
    Moves service P (.work k pool uninit) [P.workers[k]]
      [(P.workers[k].next pool (P.inputs P.workers[k].job uninit) P.dataModel).2] := by
  refine ⟨_, P.tasks_perm hlt, ?_⟩
  rw [P.step_work service pool uninit hlt hidod]
  exact ((List.set_perm_cons_eraseIdx hlt _).append_left _).trans List.perm_middle

theorem moves_finish (service : ι → Service) (P : Pipeline ι) {k : Nat} {ok : Bool}
    (hlt : k < P.workers.length) (hmay : ok = false ∨ P.workers[k].atEnd = true) :
    Moves service P (.finish k ok) [P.workers[k]] [] := by
  refine ⟨_, P.tasks_perm hlt, ?_⟩
  have hqueue := P.jobQueue_finish service hlt hmay
  rw [P.step_finish service hlt hmay] at hqueue ⊢
  exact .of_eq (congrArg (fun q => q.map queued ++ P.workers.eraseIdx k) hqueue)

/-- A step changes what the jobs it is about come to, and nothing else. -/
theorem Inv.total_step (h : Inv service currentCounter dm₀ P) {l : Label ι}
    {before after : List (Worker ι)} (hmoves : Moves service P l before after) {M : Type}
    [AddCommMonoid M] (f : Inputs → Worker ι → M) :
    ∃ others, P.total f = (before.map fun w => f (P.message w.job) w).sum + others ∧
      (P.step service l).total f =
        (after.map fun w => f ((P.step service l).message w.job) w).sum + others := by
  obtain ⟨rest, hbefore, hafter⟩ := hmoves
  have hrest : rest.map (fun w => f ((P.step service l).message w.job) w) =
      rest.map fun w => f (P.message w.job) w := by
    refine List.map_congr_left fun w hw => ?_
    have hmessage : (P.step service l).message w.job = P.message w.job :=
      h.inputs_step l (hbefore.mem_iff.mpr (List.mem_append_right _ hw))
        (hafter.mem_iff.mpr (List.mem_append_right _ hw)) fun _ => default
    rw [hmessage]
  refine ⟨(rest.map fun w => f (P.message w.job) w).sum, ?_, ?_⟩
  · rw [total, (hbefore.map _).sum_eq, List.map_append, List.sum_append]
  · rw [total, (hafter.map _).sum_eq, List.map_append, List.sum_append, hrest]

/-! ## Along a run -/

theorem Inv.steps (P : Pipeline ι) (l : Label ι) (h : Inv service currentCounter dm₀ P) :
    Inv service currentCounter dm₀ (P.step service l) := h.step l

variable (service currentCounter) (ls : List (Label ι))

/-- The invariant holds after every run. -/
theorem inv_exec (h₀ : dm₀.Distinct) :
    Inv service currentCounter dm₀ (exec service currentCounter dm₀ ls) :=
  Runs.exec_invariant (P := fun _ _ => True) (fun _ l h _ => Inv.step h l)
    (.start service currentCounter h₀) fun _ _ _ => trivial

end Pipeline
end HkRbu
