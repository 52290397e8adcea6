import HkRbu.Lib.Runs
import HkRbu.Receiver.Jobs

/-!
# How long the pools live

The two receivers, the workers, and `Finalise`. A pending job points to the pools of the receiver
that enqueued it, and `Finalise` deletes the receivers without a look at the queue. So the runs in
which every pending job points to pools that exist are exactly those that delete a receiver only
when no job of its service is pending.
-/

namespace HkRbu

namespace System

/-! ## What a step can do to a job and to a receiver -/

section Steps

variable {ι : Type} [DecidableEq ι] {service : ι → Service} {S T : System ι} {l : Label ι}

/-- A pending job was pending before the step, or a running receiver has just enqueued it. -/
theorem Change.pending (hchange : Change service S l T) {job : Job ι} (hjob : job ∈ T.pending) :
    job ∈ S.pending ∨ ∃ i v, (S.receivers i).up = true ∧ job = .filled (service i) i v := by
  cases hchange with
  | none | dropped | killed | deleted => exact Or.inl hjob
  | @enqueued i a v it parts up live ht hreusable =>
    have hperm := enqueue_pending service (S.made v) v hreusable parts it.jobPick
    rcases List.mem_cons.mp (hperm.mem_iff.mp hjob) with rfl | hjob
    · exact Or.inr ⟨i, v, up, rfl⟩
    · exact Or.inl hjob
  | taken hk => exact Or.inl ((take_pending hk).mem_iff.mp hjob)
  | returned _ _ hk | kept _ _ hk =>
    exact Or.inl ((finish_pending hk).mem_iff.mpr (List.mem_cons_of_mem _ hjob))

theorem Change.deleted_of (hchange : Change service S l T) {j : ι}
    (hj : (S.receivers j).deleted = false) (hdeleted : (T.receivers j).deleted = true) :
    l = .delete j ∧ (S.receivers j).up = false := by
  rcases hchange.deleted_cases j with hsame | ⟨hl, hdown, -, -⟩
  · exact absurd (hdeleted.symm.trans (hsame.trans hj)) (by simp)
  · exact ⟨hl, hdown⟩

end Steps

/-! ## The two receivers -/

/-- The pools of every pending job belong to receivers that have not been deleted. -/
def PoolsLive (S : System Service) : Prop :=
  ∀ job ∈ S.pending, ∃ data i j, job.data = some data ∧ data.messagePool = some i ∧
    job.outPool = some j ∧ (S.receivers i).deleted = false ∧ (S.receivers j).deleted = false

/-- When a receiver is deleted, no job of its service is queued or being run. -/
def Drained (S : System Service) : Label Service → Prop
  | .delete i => (S.receivers i).up = false → (S.receivers i).deleted = false →
      ∀ job ∈ S.pending, job.func ≠ some i
  | _ => True

variable {S : System Service} {l : Label Service}

/-- The pools of the pending jobs live if and only if no receiver that has one is deleted. -/
theorem poolsLive_iff (h : S.JobsInv id) :
    S.PoolsLive ↔ ∀ i v, .filled i i v ∈ S.pending → (S.receivers i).deleted = false := by
  constructor
  · intro hlive i v hjob
    obtain ⟨data, j, k, hdata, hmessagePool, -, hj, -⟩ := hlive _ hjob
    obtain rfl := Option.some.inj hdata
    obtain rfl := Option.some.inj hmessagePool
    exact hj
  · intro hlive job hjob
    obtain ⟨i, v, rfl⟩ := h.pending job hjob
    exact ⟨_, i, i, rfl, rfl, rfl, hlive i v hjob, hlive i v hjob⟩

/-- **Every step keeps the pools live**, but for deletions while a job of the service is pending. -/
theorem PoolsLive.step (h : S.PoolsLive) (hj : S.JobsInv id) (hl : S.Drained l) :
    (S.step id l).PoolsLive := by
  rw [poolsLive_iff (hj.step l)]
  rw [poolsLive_iff hj] at h
  intro i v hjob
  have hchange := hj.change l
  have hlive : (S.receivers i).deleted = false := by
    rcases hchange.pending hjob with hjob | ⟨j, w, hup, he⟩
    · exact h i v hjob
    · have hij : i = j := by simpa [Job.filled] using congrArg Job.outPool he
      exact hij ▸ (hj.receivers j).up hup
  -- The step must be the deletion of this receiver, and it is then drained.
  by_contra hdeleted
  obtain ⟨rfl, hdown⟩ := hchange.deleted_of hlive (by simpa using hdeleted)
  rcases hchange.pending hjob with hjob | ⟨j, w, hup, he⟩
  · exact hl hdown hlive _ hjob rfl
  · have hij : i = j := by simpa [Job.filled] using congrArg Job.outPool he
    exact absurd (hup.symm.trans (hij ▸ hdown)) (by simp)

theorem PoolsLive.drained (hj : S.JobsInv id) (hlive : (S.step id l).PoolsLive) : S.Drained l := by
  cases l with
  | thread _ _ | take _ | finish _ _ | kill _ => trivial
  | delete i =>
    intro hdown hexists job hjob hfunc
    obtain ⟨j, v, rfl⟩ := hj.pending job hjob
    obtain rfl : j = i := Option.some.inj hfunc
    rw [poolsLive_iff (hj.step _)] at hlive
    have ha := hj.receivers j
    have hstep : S.step id (.delete j) = S.destroy j := by simp [System.step, hdown, hexists]
    rw [hstep, destroy_eq S ha.tmpJob ha.tmpData] at hlive
    have hgone := hlive j v hjob
    simp at hgone

/-- What holds in a run in which a receiver is only deleted when no job of it is left. -/
structure LifetimeInv (S : System Service) : Prop where
  jobs : S.JobsInv id
  live : S.PoolsLive

theorem LifetimeInv.start : LifetimeInv start :=
  ⟨.start id, fun _ hjob => absurd hjob List.not_mem_nil⟩

theorem LifetimeInv.step (h : S.LifetimeInv) (hl : S.Drained l) : (S.step id l).LifetimeInv :=
  ⟨h.jobs.step l, h.live.step h.jobs hl⟩

end System

/-- **No pending job outlives its pools**, in every state of a run, for exactly the runs that delete
    a receiver only when no job of its service is pending. -/
theorem poolsLive_iff_drained (ls : List (Label Service)) :
    Runs.Throughout (System.step id) System.PoolsLive .start ls ↔
      Runs.Along (System.step id) System.Drained .start ls :=
  Runs.throughout_iff_along (fun _ => System.LifetimeInv.live) (fun _ _ => System.LifetimeInv.step)
    (fun _ _ h => System.PoolsLive.drained h.jobs) System.LifetimeInv.start

/-- An IDOD message is enqueued, and `Finalise` runs before a worker takes the job. -/
theorem not_poolsLive_enqueued :
    ¬ Runs.Throughout (System.step id) System.PoolsLive .start
      [.thread .idod (.ofParts ⟨[7#8], fun _ => 0⟩ ⟨[1#8, 0#8, 0#8, 0#8], fun _ => 0⟩
        ⟨[], fun _ => 0⟩ none none), .kill .idod, .delete .idod] := by
  intro h
  obtain ⟨data, i, j, hdata, hmessagePool, -, hi, -⟩ :=
    h _ (List.prefix_refl _) (.filled .idod .idod 0) (List.mem_singleton.mpr rfl)
  obtain rfl := Option.some.inj hdata
  obtain rfl := Option.some.inj hmessagePool
  exact absurd hi (by decide)

end HkRbu
