import HkRbu.Lib.Progress
import HkRbu.Upload.Atomic

/-!
# No deadlock

No job waits for a mutex inside a locked section, so there is always a job that can go on
(`LockedState.Refines.exists_step`), and the statements that are left are counted down one by one
(`cost_step`): the uploads come to an end, in whatever order the jobs are served.
-/

namespace HkRbu

variable {ι : Type} [DecidableEq ι] {jobs : ι → UploadJob}

/-- The statements of the two append loops that are left: for every entry to lock the slice, to
    insert each element and to unlock it. -/
def Phase.work : Phase → Nat
  | built => 0
  | uploading it _ tpuIt _ =>
    (it.map fun e => e.2.length + 2).sum + (tpuIt.map fun e => e.2.length + 2).sum

/-- The statements of the two append loops of a whole job. -/
def UploadJob.work (j : UploadJob) : Nat :=
  Phase.work (.uploading j.collections.entries [] j.tpuHitCollection.entries [])

/-- The statements a job has left. -/
def UploadPlace.cost (j : UploadJob) : UploadPlace → Nat
  | ⟨.built, .finding _ it _ tpuIt _⟩ => it.length + tpuIt.length + 1 + j.work
  | ⟨.built, _⟩ => j.bins.length + 2 + j.work
  | ⟨p, .inserting n⟩ => p.work - (n + 1)
  | ⟨p, _⟩ => p.work

theorem Phase.Front.work {p rest : Phase} {part : SlicePart} {b : U64} {id : SliceId}
    {l : List part.Elem} (h : p.Front part b id l rest) : p.work = rest.work + (l.length + 2) := by
  cases h with
  | raw =>
    simp only [Phase.work, List.map_cons, List.sum_cons]
    omega
  | reduced =>
    simp only [Phase.work, List.map_cons, List.sum_cons]
    omega

theorem Phase.Front.cost {p rest : Phase} {part : SlicePart} {b : U64} {id : SliceId}
    {l : List part.Elem} (h : p.Front part b id l rest) (j : UploadJob) (n : Nat) :
    UploadPlace.cost j ⟨p, .outside⟩ = p.work ∧
      UploadPlace.cost j ⟨p, .inserting n⟩ = p.work - (n + 1) ∧
      UploadPlace.cost j ⟨rest, .outside⟩ = rest.work := by
  cases h with
  | raw => exact ⟨rfl, rfl, rfl⟩
  | reduced => exact ⟨rfl, rfl, rfl⟩

/-- The statements that all jobs have before them. -/
def LockedState.cost [Fintype ι] (jobs : ι → UploadJob) (st : LockedState ι) : Nat :=
  ∑ i, (st.place i).cost (jobs i)

variable [Fintype ι] {a₀ : Aggregation} {st st' : LockedState ι} {u : UploadState ι}

theorem LockedState.cost_update {a : Aggregation} {mutexes : UploadMutex → Option ι} {i : ι}
    {p q : UploadPlace} (hi : st.place i = p) (hq : q.cost (jobs i) + 1 = p.cost (jobs i)) :
    LockedState.cost jobs ⟨a, mutexes, Function.update st.place i q⟩ + 1 = st.cost jobs := by
  have hsum := Runs.sum_update (fun j p => UploadPlace.cost (jobs j) p) st.place i q
  rw [hi, ← hq] at hsum
  simp only [LockedState.cost]
  omega

/-- **Every statement is one less to go.** -/
theorem LockedState.Refines.cost_step (h : st.Refines jobs a₀ u) (hstep : LockedStep jobs st st') :
    st'.cost jobs + 1 = st.cost jobs := by
  obtain ⟨found, hshows⟩ := h.shows
  cases hstep with
  | lockBuffer i pool at_ free =>
    refine LockedState.cost_update at_ ?_
    simp only [UploadPlace.cost, UploadJob.bins, List.length_append]
    omega
  | find i at_ =>
    refine LockedState.cost_update at_ ?_
    simp only [UploadPlace.cost, List.length_cons]
    omega
  | findTpu i at_ =>
    refine LockedState.cost_update at_ ?_
    simp only [UploadPlace.cost, List.length_cons]
    omega
  | unlockBuffer i at_ =>
    refine LockedState.cost_update at_ ?_
    simp only [UploadPlace.cost, List.length_nil, UploadJob.work, Phase.work]
    omega
  | lock i front at_ free =>
    refine LockedState.cost_update at_ ?_
    obtain ⟨hout, hin, -⟩ := front.cost (jobs i) 0
    rw [hout, hin, front.work]
    omega
  | @insert i p rest part b id l front n at_ hn =>
    refine LockedState.cost_update at_ ?_
    rw [(front.cost (jobs i) n).2.1, (front.cost (jobs i) (n + 1)).2.1, front.work]
    omega
  | @unlock i p rest part b id l front at_ =>
    refine LockedState.cost_update at_ ?_
    obtain ⟨-, hin, hrest⟩ := front.cost (jobs i) l.length
    rw [hin, hrest, front.work]
    omega

omit [Fintype ι] in
/-- A job that is not finished has a slice for what it is about to append. -/
theorem Phase.Aligned.exists_front {a : Aggregation} {p : Phase} (hal : p.Aligned a)
    (hp : p ≠ .built) (hnot : ¬ p.Finished) :
    ∃ part b id, ∃ l : List (SlicePart.Elem part), ∃ rest, p.Front part b id l rest := by
  cases p with
  | built => exact absurd rfl hp
  | uploading it ids tpuIt tpuIds =>
    obtain ⟨hraw, hreduced⟩ := hal
    cases hraw with
    | cons _ _ => exact ⟨.raw, _, _, _, _, .raw⟩
    | nil =>
      cases hreduced with
      | cons _ _ => exact ⟨.reduced, _, _, _, _, .reduced⟩
      | nil => exact absurd ⟨rfl, rfl⟩ hnot

/-- **No deadlock.** While a job is not done, some job can make a step. -/
theorem LockedState.Refines.exists_step (h : st.Refines jobs a₀ u)
    (hnot : ¬ ∀ i, (st.place i).Done) : ∃ st', LockedStep jobs st st' := by
  obtain ⟨found, hshows⟩ := h.shows
  by_cases hout : ∀ i, (st.place i).inside = .outside
  · have hfree := hshows.all_free hout
    obtain ⟨i, hi⟩ := not_forall.mp hnot
    have hplace : st.place i = ⟨(st.place i).phase, .outside⟩ := by rw [← hout i]
    by_cases hbuilt : (st.place i).phase = .built
    · rw [hbuilt] at hplace
      exact ⟨_, .lockBuffer i .counting hplace (hfree _)⟩
    · obtain ⟨part, b, id, l, rest, front⟩ :=
        (h.aligned i).exists_front hbuilt fun hfin => hi ⟨hfin, hout i⟩
      exact ⟨_, .lock i front hplace (hfree _)⟩
  · -- A job in a section can go on in it.
    obtain ⟨i, hi⟩ := not_forall.mp hout
    have hin := hshows.inSection i
    generalize hplace : st.place i = q at hin hi
    cases hin with
    | outside p => exact absurd rfl hi
    | @finding bins pool it tpuIt ids tpuIds bins_eq ids_length first found_eq =>
      cases it with
      | cons b it => exact ⟨_, .find i hplace⟩
      | nil =>
        cases tpuIt with
        | cons b tpuIt => exact ⟨_, .findTpu i hplace⟩
        | nil => exact ⟨_, .unlockBuffer i hplace⟩
    | inserting front le =>
      rcases Nat.lt_or_eq_of_le le with hlt | rfl
      · exact ⟨_, .insert i front hplace hlt⟩
      · exact ⟨_, .unlock i front hplace⟩

/-- The state is in step with one of the machine whose steps are the locked sections. -/
def LockedState.Reached (jobs : ι → UploadJob) (a₀ : Aggregation) (st : LockedState ι) : Prop :=
  ∃ u, st.Refines jobs a₀ u

/-- **The uploads come to an end.** From every state a run reaches the jobs can be done; a state
    from which no statement can be executed is one where they are; and the statements there are to
    execute are the same number in every order. -/
theorem locked_completes {a₀ : Aggregation} (h₀ : a₀.Distinct) {st : LockedState ι}
    (hrun : Relation.ReflTransGen (LockedStep jobs) (lockedStart a₀) st) :
    (∀ st', LockedStep jobs st st' → st'.cost jobs + 1 = st.cost jobs) ∧
    ((∀ st', ¬ LockedStep jobs st st') → ∀ i, (st.place i).Done) ∧
    ∃ st', Relation.ReflTransGen (LockedStep jobs) st st' ∧ ∀ i, (st'.place i).Done := by
  obtain ⟨u, -, h⟩ := LockedState.Refines.of_run h₀ hrun
  refine ⟨fun st' hstep => h.cost_step hstep, ?_, ?_⟩
  · intro hstuck
    by_contra hnot
    obtain ⟨st', hstep⟩ := h.exists_step hnot
    exact hstuck st' hstep
  · have hinv : st.Reached jobs a₀ := ⟨u, h⟩
    refine Runs.reaches_done (μ := LockedState.cost jobs) ?_ ?_ hinv
    · rintro s s' ⟨u, hs⟩ hstep
      obtain ⟨u', -, hs'⟩ := hs.step hstep
      exact ⟨u', hs'⟩
    · rintro s ⟨u, hs⟩ hnot
      obtain ⟨s', hstep⟩ := hs.exists_step hnot
      have hcost := hs.cost_step hstep
      exact ⟨s', hstep, by omega⟩

/-- The uploads can be completed from the middle of two insertions. -/
theorem locked_completes_twoJobs : ∃ st : LockedState (Fin 2),
    st.holds 0 = some (.slice .raw 1) ∧ st.holds 1 = some (.slice .reduced 1) ∧
    ∃ st', Relation.ReflTransGen (LockedStep twoJobs) st st' ∧ ∀ i, (st'.place i).Done := by
  obtain ⟨st, hrun, hfirst, hsecond⟩ := lockedRun_twoJobs
  exact ⟨st, hfirst, hsecond, (locked_completes Aggregation.distinct_empty hrun).2.2⟩

end HkRbu
