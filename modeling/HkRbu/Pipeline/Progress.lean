import HkRbu.Lib.Progress
import HkRbu.Pipeline.Outcome

/-!
# The queue can always be drained

Every step of a worker that changes anything lowers what the pending jobs cost (`Inv.cost_step`), so
workers left alone come to an end, and where they are at an end nothing is pending (`settles`). From
every state of every run without a failure the workers can therefore complete what the receivers
have accepted (`completes`).
-/

namespace HkRbu

variable {ι : Type}

namespace Worker

/-- What a worker has to do besides writing what it owes: the rounds of the scan, the exit of the
    loop and the end of the upload. -/
def phases (inp : Inputs) (w : Worker ι) : Nat :=
  match w.stage with
  | .entered => inp.data.size / 4 + 3
  | .scanning => inp.data.size / 4 - w.args.currentWord + 2
  | .uploading _ => 1
  | .merging _ => 0

/-- The steps a worker has before it at most. The MPMT functions return at once. -/
def cost (ids : IndexMap U32 U16) (inp : Inputs) (w : Worker ι) : Nat :=
  1 + if w.job.func = some .idod then (w.owes ids inp).length + w.phases inp else 0

variable {pool : TimeSlicePool} {inp : Inputs} {dm dm' : DataModel} {w w' : Worker ι}
  {written : List Item} {ids : IndexMap U32 U16}

/-- A step writes something or brings the worker forward. -/
theorem Advances.phases (h : Advances pool inp dm w written dm' w') (hend : w.stage ≠ .merging []) :
    w'.phases inp < written.length + w.phases inp := by
  cases h with
  | enter at_ =>
    simp only [Worker.phases, at_, List.length_singleton]
    omega
  | round at_ more =>
    have hlt : w.args.currentWord < inp.data.size / 4 := Scan.more_iff.mp more
    have hstep : w.args.currentWord < ((w.scan dm).step inp).currentWord :=
      (w.scan dm).currentWord_lt_step inp
    simp only [Worker.phases, at_, List.length_nil]
    omega
  | leave at_ exit =>
    simp only [Worker.phases, at_, List.length_nil]
    omega
  | lookup at_ | raw at_ | reduced at_ | clear at_ | count at_ => simp [Worker.phases, at_]
  | done at_ => exact absurd at_ hend

/-- **Every step that is one lowers the cost.** -/
theorem Advances.cost (h : Advances pool inp dm w written dm' w')
    (hids : ∀ k, IndexMap.get dm.pmtIdMap k = IndexMap.get ids k) (hheader : w.args.header 0 = 0)
    (hidod : w.job.func = some .idod) (hend : w.stage ≠ .merging []) :
    w'.cost ids inp < w.cost ids inp := by
  have hphases := h.phases hend
  rw [Worker.cost, Worker.cost, h.job, if_pos hidod, if_pos hidod, h.owes hids hheader,
    List.length_append]
  omega

/-- At the end of the function there is no step. -/
theorem next_done (pool : TimeSlicePool) (inp : Inputs) (dm : DataModel)
    (hend : w.stage = .merging []) : w.next pool inp dm = (dm, w) := by
  simp only [next, hend]

theorem cost_uninit (header data : Buffer) (currentCounter : U64) (uninit uninit' : Nat → TPUHit)
    (w : Worker ι) : w.cost ids ⟨header, data, currentCounter, uninit⟩ =
      w.cost ids ⟨header, data, currentCounter, uninit'⟩ := by
  rw [cost, cost, owes_uninit header data currentCounter uninit uninit']
  rfl

end Worker

namespace Pipeline

/-- A step of a worker, giving up its job included. -/
def Label.OfWorker : Label ι → Prop
  | .take .. | .work .. | .finish .. => True
  | .thread .. | .kill _ => False

/-- A step of a worker that does not give up its job. -/
def Label.Works : Label ι → Prop
  | .take .. | .work .. | .finish _ true => True
  | .thread .. | .kill _ | .finish _ false => False

/-- What is still to be done: the cost of every pending job, running or queued, and one step for
    each queued job to be taken. -/
def cost (ids : IndexMap U32 U16) (P : Pipeline ι) : Nat :=
  P.total (Worker.cost ids) + P.jobQueue.length

variable [DecidableEq ι] {service : ι → Service} {currentCounter : U64} {dm₀ : DataModel}
  {P : Pipeline ι}

/-- Taking a job lowers the cost by one. -/
theorem Inv.cost_take (h : Inv service currentCounter dm₀ P) {k : Nat} (pick : Option Nat)
    (hlt : k < P.jobQueue.length) :
    (P.step service (.take k pick)).cost dm₀.pmtIdMap < P.cost dm₀.pmtIdMap := by
  obtain ⟨others, hsum, hsum'⟩ :=
    h.total_step (P.moves_take service pick hlt) (Worker.cost dm₀.pmtIdMap)
  rw [cost, cost, hsum, hsum', P.step_take service pick hlt, List.length_eraseIdx_of_lt hlt]
  -- The job is at its first statement before and after, with the same message.
  show Worker.cost dm₀.pmtIdMap (P.message P.jobQueue[k]) (queued P.jobQueue[k]) + 0 + others +
      (P.jobQueue.length - 1) <
    Worker.cost dm₀.pmtIdMap (P.message P.jobQueue[k]) (queued P.jobQueue[k]) + 0 + others +
      P.jobQueue.length
  omega

/-- A step inside the function lowers the cost of the worker, and leaves that of the others. -/
theorem Inv.cost_work (h : Inv service currentCounter dm₀ P) {k : Nat} (pool : TimeSlicePool)
    (uninit : Nat → TPUHit) (hlt : k < P.workers.length)
    (hidod : P.workers[k].job.func = some .idod) (hend : P.workers[k].stage ≠ .merging []) :
    (P.step service (.work k pool uninit)).cost dm₀.pmtIdMap < P.cost dm₀.pmtIdMap := by
  obtain ⟨others, hsum, hsum'⟩ :=
    h.total_step (P.moves_work service pool uninit hlt hidod) (Worker.cost dm₀.pmtIdMap)
  have hw := List.getElem_mem hlt
  have hadv := Worker.next_advances pool (P.inputs P.workers[k].job uninit) (h.aligned _ hw)
  have hless := hadv.cost h.ids (h.running _ hw) hidod hend
  have huninit : ∀ x : Worker ι, x.cost dm₀.pmtIdMap (P.inputs P.workers[k].job uninit) =
      x.cost dm₀.pmtIdMap (P.message P.workers[k].job) := Worker.cost_uninit _ _ _ _ _
  rw [huninit, huninit] at hless
  rw [P.step_work service pool uninit hlt hidod] at hsum' ⊢
  generalize P.workers[k].next pool (P.inputs P.workers[k].job uninit) P.dataModel = r at *
  rw [cost, cost, hsum, hsum', List.map_singleton, List.map_singleton, List.sum_singleton,
    List.sum_singleton, hadv.job]
  exact Nat.add_lt_add_right (Nat.add_lt_add_right hless others) _

/-- Letting go of a job takes its cost away, whether it was completed or given up. -/
theorem Inv.cost_finish (h : Inv service currentCounter dm₀ P) {k : Nat} {ok : Bool}
    (hlt : k < P.workers.length) (hmay : ok = false ∨ P.workers[k].atEnd = true) :
    (P.step service (.finish k ok)).cost dm₀.pmtIdMap < P.cost dm₀.pmtIdMap := by
  obtain ⟨others, hsum, hsum'⟩ :=
    h.total_step (P.moves_finish service hlt hmay) (Worker.cost dm₀.pmtIdMap)
  rw [cost, cost, hsum, hsum', P.jobQueue_finish service hlt hmay]
  simp only [List.map_singleton, List.sum_singleton, List.map_nil, List.sum_nil, Worker.cost]
  omega

/-- **Every step of a worker lowers the cost**, unless it changes nothing. Giving up a job lowers it
    by all that the job still costs. -/
theorem Inv.cost_step (h : Inv service currentCounter dm₀ P) {l : Label ι} (hl : l.OfWorker)
    (hchange : P.step service l ≠ P) :
    (P.step service l).cost dm₀.pmtIdMap < P.cost dm₀.pmtIdMap := by
  cases l with
  | thread i it => exact absurd hl id
  | kill i => exact absurd hl id
  | take k pick =>
    by_cases hlt : k < P.jobQueue.length
    · exact h.cost_take pick hlt
    · exact absurd (by simp [Pipeline.step, hlt]) hchange
  | work k pool uninit =>
    by_cases hlt : k < P.workers.length
    · by_cases hidod : P.workers[k].job.func = some .idod
      · refine h.cost_work pool uninit hlt hidod fun hend => hchange ?_
        rw [P.step_work service pool uninit hlt hidod, Worker.next_done _ _ _ hend,
          List.set_getElem_self]
      · exact absurd (by simp [Pipeline.step, hlt, hidod]) hchange
    · exact absurd (by simp [Pipeline.step, hlt]) hchange
  | finish k ok =>
    by_cases hlt : k < P.workers.length
    · by_cases hmay : ok = false ∨ P.workers[k].atEnd = true
      · exact h.cost_finish hlt hmay
      · exact absurd (by simp only [Pipeline.step, List.getElem?_eq_getElem hlt, if_neg hmay])
          hchange
    · exact absurd (by simp [Pipeline.step, hlt]) hchange

/-- While a job is pending there is something to do: the first job of the queue can be taken, or the
    first worker can step or let go of its job. No queue of slices runs empty. -/
theorem Inv.exists_work (h : Inv service currentCounter dm₀ P) (hpending : ¬ P.Drained) :
    ∃ l : Label ι, l.Works ∧ (P.step service l).cost dm₀.pmtIdMap < P.cost dm₀.pmtIdMap := by
  by_cases hqueue : 0 < P.jobQueue.length
  · exact ⟨.take 0 none, trivial, h.cost_take none hqueue⟩
  · have hworkers : 0 < P.workers.length := by
      refine List.length_pos_iff.mpr fun hnil => hpending ⟨?_, hnil⟩
      exact List.length_eq_zero_iff.mp (Nat.eq_zero_of_not_pos hqueue)
    cases hend : P.workers[0].atEnd with
    | true => exact ⟨.finish 0 true, trivial, h.cost_finish hworkers (Or.inr hend)⟩
    | false =>
      have hidod : P.workers[0].job.func = some .idod := by
        by_contra hne
        unfold Worker.atEnd at hend
        split at hend <;> simp_all
      refine ⟨.work 0 .counting fun _ => default, trivial, ?_⟩
      refine h.cost_work _ _ hworkers hidod fun hstage => ?_
      rw [(Worker.atEnd_iff hidod).mpr hstage] at hend
      exact Bool.noConfusion hend

/-- A worker has nothing to do where no job is pending. -/
theorem step_of_drained (hdrained : P.Drained) {l : Label ι} (hl : l.Works) :
    P.step service l = P := by
  obtain ⟨hqueue, hworkers⟩ := hdrained
  cases l with
  | thread i it => exact absurd hl id
  | kill i => exact absurd hl id
  | take k pick => simp [Pipeline.step, hqueue]
  | work k pool uninit => simp [Pipeline.step, hworkers]
  | finish k ok => simp [Pipeline.step, hworkers]

/-! ## Runs of the workers -/

/-- A working step records what it writes. -/
theorem record_works (service : ι → Service) (P : Pipeline ι) {l : Label ι} (hl : l.Works) :
    ∃ items : List Item, P.record service l = items.map .wrote := by
  have heffect := P.step_effect service l
  generalize P.record service l = es, P.step service l = P' at heffect
  cases heffect with
  | none | take => exact ⟨[], rfl⟩
  | thread i it => exact absurd hl id
  | kill i => exact absurd hl id
  | work => exact ⟨_, rfl⟩
  | @finish k w ok =>
    cases ok with
    | false => exact absurd hl id
    | true => exact ⟨[], if_neg fun h => Bool.noConfusion h.1⟩

variable (service currentCounter) (ls : List (Label ι))

/-- The workers record what they write, and nothing else. -/
theorem journal_works (dm₀ : DataModel) {ls' : List (Label ι)} (hworks : ∀ l ∈ ls', l.Works) :
    ∃ items : List Item, journal service currentCounter dm₀ (ls ++ ls') =
      journal service currentCounter dm₀ ls ++ items.map .wrote := by
  induction ls' using List.reverseRecOn with
  | nil => exact ⟨[], by simp⟩
  | append_singleton ls' l ih =>
    obtain ⟨items, hitems⟩ := ih fun x hx => hworks x (List.mem_append_left _ hx)
    obtain ⟨more, hmore⟩ := record_works service
      (exec service currentCounter dm₀ (ls ++ ls')) (hworks l (by simp))
    refine ⟨items ++ more, ?_⟩
    rw [← List.append_assoc, journal, Runs.journal_concat]
    refine (congrArg₂ (· ++ ·) hitems hmore).trans ?_
    rw [List.map_append, List.append_assoc]

/-- **The workers come to an end**, after at most as many steps as the pending jobs cost, whether
    they complete their jobs or give them up; and where no worker can go on with its job or take
    one, no job is pending. -/
theorem settles (h₀ : dm₀.Distinct) :
    (∀ ls' : List (Label ι), (∀ l ∈ ls', l.OfWorker) →
      Runs.Along (step service) (fun P l => P.step service l ≠ P)
        (exec service currentCounter dm₀ ls) ls' →
      ls'.length ≤ (exec service currentCounter dm₀ ls).cost dm₀.pmtIdMap) ∧
    ((∀ l : Label ι, l.Works → (exec service currentCounter dm₀ ls).step service l =
        exec service currentCounter dm₀ ls) →
      (exec service currentCounter dm₀ ls).Drained) := by
  have hinv := inv_exec service currentCounter ls h₀
  constructor
  · intro ls' hworks hchange
    have hlen := Runs.length_le_measure Inv.steps (fun _ _ h hl => h.cost_step hl) hinv hworks
      hchange
    exact Nat.le_of_add_right_le hlen
  · exact Runs.done_of_stuck (fun _ h => h.exists_work) hinv

/-- Two jobs are given up in the middle, which is less than the jobs cost; after the whole run
    nothing can be done, and nothing is pending. -/
theorem settles_sampleRun :
    let ls := sampleRun sampleMessages
    [Label.finish (ι := Unit) 0 false, .finish 0 false].length ≤
      (exec (fun _ => .idod) 0 (.empty ∅) (ls.take 16)).cost ∅ ∧
    (exec (fun _ => .idod) 0 (.empty ∅) ls).Drained := by
  have h₀ : (DataModel.empty ∅).Distinct := Aggregation.distinct_empty
  constructor
  · refine (settles _ 0 _ h₀).1 _ (by simp [Label.OfWorker]) ?_
    intro before l hl hsame
    have hfewer := congrArg (fun P => P.workers.length) hsame
    rcases before with - | ⟨_, - | ⟨_, before⟩⟩
    · obtain ⟨rfl, -⟩ := by simpa using hl
      exact absurd hfewer (by decide)
    · obtain ⟨rfl, rfl⟩ := by simpa using hl
      exact absurd hfewer (by decide)
    · simp at hl
  · exact (settles _ 0 _ h₀).2 fun l hl => step_of_drained ⟨rfl, rfl⟩ hl

/-- **What is accepted can always be completed.** From every state of a run without a failure the
    workers can get to one where nothing is pending, and the data model has then gained what the
    accepted messages add. -/
theorem completes (h₀ : dm₀.Distinct)
    (hnone : .failed ∉ journal service currentCounter dm₀ ls) :
    ∃ ls' : List (Label ι), (∀ l ∈ ls', l.Works) ∧
      (exec service currentCounter dm₀ (ls ++ ls')).Drained ∧
      View.Gains dm₀.pmtIdMap (messages currentCounter (journal service currentCounter dm₀ ls))
        dm₀.view (exec service currentCounter dm₀ (ls ++ ls')).dataModel.view := by
  obtain ⟨ls', hworks, -, hdrained⟩ := Runs.exists_done Inv.steps (fun _ h => h.exists_work)
    (inv_exec service currentCounter ls h₀)
  rw [exec, ← Runs.exec_append] at hdrained
  obtain ⟨items, hitems⟩ := journal_works service currentCounter ls dm₀ hworks
  have hmessages : messages currentCounter (journal service currentCounter dm₀ (ls ++ ls')) =
      messages currentCounter (journal service currentCounter dm₀ ls) := by
    rw [hitems, messages, List.filterMap_append, List.filterMap_map]
    refine (congrArg (_ ++ ·) ?_).trans (List.append_nil _)
    exact List.filterMap_eq_nil_iff.mpr fun _ _ => rfl
  have hnone' : .failed ∉ journal service currentCounter dm₀ (ls ++ ls') := by
    rw [hitems]
    simpa using hnone
  refine ⟨ls', hworks, hdrained, ?_⟩
  rw [← hmessages]
  exact drained_gains service currentCounter _ h₀ hdrained hnone'

theorem completes_sampleRun :
    let ls := (sampleRun sampleMessages).take 16
    ∃ ls' : List (Label Unit), (∀ l ∈ ls', l.Works) ∧
      (exec (fun _ => .idod) 0 (.empty ∅) (ls ++ ls')).Drained := by
  have hnone : ∀ k, .finish k false ∉ (sampleRun sampleMessages).take 16 := fun k h =>
    finish_notMem_sampleRun sampleMessages k (List.mem_of_mem_take h)
  have h₀ : (DataModel.empty ∅).Distinct := Aggregation.distinct_empty
  obtain ⟨ls', hworks, hdrained, -⟩ :=
    completes _ 0 _ h₀ (failed_notMem_journal _ 0 _ hnone)
  exact ⟨ls', hworks, hdrained⟩

end Pipeline
end HkRbu
