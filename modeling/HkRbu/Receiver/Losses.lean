import HkRbu.Lib.Runs
import HkRbu.Receiver.Vectors

/-!
# Where the vectors go

The balance of the message vectors over a run: which vector has been taken from which pool, and the
job that has just been completed. As long as only IDOD jobs are completed, every vector that has
been taken is in its pool or in a pending job. The two MPMT functions do nothing: the job goes back
to the job pool with its vector, and the next `Thread` to reuse it overwrites the pointer. So the
runs that lose no vector are exactly those in which no MPMT job is completed.
-/

namespace HkRbu

variable {ι : Type}

/-- A run so far: where it has led, the vectors taken from each receiver's pool, and the job that
    the last step has completed, as it was before its function was run. -/
structure History (ι : Type) where
  system : System ι
  taken : List (ι × VecId)
  completed : Option (Job ι)

/-- No vector has been lost: the vector of a completed job is empty and in the pool it was taken
    from, jobs that can be reused have no vector, and with no job pending all vectors are back. -/
structure History.NoneLost (h : History ι) : Prop where
  returned : ∀ job, h.completed = some job → ∃ v, job.vector = some v ∧
    h.system.vectors v = [] ∧ (∃ i, (i, v) ∈ h.taken) ∧
    ∀ i, (i, v) ∈ h.taken → v ∈ (h.system.receivers i).messagePool
  cleared : ∀ i, ∀ job ∈ (h.system.receivers i).jobPool, job.vector = none
  settled : h.system.pending = [] →
    ∀ i v, (i, v) ∈ h.taken → v ∈ (h.system.receivers i).messagePool

namespace System

/-- The job a step completes. -/
def completes (S : System ι) : Label ι → Option (Job ι)
  | .finish k _ => S.running[k]?
  | _ => none

/-- The step does not complete an MPMT job. -/
def NoMPMT (S : System ι) (l : Label ι) : Prop :=
  ∀ job, S.completes l = some job → job.func ≠ some .mpmt

/-- The vector `v` is in the pool of receiver `i`, or in a pending job made by it. -/
def Holds (service : ι → Service) (S : System ι) (i : ι) (v : VecId) : Prop :=
  v ∈ (S.receivers i).messagePool ∨ .filled (service i) i v ∈ S.pending

/-- The vector a step takes, and from where. -/
def takes (S : System ι) : Label ι → List (ι × VecId)
  | .thread i it =>
    if (S.receivers i).up = true ∧ it.ready = true then [(i, (S.takenBy i it).1)] else []
  | _ => []

variable {service : ι → Service} {S T : System ι} {i j : ι} {a : ReceiverArgs ι} {v w : VecId}

theorem mem_takes {l : Label ι} (h : (i, v) ∈ S.takes l) :
    ∃ it, l = .thread i it ∧ (S.receivers i).up = true ∧ it.ready = true ∧
      v = (S.takenBy i it).1 := by
  cases l with
  | take _ | finish _ _ | kill _ | delete _ => exact absurd h List.not_mem_nil
  | thread j it =>
    by_cases hready : (S.receivers j).up = true ∧ it.ready = true
    · rw [takes, if_pos hready, List.mem_singleton, Prod.mk.injEq] at h
      obtain ⟨rfl, rfl⟩ := h
      exact ⟨it, rfl, hready.1, hready.2, rfl⟩
    · rw [takes, if_neg hready] at h
      exact absurd h List.not_mem_nil

/-! ## What is held after a step -/

theorem filled_mem_cons {jobs : List (Job ι)} :
    .filled (service j) j w ∈ Job.filled (service i) i v :: jobs ↔
      (j = i ∧ w = v) ∨ .filled (service j) j w ∈ jobs := by
  rw [List.mem_cons]
  refine or_congr_left ⟨?_, ?_⟩
  · intro he
    exact ⟨Option.some.inj (congrArg Job.outPool he), Option.some.inj (congrArg Job.vector he)⟩
  · rintro ⟨rfl, rfl⟩
    rfl

theorem Taken.mem_or_eq (ht : S.Taken i a v) :
    w ∈ (S.receivers i).messagePool ∨ w = v ↔ w ∈ a.messagePool ∨ w = v := by
  rcases ht.source with ⟨-, hpool⟩ | hperm
  · rw [hpool]
  · rw [hperm.mem_iff, List.mem_cons, or_comm (a := w = v), or_assoc, or_self]

variable [DecidableEq ι]

theorem update_cases {P : ReceiverArgs ι → Prop} (h : P (Function.update S.receivers i a j)) :
    (j = i ∧ P a) ∨ P (S.receivers j) := by
  by_cases hj : j = i
  · subst hj
    rw [Function.update_self] at h
    exact Or.inl ⟨rfl, h⟩
  · rw [Function.update_of_ne hj] at h
    exact Or.inr h

theorem mem_update_self (hreceivers : T.receivers = Function.update S.receivers i a) :
    w ∈ (T.receivers i).messagePool ↔ w ∈ a.messagePool := by
  rw [hreceivers, Function.update_self]

theorem mem_update_of_ne (hreceivers : T.receivers = Function.update S.receivers i a) (hj : j ≠ i) :
    w ∈ (T.receivers j).messagePool ↔ w ∈ (S.receivers j).messagePool := by
  rw [hreceivers, Function.update_of_ne hj]

theorem holds_drop (ht : S.Taken i a v) :
    ((S.made v).drop i a v).Holds service j w ↔ S.Holds service j w ∨ (j = i ∧ w = v) := by
  unfold Holds
  by_cases hj : j = i
  · subst hj
    rw [mem_update_self (S := S) (i := j) rfl, List.mem_cons, or_comm (a := w = v),
      ← ht.mem_or_eq, or_right_comm]
    simp only [true_and]
    rfl
  · rw [mem_update_of_ne (S := S) (i := i) rfl hj]
    simp only [hj, false_and, or_false]
    rfl

theorem holds_enqueue (ht : S.Taken i a v) (h : ∀ job ∈ a.jobPool, job.Reusable i)
    (parts : List Message) (pick : Option Nat) :
    ((S.made v).enqueue service i a v parts pick).Holds service j w ↔
      S.Holds service j w ∨ (j = i ∧ w = v) := by
  unfold Holds
  rw [(enqueue_pending service (S.made v) v h parts pick).mem_iff, filled_mem_cons]
  by_cases hj : j = i
  · subst hj
    simp only [true_and]
    rw [mem_update_self (S := S) (i := j) rfl, ← or_assoc, ← ht.mem_or_eq, or_right_comm]
    rfl
  · rw [mem_update_of_ne (S := S) (i := i) rfl hj]
    simp only [hj, false_and, false_or, or_false]
    rfl

theorem holds_return {k : Nat} (hk : S.running[k]? = some (.filled (service i) i v))
    (hreceivers : T.receivers = Function.update S.receivers i a)
    (hpool : a.messagePool = v :: (S.receivers i).messagePool)
    (hpending : T.pending = { S with running := S.running.eraseIdx k }.pending) :
    T.Holds service j w ↔ S.Holds service j w := by
  unfold Holds
  rw [(finish_pending hk).mem_iff, filled_mem_cons, hpending]
  by_cases hj : j = i
  · subst hj
    rw [mem_update_self hreceivers, hpool, List.mem_cons]
    simp only [true_and, or_assoc, or_left_comm]
  · rw [mem_update_of_ne hreceivers hj]
    simp only [hj, false_and, false_or]

/-- An iteration adds to what a receiver holds the vector it takes. -/
theorem holds_thread (hj : S.JobsInv service) (i : ι) (it : Iteration) :
    (S.step service (.thread i it)).Holds service j w ↔
      S.Holds service j w ∨ (j, w) ∈ S.takes (.thread i it) := by
  by_cases hready : (S.receivers i).up = true ∧ it.ready = true
  · have hstep : S.step service (.thread i it) = S.thread service i it := if_pos hready.1
    rw [hstep, takes, if_pos hready, List.mem_singleton, Prod.mk.injEq]
    obtain ⟨a, ht, he | ⟨parts, he⟩⟩ := thread_ready_cases service S hready.2
    · rw [he]
      exact holds_drop ht
    · rw [he]
      exact holds_enqueue ht (ht.inv (hj.receivers i)).jobPool parts it.jobPick
  · have hstep : S.step service (.thread i it) = S := by
      simp only [not_and, Bool.not_eq_true] at hready
      by_cases hup : (S.receivers i).up = true
      · simp [step, thread, hready hup]
      · simp [step, hup]
    rw [hstep, takes, if_neg hready]
    simp

/-- The other steps leave what a receiver holds, if they complete no MPMT job. -/
theorem Change.holds {l : Label ι} (hchange : Change service S l T)
    (hmessages : ∀ i v, (S.receivers i).messages = some v → S.Holds service i v)
    (hl : S.NoMPMT l) (hthread : ∀ i it, l ≠ .thread i it) :
    T.Holds service j w ↔ S.Holds service j w := by
  cases hchange with
  | none => exact Iff.rfl
  | @dropped i a v it | @enqueued i a v it => exact absurd rfl (hthread i it)
  | taken hk => exact or_congr_right (take_pending hk).mem_iff
  | @returned _ i v _ hs hk => exact holds_return hk rfl rfl rfl
  -- An MPMT job would keep its vector.
  | kept _ hs hk => exact absurd (congrArg some hs) (hl _ hk)
  | killed i =>
    refine or_congr_left ?_
    by_cases hji : j = i
    · subst hji
      refine (mem_update_self (S := S) (i := j) rfl).trans ?_
      rfl
    · exact mem_update_of_ne (S := S) (i := i) rfl hji
  | @deleted i hdown hexists =>
    unfold Holds
    by_cases hji : j = i
    · subst hji
      rw [mem_update_self (S := S) (i := j) rfl, List.mem_append, Option.mem_toList, or_assoc]
      -- The vector the arguments point to is held already.
      exact or_iff_right_of_imp (hmessages j w)
    · rw [mem_update_of_ne (S := S) (i := i) rfl hji]
      rfl

/-- **What a step holds** is what was held before, and what the step has taken. -/
theorem holds_step (hj : S.JobsInv service)
    (hmessages : ∀ i v, (S.receivers i).messages = some v → S.Holds service i v) {l : Label ι}
    (hl : S.NoMPMT l) :
    (S.step service l).Holds service j w ↔ S.Holds service j w ∨ (j, w) ∈ S.takes l := by
  cases l with
  | thread i it => exact holds_thread hj i it
  | take _ | finish _ _ | kill _ | delete _ =>
    simp only [takes, List.not_mem_nil, or_false]
    exact (hj.change _).holds hmessages hl (by simp)

/-! ## The job pools -/

/-- The jobs in the pools have been there before the step, or have no vector. -/
theorem jobPool_step (hj : S.JobsInv service) {l : Label ι} (hl : S.NoMPMT l) {job : Job ι}
    (hjob : job ∈ ((S.step service l).receivers j).jobPool) :
    job ∈ (S.receivers j).jobPool ∨ job.vector = none := by
  have hchange := hj.change l
  generalize S.step service l = T at hchange hjob
  cases hchange with
  | none | taken => exact Or.inl hjob
  | @dropped i a v it up live ht =>
    rcases update_cases (P := fun a => job ∈ a.jobPool) hjob with ⟨rfl, ha⟩ | hsame
    · exact Or.inl (ht.jobPool ▸ ha)
    · exact Or.inl hsame
  | @enqueued i a v it parts up live ht hreusable =>
    rcases update_cases (P := fun a => job ∈ a.jobPool) hjob with ⟨rfl, ha⟩ | hsame
    · exact Or.inl (ht.jobPool ▸ Pool.mem_of_mem_getNew ha)
    · exact Or.inl hsame
  | returned _ hs hk =>
    rcases update_cases (P := fun a => job ∈ a.jobPool) hjob with ⟨rfl, ha⟩ | hsame
    · rcases List.mem_cons.mp ha with rfl | ha
      · exact Or.inr rfl
      · exact Or.inl ha
    · exact Or.inl hsame
  | kept _ hs hk => exact absurd (congrArg some hs) (hl _ hk)
  | killed i | @deleted i _ _ =>
    rcases update_cases (P := fun a => job ∈ a.jobPool) hjob with ⟨rfl, ha⟩ | hsame
    · exact Or.inl ha
    · exact Or.inl hsame

/-- The arguments of a receiver point to a vector as before, or to that of the job just enqueued. -/
theorem messages_step (hj : S.JobsInv service) {l : Label ι}
    (hv : ((S.step service l).receivers j).messages = some v) :
    (S.receivers j).messages = some v ∨ (S.step service l).Holds service j v := by
  have hchange := hj.change l
  generalize S.step service l = T at hchange hv ⊢
  cases hchange with
  | none | taken => exact Or.inl hv
  | @dropped i a w it up live ht =>
    rcases update_cases (P := fun a => a.messages = some v) hv with ⟨-, hnone⟩ | hsame
    · exact absurd hnone (by simp)
    · exact Or.inl hsame
  | @enqueued i a w it parts up live ht hreusable =>
    rcases update_cases (P := fun a => a.messages = some v) hv with ⟨rfl, ha⟩ | hsame
    · obtain rfl := Option.some.inj (ht.messages.symm.trans ha)
      exact Or.inr (Or.inr (filled_mem_enqueue service _ w hreusable parts it.jobPick))
    · exact Or.inl hsame
  | returned | kept | killed | deleted =>
    rcases update_cases (P := fun a => a.messages = some v) hv with ⟨rfl, ha⟩ | hsame
    · exact Or.inl ha
    · exact Or.inl hsame

/-- A vector is taken from the pool, or is new. -/
theorem takes_source (service : ι → Service) {l : Label ι} (h : (i, v) ∈ S.takes l) :
    (v = S.nextVec ∧ v < (S.step service l).nextVec) ∨ S.Holds service i v := by
  obtain ⟨it, rfl, hup, hready, rfl⟩ := mem_takes h
  have hstep : S.step service (.thread i it) = S.thread service i it := if_pos hup
  obtain ⟨a, ht, he⟩ := thread_ready_cases service S hready
  rcases ht.source with ⟨hv, -⟩ | hperm
  · refine Or.inl ⟨hv, ?_⟩
    have hnext : (S.thread service i it).nextVec = (S.made (S.takenBy i it).1).nextVec := by
      rcases he with he | ⟨parts, he⟩
      · rw [he]
        rfl
      · rw [he]
        rfl
    rw [hstep, hnext, hv]
    simp [System.made]
  · exact Or.inr (Or.inl (hperm.mem_iff.mpr List.mem_cons_self))

end System

/-! ## The balance -/

namespace History

variable [DecidableEq ι]

/-- Nothing has been taken yet. -/
def start : History ι := ⟨.start, [], none⟩

/-- A step, with the vector it takes from a pool or makes and the job it completes. -/
def step (service : ι → Service) (h : History ι) (l : Label ι) : History ι where
  system := h.system.step service l
  taken := h.system.takes l ++ h.taken
  completed := h.system.completes l

/-- The step completes no MPMT job. -/
def NoMPMT (h : History ι) (l : Label ι) : Prop := h.system.NoMPMT l

/-- **The balance**: the vectors taken are those held. -/
structure Inv (service : ι → Service) (h : History ι) : Prop where
  jobs : h.system.JobsInv service
  balance : ∀ i v, (i, v) ∈ h.taken ↔ h.system.Holds service i v
  home : ∀ i j v, (i, v) ∈ h.taken → (j, v) ∈ h.taken → i = j
  made : ∀ i v, (i, v) ∈ h.taken → v < h.system.nextVec
  messages : ∀ i v, (h.system.receivers i).messages = some v → (i, v) ∈ h.taken
  cleared : ∀ i, ∀ job ∈ (h.system.receivers i).jobPool, job.vector = none
  returned : ∀ job, h.completed = some job → ∃ i v, job = .filled (service i) i v ∧
    h.system.vectors v = [] ∧ v ∈ (h.system.receivers i).messagePool

variable {service : ι → Service} {h : History ι} {l : Label ι}

omit [DecidableEq ι] in
theorem Inv.start (service : ι → Service) : (start : History ι).Inv service where
  jobs := .start service
  balance i v := by
    constructor
    · intro hv
      exact absurd hv List.not_mem_nil
    · rintro (hv | hv)
      · exact absurd hv List.not_mem_nil
      · exact absurd hv List.not_mem_nil
  home _ _ _ hi := absurd hi List.not_mem_nil
  made _ _ hv := absurd hv List.not_mem_nil
  messages _ _ hv := absurd hv (by simp [History.start, System.start, ReceiverArgs.new])
  cleared _ _ hjob := absurd hjob List.not_mem_nil
  returned _ hjob := absurd hjob (by simp [History.start])

theorem Inv.holds_step (hi : h.Inv service) (hl : h.NoMPMT l) (i : ι) (v : VecId) :
    (i, v) ∈ (h.step service l).taken ↔ (h.step service l).system.Holds service i v := by
  have hmessages : ∀ i v, (h.system.receivers i).messages = some v → h.system.Holds service i v :=
    fun i v hv => (hi.balance i v).mp (hi.messages i v hv)
  have hheld := System.holds_step (j := i) (w := v) hi.jobs hmessages hl
  rw [← hi.balance i v] at hheld
  exact List.mem_append.trans (or_comm.trans hheld.symm)

/-- A vector taken now is new, or has been taken from the same receiver before. -/
theorem Inv.taken_step (hi : h.Inv service) {i : ι} {v : VecId}
    (hv : (i, v) ∈ (h.step service l).taken) :
    (i, v) ∈ h.taken ∨ (v = h.system.nextVec ∧ (i, v) ∈ h.system.takes l) := by
  rcases List.mem_append.mp hv with hv | hv
  · rcases System.takes_source service hv with ⟨hnew, -⟩ | hheld
    · exact Or.inr ⟨hnew, hv⟩
    · exact Or.inl ((hi.balance i v).mpr hheld)
  · exact Or.inl hv

theorem Inv.home_step (hi : h.Inv service) (i j : ι) (v : VecId)
    (hvi : (i, v) ∈ (h.step service l).taken) (hvj : (j, v) ∈ (h.step service l).taken) :
    i = j := by
  rcases hi.taken_step hvi with hvi | ⟨rfl, hvi⟩
  · rcases hi.taken_step hvj with hvj | ⟨rfl, -⟩
    · exact hi.home i j v hvi hvj
    · exact absurd (hi.made i _ hvi) (lt_irrefl _)
  · rcases hi.taken_step hvj with hvj | ⟨-, hvj⟩
    · exact absurd (hi.made j _ hvj) (lt_irrefl _)
    · obtain ⟨it, hl, -⟩ := System.mem_takes hvi
      obtain ⟨it', hl', -⟩ := System.mem_takes hvj
      exact (Label.thread.inj (hl.symm.trans hl')).1

theorem Inv.made_step (hi : h.Inv service) (i : ι) (v : VecId)
    (hv : (i, v) ∈ (h.step service l).taken) : v < (h.step service l).system.nextVec := by
  have hle := (hi.jobs.change l).le
  rcases List.mem_append.mp hv with hv | hv
  · rcases System.takes_source service hv with ⟨-, hlt⟩ | hheld
    · exact hlt
    · exact lt_of_lt_of_le (hi.made i v ((hi.balance i v).mpr hheld)) hle
  · exact lt_of_lt_of_le (hi.made i v hv) hle

theorem Inv.returned_step (hi : h.Inv service) (hl : h.NoMPMT l) (job : Job ι)
    (hjob : (h.step service l).completed = some job) :
    ∃ i v, job = .filled (service i) i v ∧ (h.step service l).system.vectors v = [] ∧
      v ∈ ((h.step service l).system.receivers i).messagePool := by
  cases l with
  | thread _ _ | take _ | kill _ | delete _ =>
    exact absurd hjob (by simp [History.step, System.completes])
  | finish k ok =>
    have hk : h.system.running[k]? = some job := hjob
    have hfunc := hl job hk
    obtain ⟨i, v, rfl⟩ := hi.jobs.pending job
      ((System.finish_pending hk).mem_iff.mpr List.mem_cons_self)
    refine ⟨i, v, rfl, ?_⟩
    have hstep : (h.step service (.finish k ok)).system =
        { h.system with running := h.system.running.eraseIdx k }.finishJob
          (.filled (service i) i v) ok := by
      simp [History.step, System.step, hk]
    rw [hstep]
    cases hs : service i with
    | idod =>
      rw [System.finish_idod]
      simp
    | mpmt => exact absurd (congrArg some hs) hfunc

/-- **Every step keeps the balance**, unless it completes an MPMT job. -/
theorem Inv.step (hi : h.Inv service) (hl : h.NoMPMT l) : (h.step service l).Inv service where
  jobs := hi.jobs.step l
  balance := hi.holds_step hl
  home := hi.home_step
  made := hi.made_step
  messages i v hv := by
    rcases System.messages_step hi.jobs hv with hv | hheld
    · exact List.mem_append_right _ (hi.messages i v hv)
    · exact (hi.holds_step hl i v).mpr hheld
  cleared i job hjob := by
    rcases System.jobPool_step hi.jobs hl hjob with hjob | hnone
    · exact hi.cleared i job hjob
    · exact hnone
  returned := hi.returned_step hl

omit [DecidableEq ι] in
theorem Inv.noneLost (hi : h.Inv service) : h.NoneLost where
  returned job hjob := by
    obtain ⟨i, v, rfl, hcleared, hpool⟩ := hi.returned job hjob
    have htaken : (i, v) ∈ h.taken := (hi.balance i v).mpr (Or.inl hpool)
    refine ⟨v, rfl, hcleared, ⟨i, htaken⟩, ?_⟩
    intro j hj
    exact hi.home i j v htaken hj ▸ hpool
  cleared := hi.cleared
  settled hnone i v hv := by
    rcases (hi.balance i v).mp hv with hpool | hjob
    · exact hpool
    · rw [hnone] at hjob
      exact absurd hjob List.not_mem_nil

/-- A completed MPMT job goes back to the job pool with its vector. -/
theorem Inv.noMPMT (hi : h.Inv service) (hnone : (h.step service l).NoneLost) : h.NoMPMT l := by
  intro job hjob hfunc
  cases l with
  | thread _ _ | take _ | kill _ | delete _ => exact absurd hjob (by simp [System.completes])
  | finish k ok =>
    have hk : h.system.running[k]? = some job := hjob
    obtain ⟨i, v, rfl⟩ := hi.jobs.pending job
      ((System.finish_pending hk).mem_iff.mpr List.mem_cons_self)
    have hs : service i = .mpmt := Option.some.inj hfunc
    have hpool : Job.filled .mpmt i v ∈
        ((h.step service (.finish k ok)).system.receivers i).jobPool := by
      simp [History.step, System.step, hk, hs, System.finish_mpmt]
    exact absurd (hnone.cleared i _ hpool) (by simp [Job.vector, Job.filled])

end History

/-- **No message vector is lost**, in every state of a run, for exactly the runs that complete no
    MPMT job. -/
theorem noneLost_iff [DecidableEq ι] (service : ι → Service) (ls : List (Label ι)) :
    Runs.Throughout (History.step service) History.NoneLost .start ls ↔
      Runs.Along (History.step service) History.NoMPMT .start ls :=
  Runs.throughout_iff_along (fun _ => History.Inv.noneLost) (fun _ _ => History.Inv.step)
    (fun _ _ => History.Inv.noMPMT) (History.Inv.start service)

/-- An MPMT message is received and its job run: the vector is in no pool. -/
theorem not_noneLost_mpmt :
    ¬ Runs.Throughout (History.step fun i : Service => i) History.NoneLost .start
      [.thread .mpmt (.ofParts ⟨[7#8], fun _ => 0⟩ ⟨[1#8, 0#8, 0#8, 0#8], fun _ => 0⟩
        ⟨[], fun _ => 0⟩ none none), .take 0, .finish 0 true] := by
  intro h
  have hpool := (h _ (List.prefix_refl _)).settled rfl .mpmt 0 (List.mem_singleton.mpr rfl)
  exact absurd hpool List.not_mem_nil

end HkRbu
