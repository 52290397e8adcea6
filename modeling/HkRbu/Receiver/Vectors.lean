import HkRbu.Lib.Custody
import HkRbu.Receiver.Jobs

/-!
# Custody of the message vectors

A message vector is in the custody of a receiver's pool or of the pending jobs. Every step is at
most one step of the custody (`step_custody`), except for one: deleting a receiver whose arguments
still point to the vector of the last message. So custody is exclusive for as long as no such step
is taken, and the vectors in the pools are empty.
-/

namespace HkRbu

variable {ι : Type}

/-- Who may give a vector back. -/
inductive Place (ι : Type) where
  | pool (i : ι)
  | jobs
  deriving DecidableEq

/-- The vector a job points to. -/
def Job.vector (job : Job ι) : Option VecId := job.data.bind JobPointers.messages

namespace System

/-- The vectors in the free lists, and those of the pending jobs. -/
def custody (S : System ι) : Place ι → Multiset VecId
  | .pool i => ((S.receivers i).messagePool : Multiset VecId)
  | .jobs => (S.pending.filterMap Job.vector : Multiset VecId)

/-- The vector `v` is made between the two states. -/
def Made (S T : System ι) (v : VecId) : Prop := S.nextVec ≤ v ∧ v < T.nextVec

/-- Every vector that was made is in one place, those in the pools are empty, and so are those not
    made yet. -/
structure VectorsInv (S : System ι) : Prop where
  exclusive : Custody.Exclusive S.custody
  made : ∀ p, ∀ v ∈ S.custody p, v < S.nextVec
  pooled : ∀ i, ∀ v ∈ (S.receivers i).messagePool, S.vectors v = []
  unmade : ∀ v, S.nextVec ≤ v → S.vectors v = []

theorem VectorsInv.start : (start : System ι).VectorsInv := by
  have hempty : ∀ p, (System.start : System ι).custody p = 0 := by
    intro p
    cases p with
    | pool i => rfl
    | jobs => rfl
  refine ⟨⟨?_, ?_⟩, ?_, ?_, fun _ _ => rfl⟩
  · intro p
    rw [hempty p]
    exact Multiset.nodup_zero
  · intro p q t hp
    exact absurd (hempty p ▸ hp) (Multiset.notMem_zero t)
  · intro p v hv
    exact absurd (hempty p ▸ hv) (Multiset.notMem_zero v)
  · intro i v hv
    exact absurd hv List.not_mem_nil

variable {service : ι → Service} {S T : System ι} {i : ι} {a : ReceiverArgs ι} {v : VecId}
  {lossy : Prop}

/-! ## The vector taken -/

theorem le_made (S : System ι) (v : VecId) : S.nextVec ≤ (S.made v).nextVec := by
  show S.nextVec ≤ if v = S.nextVec then S.nextVec + 1 else S.nextVec
  split
  · exact Nat.le_succ _
  · exact le_refl _

/-- The vector that is taken is new, or it comes from the pool. -/
theorem Taken.made_or_held (ht : S.Taken i a v) :
    (Made S (S.made v) v ∧ a.messagePool = (S.receivers i).messagePool) ∨
      S.custody (.pool i) = v ::ₘ (a.messagePool : Multiset VecId) := by
  rcases ht.source with ⟨rfl, hpool⟩ | hperm
  · refine Or.inl ⟨⟨le_refl _, ?_⟩, hpool⟩
    simp [System.made]
  · exact Or.inr (Multiset.coe_eq_coe.mpr hperm)

theorem Taken.mem (ht : S.Taken i a v) {w : VecId} (hw : w ∈ a.messagePool) :
    w ∈ (S.receivers i).messagePool := by
  rcases ht.source with ⟨-, hpool⟩ | hperm
  · exact hpool ▸ hw
  · exact hperm.mem_iff.mpr (List.mem_cons_of_mem v hw)

theorem Taken.empty (h : S.VectorsInv) (ht : S.Taken i a v) : S.vectors v = [] := by
  rcases ht.source with ⟨rfl, -⟩ | hperm
  · exact h.unmade _ (le_refl _)
  · exact h.pooled i v (hperm.mem_iff.mpr List.mem_cons_self)

variable [DecidableEq ι]

/-! ## Custody after a change -/

theorem custody_update {jobs : Multiset VecId}
    (hreceivers : T.receivers = Function.update S.receivers i a) (hjobs : T.custody .jobs = jobs) :
    T.custody = Function.update
      (Function.update S.custody (.pool i) (a.messagePool : Multiset VecId)) .jobs jobs := by
  funext p
  cases p with
  | jobs => rw [Function.update_self, hjobs]
  | pool j =>
    rw [Function.update_of_ne (by simp)]
    by_cases hj : j = i
    · subst hj
      rw [Function.update_self, custody, hreceivers, Function.update_self]
    · rw [Function.update_of_ne (by simpa using hj), custody, hreceivers, Function.update_of_ne hj,
        custody]

theorem custody_update_pool (hreceivers : T.receivers = Function.update S.receivers i a)
    (hjobs : T.custody .jobs = S.custody .jobs) :
    T.custody = Function.update S.custody (.pool i) (a.messagePool : Multiset VecId) := by
  rw [custody_update hreceivers hjobs, Function.update_eq_self_iff,
    Function.update_of_ne (by simp)]

theorem update_same_pool (hpool : a.messagePool = (S.receivers i).messagePool) :
    Function.update S.custody (.pool i) (a.messagePool : Multiset VecId) = S.custody := by
  rw [hpool]
  exact Function.update_eq_self _ _

theorem drop_custody (ht : S.Taken i a v) :
    Relation.ReflGen (Custody.Step (Made S ((S.made v).drop i a v)) lossy) S.custody
      ((S.made v).drop i a v).custody := by
  rw [custody_update_pool (S := S) (T := (S.made v).drop i a v) rfl rfl, ← Multiset.cons_coe]
  rcases ht.made_or_held with ⟨hmade, hpool⟩ | hheld
  · rw [hpool]
    have hnew : Made S ((S.made v).drop i a v) v := hmade
    exact .single (.mint (Place.pool i) hnew)
  · rw [← hheld, Function.update_eq_self]

theorem enqueue_jobs (service : ι → Service) (S : System ι) (v : VecId)
    (h : ∀ job ∈ a.jobPool, job.Reusable i) (parts : List Message) (pick : Option Nat) :
    ((S.made v).enqueue service i a v parts pick).custody .jobs = v ::ₘ S.custody .jobs :=
  Multiset.coe_eq_coe.mpr
    ((enqueue_pending service (S.made v) v h parts pick).filterMap Job.vector)

theorem enqueue_custody (service : ι → Service) (ht : S.Taken i a v)
    (hjobs : ∀ job ∈ a.jobPool, job.Reusable i) (parts : List Message) (pick : Option Nat) :
    Custody.Step (Made S ((S.made v).enqueue service i a v parts pick)) lossy S.custody
      ((S.made v).enqueue service i a v parts pick).custody := by
  rw [custody_update (S := S) (T := (S.made v).enqueue service i a v parts pick) rfl
    (enqueue_jobs service S v hjobs parts pick)]
  rcases ht.made_or_held with ⟨hmade, hpool⟩ | hheld
  · have hnew : Made S ((S.made v).enqueue service i a v parts pick) v := hmade
    rw [update_same_pool hpool]
    exact .mint Place.jobs hnew
  · have hjobs : Function.update S.custody (.pool i) (a.messagePool : Multiset VecId) .jobs =
        S.custody .jobs := Function.update_of_ne (by simp) _ _
    rw [← hjobs]
    exact .move (Place.pool i) Place.jobs hheld

omit [DecidableEq ι] in
theorem take_custody {k : Nat} {job : Job ι} (hk : S.jobQueue[k]? = some job) :
    { S with jobQueue := S.jobQueue.eraseIdx k, running := job :: S.running }.custody =
      S.custody := by
  funext p
  cases p with
  | pool j => rfl
  | jobs => exact Multiset.coe_eq_coe.mpr ((take_pending hk).filterMap Job.vector)

theorem same_custody (hreceivers : T.receivers = Function.update S.receivers i a)
    (hpool : a.messagePool = (S.receivers i).messagePool)
    (hjobs : T.custody .jobs = S.custody .jobs) : T.custody = S.custody := by
  rw [custody_update_pool hreceivers hjobs, update_same_pool hpool]

/-- When a receiver is deleted, its arguments point to no vector: it has read no message, or has
    dropped the last one. -/
def LastDropped (S : System ι) : Label ι → Prop
  | .delete i => (S.receivers i).up = false → (S.receivers i).deleted = false →
      (S.receivers i).messages = none
  | _ => True

omit [DecidableEq ι] in
theorem finish_jobs {k : Nat} (hk : S.running[k]? = some (.filled (service i) i v)) :
    S.custody .jobs = v ::ₘ { S with running := S.running.eraseIdx k }.custody .jobs :=
  Multiset.coe_eq_coe.mpr ((finish_pending hk).filterMap Job.vector)

theorem return_custody {new : VecId → Prop} {jobs : Multiset VecId}
    (hheld : S.custody .jobs = v ::ₘ jobs)
    (hreceivers : T.receivers = Function.update S.receivers i a)
    (hpool : a.messagePool = v :: (S.receivers i).messagePool) (hjobs : T.custody .jobs = jobs) :
    Custody.Step new lossy S.custody T.custody := by
  have hmove : Custody.Step new lossy S.custody _ := .move Place.jobs (Place.pool i) hheld
  rw [custody_update hreceivers hjobs, hpool, Function.update_comm (by simp)]
  rwa [Custody.put, Function.update_of_ne (by simp)] at hmove

theorem keep_custody {new : VecId → Prop} {jobs : Multiset VecId} (hlossy : lossy)
    (hheld : S.custody .jobs = v ::ₘ jobs)
    (hreceivers : T.receivers = Function.update S.receivers i a)
    (hpool : a.messagePool = (S.receivers i).messagePool) (hjobs : T.custody .jobs = jobs) :
    Custody.Step new lossy S.custody T.custody := by
  rw [custody_update hreceivers hjobs, update_same_pool hpool]
  exact .lose Place.jobs hheld hlossy

/-- **The steps refine the custody**, but for deletions that find a vector: the vector of a
    finished IDOD job moves to its pool, that of an MPMT job is lost. -/
theorem step_custody (h : S.JobsInv service) {l : Label ι} (hl : S.LastDropped l) :
    Relation.ReflGen (Custody.Step (Made S (S.step service l)) (∃ i, service i = .mpmt)) S.custody
      (S.step service l).custody := by
  have hchange := h.change l
  generalize S.step service l = T at hchange ⊢
  cases hchange with
  | none => exact .refl
  | dropped _ _ _ ht => exact drop_custody ht
  | @enqueued i a v it parts _ _ ht hreusable =>
    exact .single (enqueue_custody service ht hreusable parts it.jobPick)
  | taken hk => exact (Relation.reflGen_iff _ _ _).mpr (Or.inl (take_custody hk))
  | @returned k i v ok hs hk =>
    exact .single (return_custody (i := i) (finish_jobs hk) rfl rfl rfl)
  | @kept k i v ok hs hk =>
    exact .single (keep_custody (i := i) ⟨i, hs⟩ (finish_jobs hk) rfl rfl rfl)
  | killed i => exact (Relation.reflGen_iff _ _ _).mpr (Or.inl (same_custody (i := i) rfl rfl rfl))
  | @deleted i hdown hexists =>
    rw [hl hdown hexists]
    exact (Relation.reflGen_iff _ _ _).mpr (Or.inl (same_custody (i := i) rfl rfl rfl))

/-! ## The vectors in the pools -/

theorem mem_messagePool_update {j : ι} {w : VecId}
    (hw : w ∈ (Function.update S.receivers i a j).messagePool) :
    (j = i ∧ w ∈ a.messagePool) ∨ w ∈ (S.receivers j).messagePool := by
  by_cases hj : j = i
  · subst hj
    rw [Function.update_self] at hw
    exact Or.inl ⟨rfl, hw⟩
  · rw [Function.update_of_ne hj] at hw
    exact Or.inr hw

/-- … that leaves its pool alone. -/
theorem mem_same_pool {j : ι} {w : VecId}
    (hw : w ∈ (Function.update S.receivers i a j).messagePool)
    (hpool : a.messagePool = (S.receivers i).messagePool) : w ∈ (S.receivers j).messagePool := by
  rcases mem_messagePool_update hw with ⟨rfl, ha⟩ | hj
  · exact hpool ▸ ha
  · exact hj

omit [DecidableEq ι] in
theorem vectors_update {parts : List Message} {w : VecId} (hv : w = v → parts = [])
    (hw : w ≠ v → S.vectors w = []) : Function.update S.vectors v parts w = [] := by
  by_cases hwv : w = v
  · rw [hwv, Function.update_self]
    exact hv hwv
  · rw [Function.update_of_ne hwv]
    exact hw hwv

theorem Change.le {l : Label ι} (hchange : Change service S l T) : S.nextVec ≤ T.nextVec := by
  cases hchange with
  | dropped | enqueued => exact S.le_made _
  | none | taken | returned | kept | killed | deleted => exact le_refl _

theorem Taken.live_enqueue (ht : S.Taken i a v) (hlive : (S.receivers i).deleted = false)
    (parts : List Message) (pick : Option Nat) :
    (((S.made v).enqueue service i a v parts pick).receivers i).deleted = false := by
  simpa [enqueue] using ht.deleted.trans hlive

/-- **What the pools hold after a step**: the pools of the receivers in `P` hold empty vectors if
    they did before, as long as the vectors of the jobs are in none of them. -/
theorem Change.pooled {l : Label ι} (hchange : Change service S l T) {P : ι → Prop}
    (hpooled : ∀ j, P j → ∀ w ∈ (S.receivers j).messagePool, S.vectors w = [])
    (hjobs : ∀ i v, (T.receivers i).deleted = false → .filled (service i) i v ∈ T.pending →
      ∀ j, P j → v ∉ (T.receivers j).messagePool)
    (hlast : ∀ i, P i → (T.receivers i).deleted = true → S.LastDropped l) :
    ∀ j, P j → ∀ w ∈ (T.receivers j).messagePool, T.vectors w = [] := by
  intro j hj w hw
  cases hchange with
  | none | taken => exact hpooled j hj w hw
  | @dropped i a v it up live ht =>
    refine vectors_update (fun _ => rfl) ?_
    intro hwv
    refine hpooled j hj w ?_
    -- Another vector in the pool was there before.
    rcases mem_messagePool_update hw with ⟨rfl, ha⟩ | hw
    · exact ht.mem ((List.mem_cons.mp ha).resolve_left hwv)
    · exact hw
  | @enqueued i a v it parts up live ht hreusable =>
    have hjob := filled_mem_enqueue service (S.made v) v hreusable parts it.jobPick
    refine vectors_update ?_ fun _ => hpooled j hj w ?_
    · intro hwv
      exact absurd (hwv ▸ hw) (hjobs i v (ht.live_enqueue live parts it.jobPick) hjob j hj)
    · rcases mem_messagePool_update hw with ⟨rfl, ha⟩ | hw
      · exact ht.mem ha
      · exact hw
  | @returned k i v ok hs hk =>
    refine vectors_update (fun _ => rfl) ?_
    intro hwv
    refine hpooled j hj w ?_
    rcases mem_messagePool_update hw with ⟨rfl, ha⟩ | hw
    · exact (List.mem_cons.mp ha).resolve_left hwv
    · exact hw
  | kept | killed => exact hpooled j hj w (mem_same_pool hw rfl)
  | @deleted i hdown hexists =>
    refine hpooled j hj w ?_
    rcases mem_messagePool_update hw with ⟨rfl, ha⟩ | hw
    -- What the arguments point to is given back as it is, cleared or not.
    · have hnone := hlast j hj (by simp) hdown hexists
      rwa [hnone] at ha
    · exact hw

theorem Change.unmade {l : Label ι} (hchange : Change service S l T)
    (hunmade : ∀ w, S.nextVec ≤ w → S.vectors w = [])
    (hjobs : ∀ i v, (T.receivers i).deleted = false → .filled (service i) i v ∈ T.pending →
      v < T.nextVec) : ∀ w, T.nextVec ≤ w → T.vectors w = [] := by
  intro w hw
  have hold : S.vectors w = [] := hunmade w (le_trans hchange.le hw)
  cases hchange with
  | none | taken | kept | killed | deleted => exact hold
  | dropped | returned => exact vectors_update (fun _ => rfl) fun _ => hold
  | @enqueued i a v it parts up live ht hreusable =>
    have hjob := filled_mem_enqueue service (S.made v) v hreusable parts it.jobPick
    refine vectors_update ?_ fun _ => hold
    intro hwv
    have hlt := hjobs i v (ht.live_enqueue live parts it.jobPick) hjob
    exact absurd hlt (Nat.not_lt.mpr (hwv ▸ hw))

/-- **Every step keeps the invariant of the vectors**, but for deletions that find a vector. -/
theorem VectorsInv.step (h : S.VectorsInv) (hj : S.JobsInv service) {l : Label ι}
    (hl : S.LastDropped l) : (S.step service l).VectorsInv := by
  have hnew : ∀ t, Made S (S.step service l) t → ∀ p, t ∉ S.custody p := by
    intro t ht p hmem
    exact absurd (h.made p t hmem) (Nat.not_lt.mpr ht.1)
  obtain ⟨hexclusive, hheld⟩ := h.exclusive.reflGen (step_custody hj hl) hnew
  have hmade : ∀ p, ∀ v ∈ (S.step service l).custody p, v < (S.step service l).nextVec := by
    intro p v hv
    rcases hheld p v hv with hv | ⟨q, hv⟩
    · exact hv.2
    · exact lt_of_lt_of_le (h.made q v hv) (hj.change l).le
  have hjobs : ∀ i v, .filled (service i) i v ∈ (S.step service l).pending →
      v ∈ (S.step service l).custody .jobs :=
    fun i v hjob => List.mem_filterMap.mpr ⟨_, hjob, rfl⟩
  have hapart : ∀ i v, ((S.step service l).receivers i).deleted = false →
      .filled (service i) i v ∈ (S.step service l).pending →
      ∀ j, True → v ∉ ((S.step service l).receivers j).messagePool := by
    intro i v _ hjob j _ hpool
    exact absurd (hexclusive.place (p := .pool j) hpool (hjobs i v hjob)) (by simp)
  have hpooled := (hj.change l).pooled (fun i _ => h.pooled i) hapart fun _ _ _ => hl
  refine ⟨hexclusive, hmade, fun i => hpooled i trivial, (hj.change l).unmade h.unmade ?_⟩
  intro i v _ hjob
  exact hmade .jobs v (hjobs i v hjob)

end System
end HkRbu
