import Mathlib.Data.Multiset.UnionInter
import HkRbu.Receiver.Vectors

/-!
# What a receiver can hand out

The custody of `HkRbu.Receiver.Vectors` is exclusive until a receiver is deleted, and `Finalise`
deletes one receiver while the thread of the other may still be running. The stock of a receiver,
the vectors in its pool and in the pending jobs that point to that pool, is a custody that survives
this: a deletion empties the stock of the receiver it deletes, and does nothing to the others. So
in every state of every run a receiver that has not been deleted finds empty vectors in its pool.
-/

namespace HkRbu

variable {ι : Type} [DecidableEq ι]

/-- The vector of a job that points to the message pool of receiver `i`. -/
def Job.vectorFor (i : ι) (job : Job ι) : Option VecId :=
  job.data.bind fun data => if data.messagePool = some i then data.messages else none

@[simp] theorem Job.vectorFor_filled (service : Service) (i : ι) (v : VecId) :
    (Job.filled service i v).vectorFor i = some v := if_pos rfl

theorem Job.vectorFor_filled_of_ne (service : Service) {i j : ι} (v : VecId) (h : j ≠ i) :
    (Job.filled service i v).vectorFor j = none :=
  if_neg fun he => h (Option.some.inj he).symm

namespace System

/-- The vectors of receiver `i` that are with pending jobs. -/
def jobStock (S : System ι) (i : ι) : Multiset VecId := S.pending.filterMap (Job.vectorFor i)

/-- The vectors of receiver `i`, as long as it exists. -/
def stock (S : System ι) (i : ι) : Multiset VecId :=
  if (S.receivers i).deleted then 0
  else ((S.receivers i).messagePool : Multiset VecId) + S.jobStock i

/-- **The invariant of the stocks.** -/
structure StockInv (S : System ι) : Prop where
  exclusive : Custody.Exclusive S.stock
  made : ∀ i, ∀ v ∈ S.stock i, v < S.nextVec
  pooled : ∀ i, (S.receivers i).deleted = false →
    ∀ v ∈ (S.receivers i).messagePool, S.vectors v = []
  unmade : ∀ v, S.nextVec ≤ v → S.vectors v = []

theorem StockInv.start : (start : System ι).StockInv := by
  have hempty : ∀ i, (System.start : System ι).stock i = 0 := fun i => rfl
  refine ⟨⟨?_, ?_⟩, ?_, ?_, fun _ _ => rfl⟩
  · intro i
    rw [hempty i]
    exact Multiset.nodup_zero
  · intro i j v hv
    exact absurd (hempty i ▸ hv) (Multiset.notMem_zero v)
  · intro i v hv
    exact absurd (hempty i ▸ hv) (Multiset.notMem_zero v)
  · intro i _ v hv
    exact absurd hv List.not_mem_nil

variable {service : ι → Service} {S T : System ι} {i : ι} {a : ReceiverArgs ι} {v : VecId}

theorem stock_of_live (h : (S.receivers i).deleted = false) :
    S.stock i = ((S.receivers i).messagePool : Multiset VecId) + S.jobStock i := by
  rw [stock, h]
  rfl

/-- What is in the pool of a receiver is in its stock. -/
theorem pool_le_stock (h : (S.receivers i).deleted = false) :
    ((S.receivers i).messagePool : Multiset VecId) ≤ S.stock i := by
  rw [stock_of_live h]
  exact Multiset.le_add_right _ _

theorem stock_update_self (hreceivers : T.receivers = Function.update S.receivers i a) :
    T.stock i = if a.deleted then 0 else (a.messagePool : Multiset VecId) + T.jobStock i := by
  rw [stock, hreceivers, Function.update_self]

theorem stock_update_of_ne (hreceivers : T.receivers = Function.update S.receivers i a) {j : ι}
    (hj : j ≠ i) (hjobs : T.jobStock j = S.jobStock j) : T.stock j = S.stock j := by
  rw [stock, stock, hreceivers, Function.update_of_ne hj, hjobs]

/-! ## The stocks after a step -/

/-- What a step does to the stocks: at most one new vector, for a receiver that exists. -/
inductive Restocked (S T : System ι) : Prop where
  | none (le : ∀ j, T.stock j ≤ S.stock j)
  | one {i : ι} {v : VecId} (made : Made S T v)
      (le : ∀ j, T.stock j ≤ Custody.put S.stock i v j)

theorem Restocked.exclusive (h : Restocked S T) (hS : S.StockInv) : Custody.Exclusive T.stock := by
  cases h with
  | none le => exact hS.exclusive.mono le
  | one made le =>
    refine (hS.exclusive.put ?_).mono le
    intro j hmem
    exact absurd (hS.made j _ hmem) (Nat.not_lt.mpr made.1)

theorem Restocked.made (h : Restocked S T) (hS : S.StockInv) (hle : S.nextVec ≤ T.nextVec) (i : ι)
    (v : VecId) (hv : v ∈ T.stock i) : v < T.nextVec := by
  cases h with
  | none le => exact lt_of_lt_of_le (hS.made i v (Multiset.mem_of_le (le i) hv)) hle
  | one made le =>
    rcases Custody.mem_put.mp (Multiset.mem_of_le (le i) hv) with ⟨-, rfl⟩ | hv
    · exact made.2
    · exact lt_of_lt_of_le (hS.made i v hv) hle

/-- A vector taken and put back, into the pool or into a job. -/
theorem restocked_of_taken (ht : S.Taken i a v) (hlive : (S.receivers i).deleted = false)
    (hnext : T.nextVec = (S.made v).nextVec)
    (hstock : T.stock i = v ::ₘ ((a.messagePool : Multiset VecId) + S.jobStock i))
    (hrest : ∀ j, j ≠ i → T.stock j = S.stock j) : Restocked S T := by
  rcases ht.source with ⟨rfl, hpool⟩ | hperm
  · have hmade : Made S T S.nextVec := by
      refine ⟨le_refl _, ?_⟩
      rw [hnext]
      simp [System.made]
    refine .one (i := i) hmade ?_
    intro j
    by_cases hj : j = i
    · subst hj
      rw [hstock, hpool, ← stock_of_live hlive, Custody.put, Function.update_self]
    · rw [hrest j hj, Custody.put, Function.update_of_ne hj]
  · refine .none ?_
    intro j
    by_cases hj : j = i
    · subst hj
      rw [hstock, stock_of_live hlive, Multiset.coe_eq_coe.mpr hperm, ← Multiset.cons_coe,
        Multiset.cons_add]
    · rw [hrest j hj]

/-- With a job more, its receiver has its vector more and the others what they had. -/
theorem jobStock_of_perm (hperm : T.pending.Perm (.filled (service i) i v :: S.pending)) :
    T.jobStock i = v ::ₘ S.jobStock i ∧ ∀ j, j ≠ i → T.jobStock j = S.jobStock j := by
  constructor
  · refine (Multiset.coe_eq_coe.mpr (hperm.filterMap (Job.vectorFor i))).trans ?_
    rw [List.filterMap_cons_some (Job.vectorFor_filled (service i) i v)]
    rfl
  · intro j hj
    refine (Multiset.coe_eq_coe.mpr (hperm.filterMap (Job.vectorFor j))).trans ?_
    rw [List.filterMap_cons_none (Job.vectorFor_filled_of_ne (service i) v hj)]
    rfl

/-- A vector that leaves a job goes to the pool of that job's receiver, or out of the stock. -/
theorem stock_finish {k : Nat} (hk : S.running[k]? = some (.filled (service i) i v))
    (hreceivers : T.receivers = Function.update S.receivers i a)
    (hdeleted : a.deleted = (S.receivers i).deleted)
    (hpool : (a.messagePool : Multiset VecId) ≤ v ::ₘ (S.receivers i).messagePool)
    (hjobs : ∀ j, T.jobStock j = { S with running := S.running.eraseIdx k }.jobStock j) (j : ι) :
    T.stock j ≤ S.stock j := by
  obtain ⟨hself, hother⟩ := jobStock_of_perm (finish_pending hk)
  by_cases hj : j = i
  · subst hj
    rw [stock_update_self hreceivers, hdeleted, hjobs j, stock, hself]
    split
    · exact le_refl _
    · rw [Multiset.add_cons, ← Multiset.cons_add]
      exact Multiset.add_le_add_iff_right.mpr hpool
  · exact le_of_eq (stock_update_of_ne hreceivers hj ((hjobs j).trans (hother j hj).symm))

/-- **What a step does to the stocks**, whatever the step. -/
theorem Change.restocked {l : Label ι} (hchange : Change service S l T) : Restocked S T := by
  cases hchange with
  | none => exact .none fun _ => le_refl _
  | @dropped i a v it up hlive ht =>
    refine restocked_of_taken ht hlive rfl ?_ fun j hj => stock_update_of_ne (i := i) rfl hj rfl
    rw [stock_update_self (S := S) (i := i) rfl, ht.deleted, hlive, ← Multiset.cons_coe,
      Multiset.cons_add]
    rfl
  | @enqueued i a v it parts up hlive ht hreusable =>
    obtain ⟨hself, hother⟩ := jobStock_of_perm
      (enqueue_pending service (S.made v) v hreusable parts it.jobPick)
    refine restocked_of_taken ht hlive rfl ?_ fun j hj =>
      stock_update_of_ne (i := i) rfl hj (hother j hj)
    rw [stock_update_self (S := S) (i := i) rfl, ht.deleted, hlive, hself, Multiset.add_cons]
    rfl
  | taken hk =>
    refine .none fun j => ?_
    have hjobs := Multiset.coe_eq_coe.mpr ((take_pending hk).filterMap (Job.vectorFor j))
    rw [stock, stock, jobStock, jobStock, System.pending, hjobs]
  | @returned k i v ok hs hk =>
    -- From the job to the pool: the stock is the same.
    refine .none (stock_finish hk rfl rfl ?_ fun _ => rfl)
    exact le_refl _
  | @kept k i v ok hs hk =>
    -- Out of the job, and into no pool.
    refine .none (stock_finish hk rfl rfl ?_ fun _ => rfl)
    exact Multiset.le_cons_self _ v
  | killed i =>
    refine .none fun j => ?_
    by_cases hj : j = i
    · subst hj
      rw [stock_update_self (S := S) (i := j) rfl, stock]
      exact le_refl _
    · exact le_of_eq (stock_update_of_ne (i := i) rfl hj rfl)
  | @deleted i hdown hexists =>
    refine .none fun j => ?_
    by_cases hj : j = i
    · subst hj
      rw [stock_update_self (S := S) (i := j) rfl]
      exact Multiset.zero_le _
    · exact le_of_eq (stock_update_of_ne (i := i) rfl hj rfl)

/-! ## The vectors in the pools -/

theorem StockInv.empty_of_taken (h : S.StockInv) (ht : S.Taken i a v)
    (hlive : (S.receivers i).deleted = false) : S.vectors v = [] := by
  rcases ht.source with ⟨rfl, -⟩ | hperm
  · exact h.unmade _ (le_refl _)
  · exact h.pooled i hlive v (hperm.mem_iff.mpr List.mem_cons_self)

/-- A vector in a job of receiver `i` is in no pool of a receiver that exists. -/
theorem not_mem_pool_of_job (h : Custody.Exclusive S.stock)
    (hi : (S.receivers i).deleted = false) (hjob : v ∈ S.jobStock i) {j : ι}
    (hj : (S.receivers j).deleted = false) : v ∉ (S.receivers j).messagePool := by
  intro hpool
  have hmem : v ∈ S.stock i := by
    rw [stock_of_live hi]
    exact Multiset.mem_add.mpr (Or.inr hjob)
  obtain rfl := h.place hmem (Multiset.mem_of_le (pool_le_stock hj) hpool)
  have hnodup := h.nodup i
  rw [stock_of_live hi] at hnodup
  exact Multiset.disjoint_left.mp (Multiset.disjoint_of_nodup_add hnodup) hpool hjob

theorem Change.live_of {l : Label ι} (hchange : Change service S l T) {j : ι}
    (hj : (T.receivers j).deleted = false) : (S.receivers j).deleted = false := by
  rcases hchange.deleted_cases j with hsame | ⟨-, -, hexists, -⟩
  · exact hsame.symm.trans hj
  · exact hexists

theorem mem_jobStock (hjob : .filled (service i) i v ∈ S.pending) : v ∈ S.jobStock i :=
  List.mem_filterMap.mpr ⟨_, hjob, Job.vectorFor_filled (service i) i v⟩

/-- **Every step keeps the invariant of the stocks**, deletions included. -/
theorem StockInv.step (h : S.StockInv) (hj : S.JobsInv service) (l : Label ι) :
    (S.step service l).StockInv := by
  have hchange := hj.change l
  generalize S.step service l = T at hchange ⊢
  have hexclusive := hchange.restocked.exclusive h
  have hmade := hchange.restocked.made h hchange.le
  have hpooled := hchange.pooled (P := fun j => (T.receivers j).deleted = false)
    (fun j hexists => h.pooled j (hchange.live_of hexists))
    (fun i v hi hjob j => not_mem_pool_of_job hexclusive hi (mem_jobStock hjob))
    fun i hexists hdeleted => absurd (hdeleted.symm.trans hexists) (by simp)
  refine ⟨hexclusive, hmade, hpooled, hchange.unmade h.unmade ?_⟩
  intro i v hi hjob
  refine hmade i v ?_
  rw [stock_of_live hi]
  exact Multiset.mem_add.mpr (Or.inr (mem_jobStock hjob))

/-- **In every state of every run** the jobs and the stocks are in order. -/
theorem stockInv_exec (service : ι → Service) (ls : List (Label ι)) :
    (Runs.exec (System.step service) start ls).JobsInv service ∧
      (Runs.exec (System.step service) start ls).StockInv := by
  have hkeeps : ∀ S l, (S.JobsInv service ∧ S.StockInv) → True →
      (System.step service S l).JobsInv service ∧ (System.step service S l).StockInv :=
    fun S l h _ => ⟨h.1.step l, h.2.step h.1 l⟩
  exact Runs.exec_invariant (P := fun _ _ => True) hkeeps ⟨.start service, .start⟩
    fun _ _ _ => trivial

end System
end HkRbu
