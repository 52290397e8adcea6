import HkRbu.Lib.Journal
import HkRbu.Lib.Progress
import HkRbu.Receiver.Losses
import HkRbu.Receiver.Stock
import Mathlib.Algebra.BigOperators.Group.Finset.Basic
import Mathlib.Algebra.Order.Group.Multiset
import Mathlib.Data.Fintype.Basic

/-!
# Every vector accounted for

While the receivers exist, every message vector that was ever made is in one place: in the pool of a
receiver, in a pending job, or lost with an MPMT job that was completed. So the vectors made are as
many as are in use or idle, and one more for each MPMT message that was worked on
(`vectors_accounted`).
-/

namespace HkRbu

variable {ι : Type}

namespace System

/-- The vector that goes with an MPMT job a step completes. -/
def loses (S : System ι) (l : Label ι) : List VecId :=
  match S.completes l with
  | some job => if job.func = some .mpmt then job.vector.toList else []
  | none => []

variable {service : ι → Service} {S T : System ι} {i : ι} {a : ReceiverArgs ι} {v : VecId}

theorem pending_vectors {jobs : List (Job ι)} (h : T.pending.Perm jobs) :
    ((T.pending.filterMap Job.vector : List VecId) : Multiset VecId) =
      (jobs.filterMap Job.vector : List VecId) :=
  Multiset.coe_eq_coe.mpr (h.filterMap Job.vector)

theorem vectors_filled (i : ι) (v : VecId) (jobs : List (Job ι)) :
    (((Job.filled (service i) i v :: jobs).filterMap Job.vector : List VecId) : Multiset VecId) =
      v ::ₘ (jobs.filterMap Job.vector : List VecId) := rfl

variable [Fintype ι]

/-- The vectors in the pools. -/
def pools (S : System ι) : Multiset VecId :=
  ∑ i, ((S.receivers i).messagePool : Multiset VecId)

/-- The vectors in the pools and in the pending jobs. -/
def held (S : System ι) : Multiset VecId :=
  S.pools + (S.pending.filterMap Job.vector : List VecId)

theorem pools_update [DecidableEq ι] (hreceivers : T.receivers = Function.update S.receivers i a) :
    T.pools + ((S.receivers i).messagePool : Multiset VecId) =
      S.pools + (a.messagePool : Multiset VecId) := by
  rw [pools, hreceivers]
  exact Runs.sum_update (fun _ a => (a.messagePool : Multiset VecId)) S.receivers i a

theorem pools_put [DecidableEq ι] (hreceivers : T.receivers = Function.update S.receivers i a)
    (hpool : a.messagePool = v :: (S.receivers i).messagePool) : T.pools = v ::ₘ S.pools := by
  have h := pools_update hreceivers
  rw [hpool, ← Multiset.cons_coe, Multiset.add_cons, ← Multiset.cons_add] at h
  exact add_right_cancel h

theorem pools_same [DecidableEq ι] (hreceivers : T.receivers = Function.update S.receivers i a)
    (hpool : a.messagePool = (S.receivers i).messagePool) : T.pools = S.pools := by
  have h := pools_update hreceivers
  rw [hpool] at h
  exact add_right_cancel h

/-- A vector taken is made now, or is one from the pool. -/
theorem range_made (ht : S.Taken i a v) (hmade : ∀ w ∈ S.held, w < S.nextVec) :
    v ::ₘ ((a.messagePool : Multiset VecId) + Multiset.range S.nextVec) =
      ((S.receivers i).messagePool : Multiset VecId) + Multiset.range (S.made v).nextVec := by
  rcases ht.source with ⟨rfl, hpool⟩ | hperm
  · have hnext : (S.made S.nextVec).nextVec = S.nextVec + 1 := if_pos rfl
    rw [hpool, hnext, Multiset.range_succ, Multiset.add_cons]
  · have hpool : ((S.receivers i).messagePool : Multiset VecId) = v ::ₘ a.messagePool :=
      Multiset.coe_eq_coe.mpr hperm
    have hmem : v ∈ S.pools := by
      refine Multiset.mem_sum.mpr ⟨i, Finset.mem_univ i, ?_⟩
      rw [hpool]
      exact Multiset.mem_cons_self v _
    have hlt : v < S.nextVec := hmade v (Multiset.mem_add.mpr (Or.inl hmem))
    have hnext : (S.made v).nextVec = S.nextVec := if_neg (Nat.ne_of_lt hlt)
    rw [hpool, hnext, Multiset.cons_add]

/-- A vector taken and put back, into the pool or into a job. -/
theorem held_taken (ht : S.Taken i a v) (hmade : ∀ w ∈ S.held, w < S.nextVec)
    (hput : T.held + ((S.receivers i).messagePool : Multiset VecId) =
      S.held + v ::ₘ (a.messagePool : Multiset VecId)) :
    T.held + Multiset.range S.nextVec = S.held + Multiset.range (S.made v).nextVec := by
  refine add_right_cancel (b := ((S.receivers i).messagePool : Multiset VecId)) ?_
  calc T.held + Multiset.range S.nextVec + ((S.receivers i).messagePool : Multiset VecId)
      = S.held + (v ::ₘ ((a.messagePool : Multiset VecId) + Multiset.range S.nextVec)) := by
        rw [add_right_comm, hput, add_assoc, Multiset.cons_add]
    _ = S.held + Multiset.range (S.made v).nextVec +
          ((S.receivers i).messagePool : Multiset VecId) := by
        rw [range_made ht hmade, add_comm ((S.receivers i).messagePool : Multiset VecId), add_assoc]

variable [DecidableEq ι]

/-- What a job leaves behind: its vector in the pool, or nowhere. -/
theorem held_finish {k : Nat} (hk : S.running[k]? = some (.filled (service i) i v)) (ok : Bool) :
    (S.step service (.finish k ok)).held + S.loses (.finish k ok) = S.held ∧
      (S.step service (.finish k ok)).nextVec = S.nextVec := by
  have hstep : S.step service (.finish k ok) =
      { S with running := S.running.eraseIdx k }.finishJob (.filled (service i) i v) ok := by
    simp [System.step, hk]
  have hjobs : ((S.pending.filterMap Job.vector : List VecId) : Multiset VecId) =
      v ::ₘ ({ S with running := S.running.eraseIdx k }.pending.filterMap Job.vector :
        List VecId) := (pending_vectors (finish_pending hk)).trans (vectors_filled i v _)
  rw [hstep, loses, completes, hk, held, held, hjobs]
  cases hs : service i with
  | idod =>
    rw [finish_idod]
    refine ⟨?_, rfl⟩
    rw [pools_put (S := S) (i := i) (v := v) rfl rfl, Multiset.cons_add, Multiset.add_cons]
    exact add_zero _
  | mpmt =>
    rw [finish_mpmt]
    refine ⟨?_, rfl⟩
    rw [pools_same (S := S) (i := i)
        (a := { S.receivers i with jobPool := .filled .mpmt i v :: (S.receivers i).jobPool })
        rfl rfl, Multiset.add_cons, ← Multiset.singleton_add, add_comm]
    rfl

/-- **What a step does to the vectors held**, unless it deletes a receiver. -/
theorem held_step (hj : S.JobsInv service) (hmade : ∀ w ∈ S.held, w < S.nextVec) {l : Label ι}
    (hl : ∀ i, l ≠ .delete i) :
    (S.step service l).held + (S.loses l + Multiset.range S.nextVec) =
      S.held + Multiset.range (S.step service l).nextVec := by
  have hchange := hj.change l
  cases l with
  | delete i => exact absurd rfl (hl i)
  | finish k ok =>
    cases hk : S.running[k]? with
    | none => simp [System.step, loses, completes, hk]
    | some job =>
      obtain ⟨i, v, rfl⟩ := hj.pending job ((finish_pending hk).mem_iff.mpr List.mem_cons_self)
      obtain ⟨hheld, hnext⟩ := held_finish hk ok
      rw [hnext, ← add_assoc, hheld]
  | thread i it =>
    generalize S.step service (.thread i it) = T at hchange ⊢
    cases hchange with
    | none => exact congrArg (S.held + ·) (zero_add _)
    | @dropped _ a v _ up live ht =>
      have hpools := pools_update (S := S) (T := (S.made v).drop i a v) (i := i) rfl
      have hheld := held_taken (T := (S.made v).drop i a v) ht hmade ?_
      · exact (congrArg (_ + ·) (zero_add _)).trans hheld
      · rw [held, add_right_comm, hpools, add_right_comm]
        rfl
    | @enqueued _ a v _ parts up live ht hreusable =>
      have hpools := pools_update (S := S)
        (T := (S.made v).enqueue service i a v parts it.jobPick) (i := i) rfl
      have hjobs :=
        pending_vectors (enqueue_pending service (S.made v) v hreusable parts it.jobPick)
      have hheld := held_taken (T := (S.made v).enqueue service i a v parts it.jobPick) ht hmade ?_
      · exact (congrArg (_ + ·) (zero_add _)).trans hheld
      · rw [held, add_right_comm, hpools, hjobs, vectors_filled, Multiset.add_cons,
          Multiset.add_cons, add_right_comm]
        rfl
  | take k =>
    generalize S.step service (.take k) = T at hchange ⊢
    cases hchange with
    | none => exact congrArg (S.held + ·) (zero_add _)
    | taken hk =>
      have hjobs := pending_vectors (take_pending hk).symm
      rw [held, held, hjobs]
      exact congrArg (_ + ·) (zero_add _)
  | kill i =>
    have hpools : (S.step service (.kill i)).pools = S.pools := pools_same (i := i) rfl rfl
    rw [held, held, hpools]
    exact congrArg (_ + ·) (zero_add _)

/-- The vectors that have gone with completed MPMT jobs, in order. -/
def lost (service : ι → Service) (ls : List (Label ι)) : List VecId :=
  Runs.journal (step service) loses start ls

/-- **Every vector is accounted for.** In every state of a run that has deleted no receiver, each of
    the vectors ever made is in one place: in a pool, in a pending job, or lost with a completed
    MPMT job. -/
theorem vectors_accounted (service : ι → Service) {ls : List (Label ι)}
    (hls : ∀ i, .delete i ∉ ls) :
    (Runs.exec (step service) start ls).held + (lost service ls : Multiset VecId) =
      Multiset.range (Runs.exec (step service) start ls).nextVec := by
  induction ls using List.reverseRecOn with
  | nil => simp [held, pools, start, ReceiverArgs.new, lost, pending]
  | append_singleton ls l ih =>
    have hbefore := ih fun i h => hls i (List.mem_append_left _ h)
    have hl : ∀ i, l ≠ .delete i := fun i he => hls i (by simp [he])
    have hjobs := (stockInv_exec service ls).1
    have hmade : ∀ v ∈ (Runs.exec (step service) start ls).held,
        v < (Runs.exec (step service) start ls).nextVec := by
      intro v hv
      rw [← Multiset.mem_range, ← hbefore]
      exact Multiset.mem_add.mpr (Or.inl hv)
    have hstep := held_step hjobs hmade hl
    rw [lost, Runs.journal_concat, Runs.exec_concat, ← Multiset.coe_add, ← lost]
    generalize Runs.exec (step service) start ls = S at *
    refine add_right_cancel (b := Multiset.range S.nextVec) ?_
    calc (S.step service l).held + ((lost service ls : Multiset VecId) + S.loses l) +
            Multiset.range S.nextVec
        = (S.step service l).held + (S.loses l + Multiset.range S.nextVec) + lost service ls := by
          abel
      _ = S.held + lost service ls + Multiset.range (S.step service l).nextVec := by
          rw [hstep, add_right_comm]
      _ = Multiset.range (S.step service l).nextVec + Multiset.range S.nextVec := by
          rw [hbefore, add_comm]

/-- An MPMT message is received and worked on: its vector is the one that was made. -/
theorem vectors_accounted_mpmt :
    let ls : List (Label Unit) :=
      [.thread () (.ofParts ⟨[], fun _ => 0⟩ ⟨[], fun _ => 0⟩ ⟨[], fun _ => 0⟩ none none),
        .take 0, .finish 0 true]
    let S := Runs.exec (step fun _ => .mpmt) start ls
    S.held + (lost (fun _ => .mpmt) ls : Multiset VecId) = Multiset.range S.nextVec ∧
      lost (fun _ => .mpmt) ls = [0] :=
  ⟨vectors_accounted _ (by simp), rfl⟩

end System
end HkRbu
