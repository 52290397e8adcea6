import HkRbu.Lib.Runs
import HkRbu.Receiver.Vectors

/-!
# Who owns a message vector

One IDOD receiver, with its workers and `Finalise`. After a message has been enqueued,
`args->messages` still points to its vector, which by then belongs to the job; nothing clears it
until the next message is read. `~DataReceiver_args` gives back whatever it points to. So the runs
in which no vector is in the free list twice, or in the free list and in a job, are exactly those
in which the receiver is only destroyed when the last message it read was dropped, if it read any.
-/

namespace HkRbu

/-- A single receiver, of the IDOD service. -/
def idodOnly : Unit → Service := fun _ => .idod

namespace System

/-- No vector is in the free list twice, and none is there while a pending job points to it. -/
def OwnedOnce (S : System Unit) : Prop :=
  (S.receivers ()).messagePool.Nodup ∧
    ∀ job ∈ S.pending, ∀ v, job.vector = some v → v ∉ (S.receivers ()).messagePool

/-- The vector `args->messages` points to is in the free list or in a job. -/
def LastHeld (S : System Unit) : Prop :=
  (S.receivers ()).deleted = false →
    ∀ v, (S.receivers ()).messages = some v → ∃ p, v ∈ S.custody p

/-- The invariant of a run in which a receiver is only destroyed holding no vector. -/
structure OwnershipInv (S : System Unit) : Prop where
  jobs : S.JobsInv idodOnly
  vectors : S.VectorsInv
  lastHeld : S.LastHeld

theorem OwnershipInv.start : OwnershipInv start :=
  ⟨.start idodOnly, .start, fun _ v hv => absurd hv (by simp [System.start, ReceiverArgs.new])⟩

variable {S : System Unit} {l : Label Unit}

theorem mem_custody_jobs {v : VecId} :
    v ∈ S.custody .jobs ↔ ∃ job ∈ S.pending, job.vector = some v :=
  List.mem_filterMap

theorem OwnershipInv.ownedOnce (h : S.OwnershipInv) : S.OwnedOnce := by
  refine ⟨h.vectors.exclusive.nodup (.pool ()), ?_⟩
  intro job hjob v hv hpool
  have hjobs : v ∈ S.custody .jobs := mem_custody_jobs.mpr ⟨job, hjob, hv⟩
  exact absurd (h.vectors.exclusive.place (p := .pool ()) hpool hjobs) (by simp)

theorem OwnershipInv.lastHeld_step (h : S.OwnershipInv) (hl : S.LastDropped l) :
    (S.step idodOnly l).LastHeld := by
  intro hexists v hv
  have hkeeps : ∀ p, v ∈ S.custody p → ∃ q, v ∈ (S.step idodOnly l).custody q := by
    intro p hp
    have hkept : ¬ ∃ i, idodOnly i = .mpmt := by simp [idodOnly]
    exact Custody.keeps_reflGen (step_custody h.jobs hl) hkept hp
  have hchange := h.jobs.change l
  generalize S.step idodOnly l = T at *
  have hsame : (T.receivers ()).deleted = (S.receivers ()).deleted →
      (T.receivers ()).messages = (S.receivers ()).messages → ∃ q, v ∈ T.custody q := by
    intro hdeleted hmessages
    obtain ⟨p, hp⟩ := h.lastHeld (hdeleted.symm.trans hexists) v (hmessages.symm.trans hv)
    exact hkeeps p hp
  cases hchange with
  | none | taken | returned | killed => exact hsame rfl rfl
  | dropped => exact absurd hv (by simp [System.drop])
  | @enqueued i a w it parts up live ht hreusable =>
    have hw : a.messages = some v := hv
    obtain rfl := Option.some.inj (ht.messages.symm.trans hw)
    refine ⟨.jobs, ?_⟩
    rw [enqueue_jobs idodOnly S w hreusable parts it.jobPick]
    exact Multiset.mem_cons_self w _
  | kept _ hs _ => exact absurd hs (by simp [idodOnly])
  | deleted => exact absurd hexists (by simp)

/-- A step that meets the condition keeps the invariant. -/
theorem OwnershipInv.step (h : S.OwnershipInv) (hl : S.LastDropped l) :
    (S.step idodOnly l).OwnershipInv :=
  ⟨h.jobs.step l, h.vectors.step h.jobs hl, h.lastHeld_step hl⟩

/-- Destroying the receiver while its arguments point to a vector breaks unique ownership. -/
theorem OwnershipInv.lastDropped (h : S.OwnershipInv) (howned : (S.step idodOnly l).OwnedOnce) :
    S.LastDropped l := by
  cases l with
  | thread _ _ | take _ | finish _ _ | kill _ => trivial
  | delete i =>
    intro hdown hexists
    have ha := h.jobs.receivers i
    have hstep : S.step idodOnly (.delete i) = S.destroy i := by simp [System.step, hdown, hexists]
    rw [hstep, destroy_eq S ha.tmpJob ha.tmpData] at howned
    cases hm : (S.receivers i).messages with
    | none => rfl
    | some v =>
      obtain ⟨hnodup, hjobs⟩ := howned
      simp only [hm, Option.toList_some, List.singleton_append, Function.update_self]
        at hnodup hjobs
      -- The vector is held somewhere, and the destructor puts it into the pool as well.
      obtain ⟨p, hp⟩ := h.lastHeld hexists v hm
      cases p with
      | pool j => exact absurd hp (List.nodup_cons.mp hnodup).1
      | jobs =>
        obtain ⟨job, hjob, hv⟩ := mem_custody_jobs.mp hp
        exact absurd List.mem_cons_self (hjobs job hjob v hv)

end System

/-- **Unique ownership of message vectors**, in every state of a run, holds for exactly the runs
    that destroy the receiver only when its arguments point to no vector. -/
theorem ownedOnce_iff (ls : List (Label Unit)) :
    Runs.Throughout (System.step idodOnly) System.OwnedOnce .start ls ↔
      Runs.Along (System.step idodOnly) System.LastDropped .start ls :=
  Runs.throughout_iff_along (fun _ => System.OwnershipInv.ownedOnce)
    (fun _ _ => System.OwnershipInv.step) (fun _ _ => System.OwnershipInv.lastDropped)
    System.OwnershipInv.start

/-- A message is enqueued, and the receiver destroyed: its vector is then in the free list, and the
    job in the queue still points to it. -/
theorem not_ownedOnce_enqueued :
    ¬ Runs.Throughout (System.step idodOnly) System.OwnedOnce .start
      [.thread () (.ofParts ⟨[7#8], fun _ => 0⟩ ⟨[1#8, 0#8, 0#8, 0#8], fun _ => 0⟩
        ⟨[], fun _ => 0⟩ none none), .kill (), .delete ()] := by
  intro h
  have hjob := (h _ (List.prefix_refl _)).2 (.filled .idod () 0) (List.mem_singleton.mpr rfl) 0 rfl
  exact hjob (List.mem_singleton.mpr rfl)

end HkRbu
