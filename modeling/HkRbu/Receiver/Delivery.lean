import HkRbu.Lib.Runs
import HkRbu.Receiver.Stock

/-!
# Delivered or dropped

An iteration of `Thread` that has input takes a vector, which is empty because it is in the stock
of a receiver that exists, and receives into it. If the message is one of three parts, every `recv`
has succeeded and both sends succeed, then one job is enqueued; the recycled job it may be made
from has kept the pools of this receiver, so that the pointers set "only if null" are the right
ones. In all other cases the vector goes back to the pool, and the queue and the job pools are left
alone.
-/

namespace HkRbu

variable {ι : Type}

/-- Three parts are received, the first two announcing more, and both sends succeed. -/
structure Iteration.Accepted (it : Iteration) (identity header data : Buffer) : Prop where
  received : [some ⟨identity, true⟩, some ⟨header, true⟩, some ⟨data, false⟩] <+: it.recvs
  sendIdentity : it.sendIdentity = true
  sendReply : it.sendReply = true

/-! ## Receiving -/

theorem receive_some {m : Message} (vec : List Message) (recvs : List (Option Message)) :
    receive vec (some m :: recvs) =
      if m.more then receive (vec ++ [m]) recvs else (vec ++ [m], true) := rfl

theorem length_lt_receive (vec : List Message) (recvs : List (Option Message)) :
    vec.length < (receive vec recvs).1.length := by
  induction recvs generalizing vec with
  | nil => simp [receive]
  | cons r recvs ih =>
    cases r with
    | none => simp [receive]
    | some m =>
      rw [receive_some]
      split
      · exact lt_trans (by simp) (ih (vec ++ [m]))
      · simp

/-- **A message of three parts**, received without failure. -/
theorem receive_three {recvs : List (Option Message)} (hlength : (receive [] recvs).1.length = 3)
    (hok : (receive [] recvs).2 = true) :
    ∃ identity header data,
      [some ⟨identity, true⟩, some ⟨header, true⟩, some ⟨data, false⟩] <+: recvs := by
  -- one part for each `recv`, and the third is the last
  rcases recvs with _ | ⟨_ | ⟨identity, more⟩, recvs⟩
  · simp [receive] at hok
  · simp [receive] at hok
  rw [receive_some] at hlength hok
  cases more with
  | false => simp at hlength
  | true =>
    rcases recvs with _ | ⟨_ | ⟨header, more⟩, recvs⟩
    · simp [receive] at hok
    · simp [receive] at hok
    simp only [if_true, receive_some] at hlength hok
    cases more with
    | false => simp at hlength
    | true =>
      rcases recvs with _ | ⟨_ | ⟨data, more⟩, recvs⟩
      · simp [receive] at hok
      · simp [receive] at hok
      simp only [if_true, receive_some] at hlength hok
      cases more with
      | false => exact ⟨identity, header, data, by simp⟩
      | true =>
        have hlt := length_lt_receive [⟨identity, true⟩, ⟨header, true⟩, ⟨data, true⟩] recvs
        simp at hlength hlt
        omega

theorem receive_accepted {it : Iteration} {identity header data : Buffer}
    (h : it.Accepted identity header data) :
    receive [] it.recvs = ([⟨identity, true⟩, ⟨header, true⟩, ⟨data, false⟩], true) := by
  obtain ⟨rest, hrest⟩ := h.received
  rw [← hrest]
  rfl

/-! ## The outcome of an iteration -/

theorem ReceiverArgs.sendReply_pools (a : ReceiverArgs ι) (identity header : Buffer)
    (it : Iteration) :
    (a.sendReply identity header it).messagePool = a.messagePool ∧
      (a.sendReply identity header it).jobPool = a.jobPool := by
  unfold ReceiverArgs.sendReply
  cases it.sendIdentity with
  | false => exact ⟨rfl, rfl⟩
  | true =>
    cases it.sendReply with
    | false => exact ⟨rfl, rfl⟩
    | true => exact ⟨rfl, rfl⟩

namespace System

/-- One job more in the queue, for the vector `v` of receiver `i`, with the parts in that vector. -/
structure Delivered (service : Service) (i : ι) (v : VecId) (header data : Buffer)
    (S T : System ι) : Prop where
  job : ∃ job, T.jobQueue = S.jobQueue ++ [job] ∧
    job.data = some ⟨true, some v, some i⟩ ∧ job.outPool = some i ∧
    job.func = some service ∧ job.failFunc = some service
  parts : T.vectors v = [.empty, ⟨header, true⟩, ⟨data, false⟩]

/-- No job more, and the vector `v` back in the pool of receiver `i`, `pool` without it. -/
structure Dropped (i : ι) (v : VecId) (pool : List VecId) (S T : System ι) : Prop where
  jobQueue : T.jobQueue = S.jobQueue
  jobPool : ∀ j, (T.receivers j).jobPool = (S.receivers j).jobPool
  cleared : T.vectors v = []
  messagePool : (T.receivers i).messagePool = v :: pool
  messages : (T.receivers i).messages = none

variable [DecidableEq ι] {service : ι → Service} {S : System ι} {i : ι} {a : ReceiverArgs ι}
  {v : VecId} {it : Iteration}

theorem deliver_accepted (hempty : S.vectors v = []) (h : ∀ job ∈ a.jobPool, job.Reusable i)
    {identity header data : Buffer} (haccepted : it.Accepted identity header data) :
    Delivered (service i) i v header data S ((S.made v).deliver service i a v it) := by
  have hvector : (S.made v).vectors v = [] := hempty
  have hdeliver : (S.made v).deliver service i a v it = (S.made v).enqueue service i
      (a.sendReply identity header it) v [.empty, ⟨header, true⟩, ⟨data, false⟩] it.jobPick := by
    simp [deliver, hvector, receive_accepted haccepted, haccepted.sendIdentity,
      haccepted.sendReply]
  have hreusable : ∀ job ∈ (a.sendReply identity header it).jobPool, job.Reusable i :=
    (a.sendReply_pools identity header it).2 ▸ h
  obtain ⟨jobPool, -, he⟩ := enqueue_eq service (S.made v) v hreusable
    [.empty, ⟨header, true⟩, ⟨data, false⟩] it.jobPick
  rw [hdeliver, he]
  exact ⟨⟨_, rfl, rfl, rfl, rfl, rfl⟩, Function.update_self _ _ _⟩

theorem drop_dropped (hjobPool : a.jobPool = (S.receivers i).jobPool) :
    Dropped i v a.messagePool S ((S.made v).drop i a v) := by
  refine ⟨rfl, ?_, Function.update_self _ _ _, ?_, ?_⟩
  · intro j
    by_cases hj : j = i
    · subst hj
      simpa [drop] using hjobPool
    · simp [drop, made, hj]
  · simp [drop]
  · simp [drop]

theorem deliver_dropped (hempty : S.vectors v = []) (hjobPool : a.jobPool = (S.receivers i).jobPool)
    (h : ¬ ∃ identity header data, it.Accepted identity header data) :
    Dropped i v a.messagePool S ((S.made v).deliver service i a v it) := by
  have hvector : (S.made v).vectors v = [] := hempty
  unfold deliver
  rw [hvector]
  split
  rename_i parts returnCheck hreceive
  obtain ⟨hpool, hjobs⟩ :=
    a.sendReply_pools (parts.getD 0 .empty).data (parts.getD 1 .empty).data it
  split_ifs with hbad hfail
  · exact drop_dropped hjobPool
  · rw [← hpool]
    exact drop_dropped (hjobs.trans hjobPool)
  · simp only [not_or, ne_eq, not_not, Bool.not_eq_false] at hbad hfail
    refine absurd ?_ h
    have hlength : (receive [] it.recvs).1.length = 3 := by rw [hreceive]; exact hbad.1
    have hok : (receive [] it.recvs).2 = true := by rw [hreceive]; exact hbad.2
    obtain ⟨identity, header, data, hreceived⟩ := receive_three hlength hok
    exact ⟨identity, header, data, hreceived, hfail.1, hfail.2⟩

/-- **An iteration delivers or drops.** -/
theorem step_outcome (hjobs : S.JobsInv service) (hstock : S.StockInv)
    (hup : (S.receivers i).up = true) (hready : it.ready = true) :
    (∀ identity header data, it.Accepted identity header data → Delivered (service i) i
        (S.takenBy i it).1 header data S (S.step service (.thread i it))) ∧
      ((¬ ∃ identity header data, it.Accepted identity header data) → Dropped i
        (S.takenBy i it).1 (S.takenBy i it).2 S (S.step service (.thread i it))) := by
  have hempty : S.vectors (S.takenBy i it).1 = [] :=
    hstock.empty_of_taken (taken_getNew S i it.vecPick) ((hjobs.receivers i).up hup)
  have hstep : S.step service (.thread i it) = S.thread service i it := if_pos hup
  rw [hstep, thread_ready service S hready]
  refine ⟨?_, ?_⟩
  · intro identity header data haccepted
    refine deliver_accepted hempty ?_ haccepted
    exact (hjobs.receivers i).jobPool
  · intro h
    let a : ReceiverArgs ι := { S.receivers i with
      messagePool := (S.takenBy i it).2
      messages := some (S.takenBy i it).1 }
    exact deliver_dropped (a := a) hempty rfl h

end System

/-- **Enqueued once or dropped cleanly**, in every state of every run, whatever is received and
    whatever the pools hold. -/
theorem delivered_or_dropped [DecidableEq ι] (service : ι → Service) (ls : List (Label ι)) (i : ι)
    (it : Iteration) (hup : ((Runs.exec (System.step service) .start ls).receivers i).up = true)
    (hready : it.ready = true) :
    let S := Runs.exec (System.step service) .start ls
    let T := S.step service (.thread i it)
    ((∃ job, T.jobQueue = S.jobQueue ++ [job]) ↔
        ∃ identity header data, it.Accepted identity header data) ∧
      (∀ identity header data, it.Accepted identity header data →
        System.Delivered (service i) i (S.takenBy i it).1 header data S T) ∧
      ((¬ ∃ identity header data, it.Accepted identity header data) →
        System.Dropped i (S.takenBy i it).1 (S.takenBy i it).2 S T) := by
  intro S T
  obtain ⟨hjobs, hstock⟩ := System.stockInv_exec service ls
  obtain ⟨hdelivered, hdropped⟩ := System.step_outcome hjobs hstock hup hready
  refine ⟨⟨?_, ?_⟩, hdelivered, hdropped⟩
  · rintro ⟨job, hjob⟩
    by_contra h
    have hsame := (hdropped h).jobQueue.symm.trans hjob
    exact absurd (List.self_eq_append_right.mp hsame) (List.cons_ne_nil job [])
  · rintro ⟨identity, header, data, haccepted⟩
    obtain ⟨job, hjob, -⟩ := (hdelivered identity header data haccepted).job
    exact ⟨job, hjob⟩

/-- A message is enqueued and its job finished; the second message gets the recycled vector and the
    recycled job. -/
theorem delivered_recycled :
    let identity : Buffer := ⟨[7#8], fun _ => 0⟩
    let header : Buffer := ⟨[1#8, 0#8, 0#8, 0#8], fun _ => 0⟩
    let data : Buffer := ⟨[], fun _ => 0⟩
    let it := Iteration.ofParts identity header data (some 0) (some 0)
    let service : Unit → Service := fun _ => .idod
    let S := Runs.exec (System.step service) .start [.thread () it, .take 0, .finish 0 true]
    System.Delivered .idod () 0 header data S (S.step service (.thread () it)) := by
  intro identity header data it service S
  have haccepted : it.Accepted identity header data := ⟨List.prefix_refl _, rfl, rfl⟩
  exact (delivered_or_dropped service [.thread () it, .take 0, .finish 0 true] () it rfl
    rfl).2.1 identity header data haccepted

end HkRbu
