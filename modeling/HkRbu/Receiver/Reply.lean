import HkRbu.Lib.Runs
import HkRbu.Receiver.Vectors

/-!
# The replies

A receiver acknowledges a message with the first word of its header part, copied into the reply
message before it is sent. The reply has its four bytes from the constructor; the send of the first
acknowledgement takes them, and nothing gives it new ones, so every later `memcpy` copies
`reply.size() = 0` bytes. What a receiver sends over a run is `acknowledge`; it is what the boards
expect exactly when at most one message has been accepted.
-/

namespace HkRbu

variable {ι : Type}

/-- A message of three parts, with a header part of at least four bytes. -/
structure Packet where
  identity : Buffer
  header : Buffer
  data : Buffer
  four_le : 4 ≤ header.size

/-- A step that is neither an iteration of receiver `i` with input nor part of `Finalise`. -/
def Label.Quiet (i : ι) : Label ι → Prop
  | .thread j it => j = i → it.ready = false
  | .take _ | .finish _ _ => True
  | .kill _ | .delete _ => False

/-- What happens while receiver `i` runs: a packet comes in and is received and answered without
    failure, or something else. -/
inductive Event (i : ι) where
  | packet (m : Packet) (vecPick jobPick : Option Nat)
  | other (l : Label ι) (quiet : l.Quiet i)

namespace Event

variable {i : ι}

/-- The step of the receivers that an event is. -/
def label : Event i → Label ι
  | packet m vecPick jobPick => .thread i (.ofParts m.identity m.header m.data vecPick jobPick)
  | other l _ => l

/-- The message that an event brings. -/
def packet? : Event i → Option Packet
  | packet m _ _ => some m
  | other _ _ => none

end Event

/-- The parts of the reply as they should be: the identity, and the message number, which is the
    first four bytes of the header part. -/
def expectedReply (m : Packet) : List (List U8 × Bool) :=
  [(m.identity.bytes, true), (m.header.bytes.take 4, false)]

/-- What is sent for a sequence of packets, when the reply message is `reply` before the first. -/
def acknowledge : List U8 → List Packet → List (List U8 × Bool)
  | _, [] => []
  | reply, m :: ms =>
    [(m.identity.bytes, true), (copyReply reply m.header, false)] ++ acknowledge [] ms

theorem copyReply_eq (reply : List U8) (header : Buffer) (h : reply.length ≤ header.size) :
    copyReply reply header = header.bytes.take reply.length := by
  have hlength : (copyReply reply header).length = (header.bytes.take reply.length).length := by
    rw [copyReply, List.length_map, List.length_range, List.length_take]
    exact (Nat.min_eq_left h).symm
  refine List.ext_getElem hlength ?_
  intro k hk _
  have hk' : k < header.bytes.length := by
    simp [copyReply] at hk
    exact lt_of_lt_of_le hk h
  simp [copyReply, Buffer.byteAt, hk']

theorem acknowledge_cons (m : Packet) (ms : List Packet) :
    acknowledge (List.replicate 4 0) (m :: ms) = expectedReply m ++ acknowledge [] ms := by
  rw [acknowledge, copyReply_eq _ _ (by simpa using m.four_le)]
  rfl

/-- **Only the first reply is right**: the replies are as they should be if there is at most one. -/
theorem acknowledge_eq_iff (ms : List Packet) :
    acknowledge (List.replicate 4 0) ms = ms.flatMap expectedReply ↔ ms.length ≤ 1 := by
  cases ms with
  | nil => simp [acknowledge]
  | cons m ms =>
    rw [acknowledge_cons, List.flatMap_cons, List.append_cancel_left_eq]
    cases ms with
    | nil => simp [acknowledge]
    | cons m' ms =>
      refine iff_of_false ?_ (by simp)
      intro h
      -- the second reply is empty, and a message number is not
      have hreply : ([] : List U8) = m'.header.bytes.take 4 := by
        have hsecond := congrArg (fun sent => (sent.getD 1 ([], true)).1) h
        simpa [acknowledge, expectedReply, copyReply] using hsecond
      have hlength := congrArg List.length hreply
      have hfour : 4 ≤ m'.header.bytes.length := m'.four_le
      simp only [List.length_nil, List.length_take] at hlength
      omega

namespace System

variable [DecidableEq ι] {service : ι → Service} {S T : System ι} {i : ι}

/-- Only an iteration of a receiver's thread touches its reply, and only `Finalise` stops it. -/
theorem Change.of_ne_thread {l : Label ι} (hchange : Change service S l T)
    (hl : ∀ it, l ≠ .thread i it) : (T.receivers i).reply = (S.receivers i).reply ∧
      (T.receivers i).sent = (S.receivers i).sent ∧
      (l = .kill i ∨ (T.receivers i).up = (S.receivers i).up) := by
  cases hchange with
  | none | taken => exact ⟨rfl, rfl, Or.inr rfl⟩
  | @dropped j a v it | @enqueued j a v it =>
    have hij : i ≠ j := by
      rintro rfl
      exact hl it rfl
    simp [drop, enqueue, made, hij]
  | @returned _ j _ _ _ _ | @kept _ j _ _ _ _ | killed j | @deleted j _ _ =>
    by_cases hij : i = j
    · subst hij
      simp
    · simp [hij]

/-- A step that is no iteration of receiver `i` leaves its replies alone. -/
theorem step_quiet (h : S.JobsInv service) {l : Label ι} (hl : l.Quiet i) :
    ((S.step service l).receivers i).up = (S.receivers i).up ∧
      ((S.step service l).receivers i).reply = (S.receivers i).reply ∧
      ((S.step service l).receivers i).sent = (S.receivers i).sent := by
  by_cases hthread : ∃ it, l = .thread i it
  · obtain ⟨it, rfl⟩ := hthread
    have hstep : S.step service (.thread i it) = S := by simp [step, thread, hl rfl]
    rw [hstep]
    exact ⟨rfl, rfl, rfl⟩
  · obtain ⟨hreply, hsent, rfl | hup⟩ :=
      (h.change l).of_ne_thread (i := i) fun it he => hthread ⟨it, he⟩
    · exact hl.elim
    · exact ⟨hup, hreply, hsent⟩

/-! ## The reply message -/

omit [DecidableEq ι] in
theorem length_sendReply (a : ReceiverArgs ι) (identity header : Buffer) (it : Iteration) :
    (a.sendReply identity header it).reply.length ≤ a.reply.length := by
  have hcopy : (copyReply a.reply header).length = a.reply.length := by simp [copyReply]
  unfold ReceiverArgs.sendReply
  cases it.sendIdentity with
  | false => exact le_of_eq hcopy
  | true =>
    cases it.sendReply with
    | false => exact le_of_eq hcopy
    | true => exact Nat.zero_le _

/-- The reply message has at most the four bytes the constructor gave it. -/
def RepliesFit (S : System ι) : Prop := ∀ i, (S.receivers i).reply.length ≤ 4

theorem RepliesFit.update (h : S.RepliesFit) {a : ReceiverArgs ι} (ha : a.reply.length ≤ 4)
    (j : ι) : (Function.update S.receivers i a j).reply.length ≤ 4 := by
  by_cases hj : j = i
  · subst hj
    rwa [Function.update_self]
  · rw [Function.update_of_ne hj]
    exact h j

theorem RepliesFit.deliver (h : S.RepliesFit) {a : ReceiverArgs ι} (ha : a.reply.length ≤ 4)
    (v : VecId) (it : Iteration) : (S.deliver service i a v it).RepliesFit := by
  have hsent := fun identity header => (length_sendReply a identity header it).trans ha
  unfold System.deliver
  split
  split_ifs
  · exact h.update ha
  · exact h.update (hsent _ _)
  · exact h.update (hsent _ _)

theorem RepliesFit.thread (h : S.RepliesFit) (i : ι) (it : Iteration) :
    (S.thread service i it).RepliesFit := by
  cases hready : it.ready with
  | false => simpa [System.thread, hready] using h
  | true =>
    rw [thread_ready service S hready]
    have hmade : (S.made (S.takenBy i it).1).RepliesFit := h
    refine hmade.deliver ?_ _ _
    exact h i

theorem RepliesFit.step (h : S.RepliesFit) (hj : S.JobsInv service) (l : Label ι) :
    (S.step service l).RepliesFit := by
  cases l with
  | thread i it =>
    cases hup : (S.receivers i).up with
    | false =>
      have hstep : S.step service (.thread i it) = S := by simp [System.step, hup]
      rw [hstep]
      exact h
    | true =>
      have hstep : S.step service (.thread i it) = S.thread service i it := if_pos hup
      rw [hstep]
      exact h.thread i it
  | take _ | finish _ _ | kill _ | delete _ =>
    intro i
    rw [((hj.change _).of_ne_thread (i := i) (by simp)).1]
    exact h i

theorem repliesFit_exec (service : ι → Service) (ls : List (Label ι)) :
    (Runs.exec (System.step service) .start ls).RepliesFit := by
  have hkeeps : ∀ S l, (S.JobsInv service ∧ S.RepliesFit) → True →
      (System.step service S l).JobsInv service ∧ (System.step service S l).RepliesFit :=
    fun S l h _ => ⟨h.1.step l, h.2.step h.1 l⟩
  have hstart : (start : System ι).JobsInv service ∧ (start : System ι).RepliesFit :=
    ⟨.start service, fun _ => le_refl 4⟩
  exact (Runs.exec_invariant (P := fun _ _ => True) hkeeps hstart fun _ _ _ => trivial).2

/-- **An accepted packet** is answered with what the reply message can hold, and leaves the reply
    message empty. -/
theorem step_packet (service : ι → Service) (h : S.VectorsInv) (hup : (S.receivers i).up = true)
    (m : Packet) (vecPick jobPick : Option Nat) :
    let T := S.step service (.thread i (.ofParts m.identity m.header m.data vecPick jobPick))
    (T.receivers i).up = true ∧ (T.receivers i).reply = [] ∧ (T.receivers i).sent =
      (S.receivers i).sent ++
        [(m.identity.bytes, true), (copyReply (S.receivers i).reply m.header, false)] := by
  have hempty := (taken_getNew S i vecPick).empty h
  simp [step, hup, thread, deliver, Iteration.ofParts, made, hempty, receive, enqueue,
    ReceiverArgs.sendReply]

end System

theorem sent_exec [DecidableEq ι] (service : ι → Service) (i : ι) (events : List (Event i))
    {S : System ι} (hjobs : S.JobsInv service) (hvectors : S.VectorsInv)
    (hup : (S.receivers i).up = true) :
    ((Runs.exec (System.step service) S (events.map Event.label)).receivers i).sent =
      (S.receivers i).sent ++
        acknowledge (S.receivers i).reply (events.filterMap Event.packet?) := by
  induction events generalizing S with
  | nil => simp [acknowledge]
  | cons e events ih =>
    cases e with
    | packet m vecPick jobPick =>
      obtain ⟨hup', hreply, hsent⟩ := System.step_packet service hvectors hup m vecPick jobPick
      have hl : S.LastDropped (Event.packet (i := i) m vecPick jobPick).label := trivial
      have hrest := ih (hjobs.step _) (hvectors.step hjobs hl) hup'
      rw [Event.label, hreply, hsent] at hrest
      rw [List.filterMap_cons_some (f := Event.packet?) rfl, acknowledge, ← List.append_assoc]
      exact hrest
    | other l quiet =>
      obtain ⟨hup', hreply, hsent⟩ := System.step_quiet hjobs quiet
      have hl : S.LastDropped l := by
        cases l with
        | thread _ _ | take _ | finish _ _ => trivial
        | kill _ | delete _ => exact quiet.elim
      have hrest := ih (hjobs.step l) (hvectors.step hjobs hl) (hup'.trans hup)
      rw [hreply, hsent] at hrest
      rw [List.filterMap_cons_none (f := Event.packet?) rfl]
      exact hrest

/-- **Every accepted packet is acknowledged with its own number** in exactly the runs that accept at
    most one. -/
theorem acknowledged_iff [DecidableEq ι] (service : ι → Service) (i : ι) (events : List (Event i)) :
    ((Runs.exec (System.step service) .start (events.map Event.label)).receivers i).sent =
        (events.filterMap Event.packet?).flatMap expectedReply ↔
      (events.filterMap Event.packet?).length ≤ 1 := by
  rw [sent_exec service i events (.start service) .start rfl]
  exact acknowledge_eq_iff _

/-- A message with the number `n`. -/
def Packet.numbered (n : U8) : Packet where
  identity := ⟨[7#8], fun _ => 0⟩
  header := ⟨[n, 0#8, 0#8, 0#8], fun _ => 0⟩
  data := ⟨[], fun _ => 0⟩
  four_le := le_refl 4

/-- Two packets: the reply to the second is empty. -/
theorem not_acknowledged_twoPackets :
    let events : List (Event ()) :=
      [.packet (.numbered 1#8) none none, .packet (.numbered 2#8) none none]
    let S := Runs.exec (System.step fun _ => Service.idod) .start (events.map Event.label)
    (S.receivers ()).sent ≠ (events.filterMap Event.packet?).flatMap expectedReply := by
  decide

end HkRbu
