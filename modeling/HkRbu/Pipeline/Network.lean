import HkRbu.Encode.FakeData
import HkRbu.Pipeline.Outcome
import HkRbu.Pipeline.Progress

/-!
# Simulated cards and the pipeline

The whole path of a hit: the cards of `fakedata.cpp`, their messages on the way, and the pipeline
that receives them. A message on the way may be received by any receiver of the IDOD service, in
any order, or be lost; nothing else brings a message in. What has been sent is on the way, or is
accepted by the pipeline or lost (`exists_run`). So no bin ever has a hit that no card has made
(`none_invented`); a run that has lost nothing and is done has every hit of every card in the bin of
its sync (`hits_arrive`); and it can always be done (`can_arrive`). The counters follow as far as
accesses to them are atomic (`Worker.next`).
-/

namespace HkRbu

/-- The simulated cards, what they have sent and is still under way, and the receiving side. -/
structure Network (κ ι : Type) (n m : Nat) where
  senders : κ → FakeSender
  inFlight : List (FakePacket n m)
  pipeline : Pipeline ι

/-- An accepted message: what was sent, and what lies behind its parts in the receiver's memory. -/
structure Arrival (n m : Nat) where
  packet : FakePacket n m
  afterHeader : Nat → U8
  afterData : Nat → U8

/-- The message that arrives, with what lies behind its parts in memory. -/
def Arrival.message {n m : Nat} (currentCounter : U64) (a : Arrival n m) : WellFormed :=
  a.packet.message currentCounter a.afterHeader a.afterData

/-- The label brings no message in. -/
def Pipeline.Label.Quiet {ι : Type} : Pipeline.Label ι → Prop
  | .thread _ it => it.message = none
  | .kill _ | .take .. | .work .. | .finish .. => True

instance {ι : Type} : DecidablePred (@Pipeline.Label.Quiet ι)
  | .thread _ it => inferInstanceAs (Decidable (it.message = none))
  | .kill _ | .take .. | .work .. | .finish .. => inferInstanceAs (Decidable True)

namespace Network

variable {κ ι : Type} {n m : Nat}

/-- What can happen: a card sends a message; a receiver reads the `j`-th one in flight, or it is
    lost; something happens on the receiving side. -/
inductive Label (κ ι : Type) (n m : Nat) where
  | send (k : κ) (x : FakeMessage n m)
  | receive (j : Nat) (i : ι) (identity : Buffer) (afterHeader afterData : Nat → U8)
      (vecPick jobPick : Option Nat)
  | lose (j : Nat)
  | inside (l : Pipeline.Label ι)

/-- Nothing is lost and no job is given up. -/
def Label.Keeps : Label κ ι n m → Prop
  | .lose _ | .inside (.finish _ false) => False
  | _ => True

/-- Nothing has been sent. -/
def start (uninit : κ → DAQHeader) (currentCounter : U64) (dm : DataModel) : Network κ ι n m where
  senders k := .start (uninit k)
  inFlight := []
  pipeline := .start currentCounter dm

variable [DecidableEq κ] [DecidableEq ι] (service : ι → Service)

/-- The receivers of the other service are not connected to the simulated cards. -/
def step (N : Network κ ι n m) : Label κ ι n m → Network κ ι n m
  | .send k x =>
    { N with
      senders := Function.update N.senders k ((N.senders k).send x).1
      inFlight := N.inFlight ++ [((N.senders k).send x).2] }
  | .receive j i identity afterHeader afterData vecPick jobPick =>
    match N.inFlight[j]? with
    | some p =>
      if (N.pipeline.receivers i).up = true ∧ service i = .idod then
        { N with
          inFlight := N.inFlight.eraseIdx j
          pipeline := N.pipeline.step service (.thread i (.ofParts identity
            (.memcpy p.header.getData afterHeader) (.memcpy p.body.data afterData)
            vecPick jobPick)) }
      else N
    | none => N
  | .lose j => { N with inFlight := N.inFlight.eraseIdx j }
  | .inside l => if l.Quiet then { N with pipeline := N.pipeline.step service l } else N

/-- What a card sends. -/
def record (N : Network κ ι n m) : Label κ ι n m → List (FakePacket n m)
  | .send k x => [((N.senders k).send x).2]
  | .receive .. | .lose _ | .inside _ => []

/-- The state after a run from the start. -/
def exec (uninit : κ → DAQHeader) (currentCounter : U64) (dm : DataModel)
    (ls : List (Label κ ι n m)) : Network κ ι n m :=
  Runs.exec (step service) (start uninit currentCounter dm) ls

/-- What the cards have sent, in order. -/
def sent (uninit : κ → DAQHeader) (currentCounter : U64) (dm : DataModel)
    (ls : List (Label κ ι n m)) : List (FakePacket n m) :=
  Runs.journal (step service) record (start uninit currentCounter dm) ls

/-! ## The pipeline in it -/

/-- The pipeline has come to where it is by a run of its own, in which it has accepted `arrived`,
    and the messages `lost` are not on the way any more. -/
structure Follows (currentCounter : U64) (dm₀ : DataModel) (sent : List (FakePacket n m))
    (N : Network κ ι n m) (ls : List (Pipeline.Label ι)) (arrived : List (Arrival n m))
    (lost : List (FakePacket n m)) : Prop where
  pipeline : N.pipeline = Pipeline.exec service currentCounter dm₀ ls
  accepted : Pipeline.messages currentCounter (Pipeline.journal service currentCounter dm₀ ls) =
    arrived.map fun a => (a.message currentCounter).toInputs
  sent : (arrived.map Arrival.packet ++ N.inFlight ++ lost).Perm sent

omit [DecidableEq κ] in
theorem messages_quiet (currentCounter : U64) (P : Pipeline ι) {l : Pipeline.Label ι}
    (hl : l.Quiet) : Pipeline.messages currentCounter (P.record service l) = [] := by
  have heffect := P.step_effect service l
  generalize P.record service l = es, P.step service l = P' at heffect
  cases heffect with
  | none | kill | take => rfl
  | thread i it =>
    have hmessage : it.message = none := hl
    rw [hmessage]
    split_ifs <;> rfl
  | work =>
    rw [Pipeline.messages, List.filterMap_map]
    exact List.filterMap_eq_nil_iff.mpr fun _ _ => rfl
  | finish => split_ifs <;> rfl

namespace Follows

variable {service} {currentCounter : U64} {dm₀ : DataModel} {before : List (FakePacket n m)}
  {N : Network κ ι n m} {ls : List (Pipeline.Label ι)} {arrived : List (Arrival n m)}
  {lost : List (FakePacket n m)}

omit [DecidableEq κ] in
/-- A step of the pipeline that accepts the messages `new`. -/
theorem concat (h : Follows service currentCounter dm₀ before N ls arrived lost)
    (l : Pipeline.Label ι) (new : List (Arrival n m))
    (hnew : Pipeline.messages currentCounter (N.pipeline.record service l) =
      new.map fun a => (a.message currentCounter).toInputs) {inFlight : List (FakePacket n m)}
    (hsent : (new.map Arrival.packet ++ inFlight).Perm N.inFlight) :
    Follows service currentCounter dm₀ before
      ⟨N.senders, inFlight, N.pipeline.step service l⟩ (ls ++ [l]) (arrived ++ new) lost where
  pipeline := (congrArg (Pipeline.step service · l) h.pipeline).trans
    (Runs.exec_concat _ _ _ _).symm
  accepted := by
    rw [h.pipeline] at hnew
    rw [Pipeline.journal, Runs.journal_concat, Pipeline.messages, List.filterMap_append,
      List.map_append, ← h.accepted, ← hnew]
    rfl
  sent := by
    rw [List.map_append, List.append_assoc (arrived.map _)]
    exact ((hsent.append_left _).append_right _).trans h.sent

theorem step (h : Follows service currentCounter dm₀ before N ls arrived lost)
    (l : Label κ ι n m) :
    ∃ ls' arrived' lost', Follows service currentCounter dm₀ (before ++ N.record l)
        (N.step service l) (ls ++ ls') arrived' lost' ∧
      (l.Keeps → lost' = lost ∧ ∀ k, .finish k false ∉ ls') := by
  have hidle : Follows service currentCounter dm₀ (before ++ []) N (ls ++ []) arrived lost := by
    rw [List.append_nil, List.append_nil]
    exact h
  have hnone : ∀ k, .finish k false ∉ ([] : List (Pipeline.Label ι)) := fun _ => List.not_mem_nil
  cases l with
  | send k x =>
    let p := ((N.senders k).send x).2
    refine ⟨[], arrived, lost, ⟨hidle.pipeline, hidle.accepted, ?_⟩, fun _ => ⟨rfl, hnone⟩⟩
    have hsplit : arrived.map Arrival.packet ++ (N.inFlight ++ [p]) ++ lost =
        arrived.map Arrival.packet ++ N.inFlight ++ p :: lost := by simp
    exact (List.Perm.of_eq hsplit).trans ((List.perm_middle.trans (h.sent.cons p)).trans
      (List.perm_append_singleton p before).symm)
  | lose j =>
    rw [record, Network.step]
    rcases Nat.lt_or_ge j N.inFlight.length with hlt | hge
    · let p := N.inFlight[j]
      refine ⟨[], arrived, p :: lost, ⟨hidle.pipeline, hidle.accepted, ?_⟩, fun h => absurd h id⟩
      have hlose : (N.inFlight.eraseIdx j ++ p :: lost).Perm (N.inFlight ++ lost) :=
        List.perm_middle.trans ((List.getElem_cons_eraseIdx_perm hlt).append_right lost)
      rw [List.append_assoc, List.append_nil]
      exact (hlose.append_left _).trans ((List.Perm.of_eq (List.append_assoc _ _ _).symm).trans
        h.sent)
    · rw [List.eraseIdx_of_length_le hge]
      exact ⟨[], arrived, lost, hidle, fun h => absurd h id⟩
  | receive j i identity afterHeader afterData vecPick jobPick =>
    rw [record, Network.step]
    cases hj : N.inFlight[j]? with
    | none => exact ⟨[], arrived, lost, hidle, fun _ => ⟨rfl, hnone⟩⟩
    | some p =>
      obtain ⟨hlt, rfl⟩ := List.getElem?_eq_some_iff.mp hj
      split_ifs with hidod
      · let it : Iteration := .ofParts identity (.memcpy N.inFlight[j].header.getData afterHeader)
          (.memcpy N.inFlight[j].body.data afterData) vecPick jobPick
        rw [List.append_nil]
        refine ⟨[.thread i it], _, lost, h.concat (.thread i it)
          [⟨N.inFlight[j], afterHeader, afterData⟩] ?_ ?_, fun _ => ⟨rfl, by simp⟩⟩
        · rw [Pipeline.record, if_pos hidod]
          rfl
        · exact List.getElem_cons_eraseIdx_perm hlt
      · exact ⟨[], arrived, lost, hidle, fun _ => ⟨rfl, hnone⟩⟩
  | inside l =>
    rw [record, Network.step]
    split_ifs with hquiet
    · rw [List.append_nil]
      refine ⟨[l], _, lost, h.concat l [] (messages_quiet service currentCounter _ hquiet)
        (List.Perm.refl _), fun hkeeps => ⟨rfl, ?_⟩⟩
      intro k hk
      rw [List.mem_singleton] at hk
      subst hk
      exact hkeeps
    · exact ⟨[], arrived, lost, hidle, fun _ => ⟨rfl, hnone⟩⟩

end Follows

/-- **What has been sent is on the way, accepted or lost**, in every run. -/
theorem exists_run (uninit : κ → DAQHeader) (currentCounter : U64) (dm₀ : DataModel)
    (ls : List (Label κ ι n m)) :
    ∃ ls' arrived lost,
      Follows service currentCounter dm₀ (sent service uninit currentCounter dm₀ ls)
        (exec service uninit currentCounter dm₀ ls) ls' arrived lost ∧
      ((∀ l ∈ ls, l.Keeps) → lost = [] ∧ ∀ k, .finish k false ∉ ls') := by
  induction ls using List.reverseRecOn with
  | nil =>
    exact ⟨[], [], [], ⟨rfl, rfl, List.Perm.refl _⟩, fun _ => ⟨rfl, fun _ => List.not_mem_nil⟩⟩
  | append_singleton ls l ih =>
    obtain ⟨ls', arrived, lost, h, hkept⟩ := ih
    rw [sent, Runs.journal_concat, exec, Runs.exec_concat]
    obtain ⟨ls'', arrived', lost', h', hkept'⟩ := h.step l
    refine ⟨ls' ++ ls'', arrived', lost', h', fun hkeeps => ?_⟩
    obtain ⟨hlost, hfinish⟩ := hkept fun x hx => hkeeps x (List.mem_append_left _ hx)
    obtain ⟨hlost', hfinish'⟩ := hkept' (hkeeps l (by simp))
    refine ⟨hlost'.trans hlost, fun k hk => ?_⟩
    exact (List.mem_append.mp hk).elim (hfinish k) (hfinish' k)

end Network

/-! ## What arrives -/

namespace Arrival

variable {n m : Nat} (currentCounter : U64) (ids : IndexMap U32 U16) (a : Arrival n m)

theorem decode_scanned (b : U64) :
    (IndexMap.get ((a.message currentCounter).toInputs.scanned ids).tpuHitCollection b).map
        TPUHit.decode =
      ((a.packet.filed currentCounter ids).filter (·.1 = b.toNat)).map (·.2) := by
  refine (Piece.decode_tpuHits ⟨a.message currentCounter, { DataReceiverJobArgs.new with
    pmtIdMap := ids }⟩ b).trans ?_
  rw [← a.packet.filedHits_message currentCounter ids a.afterHeader a.afterData]
  rfl

theorem pmtCounters_scanned (q : U16) :
    IndexMap.get ((a.message currentCounter).toInputs.scanned ids).pmtCounters q =
      BitVec.ofNat 64 ((a.packet.filed currentCounter ids).countP (·.2.pmtID = q)) := by
  refine (Piece.pmtCounters ⟨a.message currentCounter, { DataReceiverJobArgs.new with
    pmtIdMap := ids }⟩ q).trans ?_
  rw [← a.packet.filedHits_message currentCounter ids a.afterHeader a.afterData]
  rfl

theorem card_message :
    (a.message currentCounter).toInputs.card = BitVec.ofNat 16 (a.packet.body.rand % 2000) :=
  (congrArg DAQHeader.getCardID (a.packet.header.overlay_memcpy a.afterHeader)).trans
    a.packet.cardID_eq

end Arrival

namespace Network

variable {κ ι : Type} {n m : Nat} [DecidableEq κ] [DecidableEq ι] (service : ι → Service)
  (uninit : κ → DAQHeader) (currentCounter : U64) {dm₀ : DataModel}

/-- The data model has gained what the messages `sent` are made of. The hits of a bin are those made
    after a sync of the bin, message after message in some order. -/
structure Gained (ids : IndexMap U32 U16) (sent : List (FakePacket n m)) (v v' : View) : Prop where
  made : (sent.flatMap (·.filed currentCounter ids)).length = sent.length * (n * m)
  reduced : ∀ b, ∃ order : List (FakePacket n m), order.Perm sent ∧
    (v'.reduced b).map TPUHit.decode = (v.reduced b).map TPUHit.decode ++
      order.flatMap fun p => ((p.filed currentCounter ids).filter (·.1 = b.toNat)).map (·.2)
  pmt : ∀ q, v'.pmt q = v.pmt q +
    BitVec.ofNat 64 ((sent.flatMap (·.filed currentCounter ids)).countP (·.2.pmtID = q))
  card : ∀ c, v'.card c = v.card c +
    BitVec.ofNat 64 (sent.countP fun p => BitVec.ofNat 16 (p.body.rand % 2000) = c)

variable {currentCounter}

omit [DecidableEq ι] in
/-- What the messages add to the data model is what the cards have made. -/
theorem gained_of_gains {ids : IndexMap U32 U16} {sent : List (FakePacket n m)}
    {arrived : List (Arrival n m)} {v v' : View}
    (h : View.Gains ids (arrived.map fun a => (a.message currentCounter).toInputs) v v')
    (hperm : (arrived.map Arrival.packet).Perm sent) : Gained currentCounter ids sent v v' where
  made := by
    rw [List.length_flatMap, List.map_congr_left fun p _ => p.length_filed _ _, List.map_const',
      List.sum_replicate_nat]
  reduced b := by
    obtain ⟨order, horder, hreduced⟩ := h.reduced b
    obtain ⟨order', horder', rfl⟩ := Chunks.exists_of_perm_map horder
    refine ⟨order'.map Arrival.packet, (horder'.map _).trans hperm, ?_⟩
    rw [hreduced, List.map_append, List.flatMap_map, List.map_flatMap, List.flatMap_map]
    simp only [Arrival.decode_scanned]
  pmt q := by
    have hsum := h.pmt q
    rw [List.map_map] at hsum
    rw [hsum, ← (hperm.flatMap_right _).countP_eq, List.flatMap_map, ofNat_countP_flatMap]
    simp only [Function.comp_def, Arrival.pmtCounters_scanned]
  card c := by
    rw [h.card c, ← hperm.countP_eq, List.countP_map, List.countP_map]
    simp only [Function.comp_def, Arrival.card_message]

omit [DecidableEq κ] in
variable {service} in

/-- If nothing was lost and nothing is under way any more, the data model has gained what was
    sent. -/
theorem Follows.gained {sent : List (FakePacket n m)} {N : Network κ ι n m}
    {ls : List (Pipeline.Label ι)} {arrived : List (Arrival n m)}
    (h : Follows service currentCounter dm₀ sent N ls arrived []) (h₀ : dm₀.Distinct)
    (hkept : ∀ k, .finish k false ∉ ls) (hempty : N.inFlight = [])
    (hdrained : N.pipeline.Drained) :
    Gained currentCounter dm₀.pmtIdMap sent dm₀.view N.pipeline.dataModel.view := by
  have hperm := h.sent
  rw [hempty, List.append_nil, List.append_nil] at hperm
  rw [h.pipeline] at hdrained ⊢
  have hgains := Pipeline.drained_gains service currentCounter ls h₀ hdrained
    (Pipeline.failed_notMem_journal service currentCounter ls hkept)
  rw [h.accepted] at hgains
  exact gained_of_gains hgains hperm

variable (currentCounter)

/-- A card sends a message of a sync and a hit, and one worker works on it. -/
def sampleNetwork : List (Label Unit Unit 1 1) :=
  let work : Label Unit Unit 1 1 := .inside (.work 0 .counting fun _ => default)
  [.send () ⟨1000, 7, [⟨1000000000, 1, 2, [⟨1000000500, 3, 0x01005000⟩], rfl⟩], rfl⟩,
    .receive 0 () ⟨[], fun _ => 0⟩ (fun _ => 0) (fun _ => 0) none none,
    .inside (.take 0 none)] ++ List.replicate 12 work ++ [.inside (.finish 0 true)]

/-- **No hit is made up or doubled.** In every state of every run, whatever is lost, held up or
    given up, a bin has gained hits that cards have made in it, with the clocks and the charges they were
    made with, and none more often than it was made. -/
theorem none_invented (h₀ : dm₀.Distinct) (ls : List (Label κ ι n m)) (b : U64) :
    ∃ hits : List TPUHit.Fields,
      ((exec service uninit currentCounter dm₀ ls).pipeline.dataModel.view.reduced b).map
          TPUHit.decode = (dm₀.view.reduced b).map TPUHit.decode ++ hits ∧
      hits.Subperm ((sent service uninit currentCounter dm₀ ls).flatMap fun p =>
        ((p.filed currentCounter dm₀.pmtIdMap).filter (·.1 = b.toNat)).map (·.2)) := by
  obtain ⟨ls', arrived, lost, h, -⟩ := exists_run service uninit currentCounter dm₀ ls
  obtain ⟨hits, hview, hsub⟩ := Pipeline.gained_reduced service currentCounter ls' h₀ b
  refine ⟨hits.map TPUHit.decode, ?_, ?_⟩
  · rw [h.pipeline, hview, List.map_append]
  · have harrived : (arrived.map Arrival.packet).Subperm
        (sent service uninit currentCounter dm₀ ls) := by
      refine List.Subperm.trans ?_ h.sent.subperm
      rw [List.append_assoc]
      exact (List.sublist_append_left _ _).subperm
    rw [h.accepted, List.flatMap_map] at hsub
    have hdecoded := List.Subperm.map TPUHit.decode_injective hsub
    simp only [List.map_flatMap, Arrival.decode_scanned] at hdecoded
    have hpackets := Chunks.subperm_flatMap harrived fun p : FakePacket n m =>
      ((p.filed currentCounter dm₀.pmtIdMap).filter (·.1 = b.toNat)).map (·.2)
    rw [List.flatMap_map] at hpackets
    exact hdecoded.trans hpackets

/-- One message is lost; the job of the next is given up when its hit is stored and not counted. -/
theorem none_invented_lost :
    let ls : List (Label Unit Unit 1 1) :=
      sampleNetwork.take 1 ++ .lose 0 :: sampleNetwork.take 12 ++ [.inside (.finish 0 false)]
    let N := exec (fun _ => .idod) (fun _ => ⟨fun _ => 0⟩) 0 (.empty ∅) ls
    (N.pipeline.dataModel.view.reduced 59).length = 1 ∧ N.pipeline.dataModel.view.pmt 0 = 0 ∧
      ∃ hits : List TPUHit.Fields,
        (N.pipeline.dataModel.view.reduced 59).map TPUHit.decode =
          ((DataModel.empty ∅).view.reduced 59).map TPUHit.decode ++ hits ∧
        hits.Subperm ((sent (fun _ => .idod) (fun _ => ⟨fun _ => 0⟩) 0 (.empty ∅) ls).flatMap
          fun p => ((p.filed 0 ∅).filter (·.1 = (59 : U64).toNat)).map (·.2)) := by
  have h₀ : (DataModel.empty ∅).Distinct := Aggregation.distinct_empty
  exact ⟨by decide +kernel, by decide +kernel,
    none_invented (fun _ => .idod) (fun _ => ⟨fun _ => 0⟩) 0 h₀ _ 59⟩

/-- **Every hit of every card arrives.** A run that has lost nothing and is done has every hit that
    the cards have made, in the bin of its sync, with the clock of its sync and its own, and no
    other; and the counters count the same hits and messages. -/
theorem hits_arrive (h₀ : dm₀.Distinct) {ls : List (Label κ ι n m)} (hkeeps : ∀ l ∈ ls, l.Keeps)
    (hempty : (exec service uninit currentCounter dm₀ ls).inFlight = [])
    (hdrained : (exec service uninit currentCounter dm₀ ls).pipeline.Drained) :
    Gained currentCounter dm₀.pmtIdMap (sent service uninit currentCounter dm₀ ls) dm₀.view
      (exec service uninit currentCounter dm₀ ls).pipeline.dataModel.view := by
  obtain ⟨ls', arrived, lost, h, hkept⟩ := exists_run service uninit currentCounter dm₀ ls
  obtain ⟨rfl, hfinish⟩ := hkept hkeeps
  exact h.gained h₀ hfinish hempty hdrained

theorem keeps_sampleNetwork : ∀ l ∈ sampleNetwork, l.Keeps := by
  intro l hl
  simp only [sampleNetwork, List.mem_append, List.mem_cons, List.mem_replicate, List.not_mem_nil,
    or_false] at hl
  rcases hl with ((rfl | rfl | rfl) | ⟨-, rfl⟩) | rfl
  all_goals exact trivial

theorem hits_arrive_sampleNetwork :
    Gained 0 ∅ (sent (fun _ => .idod) (fun _ => ⟨fun _ => 0⟩) 0 (.empty ∅) sampleNetwork)
      (DataModel.empty ∅).view
      (exec (fun _ => .idod) (fun _ => ⟨fun _ => 0⟩) 0 (.empty ∅)
        sampleNetwork).pipeline.dataModel.view := by
  have h₀ : (DataModel.empty ∅).Distinct := Aggregation.distinct_empty
  exact hits_arrive (fun _ => .idod) _ 0 h₀ keeps_sampleNetwork rfl ⟨rfl, rfl⟩

/-! ## It can always be done -/

/-- A message is received, or a worker goes on with a job it does not give up. -/
def Label.Moves : Label κ ι n m → Prop
  | .receive .. => True
  | .inside l => l.Works
  | .send .. | .lose _ => False

omit [DecidableEq κ] [DecidableEq ι] in
theorem Label.Moves.keeps {l : Label κ ι n m} (h : l.Moves) : l.Keeps := by
  cases l with
  | send | lose => exact absurd h id
  | receive => exact trivial
  | inside l =>
    cases l with
    | thread | kill | take | work => exact trivial
    | finish k ok =>
      cases ok with
      | false => exact h
      | true => exact trivial

theorem sent_moves (dm : DataModel) (ls : List (Label κ ι n m)) {ls' : List (Label κ ι n m)}
    (hmoves : ∀ l ∈ ls', l.Moves) :
    sent service uninit currentCounter dm (ls ++ ls') =
      sent service uninit currentCounter dm ls := by
  induction ls' using List.reverseRecOn with
  | nil => rw [List.append_nil]
  | append_singleton ls' l ih =>
    have hrecord : ∀ N : Network κ ι n m, N.record l = [] := by
      have hl := hmoves l (by simp)
      intro N
      cases l with
      | send => exact absurd hl id
      | receive | lose | inside => rfl
    rw [← List.append_assoc, sent, Runs.journal_concat, hrecord, List.append_nil]
    exact ih fun x hx => hmoves x (List.mem_append_left _ hx)

/-- A receiver can take in everything that is on the way. -/
theorem exists_received {i : ι} (hidod : service i = .idod) (N : Network κ ι n m)
    (hup : (N.pipeline.receivers i).up = true) :
    ∃ ls : List (Label κ ι n m), (∀ l ∈ ls, l.Moves) ∧
      (Runs.exec (step service) N ls).inFlight = [] := by
  induction hrest : N.inFlight generalizing N with
  | nil => exact ⟨[], fun _ h => absurd h List.not_mem_nil, hrest⟩
  | cons p rest ih =>
    let l : Label κ ι n m := .receive 0 i ⟨[], fun _ => 0⟩ (fun _ => 0) (fun _ => 0) none none
    have hstep : N.step service l = ⟨N.senders, rest, N.pipeline.step service (.thread i (.ofParts
        ⟨[], fun _ => 0⟩ (.memcpy p.header.getData fun _ => 0) (.memcpy p.body.data fun _ => 0)
        none none))⟩ := by
      simp [step, l, hrest, hup, hidod]
    obtain ⟨ls, hmoves, hempty⟩ := ih (N.step service l)
      (by rw [hstep]; exact (System.up_thread service N.pipeline.system i _).trans hup)
      (by rw [hstep])
    exact ⟨l :: ls, List.forall_mem_cons.mpr ⟨trivial, hmoves⟩, hempty⟩

/-- What the workers do inside. -/
theorem exec_inside (N : Network κ ι n m) {ls : List (Pipeline.Label ι)}
    (hworks : ∀ l ∈ ls, l.Works) :
    Runs.exec (step service) N (ls.map .inside) =
      { N with pipeline := Runs.exec (Pipeline.step service) N.pipeline ls } := by
  induction ls generalizing N with
  | nil => rfl
  | cons l ls ih =>
    have hquiet : l.Quiet := by
      cases l with
      | thread => exact absurd (hworks _ List.mem_cons_self) id
      | kill | take | work | finish => exact trivial
    have hstep : N.step service (.inside l) =
        { N with pipeline := N.pipeline.step service l } := if_pos hquiet
    refine (ih (N.step service (.inside l)) fun x hx =>
      hworks x (List.mem_cons_of_mem l hx)).trans ?_
    rw [hstep]
    rfl

/-- The workers can finish everything that is accepted. -/
theorem exists_drained (N : Network κ ι n m)
    (h : Pipeline.Inv service currentCounter dm₀ N.pipeline) :
    ∃ ls : List (Label κ ι n m), (∀ l ∈ ls, l.Moves) ∧
      (Runs.exec (step service) N ls).inFlight = N.inFlight ∧
      (Runs.exec (step service) N ls).pipeline.Drained := by
  obtain ⟨ls, hworks, -, hdrained⟩ :=
    Runs.exists_done Pipeline.Inv.steps (fun _ h => h.exists_work) h
  refine ⟨ls.map .inside, ?_, ?_, ?_⟩
  · intro l hl
    obtain ⟨l', hl', rfl⟩ := List.mem_map.mp hl
    exact hworks l' hl'
  · rw [exec_inside service N hworks]
  · rw [exec_inside service N hworks]
    exact hdrained

/-- **Every hit can always arrive.** From every state of a run that has lost nothing, as long as a
    receiver of the IDOD service is up, what is on the way can be received and worked on, and the
    data model has then gained all that has been sent. -/
theorem can_arrive (h₀ : dm₀.Distinct) {ls : List (Label κ ι n m)} (hkeeps : ∀ l ∈ ls, l.Keeps)
    {i : ι} (hidod : service i = .idod)
    (hup : ((exec service uninit currentCounter dm₀ ls).pipeline.receivers i).up = true) :
    ∃ ls' : List (Label κ ι n m), (∀ l ∈ ls', l.Moves) ∧
      Gained currentCounter dm₀.pmtIdMap (sent service uninit currentCounter dm₀ ls) dm₀.view
        (exec service uninit currentCounter dm₀ (ls ++ ls')).pipeline.dataModel.view := by
  obtain ⟨ls₁, hmoves₁, hempty⟩ := exists_received service hidod _ hup
  rw [exec, ← Runs.exec_append] at hempty
  obtain ⟨pls, _, _, h₁, -⟩ := exists_run service uninit currentCounter dm₀ (ls ++ ls₁)
  have hinv := Pipeline.inv_exec service currentCounter pls h₀
  rw [← h₁.pipeline] at hinv
  obtain ⟨ls₂, hmoves₂, hrest, hdrained⟩ := exists_drained service currentCounter _ hinv
  rw [exec, ← Runs.exec_append, List.append_assoc] at hrest hdrained
  have hmoves : ∀ l ∈ ls₁ ++ ls₂, l.Moves := fun l hl =>
    (List.mem_append.mp hl).elim (hmoves₁ l) (hmoves₂ l)
  have hkeeps₂ : ∀ l ∈ ls ++ (ls₁ ++ ls₂), l.Keeps := fun l hl =>
    (List.mem_append.mp hl).elim (hkeeps l) fun h => (hmoves l h).keeps
  obtain ⟨_, _, lost, h₂, hkept⟩ :=
    exists_run service uninit currentCounter dm₀ (ls ++ (ls₁ ++ ls₂))
  obtain ⟨rfl, hfinish⟩ := hkept hkeeps₂
  refine ⟨ls₁ ++ ls₂, hmoves, ?_⟩
  rw [← sent_moves service uninit currentCounter dm₀ ls hmoves]
  exact h₂.gained h₀ hfinish (hrest.trans hempty) hdrained

theorem can_arrive_sampleNetwork :
    let ls := sampleNetwork.take 2
    ∃ ls' : List (Label Unit Unit 1 1), (∀ l ∈ ls', l.Moves) ∧
      Gained 0 ∅ (sent (fun _ => .idod) (fun _ => ⟨fun _ => 0⟩) 0 (.empty ∅) ls)
        (DataModel.empty ∅).view
        (exec (fun _ => .idod) (fun _ => ⟨fun _ => 0⟩) 0 (.empty ∅)
          (ls ++ ls')).pipeline.dataModel.view := by
  have h₀ : (DataModel.empty ∅).Distinct := Aggregation.distinct_empty
  exact can_arrive (fun _ => .idod) _ 0 h₀
    (fun l hl => keeps_sampleNetwork l (List.mem_of_mem_take hl)) (i := ()) rfl rfl

end Network
end HkRbu
