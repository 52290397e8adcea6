import HkRbu.Decode.Completion
import HkRbu.Encode.Blocks
import HkRbu.Pipeline.Outcome
import HkRbu.Upload.Boundaries

/-!
# From the senders to the bins

What a drained run leaves, said of the objects in the messages and not of the scan: the bins have
the hits and the raw words of the reference decoder, whatever the messages are
(`drained_reference`), and where the senders have built the messages with the setters, the hits that
were encoded (`drained_encoded`).
-/

namespace HkRbu

/-! ## One message -/

namespace WellFormed

variable (m : WellFormed) (ids : IndexMap U32 U16)

theorem collections_scanned (b : U64) :
    IndexMap.get (m.toInputs.scanned ids).collections b = rawReference m b :=
  get_run_collections_eq m rfl b

theorem tpuHits_scanned (b : U64) :
    (IndexMap.get (m.toInputs.scanned ids).tpuHitCollection b).map TPUHit.decode =
      referenceBin m.toInputs ids m.objs.reverse b := by
  rw [Inputs.scanned, Scan.get_run_tpuHitCollection, decode_tpuAt, log_eq_referenceDecode,
    referenceBin]

/-- The reduced hits of a message, as the reference decodes it. -/
def decoded : List ReferenceHit := referenceDecode m.toInputs ids m.objs.reverse

theorem pmtCounters_scanned (p : U16) :
    IndexMap.get (m.toInputs.scanned ids).pmtCounters p =
      BitVec.ofNat 64 ((m.decoded ids).countP (·.hit.pmtID = p)) := by
  refine (Piece.pmtCounters ⟨m, { DataReceiverJobArgs.new with pmtIdMap := ids }⟩ p).trans ?_
  rw [Piece.filed, filedHits, List.countP_map]
  rfl

end WellFormed

theorem Inputs.scanned_eq (inp : Inputs) (ids : IndexMap U32 U16) :
    inp.completed.toInputs.scanned ids =
      { inp.scanned ids with words := inp.completed.data } :=
  Scan.run_completed { DataReceiverJobArgs.new with pmtIdMap := ids } inp

/-- What a sender of hits has sent: the header part, the blocks, and what lies in the receiver's
    memory after the part. -/
structure Sent where
  header : Buffer
  blocks : List Block
  beyond : Nat → U8

namespace Sent

/-- The hits of a sender, in the order of its message. -/
def hits (x : Sent) : List HitEncoding := x.blocks.flatMap Block.hits

/-- The message of a sender, as the receiver reads it. -/
def message (currentCounter : U64) (x : Sent) : WellFormed :=
  encoded x.header x.blocks x.beyond currentCounter fun _ => default

theorem payload_referenceBin (currentCounter : U64) (x : Sent) (ids : IndexMap U32 U16) (b : U64) :
    (referenceBin (x.message currentCounter).toInputs ids
        (x.message currentCounter).objs.reverse b).map TPUHit.Fields.payload =
      (x.hits.filter (·.bin currentCounter = b.toNat)).map HitEncoding.payload := by
  have hlocated := located_blocks (x.message currentCounter).toInputs ids x.blocks []
  rw [List.append_nil] at hlocated
  have hfilter := congrArg (fun l => (l.filter (·.1 = b.toNat)).map Prod.snd) hlocated
  rw [List.filter_map, List.map_map] at hfilter
  refine (List.map_map).trans (hfilter.trans ?_)
  rw [referenceDecode, List.map_nil, List.nil_append, List.filter_map, List.map_map]
  rfl

end Sent

/-! ## Drained runs -/

namespace Pipeline

variable {ι : Type} [DecidableEq ι] (service : ι → Service) (currentCounter : U64)
  {dm₀ : DataModel} (ls : List (Label ι))

/-- **A drained run refines the reference decoder**, whatever was received: every bin has gained the
    reduced hits and the raw words of the reference, message after message in some order, every
    PMT's counter the number of its reduced hits and every card's that of its messages. The
    reference is given the objects of a message, the last one completed from the memory behind it.
-/
theorem drained_reference (h₀ : dm₀.Distinct)
    (hdrained : (exec service currentCounter dm₀ ls).Drained)
    (hnone : .failed ∉ journal service currentCounter dm₀ ls) :
    let ms := messages currentCounter (journal service currentCounter dm₀ ls)
    let v := (exec service currentCounter dm₀ ls).dataModel.view
    (∀ b, ∃ order : List Inputs, order.Perm ms ∧
      (v.reduced b).map TPUHit.decode = (dm₀.view.reduced b).map TPUHit.decode ++
        order.flatMap fun m =>
          referenceBin m.completed.toInputs dm₀.pmtIdMap m.completed.objs.reverse b) ∧
    (∀ b, ∃ order : List Inputs, order.Perm ms ∧
      v.raw b = dm₀.view.raw b ++ order.flatMap fun m => rawReference m.completed b) ∧
    (∀ p, v.pmt p = dm₀.view.pmt p + BitVec.ofNat 64 ((ms.flatMap fun m =>
      m.completed.decoded dm₀.pmtIdMap).countP (·.hit.pmtID = p))) ∧
    ∀ c, v.card c = dm₀.view.card c + BitVec.ofNat 64 (ms.countP fun m => m.card = c) := by
  intro ms v
  have hgains := drained_gains service currentCounter ls h₀ hdrained hnone
  refine ⟨?_, ?_, ?_, hgains.card⟩
  · intro b
    obtain ⟨order, hperm, hreduced⟩ := hgains.reduced b
    refine ⟨order, hperm, ?_⟩
    rw [hreduced, List.map_append, List.map_flatMap]
    refine congrArg (_ ++ ·) (List.flatMap_congr fun m _ => ?_)
    have hscan := m.completed.tpuHits_scanned dm₀.pmtIdMap b
    rw [m.scanned_eq] at hscan
    exact hscan
  · intro b
    obtain ⟨order, hperm, hraw⟩ := hgains.raw b
    refine ⟨order, hperm, ?_⟩
    rw [hraw]
    refine congrArg (_ ++ ·) (List.flatMap_congr fun m _ => ?_)
    have hscan := m.completed.collections_scanned dm₀.pmtIdMap b
    rw [m.scanned_eq] at hscan
    exact hscan
  · intro p
    rw [hgains.pmt p, ofNat_countP_flatMap]
    refine congrArg (fun l => dm₀.view.pmt p + List.sum l) (List.map_congr_left fun m _ => ?_)
    have hscan := m.completed.pmtCounters_scanned dm₀.pmtIdMap p
    rw [m.scanned_eq] at hscan
    exact hscan

theorem drained_reference_sampleRun :
    let ls := sampleRun sampleMessages
    let ms := messages 0 (journal (fun _ => .idod) 0 (.empty ∅) ls)
    let v := (exec (fun _ => .idod) 0 (.empty ∅) ls).dataModel.view
    ∃ order : List Inputs, order.Perm ms ∧
      v.raw 1 = (DataModel.empty ∅).view.raw 1 ++
        order.flatMap fun m => rawReference m.completed 1 :=
  (drained_reference _ 0 _ Aggregation.distinct_empty ⟨rfl, rfl⟩
    (failed_notMem_journal _ 0 _ (finish_notMem_sampleRun _))).2.1 1

/-- One sender whose message has a sync and a hit of its window. -/
def sampleSent : Sent :=
  let sync : SyncEncoding := ⟨0x1234#32, .new, [.counter 0x1234#32], .set .default rfl⟩
  let hit : HitEncoding := .ofValues 0x12ab 7#16 true 5#16 3#8 1#8 (fun _ => 0) (by decide)
  ⟨.memcpy [0, 0, 0] fun _ => 0, [⟨sync, [hit], by decide⟩], fun _ => 0⟩

end Pipeline
end HkRbu
