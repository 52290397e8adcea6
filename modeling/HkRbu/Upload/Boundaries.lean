import HkRbu.Decode.Reference
import HkRbu.Upload.Process
import Mathlib.Data.BitVec

/-!
# Message boundaries before sync objects

A sync object sets the bin, the time and the bad flag, so a hit that comes after one owes nothing
to the objects before it. A stream of objects can therefore be cut into messages before its sync
objects: the scans of the messages give, one after the other, the reduced hits that one scan of
the whole stream gives (`scanned_cut`).
-/

namespace HkRbu

/-! ## A sync ends the past -/

section PastBefore

variable (currentCounter : U64) {w₀ w₁ : U32} (type : w₀ >>> 30 = 0b10#32)
  (after before : List Obj)

theorem lastSync_append :
    lastSync (after ++ .sync w₀ w₁ type :: before) = lastSync (after ++ [.sync w₀ w₁ type]) := by
  induction after with
  | nil => rfl
  | cons o after ih =>
    cases o with
    | sync => rfl
    | hit | ped | error | special => exact ih

theorem syncCounter_append :
    syncCounter (after ++ .sync w₀ w₁ type :: before) =
      syncCounter (after ++ [.sync w₀ w₁ type]) := by
  rw [syncCounter, lastSync_append, syncCounter]

theorem syncIsBad_append :
    syncIsBad (after ++ .sync w₀ w₁ type :: before) =
      syncIsBad (after ++ [.sync w₀ w₁ type]) := by
  rw [syncIsBad, lastSync_append, syncIsBad]

theorem computedBin_append (o : Obj) :
    computedBin currentCounter (after ++ .sync w₀ w₁ type :: before) o =
      computedBin currentCounter (after ++ [.sync w₀ w₁ type]) o := by
  cases o with
  | ped => rw [computedBin, syncCounter_append, computedBin]
  | hit | sync | error | special => rfl

theorem lastBin_append :
    lastBin currentCounter (after ++ .sync w₀ w₁ type :: before) =
      lastBin currentCounter (after ++ [.sync w₀ w₁ type]) := by
  induction after with
  | nil => rfl
  | cons o after ih =>
    rw [List.cons_append, lastBin, computedBin_append, ih]
    rfl

/-- What is before a sync makes no difference to a hit after it. -/
theorem referenceFields_append (header : Buffer) (ids : IndexMap U32 U16) (o : Obj) :
    referenceFields header ids (after ++ .sync w₀ w₁ type :: before) o =
      referenceFields header ids (after ++ [.sync w₀ w₁ type]) o := by
  rw [referenceFields, syncCounter_append, syncIsBad_append]
  rfl

end PastBefore

/-! ## The reduced hits of a stream -/

/-- A reduced hit with its bin, wherever in the message its hit is. -/
def ReferenceHit.filed (r : ReferenceHit) : Nat × TPUHit.Fields := (r.bin, r.hit)

/-- The reduced hits of the objects `objs`, the oldest first. -/
def filedHits (inp : Inputs) (ids : IndexMap U32 U16) (objs : List Obj) :
    List (Nat × TPUHit.Fields) :=
  (referenceDecode inp ids objs.reverse).map ReferenceHit.filed

/-- The first object is a sync. -/
def BeginsWithSync (objs : List Obj) : Prop :=
  ∃ w₀ w₁ type rest, objs = .sync w₀ w₁ type :: rest

theorem map_filed_append (inp : Inputs) (ids : IndexMap U32 U16) {w₀ w₁ : U32}
    (type : w₀ >>> 30 = 0b10#32) (after before : List Obj) :
    (referenceDecode inp ids (after ++ .sync w₀ w₁ type :: before)).map ReferenceHit.filed =
      (referenceDecode inp ids before).map ReferenceHit.filed ++
        (referenceDecode inp ids (after ++ [.sync w₀ w₁ type])).map ReferenceHit.filed := by
  induction after with
  | nil => simp [referenceDecode, Obj.isHit]
  | cons o after ih =>
    -- What a hit gets from the objects before it, it gets from the sync and those after.
    have hlast : ((if o.isHit then
          [⟨lastBin inp.currentCounter (after ++ .sync w₀ w₁ type :: before),
            WellFormed.size (after ++ .sync w₀ w₁ type :: before),
            referenceFields inp.header ids (after ++ .sync w₀ w₁ type :: before) o⟩]
          else []).map ReferenceHit.filed) =
        ((if o.isHit then
          [⟨lastBin inp.currentCounter (after ++ [.sync w₀ w₁ type]),
            WellFormed.size (after ++ [.sync w₀ w₁ type]),
            referenceFields inp.header ids (after ++ [.sync w₀ w₁ type]) o⟩]
          else []).map ReferenceHit.filed) := by
      rw [lastBin_append, referenceFields_append]
      split <;> rfl
    rw [List.cons_append, referenceDecode, List.map_append, ih, hlast, List.append_assoc,
      ← List.map_append]
    rfl

/-- A stream that is cut before a sync files the hits of both parts. -/
theorem filedHits_append (inp : Inputs) (ids : IndexMap U32 U16) (first : List Obj)
    {second : List Obj} (h : BeginsWithSync second) :
    filedHits inp ids (first ++ second) =
      filedHits inp ids first ++ filedHits inp ids second := by
  obtain ⟨w₀, w₁, type, rest, rfl⟩ := h
  rw [filedHits, List.reverse_append, List.reverse_cons, List.append_assoc, List.singleton_append,
    map_filed_append, filedHits, filedHits, List.reverse_cons]

/-- **Cutting a stream** before syncs cuts its reduced hits. -/
theorem filedHits_flatten (inp : Inputs) (ids : IndexMap U32 U16) (first : List Obj)
    (rest : List (List Obj)) (hsync : ∀ objs ∈ rest, BeginsWithSync objs) :
    filedHits inp ids (first ++ rest.flatten) =
      (first :: rest).flatMap (filedHits inp ids) := by
  induction rest generalizing first with
  | nil => simp
  | cons second rest ih =>
    have hrest := ih (first ++ second) fun objs h => hsync objs (List.mem_cons_of_mem _ h)
    rw [List.flatten_cons, ← List.append_assoc, hrest, List.flatMap_cons,
      filedHits_append inp ids first (hsync second List.mem_cons_self), List.append_assoc,
      List.flatMap_cons, List.flatMap_cons]

/-! ## The scan of a message -/

/-- A message and the job and data model it is scanned with. -/
structure Piece where
  message : WellFormed
  job : Scan

namespace Piece

/-- The objects of the message. -/
def objs (c : Piece) : List Obj := c.message.objs

/-- The variables after the scan of the message. -/
def scanned (c : Piece) : Scan := c.job.run c.message.toInputs

/-- The header words and what the decoder takes from the data model are the same. -/
structure SameInputs (c c' : Piece) : Prop where
  header : DAQHeader.overlay c.message.header = DAQHeader.overlay c'.message.header
  currentCounter : c.message.currentCounter = c'.message.currentCounter
  pmtIdMap : ∀ k, IndexMap.get c.job.pmtIdMap k = IndexMap.get c'.job.pmtIdMap k

/-- The reduced hits of the objects, with their bins, decoded with the header and the data model of
    the piece. -/
def filed (c : Piece) (objs : List Obj) : List (Nat × TPUHit.Fields) :=
  filedHits c.message.toInputs c.job.pmtIdMap objs

theorem filed_congr {c c' : Piece} (h : c.SameInputs c') (objs : List Obj) :
    c.filed objs = c'.filed objs := by
  have hfields : ∀ past o, referenceFields c.message.header c.job.pmtIdMap past o =
      referenceFields c'.message.header c'.job.pmtIdMap past o := by
    intro past o
    rw [referenceFields, pmtKey, h.header, h.pmtIdMap]
    rfl
  have hdecode : ∀ past, referenceDecode c.message.toInputs c.job.pmtIdMap past =
      referenceDecode c'.message.toInputs c'.job.pmtIdMap past := by
    intro past
    induction past with
    | nil => rfl
    | cons o past ih => rw [referenceDecode, ih, hfields, h.currentCounter, referenceDecode]
  rw [filed, filedHits, hdecode]
  rfl

theorem decode_tpuHits (c : Piece) (b : U64) :
    (IndexMap.get c.scanned.tpuHitCollection b).map TPUHit.decode =
      ((c.filed c.objs).filter (·.1 = b.toNat)).map (·.2) := by
  rw [scanned, Scan.get_run_tpuHitCollection, decode_tpuAt, log_eq_referenceDecode, filed,
    filedHits, List.filter_map, List.map_map]
  rfl

theorem countP_isHitOf (log : List Insert) (p : U16) :
    log.countP (Insert.isHitOf p) =
      ((log.filterMap Insert.reduced).map ReferenceHit.filed).countP (·.2.pmtID = p) := by
  induction log with
  | nil => rfl
  | cons i log ih =>
    cases i with
    | header | segment =>
      rw [List.countP_cons_of_neg (by simp [Insert.isHitOf]), ih]
      rfl
    | tpuHit b pos h =>
      rw [List.countP_cons, ih, List.filterMap_cons, Insert.reduced, List.map_cons,
        List.countP_cons]
      rfl

theorem pmtCounters (c : Piece) (p : U16) :
    IndexMap.get c.scanned.pmtCounters p =
      BitVec.ofNat 64 ((c.filed c.objs).countP (·.2.pmtID = p)) := by
  rw [scanned, (run_tally c.message.toInputs c.job).2, countP_isHitOf, log_eq_referenceDecode]
  rfl

end Piece

theorem map_flatMap_filter {α β : Type} (cs : List α) (f : α → List (Nat × β)) (n : Nat) :
    ((cs.flatMap f).filter (·.1 = n)).map (·.2) =
      cs.flatMap fun c => ((f c).filter (·.1 = n)).map (·.2) := by
  induction cs with
  | nil => rfl
  | cons c cs ih => simp only [List.flatMap_cons, List.filter_append, List.map_append, ih]

theorem ofNat_countP_flatMap {α β : Type} (cs : List α) (f : α → List β) (q : β → Bool) :
    BitVec.ofNat 64 ((cs.flatMap f).countP q) =
      (cs.map fun c => BitVec.ofNat 64 ((f c).countP q)).sum := by
  induction cs with
  | nil => rfl
  | cons c cs ih =>
    rw [List.flatMap_cons, List.countP_append, BitVec.ofNat_add, ih, List.map_cons, List.sum_cons]

/-- **Message boundaries before syncs do not matter.** Where a stream is cut into a first message
    and further ones that each begin with a sync, the scans of the messages give the reduced hits of
    the uncut stream, bin by bin and in order, and their counts add up to its counts. -/
theorem scanned_cut (whole first : Piece) (rest : List Piece)
    (hobjs : whole.objs = first.objs ++ (rest.map Piece.objs).flatten)
    (hsync : ∀ c ∈ rest, BeginsWithSync c.objs)
    (hsame : ∀ c ∈ first :: rest, c.SameInputs whole) :
    (∀ b, IndexMap.get whole.scanned.tpuHitCollection b =
      (first :: rest).flatMap fun c => IndexMap.get c.scanned.tpuHitCollection b) ∧
    ∀ p, IndexMap.get whole.scanned.pmtCounters p =
      ((first :: rest).map fun c => IndexMap.get c.scanned.pmtCounters p).sum := by
  have hsyncs : ∀ objs ∈ rest.map Piece.objs, BeginsWithSync objs := by
    intro objs h
    obtain ⟨c, hc, rfl⟩ := List.mem_map.mp h
    exact hsync c hc
  have hfiled : whole.filed whole.objs = (first :: rest).flatMap fun c => c.filed c.objs := by
    rw [hobjs, Piece.filed, filedHits_flatten _ _ _ _ hsyncs, ← List.map_cons, List.flatMap_map]
    refine List.flatMap_congr ?_
    intro c hc
    exact (Piece.filed_congr (hsame c hc) c.objs).symm
  constructor
  · intro b
    -- The lists have the same decoded hits, and the words of a hit are determined by these.
    refine List.map_injective_iff.mpr TPUHit.decode_injective ?_
    rw [whole.decode_tpuHits, hfiled, map_flatMap_filter, List.map_flatMap]
    refine List.flatMap_congr ?_
    intro c _
    exact (c.decode_tpuHits b).symm
  · intro p
    rw [whole.pmtCounters, hfiled, ofNat_countP_flatMap]
    refine congrArg List.sum (List.map_congr_left ?_)
    intro c _
    exact (c.pmtCounters p).symm

/-- A stream of two syncs, each with a hit, cut before the second sync. -/
theorem scanned_cut_twoSyncs :
    let whole : Piece :=
      ⟨.sample [.syncAt 0, .plainHit, .syncAt 1024, .plainHit], .new⟩
    let first : Piece := ⟨.sample [.syncAt 0, .plainHit], .new⟩
    let second : Piece := ⟨.sample [.syncAt 1024, .plainHit], .new⟩
    IndexMap.get whole.scanned.tpuHitCollection 1 =
      [first, second].flatMap fun c => IndexMap.get c.scanned.tpuHitCollection 1 := by
  refine (scanned_cut _ _ [_] rfl ?_ ?_).1 1
  · intro c hc
    rw [List.mem_singleton.mp hc]
    exact ⟨_, _, _, _, rfl⟩
  · intro c hc
    rcases List.mem_pair.mp hc with rfl | rfl
    · exact ⟨rfl, rfl, fun _ => rfl⟩
    · exact ⟨rfl, rfl, fun _ => rfl⟩

end HkRbu
