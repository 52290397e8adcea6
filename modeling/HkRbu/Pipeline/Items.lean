import HkRbu.Pipeline.Writes

/-!
# What a message is to add to the data model

The items of a message are fixed when it arrives, by its parts and the PMT ids: its card, and what
its scan collects. A worker in the middle of its function owes what it has not written yet
(`Worker.owes`), and every step writes the first of what is owed (`Worker.Advances.owes`). The scan
reads `pmt_id_map` round by round, between the rounds of other workers; as they change no value in
it, it collects what it would collect alone (`Scan.Agree`).
-/

namespace HkRbu

/-! ## The items -/

/-- What the first append loop writes for the entries it still has to visit. -/
def rawItems (it : List (Σ _ : U64, List U32)) : List Item := it.map fun e => .raw e.1 e.2

/-- What the second append loop writes for the entries it still has to visit. -/
def reducedItems (it : List (Σ _ : U64, List TPUHit)) : List Item :=
  it.map fun e => .reduced e.1 e.2

/-- What the loop over the counts writes for the entries it still has to visit. -/
def countItems (it : List (Σ _ : U16, U64)) : List Item := it.map fun e => .count e.1 e.2

/-- What the upload and the merge write, when the scan has ended with these variables. -/
def DataReceiverJobArgs.items (a : DataReceiverJobArgs) : List Item :=
  .bins (UploadJob.bins ⟨a.collections, a.tpuHitCollection⟩) ::
    (rawItems a.collections.entries ++
      (reducedItems a.tpuHitCollection.entries ++ countItems a.pmtCounters.entries))

/-- The scan of a message by a job that is new. -/
def Inputs.scanned (ids : IndexMap U32 U16) (inp : Inputs) : Scan :=
  Scan.run inp { DataReceiverJobArgs.new with pmtIdMap := ids }

/-- What a message is to add to the data model. -/
def Inputs.items (ids : IndexMap U32 U16) (inp : Inputs) : List Item :=
  .card (DAQHeader.overlay inp.header).getCardID ::
    (inp.scanned ids).toDataReceiverJobArgs.items

namespace Scan

/-- The rest of the loop, and what comes after it. -/
def rest (inp : Inputs) (s : Scan) : Scan :=
  (Loop.run (more inp) (step inp) (inp.data.size / 4) s).finish

theorem run_eq_rest (inp : Inputs) (s : Scan) : s.run inp = (s.start inp).rest inp := rfl

theorem rest_step {inp : Inputs} {s : Scan} (h : more inp s = true) :
    (s.step inp).rest inp = s.rest inp := by
  refine congrArg finish (Loop.run_body (fun t => inp.data.size / 4 - t.currentWord) ?_
    (Nat.sub_le _ _) h)
  intro t ht
  have hlt := more_iff.mp ht
  have hstep := t.currentWord_lt_step inp
  omega

theorem rest_exit {inp : Inputs} {s : Scan} (h : more inp s = false) : s.rest inp = s.finish :=
  congrArg finish (Loop.run_of_not _ h _)

/-! ## Scans that differ in the map -/

/-- The same variables, and maps that give every key the same PMT. -/
structure Agree (s t : Scan) : Prop where
  args : s.toDataReceiverJobArgs = t.toDataReceiverJobArgs
  ids : ∀ k, IndexMap.get s.pmtIdMap k = IndexMap.get t.pmtIdMap k

variable {inp : Inputs} {s t : Scan}

theorem Agree.eq_with (h : Agree s t) : s = { t with pmtIdMap := s.pmtIdMap } := by
  obtain ⟨s, ids⟩ := s
  obtain rfl : s = t.toDataReceiverJobArgs := h.args
  rfl

theorem Agree.kind (h : Agree s t) : s.kind = t.kind := by
  rw [h.eq_with]
  rfl

theorem Agree.more (h : Agree s t) : Scan.more inp s = Scan.more inp t := by
  rw [h.eq_with]
  rfl

theorem Agree.finish (h : Agree s t) : s.finish.toDataReceiverJobArgs =
    t.finish.toDataReceiverJobArgs := by
  rw [h.eq_with]
  rfl

theorem Agree.start (hheader : s.header 0 = t.header 0)
    (hids : ∀ k, IndexMap.get s.pmtIdMap k = IndexMap.get t.pmtIdMap k) :
    Agree (s.start inp) (t.start inp) := by
  have hstart : ({ s with pmtIdMap := t.pmtIdMap } : Scan).start inp = t.start inp :=
    start_eq_start inp hheader rfl
  refine ⟨?_, hids⟩
  rw [← hstart]
  rfl

theorem fileObject_pmtIdMap (s : Scan) (ids : IndexMap U32 U16) (n words : Nat) :
    ({ s with pmtIdMap := ids } : Scan).fileObject n words =
      { s.fileObject n words with pmtIdMap := ids } := by
  rw [fileObject_eq, fileObject_eq]
  rfl

theorem arrive_pmtIdMap (inp : Inputs) (s : Scan) (ids : IndexMap U32 U16) :
    ({ s with pmtIdMap := ids } : Scan).arrive inp = { s.arrive inp with pmtIdMap := ids } := by
  have hkind : ({ s with pmtIdMap := ids } : Scan).kind = s.kind := rfl
  rw [arrive, arrive, hkind]
  cases s.kind <;> rfl

/-- **A round depends on the map through its values only.** -/
theorem Agree.step (h : Agree s t) : Agree (s.step inp) (t.step inp) := by
  constructor
  · have hpmtid : s.pmtid = t.pmtid := by
      have hinfo : s.pmtInfo = t.pmtInfo := by
        rw [h.eq_with]
        rfl
      rw [pmtid, pmtid, hinfo, h.ids]
    obtain ⟨hk, hs, -⟩ | ⟨hk, hs, -⟩ := s.step_cases inp
    · obtain ⟨-, ht, -⟩ | ⟨hk', -, -⟩ := t.step_cases inp
      · have hhit : s.reducedHit inp = t.reducedHit inp := by
          rw [reducedHit, reducedHit, hpmtid, h.eq_with]
          rfl
        rw [hs, ht, hitBranch, hitBranch, hhit, hpmtid, h.eq_with]
        rfl
      · exact absurd (h.kind.symm.trans hk) hk'
    · obtain ⟨hk', -, -⟩ | ⟨-, ht, -⟩ := t.step_cases inp
      · exact absurd (h.kind.trans hk') hk
      · rw [hs, ht, h.kind, h.eq_with, arrive_pmtIdMap, fileObject_pmtIdMap]
  · intro k
    rw [get_step_pmtIdMap, get_step_pmtIdMap, h.ids]

theorem Agree.rest (h : Agree s t) :
    (s.rest inp).toDataReceiverJobArgs = (t.rest inp).toDataReceiverJobArgs :=
  (Loop.run_related (fun _ _ h => h.more) (fun _ _ h _ => h.step) h (inp.data.size / 4)).finish

theorem rest_uninit (header data : Buffer) (currentCounter : U64) (uninit uninit' : Nat → TPUHit)
    (s : Scan) : s.rest ⟨header, data, currentCounter, uninit⟩ =
      s.rest ⟨header, data, currentCounter, uninit'⟩ := by
  rw [Scan.rest, Scan.rest, step_uninit header data currentCounter uninit uninit']
  rfl

end Scan

/-- The memory the reduced hits are constructed in makes no difference to the items. -/
theorem Inputs.items_uninit (ids : IndexMap U32 U16) (header data : Buffer) (currentCounter : U64)
    (uninit uninit' : Nat → TPUHit) :
    Inputs.items ids ⟨header, data, currentCounter, uninit⟩ =
      Inputs.items ids ⟨header, data, currentCounter, uninit'⟩ := by
  rw [Inputs.items, Inputs.items, Inputs.scanned, Inputs.scanned,
    Scan.run_congr header data currentCounter uninit uninit' rfl rfl]

/-- … and so do maps that give every key the same PMT. -/
theorem Inputs.items_congr (inp : Inputs) {ids ids' : IndexMap U32 U16}
    (h : ∀ k, IndexMap.get ids k = IndexMap.get ids' k) : inp.items ids = inp.items ids' := by
  have hstart : Scan.Agree (Scan.start inp { DataReceiverJobArgs.new with pmtIdMap := ids })
      (Scan.start inp { DataReceiverJobArgs.new with pmtIdMap := ids' }) := .start rfl h
  rw [items, items, scanned, scanned, Scan.run_eq_rest, Scan.run_eq_rest, hstart.rest]

/-! ## What a worker owes -/

namespace Worker

variable {ι : Type} {pool : TimeSlicePool} {inp : Inputs} {dm dm' : DataModel} {w w' : Worker ι}
  {written : List Item} {ids : IndexMap U32 U16}

/-- The items a worker has still to write, with the PMT ids `ids`. -/
def owes (ids : IndexMap U32 U16) (inp : Inputs) (w : Worker ι) : List Item :=
  match w.stage with
  | .entered => inp.items ids
  | .scanning =>
    (Scan.rest inp { w.args with pmtIdMap := ids }).toDataReceiverJobArgs.items
  | .uploading .built => w.args.items
  | .uploading (.uploading it _ tpuIt _) =>
    rawItems it ++ (reducedItems tpuIt ++ countItems w.args.pmtCounters.entries)
  | .merging it => countItems it

/-- What a job writes does not depend on the memory its hits are built in. -/
theorem owes_uninit (header data : Buffer) (currentCounter : U64) (uninit uninit' : Nat → TPUHit)
    (w : Worker ι) : w.owes ids ⟨header, data, currentCounter, uninit⟩ =
      w.owes ids ⟨header, data, currentCounter, uninit'⟩ := by
  unfold owes
  rw [Inputs.items_uninit ids header data currentCounter uninit uninit',
    Scan.rest_uninit header data currentCounter uninit uninit']

/-- **Every step writes what is owed first**, in a data model that gives the keys the PMTs of
    `ids`. -/
theorem Advances.owes (h : Advances pool inp dm w written dm' w')
    (hids : ∀ k, IndexMap.get dm.pmtIdMap k = IndexMap.get ids k) (hheader : w.args.header 0 = 0) :
    w.owes ids inp = written ++ w'.owes ids inp := by
  have hagree : Scan.Agree (w.scan dm) { w.args with pmtIdMap := ids } := ⟨rfl, hids⟩
  cases h with
  | enter at_ =>
    rw [Worker.owes, at_]
    have hargs : Scan.Agree ((w.scan dm).start inp)
        (Scan.start inp { DataReceiverJobArgs.new with pmtIdMap := ids }) := .start hheader hids
    have hstart : Scan.Agree (Scan.start inp { DataReceiverJobArgs.new with pmtIdMap := ids })
        { ((w.scan dm).start inp).toDataReceiverJobArgs with pmtIdMap := ids } :=
      ⟨hargs.args.symm, fun _ => rfl⟩
    show Item.card _ :: _ = _ :: _
    rw [Inputs.scanned, Scan.run_eq_rest, hstart.rest]
    rfl
  | round at_ more =>
    have hstep : Scan.Agree (Scan.step inp { w.args with pmtIdMap := ids })
        { ((w.scan dm).step inp).toDataReceiverJobArgs with pmtIdMap := ids } :=
      ⟨hagree.step.args.symm, Scan.get_step_pmtIdMap inp _⟩
    rw [Worker.owes, at_]
    show (Scan.rest inp _).toDataReceiverJobArgs.items =
      (Scan.rest inp _).toDataReceiverJobArgs.items
    rw [← Scan.rest_step (hagree.more.symm.trans more), hstep.rest]
  | leave at_ exit =>
    rw [Worker.owes, at_]
    show (Scan.rest inp _).toDataReceiverJobArgs.items = _
    rw [Scan.rest_exit (hagree.more.symm.trans exit), ← hagree.finish]
    rfl
  | lookup at_ | raw at_ | reduced at_ | clear at_ | count at_ =>
    rw [Worker.owes, at_]
    rfl
  | done at_ => rfl

end Worker
end HkRbu
