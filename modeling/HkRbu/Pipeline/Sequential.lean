import HkRbu.Pipeline.Outcome

/-!
# A worker alone

The steps of a worker that nothing comes between are `ProcessDataIDOD` as it is written
(`Worker.alone`), so the function adds the items of its message to the data model, in order, and a
drained pipeline leaves in every bin what the function leaves there when it is called for one
message after the other, in some order (`Pipeline.drained_sequential`).
-/

namespace HkRbu

variable {ι : Type}

/-- The scan leaves the queues of the upload as the top of the function has left them, empty. -/
theorem Scan.run_queues (inp : Inputs) (s : Scan) :
    (s.run inp).timeSlices = [] ∧ (s.run inp).tpuTimeSlices = [] := by
  have hloop : (s.loop inp).timeSlices = [] ∧ (s.loop inp).tpuTimeSlices = [] := by
    refine Loop.run_invariant (P := fun t : Scan => t.timeSlices = [] ∧ t.tpuTimeSlices = [])
      ?_ ⟨rfl, rfl⟩ _
    intro t ht _
    obtain ⟨-, hs, -⟩ | ⟨-, hs, -⟩ := t.step_cases inp
    · rw [hs]
      exact ht
    · rw [hs, fileObject_eq, arrive_eq]
      exact ht
  exact hloop

namespace Worker

variable (pool : TimeSlicePool) (inp : Inputs)

/-- A worker steps, and nobody else. -/
def Alone (x y : DataModel × Worker ι) : Prop := x.2.next pool inp x.1 = y

/-- The rounds of the scan, by a worker that nobody comes in between. -/
theorem alone_loop (dm : DataModel) (job : Job ι) (s : Scan) (fuel : Nat) :
    Relation.ReflTransGen (Alone pool inp)
      ({ dm with pmtIdMap := s.pmtIdMap }, ⟨job, s.toDataReceiverJobArgs, .scanning⟩)
      ({ dm with pmtIdMap := (Loop.run (Scan.more inp) (Scan.step inp) fuel s).pmtIdMap },
        ⟨job, (Loop.run (Scan.more inp) (Scan.step inp) fuel s).toDataReceiverJobArgs,
          .scanning⟩) := by
  induction fuel generalizing s with
  | zero => exact .refl
  | succ fuel ih =>
    cases hmore : Scan.more inp s with
    | false =>
      rw [Loop.run_of_not _ hmore]
    | true =>
      rw [Loop.run_succ_of _ hmore]
      refine .head ?_ (ih (s.step inp))
      exact if_pos hmore

theorem alone_raw (dm : DataModel) (job : Job ι) (args : DataReceiverJobArgs)
    (it : List (Σ _ : U64, List U32)) (ids : List SliceId) (tpuIt : List (Σ _ : U64, List TPUHit))
    (tpuIds : List SliceId) (hlen : ids.length = it.length) :
    Relation.ReflTransGen (Alone pool inp)
      (dm, ⟨job, args, .uploading (.uploading it ids tpuIt tpuIds)⟩)
      ({ dm with toAggregation := dm.uploadRaw it ids },
        ⟨job, args, .uploading (.uploading [] [] tpuIt tpuIds)⟩) := by
  induction it generalizing dm ids with
  | nil =>
    obtain rfl := List.length_eq_zero_iff.mp hlen
    exact .refl
  | cons e it ih =>
    obtain ⟨id, ids, rfl⟩ := List.exists_cons_of_length_eq_add_one hlen
    refine .head rfl ?_
    exact ih { dm with toAggregation := dm.appendRaw id e.2 } ids (by simpa using hlen)

theorem alone_reduced (dm : DataModel) (job : Job ι) (args : DataReceiverJobArgs)
    (tpuIt : List (Σ _ : U64, List TPUHit)) (tpuIds : List SliceId)
    (hlen : tpuIds.length = tpuIt.length) :
    Relation.ReflTransGen (Alone pool inp)
      (dm, ⟨job, args, .uploading (.uploading [] [] tpuIt tpuIds)⟩)
      ({ dm with toAggregation := dm.uploadReduced tpuIt tpuIds },
        ⟨job, args, .uploading (.uploading [] [] [] [])⟩) := by
  induction tpuIt generalizing dm tpuIds with
  | nil =>
    obtain rfl := List.length_eq_zero_iff.mp hlen
    exact .refl
  | cons e tpuIt ih =>
    obtain ⟨id, tpuIds, rfl⟩ := List.exists_cons_of_length_eq_add_one hlen
    refine .head rfl ?_
    exact ih { dm with toAggregation := dm.appendReduced id e.2 } tpuIds (by simpa using hlen)

theorem alone_merge (dm : DataModel) (job : Job ι) (args : DataReceiverJobArgs)
    (it : List (Σ _ : U16, U64)) :
    Relation.ReflTransGen (Alone pool inp) (dm, ⟨job, args, .merging it⟩)
      ({ dm with pmtCounters :=
          it.foldl (fun c e => IndexMap.update c e.1 (· + e.2)) dm.pmtCounters },
        ⟨job, args, .merging []⟩) := by
  induction it generalizing dm with
  | nil => exact .refl
  | cons e it ih =>
    exact .head rfl
      (ih { dm with pmtCounters := IndexMap.update dm.pmtCounters e.1 (· + e.2) })

/-- The upload, by a worker that nobody comes in between. -/
theorem alone_upload (dm : DataModel) (job : Job ι) (args : DataReceiverJobArgs) :
    Relation.ReflTransGen (Alone pool inp) (dm, ⟨job, args, .uploading .built⟩)
      ({ dm with
          toAggregation := dm.upload pool ⟨args.collections, args.tpuHitCollection⟩
          pmtCounters := mergeCounters dm.pmtCounters args.pmtCounters },
        ⟨job, { args with collections := ∅, tpuHitCollection := ∅ }, .merging []⟩) := by
  let found := dm.toAggregation.lookup pool ⟨args.collections, args.tpuHitCollection⟩
  have hraw := alone_raw pool inp { dm with toAggregation := found.1 } job args
    args.collections.entries (dm.findAll pool args.collections.keys).2
    args.tpuHitCollection.entries
    ((dm.findAll pool args.collections.keys).1.findAll pool args.tpuHitCollection.keys).2
    ((Aggregation.length_findAll _ _ _).trans (List.length_map _))
  refine .head rfl (hraw.trans ?_)
  refine (alone_reduced pool inp _ job args args.tpuHitCollection.entries _
    ((Aggregation.length_findAll _ _ _).trans (List.length_map _))).trans ?_
  exact .head rfl (alone_merge pool inp _ job _ args.pmtCounters.entries)

theorem alone_scan (dm : DataModel) (job : Job ι) (args : DataReceiverJobArgs) :
    Relation.ReflTransGen (Alone pool inp) (dm, ⟨job, args, .entered⟩)
      ({ dm with
          pmtIdMap := (Scan.run inp { args with pmtIdMap := dm.pmtIdMap }).pmtIdMap
          cardCounters := IndexMap.update dm.cardCounters inp.card (· + 1) },
        ⟨job, (Scan.run inp { args with pmtIdMap := dm.pmtIdMap }).toDataReceiverJobArgs,
          .uploading .built⟩) := by
  let s : Scan := { args with pmtIdMap := dm.pmtIdMap }
  let counted := { dm with cardCounters := IndexMap.update dm.cardCounters inp.card (· + 1) }
  have hloop : Relation.ReflTransGen (Alone pool inp)
      (counted, ⟨job, (s.start inp).toDataReceiverJobArgs, .scanning⟩)
      ({ counted with pmtIdMap := (s.loop inp).pmtIdMap },
        ⟨job, (s.loop inp).toDataReceiverJobArgs, .scanning⟩) :=
    alone_loop pool inp counted job (s.start inp) (inp.data.size / 4)
  refine .head rfl (hloop.tail ?_)
  exact if_neg (Bool.eq_false_iff.mp (s.loop_exit inp))

/-- **The steps of a worker are the function**: with nothing between them they leave the data model
    and the job's variables as `ProcessDataIDOD` does. -/
theorem alone (dm : DataModel) (job : Job ι)
    (args : DataReceiverJobArgs) :
    Relation.ReflTransGen (Alone pool inp) (dm, ⟨job, args, .entered⟩)
      ((processDataIDOD pool inp dm args).1,
        ⟨job, (processDataIDOD pool inp dm args).2, .merging []⟩) := by
  let s : Scan := Scan.run inp { args with pmtIdMap := dm.pmtIdMap }
  have hcard : s.cardId = inp.card := (run_tally inp { args with pmtIdMap := dm.pmtIdMap }).1
  obtain ⟨hslices, htpu⟩ : s.timeSlices = [] ∧ s.tpuTimeSlices = [] := Scan.run_queues inp _
  have hargs : (processDataIDOD pool inp dm args).2 =
      { s.toDataReceiverJobArgs with collections := ∅, tpuHitCollection := ∅ } := by
    show _ = ({ s.toDataReceiverJobArgs with
      collections := ∅
      tpuHitCollection := ∅
      timeSlices := s.timeSlices
      tpuTimeSlices := s.tpuTimeSlices } : DataReceiverJobArgs)
    rw [hslices, htpu]
    rfl
  have hrun := (alone_scan pool inp dm job args).trans
    (alone_upload pool inp _ job s.toDataReceiverJobArgs)
  rw [hargs, processDataIDOD, hcard]
  exact hrun

variable {pool inp} in
/-- What a worker writes alone, and what it still owes, add up to the same from step to step. -/
theorem alone_view (ids : IndexMap U32 U16) {x y : DataModel × Worker ι}
    (hrun : Relation.ReflTransGen (Alone pool inp) x y) (hd : x.1.Distinct)
    (hal : x.2.Aligned x.1) (hheader : x.2.args.header 0 = 0)
    (hids : ∀ k, IndexMap.get x.1.pmtIdMap k = IndexMap.get ids k) :
    (y.1.Distinct ∧ y.2.Aligned y.1 ∧ y.2.args.header 0 = 0 ∧
      ∀ k, IndexMap.get y.1.pmtIdMap k = IndexMap.get ids k) ∧
      (y.2.owes ids inp).foldl Item.apply y.1.view =
        (x.2.owes ids inp).foldl Item.apply x.1.view := by
  induction hrun with
  | refl => exact ⟨⟨hd, hal, hheader, hids⟩, rfl⟩
  | @tail y z _ hstep ih =>
    obtain ⟨⟨hd, hal, hheader, hids⟩, hview⟩ := ih
    have hadv := y.2.next_advances pool inp hal
    rw [show y.2.next pool inp y.1 = z from hstep] at hadv
    refine ⟨⟨hadv.distinct hd, hadv.aligned hal, hadv.header₀.trans hheader,
      fun k => (hadv.get_pmtIdMap k).trans (hids k)⟩, ?_⟩
    rw [← hview, hadv.owes hids hheader, List.foldl_append, hadv.view hd hal]

end Worker

/-! ## Message after message -/

/-- **What the function adds are the items of its message**, in order. -/
theorem view_processDataIDOD (pool : TimeSlicePool) (inp : Inputs) {dm : DataModel}
    (hd : dm.Distinct) {args : DataReceiverJobArgs} (hheader : args.header 0 = 0) :
    (processDataIDOD pool inp dm args).1.view =
        (inp.items dm.pmtIdMap).foldl Item.apply dm.view ∧
      (processDataIDOD pool inp dm args).1.Distinct ∧
      ∀ k, IndexMap.get (processDataIDOD pool inp dm args).1.pmtIdMap k =
        IndexMap.get dm.pmtIdMap k := by
  obtain ⟨⟨hd', -, -, hids⟩, hview⟩ := Worker.alone_view dm.pmtIdMap
    (Worker.alone pool inp dm (Job.new : Job Unit) args) hd
    (Worker.aligned_of_ne fun _ => by simp) hheader fun _ => rfl
  exact ⟨hview, hd', hids⟩

theorem view_processAll {dm : DataModel} (hd : dm.Distinct) (calls : List Call)
    (hheader : ∀ c ∈ calls, c.job.header 0 = 0) :
    (processAll dm calls).view =
      ((calls.map Call.message).flatMap (Inputs.items dm.pmtIdMap)).foldl Item.apply dm.view := by
  induction calls generalizing dm with
  | nil => rfl
  | cons c calls ih =>
    obtain ⟨hc, hrest⟩ := List.forall_mem_cons.mp hheader
    obtain ⟨hview, hd', hids⟩ := view_processDataIDOD c.pool c.message hd hc
    have hitems : Inputs.items (processDataIDOD c.pool c.message dm c.job).1.pmtIdMap =
        Inputs.items dm.pmtIdMap := funext fun m => m.items_congr hids
    rw [processAll, List.foldl_cons]
    refine (ih hd' hrest).trans ?_
    rw [hview, hitems, List.map_cons, List.flatMap_cons, List.foldl_append]

theorem raw_processAll {dm : DataModel} (hd : dm.Distinct) (calls : List Call)
    (hheader : ∀ c ∈ calls, c.job.header 0 = 0) (b : U64) :
    (processAll dm calls).view.raw b = dm.view.raw b ++ (calls.map Call.message).flatMap
      fun m => IndexMap.get (m.scanned dm.pmtIdMap).collections b := by
  rw [view_processAll hd calls hheader, Item.foldl_apply]
  refine congrArg (_ ++ ·) (List.flatMap_assoc.trans (List.flatMap_congr fun m _ => ?_))
  rw [List.flatMap_def, ← Chunks.flatten_proper, m.rawAt_items, Chunks.flatten_proper]
  exact List.append_nil _

theorem reduced_processAll {dm : DataModel} (hd : dm.Distinct) (calls : List Call)
    (hheader : ∀ c ∈ calls, c.job.header 0 = 0) (b : U64) :
    (processAll dm calls).view.reduced b = dm.view.reduced b ++ (calls.map Call.message).flatMap
      fun m => IndexMap.get (m.scanned dm.pmtIdMap).tpuHitCollection b := by
  rw [view_processAll hd calls hheader, Item.foldl_apply]
  refine congrArg (_ ++ ·) (List.flatMap_assoc.trans (List.flatMap_congr fun m _ => ?_))
  rw [List.flatMap_def, ← Chunks.flatten_proper, m.reducedAt_items, Chunks.flatten_proper]
  exact List.append_nil _

/-- `v` is what the calls leave one after the other, for every bin in some order of them. -/
structure View.Serial (dm : DataModel) (calls : List Call) (v : View) : Prop where
  bins : v.bins = (processAll dm calls).view.bins
  raw : ∀ b, ∃ order : List Call, order.Perm calls ∧ v.raw b = (processAll dm order).view.raw b
  reduced : ∀ b, ∃ order : List Call, order.Perm calls ∧
    v.reduced b = (processAll dm order).view.reduced b
  pmt : v.pmt = (processAll dm calls).view.pmt
  card : v.card = (processAll dm calls).view.card

/-- What has gained what the messages add is what calls one after the other leave. -/
theorem View.Gains.serial {dm : DataModel} {v : View} {calls : List Call}
    (h : Gains dm.pmtIdMap (calls.map Call.message) dm.view v) (hd : dm.Distinct)
    (hheader : ∀ c ∈ calls, c.job.header 0 = 0) : Serial dm calls v := by
  have hcalls : Gains dm.pmtIdMap (calls.map Call.message) dm.view (processAll dm calls).view := by
    rw [view_processAll hd calls hheader]
    exact gains_of_perm (.refl _) dm.view
  refine ⟨h.bins.trans hcalls.bins.symm, ?_, ?_, ?_, ?_⟩
  · intro b
    obtain ⟨order, hperm, hraw⟩ := h.raw b
    obtain ⟨order', hperm', rfl⟩ := Chunks.exists_of_perm_map hperm
    refine ⟨order', hperm', ?_⟩
    rw [hraw, raw_processAll hd order' fun c hc => hheader c (hperm'.mem_iff.mp hc)]
  · intro b
    obtain ⟨order, hperm, hreduced⟩ := h.reduced b
    obtain ⟨order', hperm', rfl⟩ := Chunks.exists_of_perm_map hperm
    refine ⟨order', hperm', ?_⟩
    rw [hreduced, reduced_processAll hd order' fun c hc => hheader c (hperm'.mem_iff.mp hc)]
  · exact funext fun p => (h.pmt p).trans (hcalls.pmt p).symm
  · exact funext fun c => (h.card c).trans (hcalls.card c).symm

/-- **A drained run is as good as a sequential one**: the threads, however they interleave, leave
    in every bin what `ProcessDataIDOD` leaves there when it is called for the accepted messages one
    after the other, in some order, and the same counters. -/
theorem Pipeline.drained_sequential [DecidableEq ι] (service : ι → Service) (currentCounter : U64)
    {dm₀ : DataModel} (h₀ : dm₀.Distinct) (ls : List (Label ι))
    (hdrained : (exec service currentCounter dm₀ ls).Drained)
    (hnone : .failed ∉ journal service currentCounter dm₀ ls) (calls : List Call)
    (hcalls : calls.map Call.message =
      messages currentCounter (journal service currentCounter dm₀ ls))
    (hheader : ∀ c ∈ calls, c.job.header 0 = 0) :
    View.Serial dm₀ calls (exec service currentCounter dm₀ ls).dataModel.view := by
  have hgains := drained_gains service currentCounter ls h₀ hdrained hnone
  rw [← hcalls] at hgains
  exact hgains.serial h₀ hheader

theorem Pipeline.drained_sequential_sampleRun :
    View.Serial (.empty ∅) (sampleMessages.map fun m => ⟨.counting, m.toInputs, .new⟩)
      (exec (fun _ => .idod) 0 (.empty ∅) (sampleRun sampleMessages)).dataModel.view :=
  drained_sequential _ 0 Aggregation.distinct_empty _ ⟨rfl, rfl⟩
    (failed_notMem_journal _ 0 _ (finish_notMem_sampleRun _)) _ rfl
    (by simp only [List.mem_map]; rintro _ ⟨m, -, rfl⟩; rfl)

end HkRbu
