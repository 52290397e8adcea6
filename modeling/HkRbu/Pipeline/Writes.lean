import HkRbu.Pipeline.Worker
import HkRbu.Upload.PmtMap
import HkRbu.Upload.Recycled

/-!
# What the steps of a worker write

A step adds its items to the data model, one after the other, and does nothing else that can be
seen (`Advances.view`): the slices that were found before are still those of their bins, whoever
works on them, and the `pmt_id_map` gives every key the PMT it gave before.
-/

namespace HkRbu

variable {ι : Type} {pool : TimeSlicePool} {inp : Inputs} {dm dm' : DataModel} {w w' : Worker ι}
  {written : List Item}

/-! ## The sections as items -/

theorem DataModel.view_lookup (pool : TimeSlicePool) (dm : DataModel) (j : UploadJob) :
    { dm with toAggregation := (dm.toAggregation.lookup pool j).1 }.view =
      (Item.bins j.bins).apply dm.view := by
  have hl := lookup_lookedUp pool dm.toAggregation j
  refine View.ext ?_ (hl.contents rfl) (hl.contents rfl) rfl rfl
  exact Set.ext fun b => hl.mem b

theorem DataModel.view_appendRaw (h : dm.Distinct) {b : U64} {id : SliceId}
    (hb : dm.sliceOf b = some id) (ws : List U32) :
    { dm with toAggregation := dm.appendRaw id ws }.view = (Item.raw b ws).apply dm.view := by
  have hraw := Aggregation.contents_updateSlice TimeSlice.rawIdod h hb
    fun t => { t with rawIdod := t.rawIdod ++ ws }
  have hreduced := Aggregation.contents_updateSlice TimeSlice.reducedHits h hb
    fun t => { t with rawIdod := t.rawIdod ++ ws }
  rw [← Aggregation.contents_of_sliceOf TimeSlice.rawIdod hb] at hraw
  rw [← Aggregation.contents_of_sliceOf TimeSlice.reducedHits hb, Function.update_eq_self]
    at hreduced
  exact View.ext rfl hraw hreduced rfl rfl

theorem DataModel.view_appendReduced (h : dm.Distinct) {b : U64} {id : SliceId}
    (hb : dm.sliceOf b = some id) (hits : List TPUHit) :
    { dm with toAggregation := dm.appendReduced id hits }.view =
      (Item.reduced b hits).apply dm.view := by
  have hraw := Aggregation.contents_updateSlice TimeSlice.rawIdod h hb
    fun t => { t with reducedHits := t.reducedHits ++ hits }
  have hreduced := Aggregation.contents_updateSlice TimeSlice.reducedHits h hb
    fun t => { t with reducedHits := t.reducedHits ++ hits }
  rw [← Aggregation.contents_of_sliceOf TimeSlice.rawIdod hb, Function.update_eq_self] at hraw
  rw [← Aggregation.contents_of_sliceOf TimeSlice.reducedHits hb] at hreduced
  exact View.ext rfl hraw hreduced rfl rfl

theorem get_update_eq {K : Type} [DecidableEq K] {V : Type} [Inhabited V] (m : IndexMap K V) (k : K)
    (f : V → V) : IndexMap.get (IndexMap.update m k f) =
      Function.update (IndexMap.get m) k (f (IndexMap.get m k)) := by
  funext k'
  rw [IndexMap.get_update, Function.update_apply]
  split
  · rename_i he
    rw [he]
  · rfl

/-- A key read for the first time gets the PMT that was read, which is none. -/
theorem Scan.get_step_pmtIdMap (inp : Inputs) (s : Scan) (k : U32) :
    IndexMap.get (s.step inp).pmtIdMap k = IndexMap.get s.pmtIdMap k := by
  rw [step_pmtIdMap]
  split
  · exact IndexMap.get_touch _ _ _
  · rfl

namespace Worker

/-- **What a step writes are its items.** -/
theorem Advances.view (h : Advances pool inp dm w written dm' w') (hd : dm.Distinct)
    (hal : w.Aligned dm) : dm'.view = written.foldl Item.apply dm.view := by
  cases h with
  | enter => exact View.ext rfl rfl rfl rfl (get_update_eq _ _ _)
  | round | leave | clear | done => rfl
  | lookup => exact dm.view_lookup pool w.uploadJob
  | raw at_ =>
    obtain ⟨hb, -⟩ := List.forall₂_cons.mp (hal _ at_).1
    exact DataModel.view_appendRaw hd hb _
  | reduced at_ =>
    obtain ⟨hb, -⟩ := List.forall₂_cons.mp (hal _ at_).2
    exact DataModel.view_appendReduced hd hb _
  | count => exact View.ext rfl rfl rfl (get_update_eq _ _ _) rfl

theorem Advances.distinct (h : Advances pool inp dm w written dm' w') (hd : dm.Distinct) :
    dm'.Distinct := by
  cases h with
  | enter | round | leave | raw | reduced | clear | count | done => exact hd
  | lookup => exact (lookup_lookedUp pool dm.toAggregation w.uploadJob).distinct hd

/-- A bin that has a slice keeps it. -/
theorem Advances.kept (h : Advances pool inp dm w written dm' w') {b : U64} {id : SliceId}
    (hb : dm.sliceOf b = some id) : dm'.sliceOf b = some id := by
  cases h with
  | enter | round | leave | raw | reduced | clear | count | done => exact hb
  | lookup => exact (lookup_lookedUp pool dm.toAggregation w.uploadJob).kept b id hb

theorem Aligned.mono (h : w.Aligned dm)
    (hkept : ∀ b id, dm.sliceOf b = some id → dm'.sliceOf b = some id) : w.Aligned dm' :=
  fun phase hphase => (h phase hphase).mono hkept

theorem aligned_of_ne (h : ∀ phase, w.stage ≠ .uploading phase) : w.Aligned dm :=
  fun phase hphase => absurd hphase (h phase)

/-- The queues stay aligned with the entries, for the worker that moves on. -/
theorem Advances.aligned (h : Advances pool inp dm w written dm' w') (hal : w.Aligned dm) :
    w'.Aligned dm' := by
  cases h with
  | enter | round | clear | count => exact aligned_of_ne fun _ => by simp
  | done => exact hal
  | leave =>
    rintro _ ⟨⟩
    trivial
  | lookup =>
    rintro _ ⟨⟩
    exact (lookup_lookedUp pool dm.toAggregation w.uploadJob).aligned
  | raw at_ =>
    rintro _ ⟨⟩
    have hall := hal _ at_
    exact ⟨(List.forall₂_cons.mp hall.1).2, hall.2⟩
  | reduced at_ =>
    rintro _ ⟨⟩
    have hall := hal _ at_
    exact ⟨hall.1, (List.forall₂_cons.mp hall.2).2⟩

/-- **The `pmt_id_map` never gives a key another PMT**, whatever keys it is asked for. -/
theorem Advances.get_pmtIdMap (h : Advances pool inp dm w written dm' w') (k : U32) :
    IndexMap.get dm'.pmtIdMap k = IndexMap.get dm.pmtIdMap k := by
  cases h with
  | enter | leave | lookup | raw | reduced | clear | count | done => rfl
  | round => exact Scan.get_step_pmtIdMap inp (w.scan dm) k

theorem Advances.job (h : Advances pool inp dm w written dm' w') : w'.job = w.job := by
  cases h <;> rfl

theorem Advances.header₀ (h : Advances pool inp dm w written dm' w') :
    w'.args.header 0 = w.args.header 0 := by
  cases h with
  | round => exact Scan.step_header₀ inp (w.scan dm)
  | enter | leave | lookup | raw | reduced | clear | count | done => rfl

end Worker
end HkRbu
