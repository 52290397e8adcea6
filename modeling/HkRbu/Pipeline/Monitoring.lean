import HkRbu.Pipeline.Outcome

/-!
# What other threads may see

Other tools look at the data model while the workers are at it. Whenever they look, the bins hold
what they held before and possibly more (`append_only`), and `pmt_counters` is not ahead of the
slices: a PMT has no more hits counted than stored (`counted_le_stored`), whatever has failed.

The second is a matter of the order inside `ProcessDataIDOD`, which counts a job's hits after it
has stored them. What a worker has stored and not counted yet is `Worker.uncounted`.
-/

namespace HkRbu

namespace Item

/-- The hits of the PMT `p` that an item stores. -/
def hits (p : U16) : Item → Nat
  | reduced _ hits => hits.countP (·.getPMTID = p)
  | card _ | bins _ | raw .. | count .. => 0

/-- The hits of the PMT `p` that an item counts, without the wrap-around of the counter. -/
def counted (p : U16) : Item → Nat
  | count p' n => if p' = p then n.toNat else 0
  | card _ | bins _ | raw .. | reduced .. => 0

end Item

/-! ## The hits of a data model -/

theorem sum_countP_reducedAt (p : U16) (bins : Finset U64) {items : List Item}
    (hbins : ∀ b hits, Item.reduced b hits ∈ items → b ∈ bins) :
    ∑ b ∈ bins, (items.flatMap (Item.reducedAt b)).countP (·.getPMTID = p) =
      (items.map (Item.hits p)).sum := by
  induction items with
  | nil => simp
  | cons i items ih =>
    have hrest := ih fun b hits hi => hbins b hits (List.mem_cons_of_mem i hi)
    simp only [List.flatMap_cons, List.countP_append, Finset.sum_add_distrib, hrest,
      List.map_cons, List.sum_cons]
    cases i with
    | card | bins | raw | count => simp [Item.reducedAt, Item.hits]
    | reduced b' hits =>
      have hb' : b' ∈ bins := hbins b' hits List.mem_cons_self
      have hone : ∑ b ∈ bins, (Item.reducedAt b (.reduced b' hits)).countP (·.getPMTID = p) =
          hits.countP (·.getPMTID = p) := by
        rw [Finset.sum_eq_single_of_mem b' hb' fun b _ hb => by simp [Item.reducedAt, Ne.symm hb]]
        simp [Item.reducedAt]
      rw [hone]
      rfl

variable {ι : Type} {pool : TimeSlicePool} {inp : Inputs} {dm dm' : DataModel} {w w' : Worker ι}
  {written : List Item}

/-- Items that are written to bins the data model has add their hits to it. -/
theorem hitsOf_of_view (p : U16) (hview : dm'.view = written.foldl Item.apply dm.view)
    (hbins : ∀ b hits, Item.reduced b hits ∈ written → b ∈ dm'.aggrigationBuffer) :
    dm'.hitsOf p = dm.hitsOf p + (written.map (Item.hits p)).sum := by
  rw [Item.foldl_apply] at hview
  have hreduced : ∀ b, dm'.contents TimeSlice.reducedHits b =
      dm.contents TimeSlice.reducedHits b ++ written.flatMap (Item.reducedAt b) :=
    congrFun (congrArg View.reduced hview)
  have hmem : ∀ b, b ∈ dm.aggrigationBuffer → b ∈ dm'.aggrigationBuffer := by
    intro b hb
    have hset : b ∈ dm'.view.bins := by
      rw [hview]
      exact Or.inr hb
    exact hset
  simp only [Aggregation.hitsOf, hreduced, List.countP_append, Finset.sum_add_distrib]
  congr 1
  · refine (Finset.sum_subset ?_ ?_).symm
    · intro b hb
      rw [List.mem_toFinset] at hb ⊢
      exact hmem b hb
    · intro b _ hb
      have hnone : dm.sliceOf b = none :=
        IndexMap.get_of_notMem fun hb' => hb (List.mem_toFinset.mpr hb')
      rw [Aggregation.contents, hnone]
      rfl
  · exact sum_countP_reducedAt p _ fun b hits hi => List.mem_toFinset.mpr (hbins b hits hi)

/-! ## One worker -/

/-- The hits of the PMT `p` in the entries of `tpu_hit_collection`. -/
def entryHits (p : U16) (it : List (Σ _ : U64, List TPUHit)) : Nat :=
  (it.map fun e => e.2.countP (·.getPMTID = p)).sum

namespace Worker

/-- The hits of the PMT `p` that a worker has stored and not counted, or fewer. -/
def uncounted (p : U16) (w : Worker ι) : Nat :=
  match w.stage with
  | .uploading (.uploading _ _ tpuIt _) =>
    (IndexMap.get w.args.pmtCounters p).toNat - entryHits p tpuIt
  | .merging it => (it.map fun e => if e.1 = p then e.2.toNat else 0).sum
  | .entered | .scanning | .uploading .built => 0

/-- While a worker scans, the counts of its job are no more than the job's hits. -/
def Tallied (w : Worker ι) : Prop :=
  w.stage = .scanning ∨ w.stage = .uploading .built → ∀ p,
    (IndexMap.get w.args.pmtCounters p).toNat ≤ entryHits p w.args.tpuHitCollection.entries

theorem tallied_step {s : Scan} (p : U16)
    (h : (IndexMap.get s.pmtCounters p).toNat ≤ entryHits p s.tpuHitCollection.entries) :
    (IndexMap.get (s.step inp).pmtCounters p).toNat ≤
      entryHits p (s.step inp).tpuHitCollection.entries := by
  obtain ⟨-, hs, -⟩ | ⟨-, hs, -⟩ := s.step_cases inp
  · have hcount : IndexMap.get (s.hitBranch inp).pmtCounters p =
        if p = s.pmtid then IndexMap.get s.pmtCounters p + 1 else IndexMap.get s.pmtCounters p :=
      IndexMap.get_update _ _ _ _
    have hhits : entryHits p (s.hitBranch inp).tpuHitCollection.entries =
        entryHits p s.tpuHitCollection.entries + if p = s.pmtid then 1 else 0 := by
      refine IndexMap.total_update (g := List.countP fun h : TPUHit => h.getPMTID = p) rfl _ _ ?_
      have hid : (s.reducedHit inp).getPMTID = s.pmtid := TPUHit.getPMTID_new ..
      rw [List.countP_append, List.countP_singleton, hid]
      by_cases hp : p = s.pmtid <;> simp [hp, eq_comm]
    rw [hs, hcount, hhits]
    by_cases hp : p = s.pmtid
    · rw [if_pos hp, if_pos hp, BitVec.toNat_add]
      exact (Nat.mod_le _ _).trans (Nat.add_le_add_right h 1)
    · rw [if_neg hp, if_neg hp]
      exact h
  · rw [hs, Scan.fileObject_eq, Scan.arrive_eq]
    exact h

/-- No step of a worker lets its counts run ahead of the hits it has filed. -/
theorem Advances.tallied (h : Advances pool inp dm w written dm' w') (ht : w.Tallied) :
    w'.Tallied := by
  cases h with
  | enter => exact fun _ _ => Nat.zero_le _
  | round at_ => exact fun _ p => tallied_step p (ht (Or.inl at_) p)
  | leave at_ => exact fun _ p => ht (Or.inl at_) p
  | lookup | raw | reduced | clear | count => exact fun h => by simp [Aggregation.lookup] at h
  | done => exact ht

/-- **Counting comes after storing**: a step counts no more than was stored by then. -/
theorem Advances.uncounted (h : Advances pool inp dm w written dm' w') (ht : w.Tallied) (p : U16) :
    (written.map (Item.counted p)).sum + w'.uncounted p ≤
      w.uncounted p + (written.map (Item.hits p)).sum := by
  cases h with
  | enter | round | leave => exact Nat.zero_le _
  | lookup at_ =>
    have hnone : (IndexMap.get w.args.pmtCounters p).toNat -
        entryHits p w.args.tpuHitCollection.entries = 0 :=
      Nat.sub_eq_zero_of_le (ht (Or.inr at_) p)
    refine Nat.le_trans (Nat.le_of_eq ?_) (Nat.zero_le _)
    exact (Nat.zero_add _).trans hnone
  | raw at_ => simp [Worker.uncounted, at_, Item.counted, Item.hits]
  | reduced at_ =>
    simp only [Worker.uncounted, at_, Item.counted, Item.hits, entryHits, List.map_cons,
      List.sum_cons, List.map_nil, List.sum_nil]
    omega
  | clear at_ =>
    have hall := IndexMap.sum_entries (g := BitVec.toNat) rfl w.args.pmtCounters p
    simp [Worker.uncounted, at_, hall, entryHits]
  | count at_ =>
    simp only [Worker.uncounted, at_, Item.counted, Item.hits, List.map_cons, List.sum_cons,
      List.map_nil, List.sum_nil]
    omega
  | done at_ => simp

/-- What a step stores is there afterwards. -/
theorem Advances.hitsOf (h : Advances pool inp dm w written dm' w') (hd : dm.Distinct)
    (hal : w.Aligned dm) (p : U16) :
    dm'.hitsOf p = dm.hitsOf p + (written.map (Item.hits p)).sum := by
  refine hitsOf_of_view p (h.view hd hal) ?_
  cases h with
  | enter | round | leave | lookup | raw | clear | count | done => simp
  | reduced at_ =>
    intro b hits hi
    obtain ⟨rfl, -⟩ := Item.reduced.inj (List.mem_singleton.mp hi)
    obtain ⟨hb, -⟩ := List.forall₂_cons.mp (hal _ at_).2
    by_contra hnot
    have hnone : dm.sliceOf b = none := IndexMap.get_of_notMem hnot
    exact absurd (hnone.symm.trans hb) (by simp)

end Worker

/-! ## The whole pipeline -/

namespace Pipeline

variable [DecidableEq ι] {service : ι → Service} {currentCounter : U64} {dm₀ : DataModel}
  {P : Pipeline ι}

theorem writtenItems_append (es es' : List Event) :
    writtenItems (es ++ es') = writtenItems es ++ writtenItems es' := List.filterMap_append

theorem writtenItems_wrote (items : List Item) : writtenItems (items.map .wrote) = items := by
  rw [writtenItems, List.filterMap_map]
  exact List.filterMap_some

/-- The books of what is stored and what is counted, after the events `es`. -/
structure Watched (dm₀ : DataModel) (P : Pipeline ι) (es : List Event) : Prop where
  stored : ∀ p, P.dataModel.hitsOf p =
    dm₀.hitsOf p + ((writtenItems es).map (Item.hits p)).sum
  counted : ∀ p, ((writtenItems es).map (Item.counted p)).sum +
    (P.workers.map (Worker.uncounted p)).sum ≤ ((writtenItems es).map (Item.hits p)).sum

/-- The invariant of the pipeline, and the workers' counts. -/
def Counting (service : ι → Service) (currentCounter : U64) (dm₀ : DataModel) (P : Pipeline ι) :
    Prop :=
  Inv service currentCounter dm₀ P ∧ ∀ w ∈ P.workers, w.Tallied

theorem Counting.step (P : Pipeline ι) (l : Label ι) (h : Counting service currentCounter dm₀ P) :
    Counting service currentCounter dm₀ (P.step service l) := by
  refine ⟨h.1.step l, ?_⟩
  have heffect := P.step_effect service l
  generalize P.record service l = es, P.step service l = P' at heffect
  cases heffect with
  | none | thread | kill => exact h.2
  | take => exact List.forall_mem_cons.mpr ⟨fun h => by simp at h, h.2⟩
  | @work k w pool uninit hk =>
    have hw := List.mem_of_getElem? hk
    have hadv := Worker.next_advances pool (P.inputs w.job uninit) (h.1.aligned w hw)
    intro x hx
    rcases List.mem_or_eq_of_mem_set hx with hx | rfl
    · exact h.2 x hx
    · exact hadv.tallied (h.2 w hw)
  | finish => exact fun x hx => h.2 x (List.mem_of_mem_eraseIdx hx)

omit [DecidableEq ι] in
theorem Watched.quiet {es new : List Event} {P' : Pipeline ι} (h : Watched dm₀ P es)
    (hnew : writtenItems new = []) (hdm : P'.dataModel = P.dataModel)
    (hworkers : ∀ p, (P'.workers.map (Worker.uncounted p)).sum ≤
      (P.workers.map (Worker.uncounted p)).sum) : Watched dm₀ P' (es ++ new) := by
  constructor
  · intro p
    rw [writtenItems_append, hnew, List.append_nil, hdm]
    exact h.stored p
  · intro p
    rw [writtenItems_append, hnew, List.append_nil]
    exact (Nat.add_le_add_left (hworkers p) _).trans (h.counted p)

/-- **Every step keeps the counts behind.** -/
theorem Watched.step (P : Pipeline ι) (es : List Event) (l : Label ι)
    (hinv : Counting service currentCounter dm₀ P) (h : Watched dm₀ P es) :
    Watched dm₀ (P.step service l) (es ++ P.record service l) := by
  have heffect := P.step_effect service l
  generalize P.record service l = new, P.step service l = P' at heffect
  cases heffect with
  | none | kill => exact h.quiet rfl rfl fun _ => Nat.le_refl _
  | thread i it =>
    refine h.quiet ?_ rfl fun _ => Nat.le_refl _
    split_ifs
    · cases it.message <;> rfl
    · rfl
  | take =>
    refine h.quiet rfl rfl fun p => Nat.le_of_eq ?_
    rw [List.map_cons, List.sum_cons]
    exact Nat.zero_add _
  | @work k w pool uninit hk =>
    obtain ⟨hlt, rfl⟩ := List.getElem?_eq_some_iff.mp hk
    have hw := List.getElem_mem hlt
    have hal := hinv.1.aligned _ hw
    have hadv := Worker.next_advances pool (P.inputs P.workers[k].job uninit) hal
    generalize P.workers[k].next pool (P.inputs P.workers[k].job uninit) P.dataModel = r at hadv ⊢
    constructor
    · intro p
      rw [writtenItems_append, writtenItems_wrote, List.map_append, List.sum_append, ← add_assoc,
        ← h.stored p]
      exact hadv.hitsOf hinv.1.distinct hal p
    · intro p
      have hstep := hadv.uncounted (hinv.2 _ hw) p
      have hbefore := ((List.getElem_cons_eraseIdx_perm hlt).map (Worker.uncounted p)).sum_eq
      have hafter := ((List.set_perm_cons_eraseIdx hlt r.2).map (Worker.uncounted p)).sum_eq
      have hcounted := h.counted p
      rw [List.map_cons, List.sum_cons] at hbefore hafter
      rw [writtenItems_append, writtenItems_wrote, List.map_append, List.sum_append,
        List.map_append, List.sum_append, hafter]
      omega
  | @finish k w ok hk =>
    obtain ⟨hlt, rfl⟩ := List.getElem?_eq_some_iff.mp hk
    refine h.quiet ?_ rfl fun p => ?_
    · split_ifs <;> rfl
    · have hbefore := ((List.getElem_cons_eraseIdx_perm hlt).map (Worker.uncounted p)).sum_eq
      rw [List.map_cons, List.sum_cons] at hbefore
      rw [← hbefore]
      exact Nat.le_add_left _ _

variable (service currentCounter) (ls : List (Label ι))

/-- What is watched holds after every run. -/
theorem watched_exec (h₀ : dm₀.Distinct) :
    Watched dm₀ (exec service currentCounter dm₀ ls) (journal service currentCounter dm₀ ls) :=
  (Runs.journal_induct Counting.step Watched.step
    ⟨.start service currentCounter h₀, fun _ hw => absurd hw List.not_mem_nil⟩
    ⟨fun _ => rfl, fun _ => Nat.le_refl _⟩).2

theorem toNat_sum_le {α : Type} (f : α → U64) (l : List α) :
    (l.map f).sum.toNat ≤ (l.map fun x => (f x).toNat).sum := by
  induction l with
  | nil => exact Nat.le_refl _
  | cons x l ih =>
    rw [List.map_cons, List.sum_cons, List.map_cons, List.sum_cons, BitVec.toNat_add]
    exact (Nat.mod_le _ _).trans (Nat.add_le_add_left ih _)

/-- **The monitoring counters are never ahead.** In every state of every run, whatever has failed,
    no PMT has more hits counted than the slices hold, if that was so at the start. -/
theorem counted_le_stored (h₀ : dm₀.Distinct)
    (hcounted : ∀ p, (IndexMap.get dm₀.pmtCounters p).toNat ≤ dm₀.hitsOf p) (p : U16) :
    (IndexMap.get (exec service currentCounter dm₀ ls).dataModel.pmtCounters p).toNat ≤
      (exec service currentCounter dm₀ ls).dataModel.hitsOf p := by
  have hwatched := watched_exec service currentCounter ls h₀
  have hview := view_exec service currentCounter ls h₀
  rw [Item.foldl_apply] at hview
  generalize journal service currentCounter dm₀ ls = es at hwatched hview
  have hpmt : IndexMap.get (exec service currentCounter dm₀ ls).dataModel.pmtCounters p =
      IndexMap.get dm₀.pmtCounters p + ((writtenItems es).map (Item.countAt p)).sum :=
    congrFun (congrArg View.pmt hview) p
  have hcounts : ∀ i : Item, (i.countAt p).toNat = i.counted p := by
    intro i
    cases i with
    | card | bins | raw | reduced => rfl
    | count p' n =>
      simp only [Item.countAt, Item.counted]
      split <;> rfl
  calc (IndexMap.get (exec service currentCounter dm₀ ls).dataModel.pmtCounters p).toNat
      ≤ (IndexMap.get dm₀.pmtCounters p).toNat +
          ((writtenItems es).map (Item.countAt p)).sum.toNat := by
        rw [hpmt, BitVec.toNat_add]
        exact Nat.mod_le _ _
    _ ≤ dm₀.hitsOf p + ((writtenItems es).map (Item.counted p)).sum := by
        refine Nat.add_le_add (hcounted p) ((toNat_sum_le _ _).trans ?_)
        simp only [hcounts, Nat.le_refl]
    _ ≤ dm₀.hitsOf p + ((writtenItems es).map (Item.hits p)).sum :=
        Nat.add_le_add_left ((Nat.le_add_right _ _).trans (hwatched.counted p)) _
    _ = (exec service currentCounter dm₀ ls).dataModel.hitsOf p := (hwatched.stored p).symm

/-- When one job has been given up after its upload, before its hits were counted. -/
theorem counted_le_stored_givenUp :
    let P := exec (fun _ => .idod) 0 (.empty ∅)
      ((sampleRun sampleMessages).take 20 ++ [.finish 1 false])
    (IndexMap.get P.dataModel.pmtCounters 0).toNat ≤ P.dataModel.hitsOf 0 :=
  counted_le_stored _ 0 _ Aggregation.distinct_empty (fun _ => Nat.zero_le _) 0

/-- **The bins only grow.** Whatever happens after a state, what a bin holds then it goes on
    holding, in the same order and at the front; no bin is taken away. -/
theorem append_only (h₀ : dm₀.Distinct) (ls' : List (Label ι)) :
    (exec service currentCounter dm₀ ls).dataModel.view.bins ⊆
        (exec service currentCounter dm₀ (ls ++ ls')).dataModel.view.bins ∧
    ∀ b, (exec service currentCounter dm₀ ls).dataModel.view.raw b <+:
        (exec service currentCounter dm₀ (ls ++ ls')).dataModel.view.raw b ∧
      (exec service currentCounter dm₀ ls).dataModel.view.reduced b <+:
        (exec service currentCounter dm₀ (ls ++ ls')).dataModel.view.reduced b := by
  have hbefore := view_exec service currentCounter ls h₀
  have hafter := view_exec service currentCounter (ls ++ ls') h₀
  rw [journal, Runs.journal_append, writtenItems_append, List.foldl_append] at hafter
  rw [← journal, ← hbefore, Item.foldl_apply] at hafter
  rw [hafter]
  exact ⟨Set.subset_union_right, fun b => ⟨List.prefix_append _ _, List.prefix_append _ _⟩⟩

theorem append_only_sampleRun :
    let P := exec (fun _ => .idod) 0 (.empty ∅) ((sampleRun sampleMessages).take 16)
    let P' := exec (fun _ => .idod) 0 (.empty ∅)
      ((sampleRun sampleMessages).take 16 ++ [.finish 1 false])
    P.dataModel.view.bins ⊆ P'.dataModel.view.bins ∧
      ∀ b, P.dataModel.view.raw b <+: P'.dataModel.view.raw b ∧
        P.dataModel.view.reduced b <+: P'.dataModel.view.reduced b :=
  append_only _ 0 _ Aggregation.distinct_empty [.finish 1 false]

end Pipeline
end HkRbu
