import HkRbu.Lib.Ledger
import Mathlib.Data.Fintype.Basic
import HkRbu.Upload.Slices

/-!
# Concurrent uploads

Any finite number of jobs upload at the same time. A job finds the slices of all its bins in one
locked section, and remembers them in two queues; it then goes through its collections a second
time and appends each entry to the slice at the front of the queue, under that slice's lock. What
keeps the entries and the queues together is the invariant `UploadInv`: the slice at the front is
still the slice of the bin at hand, whatever the other jobs did in between.

Seen from the bins, the raw words and the reduced hits are two ledgers, and every locked section
is one step of one of them or of neither. `upload_conserves` is then the ledger's conservation law.
-/

namespace HkRbu

/-- What a job has built when its upload starts. -/
structure UploadJob where
  collections : IndexMap U64 (List U32)
  tpuHitCollection : IndexMap U64 (List TPUHit)

namespace UploadJob

/-- The bins the job has entries for. -/
def bins (j : UploadJob) : List U64 := j.collections.keys ++ j.tpuHitCollection.keys

end UploadJob

/-- How far the upload of a job has come. The queues are empty before the lookup. -/
inductive Phase where
  | built
  /-- The iterators of the two append loops, with the entries they still have to visit, and the
      queues `time_slices` and `tpu_time_slices`. -/
  | uploading (it : List (Σ _ : U64, List U32)) (timeSlices : List SliceId)
      (tpuIt : List (Σ _ : U64, List TPUHit)) (tpuTimeSlices : List SliceId)

namespace Phase

/-- Both append loops are through. -/
def Finished : Phase → Prop
  | built => False
  | uploading it _ tpuIt _ => it = [] ∧ tpuIt = []

/-- The raw words the job has still to append, with their bins. -/
def pendingRaw (j : UploadJob) : Phase → List (U64 × List U32)
  | built => j.collections.entries.map fun e => (e.1, e.2)
  | uploading it _ _ _ => it.map fun e => (e.1, e.2)

/-- The reduced hits the job has still to append, with their bins. -/
def pendingReduced (j : UploadJob) : Phase → List (U64 × List TPUHit)
  | built => j.tpuHitCollection.entries.map fun e => (e.1, e.2)
  | uploading _ _ tpuIt _ => tpuIt.map fun e => (e.1, e.2)

end Phase

/-- The locked section that finds the slices of a job. -/
def Aggregation.lookup (pool : TimeSlicePool) (a : Aggregation) (j : UploadJob) :
    Aggregation × Phase :=
  let (a, timeSlices) := a.findAll pool j.collections.keys
  let (a, tpuTimeSlices) := a.findAll pool j.tpuHitCollection.keys
  (a, .uploading j.collections.entries timeSlices j.tpuHitCollection.entries tpuTimeSlices)

/-- The buffer that the jobs share, and how far each of them has come. -/
structure UploadState (ι : Type) where
  aggregation : Aggregation
  phase : ι → Phase

/-- One locked section of one job. The pool may be in any state when a lookup asks it. -/
inductive UploadStep {ι : Type} [DecidableEq ι] (jobs : ι → UploadJob) :
    UploadState ι → UploadState ι → Prop where
  | lookup {st : UploadState ι} (i : ι) (pool : TimeSlicePool) (at_ : st.phase i = .built) :
      UploadStep jobs st ⟨(st.aggregation.lookup pool (jobs i)).1,
        Function.update st.phase i (st.aggregation.lookup pool (jobs i)).2⟩
  | raw {st : UploadState ι} (i : ι) {b : U64} {ws : List U32} {it : List (Σ _ : U64, List U32)}
      {id : SliceId} {ids : List SliceId} {tpuIt : List (Σ _ : U64, List TPUHit)}
      {tpuIds : List SliceId}
      (at_ : st.phase i = .uploading (⟨b, ws⟩ :: it) (id :: ids) tpuIt tpuIds) :
      UploadStep jobs st ⟨st.aggregation.appendRaw id ws,
        Function.update st.phase i (.uploading it ids tpuIt tpuIds)⟩
  | reduced {st : UploadState ι} (i : ι) {b : U64} {hits : List TPUHit} {ids : List SliceId}
      {tpuIt : List (Σ _ : U64, List TPUHit)} {id : SliceId} {tpuIds : List SliceId}
      (at_ : st.phase i = .uploading [] ids (⟨b, hits⟩ :: tpuIt) (id :: tpuIds)) :
      UploadStep jobs st ⟨st.aggregation.appendReduced id hits,
        Function.update st.phase i (.uploading [] ids tpuIt tpuIds)⟩

/-! ## The queues stay aligned -/

/-- The queues hold the slices of the bins that are still to be visited. -/
def Phase.Aligned (a : Aggregation) : Phase → Prop
  | built => True
  | uploading it ids tpuIt tpuIds =>
    List.Forall₂ (fun e id => a.sliceOf e.1 = some id) it ids ∧
      List.Forall₂ (fun e id => a.sliceOf e.1 = some id) tpuIt tpuIds

theorem Phase.Aligned.mono {a a' : Aggregation} {p : Phase} (h : p.Aligned a)
    (hkept : ∀ b id, a.sliceOf b = some id → a'.sliceOf b = some id) : p.Aligned a' := by
  cases p with
  | built => trivial
  | uploading it ids tpuIt tpuIds =>
    exact ⟨h.1.imp fun e id he => hkept e.1 id he, h.2.imp fun e id he => hkept e.1 id he⟩

/-- What the lookup of a job does: it gives every bin of the job a slice, and leaves alone what was
    there. -/
structure LookedUp (a : Aggregation) (j : UploadJob) (a' : Aggregation) (p : Phase) : Prop where
  aligned : p.Aligned a'
  started : p ≠ .built
  pendingRaw : p.pendingRaw j = Phase.built.pendingRaw j
  pendingReduced : p.pendingReduced j = Phase.built.pendingReduced j
  kept : ∀ b id, a.sliceOf b = some id → a'.sliceOf b = some id
  found : ∀ b ∈ j.bins, ∃ id, a'.sliceOf b = some id
  mem : ∀ b, b ∈ a'.aggrigationBuffer ↔ b ∈ j.bins ∨ b ∈ a.aggrigationBuffer
  distinct : a.Distinct → a'.Distinct
  contents : ∀ {α : Type} {part : TimeSlice → List α}, part ⟨[], []⟩ = [] →
    Aggregation.contents part a' = Aggregation.contents part a

theorem lookup_lookedUp (pool : TimeSlicePool) (a : Aggregation) (j : UploadJob) :
    LookedUp a j (a.lookup pool j).1 (a.lookup pool j).2 := by
  obtain ⟨haligned, hkept, hmem, hdistinct, hcontents⟩ :=
    Aggregation.findAll_found pool a j.collections.keys
  obtain ⟨haligned', hkept', hmem', hdistinct', hcontents'⟩ :=
    Aggregation.findAll_found pool (a.findAll pool j.collections.keys).1 j.tpuHitCollection.keys
  have hraw := haligned.imp fun b id h => hkept' b id h
  have hfound : ∀ {bins : List U64} {ids : List SliceId} {a' : Aggregation},
      List.Forall₂ (fun b id => a'.sliceOf b = some id) bins ids →
      ∀ b ∈ bins, ∃ id, a'.sliceOf b = some id := by
    intro bins ids a' h
    induction h with
    | nil => exact fun b hb => absurd hb List.not_mem_nil
    | cons hb _ ih =>
      intro b' hb'
      rcases List.mem_cons.mp hb' with rfl | hb'
      · exact ⟨_, hb⟩
      · exact ih b' hb'
  exact {
    aligned := ⟨List.forall₂_map_left_iff.mp hraw, List.forall₂_map_left_iff.mp haligned'⟩
    started := Phase.noConfusion
    pendingRaw := rfl
    pendingReduced := rfl
    kept := fun b id h => hkept' b id (hkept b id h)
    found := fun b hb => (List.mem_append.mp hb).elim (hfound hraw b) (hfound haligned' b)
    mem := fun b => by
      refine (hmem' b).trans ?_
      rw [hmem b, UploadJob.bins, List.mem_append]
      tauto
    distinct := fun h => hdistinct' (hdistinct h)
    contents := fun hpart => funext fun b => (hcontents' hpart b).trans (hcontents hpart b) }

/-! ## The invariant of the uploads -/

section Run

variable {ι : Type} [DecidableEq ι] (jobs : ι → UploadJob)

/-- The raw words in the slices and in the jobs. -/
def rawLedger (st : UploadState ι) : Ledger ι U64 U32 :=
  ⟨Aggregation.contents TimeSlice.rawIdod st.aggregation, fun i => (st.phase i).pendingRaw (jobs i)⟩

/-- The reduced hits in the slices and in the jobs. -/
def reducedLedger (st : UploadState ι) : Ledger ι U64 TPUHit :=
  ⟨Aggregation.contents TimeSlice.reducedHits st.aggregation,
    fun i => (st.phase i).pendingReduced (jobs i)⟩

/-- No job has started its upload. -/
def uploadStart (a₀ : Aggregation) : UploadState ι := ⟨a₀, fun _ => .built⟩

/-- **The invariant of concurrent uploads**, from the aggregation buffer `a₀`. -/
structure UploadInv (a₀ : Aggregation) (st : UploadState ι) : Prop where
  distinct : st.aggregation.Distinct
  aligned : ∀ i, (st.phase i).Aligned st.aggregation
  mem : ∀ b, b ∈ st.aggregation.aggrigationBuffer ↔
    b ∈ a₀.aggrigationBuffer ∨ ∃ i, st.phase i ≠ .built ∧ b ∈ (jobs i).bins
  found : ∀ i, st.phase i ≠ .built → ∀ b ∈ (jobs i).bins, ∃ id, st.aggregation.sliceOf b = some id
  raw : Relation.ReflTransGen Ledger.Step (rawLedger jobs (uploadStart a₀)) (rawLedger jobs st)
  reduced : Relation.ReflTransGen Ledger.Step (reducedLedger jobs (uploadStart a₀))
    (reducedLedger jobs st)

theorem UploadInv.init {a₀ : Aggregation} (h₀ : a₀.Distinct) :
    UploadInv jobs a₀ (uploadStart a₀) where
  distinct := h₀
  aligned _ := trivial
  mem _ := ⟨Or.inl, fun h => h.elim id fun ⟨_, hi, _⟩ => absurd rfl hi⟩
  found _ hi := absurd rfl hi
  raw := .refl
  reduced := .refl

variable {jobs}

/-! ### What changes when one job moves on -/

theorem rawLedger_update (a : Aggregation) (phase : ι → Phase) (i : ι) (p : Phase) :
    rawLedger jobs ⟨a, Function.update phase i p⟩ =
      ⟨Aggregation.contents TimeSlice.rawIdod a,
        Function.update (fun j => (phase j).pendingRaw (jobs j)) i (p.pendingRaw (jobs i))⟩ :=
  congrArg (Ledger.mk _)
    (funext fun j => Function.apply_update (fun j => Phase.pendingRaw (jobs j)) phase i p j)

theorem reducedLedger_update (a : Aggregation) (phase : ι → Phase) (i : ι) (p : Phase) :
    reducedLedger jobs ⟨a, Function.update phase i p⟩ =
      ⟨Aggregation.contents TimeSlice.reducedHits a,
        Function.update (fun j => (phase j).pendingReduced (jobs j)) i
          (p.pendingReduced (jobs i))⟩ :=
  congrArg (Ledger.mk _)
    (funext fun j => Function.apply_update (fun j => Phase.pendingReduced (jobs j)) phase i p j)

theorem aligned_update {a a' : Aggregation} {phase : ι → Phase} {i : ι} {p : Phase}
    (h : ∀ j, (phase j).Aligned a) (hp : p.Aligned a')
    (hkept : ∀ b id, a.sliceOf b = some id → a'.sliceOf b = some id) (j : ι) :
    (Function.update phase i p j).Aligned a' := by
  by_cases hj : j = i
  · subst hj
    rwa [Function.update_self]
  · rw [Function.update_of_ne hj]
    exact (h j).mono hkept

theorem update_ne_built {phase : ι → Phase} {i : ι} {p : Phase} (hp : p ≠ .built) (j : ι) :
    Function.update phase i p j ≠ .built ↔ j = i ∨ phase j ≠ .built := by
  by_cases hj : j = i
  · subst hj
    rw [Function.update_self]
    exact iff_of_true hp (Or.inl rfl)
  · rw [Function.update_of_ne hj, or_iff_right hj]

/-- The lookup of a job keeps the invariant. -/
theorem UploadInv.lookup {a₀ : Aggregation} {st : UploadState ι} (h : UploadInv jobs a₀ st) {i : ι}
    (pool : TimeSlicePool) (hi : st.phase i = .built) :
    UploadInv jobs a₀ ⟨(st.aggregation.lookup pool (jobs i)).1,
      Function.update st.phase i (st.aggregation.lookup pool (jobs i)).2⟩ := by
  have hl := lookup_lookedUp pool st.aggregation (jobs i)
  have hraw : rawLedger jobs ⟨(st.aggregation.lookup pool (jobs i)).1,
      Function.update st.phase i (st.aggregation.lookup pool (jobs i)).2⟩ = rawLedger jobs st := by
    rw [rawLedger_update, hl.contents rfl, hl.pendingRaw, ← hi, Function.update_eq_self]
    rfl
  have hreduced : reducedLedger jobs ⟨(st.aggregation.lookup pool (jobs i)).1,
      Function.update st.phase i (st.aggregation.lookup pool (jobs i)).2⟩ =
      reducedLedger jobs st := by
    rw [reducedLedger_update, hl.contents rfl, hl.pendingReduced, ← hi, Function.update_eq_self]
    rfl
  refine ⟨hl.distinct h.distinct, aligned_update h.aligned hl.aligned hl.kept, ?_, ?_,
    hraw ▸ h.raw, hreduced ▸ h.reduced⟩
  · intro b
    show _ ↔ _ ∨ ∃ j, Function.update st.phase i _ j ≠ _ ∧ _
    rw [hl.mem b, h.mem b]
    simp only [update_ne_built hl.started, or_and_right, exists_or, exists_eq_left]
    exact or_left_comm
  · intro j hj b hb
    rcases (update_ne_built hl.started j).mp hj with rfl | hj
    · exact hl.found b hb
    · obtain ⟨id, hid⟩ := h.found j hj b hb
      exact ⟨id, hl.kept b id hid⟩

/-- A locked section on one slice, of a job that has found its slices. -/
theorem UploadInv.onSlice {a₀ : Aggregation} {st : UploadState ι} (h : UploadInv jobs a₀ st) {i : ι}
    {p : Phase} {id : SliceId} {f : TimeSlice → TimeSlice} (hi : st.phase i ≠ .built)
    (hp : p ≠ .built) (hal : p.Aligned st.aggregation)
    (hraw : Relation.ReflTransGen Ledger.Step (rawLedger jobs st)
      (rawLedger jobs ⟨st.aggregation.updateSlice id f, Function.update st.phase i p⟩))
    (hreduced : Relation.ReflTransGen Ledger.Step (reducedLedger jobs st)
      (reducedLedger jobs ⟨st.aggregation.updateSlice id f, Function.update st.phase i p⟩)) :
    UploadInv jobs a₀ ⟨st.aggregation.updateSlice id f, Function.update st.phase i p⟩ where
  distinct := h.distinct
  aligned := aligned_update h.aligned hal fun _ _ he => he
  mem b := by
    have hsame : ∀ j, Function.update st.phase i p j ≠ .built ↔ st.phase j ≠ .built := fun j =>
      (update_ne_built hp j).trans (or_iff_right_of_imp fun he => he ▸ hi)
    simp only [hsame]
    exact h.mem b
  found j hj := h.found j (((update_ne_built hp j).mp hj).elim (fun he => he ▸ hi) fun hj => hj)
  raw := h.raw.trans hraw
  reduced := h.reduced.trans hreduced

theorem UploadInv.appendRaw {a₀ : Aggregation} {st : UploadState ι} (h : UploadInv jobs a₀ st)
    {i : ι} {b : U64} {ws : List U32} {it : List (Σ _ : U64, List U32)} {id : SliceId}
    {ids : List SliceId} {tpuIt : List (Σ _ : U64, List TPUHit)} {tpuIds : List SliceId}
    (hi : st.phase i = .uploading (⟨b, ws⟩ :: it) (id :: ids) tpuIt tpuIds) :
    UploadInv jobs a₀ ⟨st.aggregation.appendRaw id ws,
      Function.update st.phase i (.uploading it ids tpuIt tpuIds)⟩ := by
  have hal := h.aligned i
  rw [hi] at hal
  obtain ⟨hb, hrest⟩ := List.forall₂_cons.mp hal.1
  have hb' : st.aggregation.sliceOf b = some id := hb
  refine h.onSlice (fun he => Phase.noConfusion (hi.symm.trans he)) Phase.noConfusion
    ⟨hrest, hal.2⟩ (.single ?_) ?_
  · have hnext : (rawLedger jobs st).pending i = (b, ws) :: it.map fun e => (e.1, e.2) := by
      simp [rawLedger, hi, Phase.pendingRaw]
    rw [rawLedger_update, Aggregation.contents_updateSlice _ h.distinct hb',
      ← Aggregation.contents_of_sliceOf TimeSlice.rawIdod hb']
    exact Ledger.Step.append i hnext
  · have hsame : (Phase.uploading it ids tpuIt tpuIds).pendingReduced (jobs i) =
        (st.phase i).pendingReduced (jobs i) := by
      rw [hi]
      rfl
    rw [reducedLedger_update, Aggregation.contents_updateSlice _ h.distinct hb', hsame,
      ← Aggregation.contents_of_sliceOf TimeSlice.reducedHits hb', Function.update_eq_self,
      Function.update_eq_self]
    exact .refl

theorem UploadInv.appendReduced {a₀ : Aggregation} {st : UploadState ι} (h : UploadInv jobs a₀ st)
    {i : ι} {b : U64} {hits : List TPUHit} {ids : List SliceId}
    {tpuIt : List (Σ _ : U64, List TPUHit)} {id : SliceId} {tpuIds : List SliceId}
    (hi : st.phase i = .uploading [] ids (⟨b, hits⟩ :: tpuIt) (id :: tpuIds)) :
    UploadInv jobs a₀ ⟨st.aggregation.appendReduced id hits,
      Function.update st.phase i (.uploading [] ids tpuIt tpuIds)⟩ := by
  have hal := h.aligned i
  rw [hi] at hal
  obtain ⟨hb, hrest⟩ := List.forall₂_cons.mp hal.2
  have hb' : st.aggregation.sliceOf b = some id := hb
  refine h.onSlice (fun he => Phase.noConfusion (hi.symm.trans he)) Phase.noConfusion
    ⟨hal.1, hrest⟩ ?_ (.single ?_)
  · have hsame : (Phase.uploading [] ids tpuIt tpuIds).pendingRaw (jobs i) =
        (st.phase i).pendingRaw (jobs i) := by
      rw [hi]
      rfl
    rw [rawLedger_update, Aggregation.contents_updateSlice _ h.distinct hb', hsame,
      ← Aggregation.contents_of_sliceOf TimeSlice.rawIdod hb', Function.update_eq_self,
      Function.update_eq_self]
    exact .refl
  · have hnext : (reducedLedger jobs st).pending i =
        (b, hits) :: tpuIt.map fun e => (e.1, e.2) := by
      simp [reducedLedger, hi, Phase.pendingReduced]
    rw [reducedLedger_update, Aggregation.contents_updateSlice _ h.distinct hb',
      ← Aggregation.contents_of_sliceOf TimeSlice.reducedHits hb']
    exact Ledger.Step.append i hnext

/-- **Every locked section preserves the invariant.** -/
theorem UploadInv.step {a₀ : Aggregation} {st st' : UploadState ι} (h : UploadInv jobs a₀ st)
    (hstep : UploadStep jobs st st') : UploadInv jobs a₀ st' := by
  cases hstep with
  | lookup i pool at_ => exact h.lookup pool at_
  | raw i at_ => exact h.appendRaw at_
  | reduced i at_ => exact h.appendReduced at_

/-- The invariant holds in every state of a run. -/
theorem UploadInv.of_run {a₀ : Aggregation} (h₀ : a₀.Distinct) {st : UploadState ι}
    (hrun : Relation.ReflTransGen (UploadStep jobs) (uploadStart a₀) st) :
    UploadInv jobs a₀ st := by
  induction hrun with
  | refl => exact UploadInv.init jobs h₀
  | tail _ hstep ih => exact ih.step hstep

/-! ## Nothing lost, nothing twice -/

/-- A map has at most one entry for a bin. -/
theorem chunks_entries {α : Type} (b : U64) (m : IndexMap U64 (List α)) :
    Ledger.chunks b (m.entries.map fun e => (e.1, e.2)) =
      ((m.lookup b).toList : Multiset (List α)) := by
  obtain ⟨entries, nodup⟩ := m
  show Ledger.chunks b (entries.map fun e => (e.1, e.2)) = ((entries.dlookup b).toList : Multiset _)
  induction entries with
  | nil => rfl
  | cons e entries ih =>
    obtain ⟨k, v⟩ := e
    obtain ⟨hk, hnodup⟩ := List.nodupKeys_cons.mp nodup
    rw [List.map_cons, Ledger.chunks_cons, ih hnodup]
    by_cases hb : k = b
    · subst hb
      rw [if_pos rfl, List.dlookup_cons_eq, List.dlookup_eq_none.mpr hk]
      rfl
    · rw [if_neg hb, List.dlookup_cons_ne _ _ (Ne.symm hb), zero_add]

section Finished

variable {a₀ : Aggregation} {st : UploadState ι} (h : UploadInv jobs a₀ st)
  (hdone : ∀ i, (st.phase i).Finished)
include hdone

omit [DecidableEq ι] in
theorem started_of_finished (i : ι) : st.phase i ≠ .built := fun he => by
  have := hdone i
  rwa [he] at this

omit [DecidableEq ι] in
theorem pending_of_finished (i : ι) : (st.phase i).pendingRaw (jobs i) = [] ∧
    (st.phase i).pendingReduced (jobs i) = [] := by
  have hi := hdone i
  cases hp : st.phase i with
  | built => exact absurd hp (started_of_finished hdone i)
  | uploading it ids tpuIt tpuIds =>
    rw [hp] at hi
    obtain ⟨rfl, rfl⟩ := hi
    exact ⟨rfl, rfl⟩

include h

theorem UploadInv.mem_of_finished (b : U64) : b ∈ st.aggregation.aggrigationBuffer ↔
    b ∈ a₀.aggrigationBuffer ∨ ∃ i, b ∈ (jobs i).bins := by
  simp only [h.mem b, ne_eq, started_of_finished hdone, not_false_eq_true, true_and]

variable [Fintype ι]

theorem UploadInv.raw_of_finished (b : U64) : ∃ order : List (List U32),
    Aggregation.contents TimeSlice.rawIdod st.aggregation b =
      Aggregation.contents TimeSlice.rawIdod a₀ b ++ order.flatten ∧
    (order : Multiset (List U32)) =
      ∑ i, (((jobs i).collections.lookup b).toList : Multiset (List U32)) := by
  simpa only [rawLedger, uploadStart, Phase.pendingRaw, chunks_entries] using
    Ledger.conserved_of_done h.raw (fun i => (pending_of_finished hdone i).1) b

theorem UploadInv.reduced_of_finished (b : U64) : ∃ order : List (List TPUHit),
    Aggregation.contents TimeSlice.reducedHits st.aggregation b =
      Aggregation.contents TimeSlice.reducedHits a₀ b ++ order.flatten ∧
    (order : Multiset (List TPUHit)) =
      ∑ i, (((jobs i).tpuHitCollection.lookup b).toList : Multiset (List TPUHit)) := by
  simpa only [reducedLedger, uploadStart, Phase.pendingReduced, chunks_entries] using
    Ledger.conserved_of_done h.reduced (fun i => (pending_of_finished hdone i).2) b

end Finished

/-- **Concurrent uploads lose and duplicate nothing.** When all jobs have finished, the buffer has
    gained exactly the bins of the jobs, no two bins share a slice, and what a bin holds is what it
    held before and then the chunks of the jobs for it, each once and in one piece. -/
theorem upload_conserves [Fintype ι] {a₀ : Aggregation} (h₀ : a₀.Distinct) {st : UploadState ι}
    (hrun : Relation.ReflTransGen (UploadStep jobs) (uploadStart a₀) st)
    (hdone : ∀ i, (st.phase i).Finished) :
    (∀ b, b ∈ st.aggregation.aggrigationBuffer ↔
      b ∈ a₀.aggrigationBuffer ∨ ∃ i, b ∈ (jobs i).bins) ∧
    st.aggregation.Distinct ∧
    (∀ i, ∀ b ∈ (jobs i).bins, ∃ id, st.aggregation.sliceOf b = some id) ∧
    (∀ b, ∃ order : List (List U32),
      Aggregation.contents TimeSlice.rawIdod st.aggregation b =
        Aggregation.contents TimeSlice.rawIdod a₀ b ++ order.flatten ∧
      (order : Multiset (List U32)) =
        ∑ i, (((jobs i).collections.lookup b).toList : Multiset (List U32))) ∧
    ∀ b, ∃ order : List (List TPUHit),
      Aggregation.contents TimeSlice.reducedHits st.aggregation b =
        Aggregation.contents TimeSlice.reducedHits a₀ b ++ order.flatten ∧
      (order : Multiset (List TPUHit)) =
        ∑ i, (((jobs i).tpuHitCollection.lookup b).toList : Multiset (List TPUHit)) := by
  have h := UploadInv.of_run h₀ hrun
  exact ⟨h.mem_of_finished hdone, h.distinct, fun i => h.found i (started_of_finished hdone i),
    h.raw_of_finished hdone, h.reduced_of_finished hdone⟩

end Run

/-- Two jobs, each with a raw word and a reduced hit for the same bin. -/
def twoJobs (i : Fin 2) : UploadJob :=
  ⟨(∅ : IndexMap U64 (List U32)).insert 7#64 [BitVec.ofNat 32 i],
    (∅ : IndexMap U64 (List TPUHit)).insert 7#64 [⟨![0#32, BitVec.ofNat 32 i]⟩]⟩

/-- A run in which the second job overtakes the first between its two insertions. -/
theorem upload_conserves_twoJobs : ∃ st : UploadState (Fin 2),
    (∃ order : List (List U32),
      Aggregation.contents TimeSlice.rawIdod st.aggregation 7#64 =
        Aggregation.contents TimeSlice.rawIdod Aggregation.empty 7#64 ++ order.flatten ∧
      (order : Multiset (List U32)) =
        ∑ i, (((twoJobs i).collections.lookup 7#64).toList : Multiset (List U32))) ∧
    ∃ order : List (List TPUHit),
      Aggregation.contents TimeSlice.reducedHits st.aggregation 7#64 =
        Aggregation.contents TimeSlice.reducedHits Aggregation.empty 7#64 ++ order.flatten ∧
      (order : Multiset (List TPUHit)) =
        ∑ i, (((twoJobs i).tpuHitCollection.lookup 7#64).toList : Multiset (List TPUHit)) := by
  have hrun : Relation.ReflTransGen (UploadStep twoJobs) (uploadStart Aggregation.empty) _ :=
    .tail (.tail (.tail (.tail (.tail (.tail .refl (.lookup 0 .counting rfl))
      (.lookup 1 .counting rfl)) (.raw 0 rfl)) (.raw 1 rfl)) (.reduced 1 rfl)) (.reduced 0 rfl)
  have hall := upload_conserves Aggregation.distinct_empty hrun fun
    | 0 => ⟨rfl, rfl⟩
    | 1 => ⟨rfl, rfl⟩
  exact ⟨_, hall.2.2.2.1 7#64, hall.2.2.2.2 7#64⟩

end HkRbu
