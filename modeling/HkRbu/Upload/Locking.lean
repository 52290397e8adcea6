import HkRbu.Lib.Mutex
import HkRbu.Upload.Interleaving
import HkRbu.Upload.Process
import HkRbu.Upload.SliceParts

/-!
# Inside the locked sections

`UploadStep` takes a locked section as one step. Here the sections are taken apart: locking a mutex,
one bin of the lookup or one element of an `insert`, unlocking it; the jobs may come between any two
of these, except that a mutex is locked only while it is free. The three mutexes are never nested.
-/

namespace HkRbu

/-! ## The machine -/

/-- The mutexes of the upload: `aggrigation_buffer_mtx`, and `raw_idod_mtx` and `reduced_hits_mtx`
    of every slice. -/
inductive UploadMutex where
  | aggrigationBuffer
  | slice (part : SlicePart) (id : SliceId)
  deriving DecidableEq

/-- How far a job is in a locked section. -/
inductive Section where
  | outside
  /-- In the two loops over the bins, with the bins they still have to visit and the queues. -/
  | finding (pool : TimeSlicePool) (it : List U64) (timeSlices : List SliceId) (tpuIt : List U64)
      (tpuTimeSlices : List SliceId)
  /-- In an `insert`, with the number of elements that have been written. -/
  | inserting (n : Nat)

/-- The phase does not change inside a section. -/
structure UploadPlace where
  phase : Phase
  inside : Section

/-- What the phase is about to append, where, and the phase after it. -/
inductive Phase.Front :
    Phase → (part : SlicePart) → U64 → SliceId → List part.Elem → Phase → Prop where
  | raw {b : U64} {ws : List U32} {it : List (Σ _ : U64, List U32)} {id : SliceId}
      {ids : List SliceId} {tpuIt : List (Σ _ : U64, List TPUHit)} {tpuIds : List SliceId} :
      Front (.uploading (⟨b, ws⟩ :: it) (id :: ids) tpuIt tpuIds) .raw b id ws
        (.uploading it ids tpuIt tpuIds)
  | reduced {b : U64} {hits : List TPUHit} {ids : List SliceId}
      {tpuIt : List (Σ _ : U64, List TPUHit)} {id : SliceId} {tpuIds : List SliceId} :
      Front (.uploading [] ids (⟨b, hits⟩ :: tpuIt) (id :: tpuIds)) .reduced b id hits
        (.uploading [] ids tpuIt tpuIds)

/-- The buffer, who holds which mutex, and where in the upload each job is. -/
structure LockedState (ι : Type) where
  aggregation : Aggregation
  mutexes : UploadMutex → Option ι
  place : ι → UploadPlace

/-- One statement inside or at the edge of a locked section. -/
inductive LockedStep {ι : Type} [DecidableEq ι] (jobs : ι → UploadJob) :
    LockedState ι → LockedState ι → Prop where
  | lockBuffer {st : LockedState ι} (i : ι) (pool : TimeSlicePool)
      (at_ : st.place i = ⟨.built, .outside⟩) (free : st.mutexes .aggrigationBuffer = none) :
      LockedStep jobs st ⟨st.aggregation, Mutex.lock st.mutexes .aggrigationBuffer i,
        Function.update st.place i ⟨.built,
          .finding pool (jobs i).collections.keys [] (jobs i).tpuHitCollection.keys []⟩⟩
  | find {st : LockedState ι} (i : ι) {pool : TimeSlicePool} {b : U64} {it tpuIt : List U64}
      {ids tpuIds : List SliceId}
      (at_ : st.place i = ⟨.built, .finding pool (b :: it) ids tpuIt tpuIds⟩) :
      LockedStep jobs st ⟨(st.aggregation.find pool b).1, st.mutexes,
        Function.update st.place i ⟨.built,
          .finding pool it (ids ++ [(st.aggregation.find pool b).2]) tpuIt tpuIds⟩⟩
  | findTpu {st : LockedState ι} (i : ι) {pool : TimeSlicePool} {b : U64} {tpuIt : List U64}
      {ids tpuIds : List SliceId}
      (at_ : st.place i = ⟨.built, .finding pool [] ids (b :: tpuIt) tpuIds⟩) :
      LockedStep jobs st ⟨(st.aggregation.find pool b).1, st.mutexes,
        Function.update st.place i ⟨.built,
          .finding pool [] ids tpuIt (tpuIds ++ [(st.aggregation.find pool b).2])⟩⟩
  | unlockBuffer {st : LockedState ι} (i : ι) {pool : TimeSlicePool} {ids tpuIds : List SliceId}
      (at_ : st.place i = ⟨.built, .finding pool [] ids [] tpuIds⟩) :
      LockedStep jobs st ⟨st.aggregation, Mutex.unlock st.mutexes .aggrigationBuffer,
        Function.update st.place i ⟨.uploading (jobs i).collections.entries ids
          (jobs i).tpuHitCollection.entries tpuIds, .outside⟩⟩
  | lock {st : LockedState ι} (i : ι) {p rest : Phase} {part : SlicePart} {b : U64} {id : SliceId}
      {l : List part.Elem} (front : p.Front part b id l rest)
      (at_ : st.place i = ⟨p, .outside⟩) (free : st.mutexes (.slice part id) = none) :
      LockedStep jobs st ⟨st.aggregation, Mutex.lock st.mutexes (.slice part id) i,
        Function.update st.place i ⟨p, .inserting 0⟩⟩
  | insert {st : LockedState ι} (i : ι) {p rest : Phase} {part : SlicePart} {b : U64} {id : SliceId}
      {l : List part.Elem} (front : p.Front part b id l rest) {n : Nat}
      (at_ : st.place i = ⟨p, .inserting n⟩) (hn : n < l.length) :
      LockedStep jobs st ⟨st.aggregation.append id part [l[n]], st.mutexes,
        Function.update st.place i ⟨p, .inserting (n + 1)⟩⟩
  | unlock {st : LockedState ι} (i : ι) {p rest : Phase} {part : SlicePart} {b : U64} {id : SliceId}
      {l : List part.Elem} (front : p.Front part b id l rest)
      (at_ : st.place i = ⟨p, .inserting l.length⟩) :
      LockedStep jobs st ⟨st.aggregation, Mutex.unlock st.mutexes (.slice part id),
        Function.update st.place i ⟨rest, .outside⟩⟩

/-- No job has started its upload, and no mutex is locked. -/
def lockedStart {ι : Type} (a₀ : Aggregation) : LockedState ι :=
  ⟨a₀, fun _ => none, fun _ => ⟨.built, .outside⟩⟩

/-! ## What a place holds -/

namespace UploadPlace

/-- The mutex that is locked at a place. -/
def holds : UploadPlace → Option UploadMutex
  | ⟨.built, .finding ..⟩ => some .aggrigationBuffer
  | ⟨.uploading (_ :: _) (id :: _) _ _, .inserting _⟩ => some (.slice .raw id)
  | ⟨.uploading [] _ (_ :: _) (id :: _), .inserting _⟩ => some (.slice .reduced id)
  | _ => none

/-- What an `insert` has written so far. -/
def inserted : (part : SlicePart) → UploadPlace → List part.Elem
  | .raw, ⟨.uploading (⟨_, ws⟩ :: _) _ _ _, .inserting n⟩ => ws.take n
  | .reduced, ⟨.uploading [] _ (⟨_, hits⟩ :: _) _, .inserting n⟩ => hits.take n
  | _, _ => []

variable {p rest : Phase} {part : SlicePart} {b : U64} {id : SliceId} {l : List part.Elem}

theorem holds_outside (p : Phase) : holds ⟨p, .outside⟩ = none := by
  unfold holds
  split <;> simp_all

theorem holds_front (h : p.Front part b id l rest) (n : Nat) :
    holds ⟨p, .inserting n⟩ = some (.slice part id) := by
  cases h with
  | raw => rfl
  | reduced => rfl

theorem inserted_front (h : p.Front part b id l rest) (n : Nat) :
    inserted part ⟨p, .inserting n⟩ = l.take n := by
  cases h with
  | raw => rfl
  | reduced => rfl

end UploadPlace

/-! ## The two machines side by side -/

section Simulation

variable {ι : Type} [DecidableEq ι] {jobs : ι → UploadJob}

namespace LockedState

/-- The mutex that job `i` has locked at its place. -/
def holds (st : LockedState ι) (i : ι) : Option UploadMutex := (st.place i).holds

/-- What the holder of the mutex of a vector has written to it. -/
def inserted (st : LockedState ι) (part : SlicePart) (id : SliceId) : List part.Elem :=
  Mutex.done st.mutexes (.slice part id) fun i => (st.place i).inserted part

end LockedState

/-- What is known of a place in a section. `a` is the aggregation without what the sections in
    progress have done, `found` the one with the lookup in progress. -/
inductive InSection (j : UploadJob) (a found : Aggregation) : UploadPlace → Prop where
  | outside (p : Phase) : InSection j a found ⟨p, .outside⟩
  | finding (bins : List U64) {pool : TimeSlicePool} {it tpuIt : List U64}
      {ids tpuIds : List SliceId}
      (bins_eq : bins ++ (it ++ tpuIt) = j.bins)
      (ids_length : ids.length + it.length = j.collections.keys.length)
      (first : it = [] ∨ tpuIds = [])
      (found_eq : a.findAll pool bins = (found, ids ++ tpuIds)) :
      InSection j a found ⟨.built, .finding pool it ids tpuIt tpuIds⟩
  | inserting {p rest : Phase} {part : SlicePart} {b : U64} {id : SliceId} {l : List part.Elem}
      {n : Nat} (front : p.Front part b id l rest) (le : n ≤ l.length) :
      InSection j a found ⟨p, .inserting n⟩

/-- The state `st` shows the aggregation `a`, and what the sections in progress have done to it. -/
structure LockedState.Shows (jobs : ι → UploadJob) (st : LockedState ι) (a found : Aggregation) :
    Prop where
  agrees : Mutex.Agrees st.mutexes st.holds
  inSection : ∀ i, InSection (jobs i) a found (st.place i)
  free : st.mutexes .aggrigationBuffer = none → found = a
  kept : ∀ b id, a.sliceOf b = some id → found.sliceOf b = some id ∧
    ∀ part : SlicePart, part.get (found.slices id) = part.get (a.slices id)
  buffer : st.aggregation.aggrigationBuffer = found.aggrigationBuffer
  slices : ∀ id part, part.get (st.aggregation.slices id) =
    part.get (found.slices id) ++ st.inserted part id

omit [DecidableEq ι] in
theorem LockedState.holds_def (st : LockedState ι) (i : ι) : st.holds i = (st.place i).holds := rfl

theorem LockedState.holds_update (st : LockedState ι) (a : Aggregation)
    (mutexes : UploadMutex → Option ι) (i : ι) (p : UploadPlace) :
    LockedState.holds ⟨a, mutexes, Function.update st.place i p⟩ =
      Function.update st.holds i p.holds :=
  funext fun j => Function.apply_update (fun _ => UploadPlace.holds) st.place i p j

theorem Phase.Front.sliceOf {a : Aggregation} {p rest : Phase} {part : SlicePart} {b : U64}
    {id : SliceId} {l : List part.Elem} (h : p.Front part b id l rest) (hal : p.Aligned a) :
    a.sliceOf b = some id := by
  cases h with
  | raw => exact (List.forall₂_cons.mp hal.1).1
  | reduced => exact (List.forall₂_cons.mp hal.2).1

theorem Phase.Front.step {u : UploadState ι} {i : ι} {p rest : Phase} {part : SlicePart} {b : U64}
    {id : SliceId} {l : List part.Elem} (h : p.Front part b id l rest) (hi : u.phase i = p) :
    UploadStep jobs u ⟨u.aggregation.append id part l, Function.update u.phase i rest⟩ := by
  cases h with
  | raw => exact .raw i hi
  | reduced => exact .reduced i hi

namespace InSection

variable {j : UploadJob} {a a' found found' : Aggregation} {p : UploadPlace}

/-- Outside the lookup a place does not depend on the buffer. -/
theorem of_not_finding (h : InSection j a found p) (hp : p.holds ≠ some .aggrigationBuffer) :
    InSection j a' found' p := by
  cases h with
  | outside p => exact .outside p
  | finding => exact absurd rfl hp
  | inserting front le => exact .inserting front le

theorem append {id : SliceId} {part : SlicePart} (h : InSection j a found p) (l : List part.Elem)
    {b : U64} (hid : a.sliceOf b = some id) :
    InSection j (a.append id part l) (found.append id part l) p := by
  cases h with
  | outside p => exact .outside p
  | finding bins bins_eq ids_length first found_eq =>
    refine .finding bins bins_eq ids_length first ?_
    rw [a.findAll_append _ l hid, found_eq]
  | inserting front le => exact .inserting front le

/-- A mutex of a vector is held by a job that is about to append to it. -/
theorem exists_front {part : SlicePart} {id : SliceId} (h : InSection j a found p)
    (hp : p.holds = some (.slice part id)) : ∃ b l rest, p.phase.Front part b id l rest := by
  cases h with
  | outside p => exact absurd ((UploadPlace.holds_outside p).symm.trans hp) (by simp)
  | finding => exact absurd hp (by simp [UploadPlace.holds])
  | @inserting p rest part' b id' l n front le =>
    rw [UploadPlace.holds_front front] at hp
    obtain ⟨rfl, rfl⟩ : part' = part ∧ id' = id := by simpa using hp
    exact ⟨_, _, _, front⟩

/-! The two loops of the lookup, bin by bin, come to `Aggregation.lookup`. -/

variable {pool : TimeSlicePool} {b : U64} {it tpuIt : List U64} {ids tpuIds : List SliceId}

theorem find (h : InSection j a found ⟨.built, .finding pool (b :: it) ids tpuIt tpuIds⟩) :
    InSection j a (found.find pool b).1
      ⟨.built, .finding pool it (ids ++ [(found.find pool b).2]) tpuIt tpuIds⟩ := by
  cases h with
  | finding bins bins_eq ids_length first found_eq =>
    obtain rfl : tpuIds = [] := first.resolve_left (by simp)
    refine .finding (bins ++ [b]) ?_ ?_ (Or.inr rfl) ?_
    · rw [← bins_eq]
      simp
    · rw [← ids_length, List.length_append, List.length_singleton, List.length_cons]
      omega
    · rw [Aggregation.findAll_concat, found_eq]
      simp [Aggregation.findAll]

theorem findTpu (h : InSection j a found ⟨.built, .finding pool [] ids (b :: tpuIt) tpuIds⟩) :
    InSection j a (found.find pool b).1
      ⟨.built, .finding pool [] ids tpuIt (tpuIds ++ [(found.find pool b).2])⟩ := by
  cases h with
  | finding bins bins_eq ids_length first found_eq =>
    refine .finding (bins ++ [b]) ?_ ids_length (Or.inl rfl) ?_
    · rw [← bins_eq]
      simp
    · rw [Aggregation.findAll_concat, found_eq]
      simp [Aggregation.findAll]

theorem lookup (h : InSection j a found ⟨.built, .finding pool [] ids [] tpuIds⟩) :
    a.lookup pool j =
      (found, .uploading j.collections.entries ids j.tpuHitCollection.entries tpuIds) := by
  cases h with
  | finding bins bins_eq ids_length first found_eq =>
    obtain rfl : bins = j.bins := by simpa using bins_eq
    rw [UploadJob.bins, Aggregation.findAll_concat] at found_eq
    obtain ⟨hfound, hids⟩ := Prod.mk.inj found_eq
    obtain ⟨hids, htpuIds⟩ := List.append_inj hids
      ((Aggregation.length_findAll _ _ _).trans ids_length.symm)
    simp only [Aggregation.lookup, hfound, hids, htpuIds]

end InSection

theorem inSection_update {a found : Aggregation} {place : ι → UploadPlace} {i : ι} {q : UploadPlace}
    (hi : InSection (jobs i) a found q)
    (hother : ∀ j, j ≠ i → InSection (jobs j) a found (place j)) (j : ι) :
    InSection (jobs j) a found (Function.update place i q j) := by
  by_cases hj : j = i
  · subst hj
    rwa [Function.update_self]
  · rw [Function.update_of_ne hj]
    exact hother j hj

end Simulation
end HkRbu
