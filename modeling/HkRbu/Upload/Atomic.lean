import HkRbu.Upload.Locking

/-!
# The locked sections are atomic

Nothing is lost by taking a locked section at once: the runs of the single statements are runs of
the sections, and what a mutex guards is the same in both whenever the mutex is free
(`mutexes_refine`). A section counts when its mutex is unlocked; until then its job is where it was
and the others have moved on.
-/

namespace HkRbu

variable {ι : Type} [DecidableEq ι] {jobs : ι → UploadJob}

omit [DecidableEq ι] in
theorem LockedState.inserted_of_free (st : LockedState ι) {part : SlicePart} {id : SliceId}
    (h : st.mutexes (.slice part id) = none) : st.inserted part id = [] :=
  Mutex.done_of_free h _

omit [DecidableEq ι] in
theorem LockedState.inserted_of_held (st : LockedState ι) {i : ι} {p rest : Phase}
    {part : SlicePart} {b : U64} {id : SliceId} {l : List part.Elem} {n : Nat}
    (front : p.Front part b id l rest) (hi : st.place i = ⟨p, .inserting n⟩)
    (h : st.mutexes (.slice part id) = some i) :
    st.inserted part id = l.take n :=
  (Mutex.done_of_held h _).trans
    ((congrArg (UploadPlace.inserted part) hi).trans (UploadPlace.inserted_front front n))

theorem LockedState.inserted_update_self (st : LockedState ι) (a : Aggregation)
    {mutexes : UploadMutex → Option ι} {i : ι} {p rest : Phase} {part : SlicePart} {b : U64}
    {id : SliceId} {l : List part.Elem} (front : p.Front part b id l rest)
    (h : mutexes (.slice part id) = some i) (n : Nat) :
    inserted ⟨a, mutexes, Function.update st.place i ⟨p, .inserting n⟩⟩ part id = l.take n := by
  refine inserted_of_held _ front ?_ h
  exact Function.update_self _ _ _

namespace LockedState.Shows

variable {st : LockedState ι} {a found : Aggregation} {i : ι} {p rest : Phase} {part : SlicePart}
  {b : U64} {id : SliceId} {l : List part.Elem}

/-- What the other jobs have written is not changed by a step of a job that does not hold the
    mutex. -/
theorem inserted_update (h : st.Shows jobs a found) (a' : Aggregation)
    {mutexes : UploadMutex → Option ι}
    (hsame : mutexes (.slice part id) = st.mutexes (.slice part id))
    (hi : st.holds i ≠ some (.slice part id)) (q : UploadPlace) :
    LockedState.inserted ⟨a', mutexes, Function.update st.place i q⟩ part id =
      st.inserted part id :=
  h.agrees.done_update hsame hi st.place q (UploadPlace.inserted part)

omit [DecidableEq ι] in
/-- Where a slice is being written to, it is in the buffer. -/
theorem inserted_of_fresh (h : st.Shows jobs a found)
    (hal : ∀ i, (st.place i).phase.Aligned a) (pool : TimeSlicePool) (part : SlicePart) :
    st.inserted part (pool.getNew found.aggrigationBuffer) = [] := by
  refine inserted_of_free _ (h.agrees.free fun i hi => ?_)
  obtain ⟨b, l, rest, front⟩ := (h.inSection i).exists_front hi
  exact pool.fresh _ b (h.kept b _ (front.sliceOf (hal i))).1

omit [DecidableEq ι] in
/-- While every job is outside its sections all mutexes are free. -/
theorem all_free (h : st.Shows jobs a found) (hout : ∀ i, (st.place i).inside = .outside)
    (m : UploadMutex) : st.mutexes m = none := by
  refine h.agrees.free fun i => ?_
  have hplace : st.place i = ⟨(st.place i).phase, .outside⟩ := by rw [← hout i]
  rw [st.holds_def, hplace, UploadPlace.holds_outside]
  simp

theorem lockBuffer (h : st.Shows jobs a found) (pool : TimeSlicePool)
    (hi : st.place i = ⟨.built, .outside⟩) (hfree : st.mutexes .aggrigationBuffer = none) :
    Shows jobs ⟨st.aggregation, Mutex.lock st.mutexes .aggrigationBuffer i,
      Function.update st.place i ⟨.built,
        .finding pool (jobs i).collections.keys [] (jobs i).tpuHitCollection.keys []⟩⟩ a a := by
  have hnone : st.holds i = none := by rw [st.holds_def, hi, UploadPlace.holds_outside]
  obtain rfl := h.free hfree
  refine ⟨?_, ?_, fun _ => rfl, h.kept, h.buffer, ?_⟩
  · rw [st.holds_update]
    exact h.agrees.lock hfree hnone
  · exact inSection_update
      (.finding [] rfl (Nat.zero_add _) (Or.inr rfl) rfl) fun j _ => h.inSection j
  · intro id part
    rw [h.slices, h.inserted_update _ (Mutex.lock_of_ne _ (by simp) _) (by simp [hnone])]

/-- One bin of the lookup. -/
theorem find (h : st.Shows jobs a found) (hal : ∀ i, (st.place i).phase.Aligned a)
    (pool : TimeSlicePool) (b : U64) (hi : st.holds i = some .aggrigationBuffer) {q : UploadPlace}
    (hq : q.holds = some .aggrigationBuffer)
    (hplace : InSection (jobs i) a (found.find pool b).1 q) :
    Shows jobs ⟨(st.aggregation.find pool b).1, st.mutexes, Function.update st.place i q⟩ a
      (found.find pool b).1 := by
  have hslice : st.aggregation.sliceOf b = found.sliceOf b :=
    congrArg (IndexMap.get · b) h.buffer
  have hheld : st.mutexes .aggrigationBuffer = some i := (h.agrees _ i).mpr hi
  refine ⟨?_, ?_, fun hfree => absurd (hheld.symm.trans hfree) (by simp), ?_, ?_, ?_⟩
  · rw [st.holds_update, hq, ← hi, Function.update_eq_self]
    exact h.agrees
  · exact inSection_update hplace fun j hj =>
      (h.inSection j).of_not_finding fun he => hj (h.agrees.exclusive he hi)
  · intro b' id' hid'
    obtain ⟨hb', hget⟩ := h.kept b' id' hid'
    refine ⟨Aggregation.sliceOf_find_of_some pool found b hb', fun part => ?_⟩
    have hfresh : id' ≠ pool.getNew found.aggrigationBuffer :=
      fun he => pool.fresh _ b' (he ▸ hb')
    rw [Aggregation.get_find, if_neg fun hnew => hfresh hnew.2, hget]
  · exact (Aggregation.find_congr h.buffer pool b).1
  · intro id' part
    rw [Aggregation.get_find, Aggregation.get_find, hslice, h.buffer,
      h.inserted_update _ rfl (by simp [hi])]
    split
    · rename_i hnew
      rw [hnew.2, h.inserted_of_fresh hal, List.append_nil]
    · exact h.slices id' part

theorem unlockBuffer (h : st.Shows jobs a found) {q : UploadPlace} (hq : q.holds = none)
    (hplace : InSection (jobs i) found found q) (hi : st.holds i = some .aggrigationBuffer) :
    Shows jobs ⟨st.aggregation, Mutex.unlock st.mutexes .aggrigationBuffer,
      Function.update st.place i q⟩ found found := by
  refine ⟨?_, ?_, fun _ => rfl, fun _ _ hb => ⟨hb, fun _ => rfl⟩, h.buffer, ?_⟩
  · rw [st.holds_update, hq]
    exact h.agrees.unlock hi
  · exact inSection_update hplace fun j hj =>
      (h.inSection j).of_not_finding fun he => hj (h.agrees.exclusive he hi)
  · intro id part
    rw [h.slices, h.inserted_update _ (Mutex.unlock_of_ne _ (by simp)) (by simp [hi])]

theorem lock (h : st.Shows jobs a found) (front : p.Front part b id l rest)
    (hi : st.place i = ⟨p, .outside⟩) (hfree : st.mutexes (.slice part id) = none) :
    Shows jobs ⟨st.aggregation, Mutex.lock st.mutexes (.slice part id) i,
      Function.update st.place i ⟨p, .inserting 0⟩⟩ a found := by
  have hnone : st.holds i = none := by rw [st.holds_def, hi, UploadPlace.holds_outside]
  have hbuffer : UploadMutex.aggrigationBuffer ≠ .slice part id := UploadMutex.noConfusion
  refine ⟨?_, ?_, ?_, h.kept, h.buffer, ?_⟩
  · rw [st.holds_update, UploadPlace.holds_front front]
    exact h.agrees.lock hfree hnone
  · exact inSection_update (.inserting front (Nat.zero_le _)) fun j _ => h.inSection j
  · intro hfree'
    exact h.free ((Mutex.lock_of_ne st.mutexes hbuffer i).symm.trans hfree')
  · intro id' part'
    rw [h.slices]
    refine congrArg (_ ++ ·) ?_
    by_cases hsame : UploadMutex.slice part' id' = .slice part id
    · obtain ⟨rfl, rfl⟩ := UploadMutex.slice.inj hsame
      rw [inserted_of_free _ hfree]
      exact (st.inserted_update_self _ front (Mutex.lock_self _ _ _) 0).symm
    · exact (h.inserted_update _ (Mutex.lock_of_ne _ hsame _) (by simp [hnone]) _).symm

theorem insert (h : st.Shows jobs a found) (front : p.Front part b id l rest) {n : Nat}
    (hi : st.place i = ⟨p, .inserting n⟩) (hn : n < l.length) :
    Shows jobs ⟨st.aggregation.append id part [l[n]], st.mutexes,
      Function.update st.place i ⟨p, .inserting (n + 1)⟩⟩ a found := by
  have hholds : st.holds i = some (.slice part id) := by
    rw [st.holds_def, hi, UploadPlace.holds_front front]
  have hheld : st.mutexes (.slice part id) = some i := (h.agrees _ i).mpr hholds
  refine ⟨?_, ?_, h.free, h.kept, h.buffer, ?_⟩
  · rw [st.holds_update, UploadPlace.holds_front front, ← hholds, Function.update_eq_self]
    exact h.agrees
  · exact inSection_update (.inserting front hn) fun j _ => h.inSection j
  · intro id' part'
    by_cases hsame : UploadMutex.slice part' id' = .slice part id
    · obtain ⟨rfl, rfl⟩ := UploadMutex.slice.inj hsame
      rw [Aggregation.get_append_self, h.slices, inserted_of_held _ front hi hheld,
        st.inserted_update_self _ front hheld, List.append_assoc, List.take_append_getElem hn]
    · have hne : (id', part') ≠ (id, part) := by
        rintro ⟨⟩
        exact hsame rfl
      have hother : st.holds i ≠ some (.slice part' id') := by
        rw [hholds]
        exact fun he => hsame (Option.some.inj he).symm
      rw [Aggregation.get_append_ne _ _ hne, h.slices, h.inserted_update _ rfl hother]

theorem unlock (h : st.Shows jobs a found) (front : p.Front part b id l rest)
    (hi : st.place i = ⟨p, .inserting l.length⟩) (hb : a.sliceOf b = some id) :
    Shows jobs ⟨st.aggregation, Mutex.unlock st.mutexes (.slice part id),
      Function.update st.place i ⟨rest, .outside⟩⟩ (a.append id part l)
      (found.append id part l) := by
  have hholds : st.holds i = some (.slice part id) := by
    rw [st.holds_def, hi, UploadPlace.holds_front front]
  have hheld : st.mutexes (.slice part id) = some i := (h.agrees _ i).mpr hholds
  have hbuffer : UploadMutex.aggrigationBuffer ≠ .slice part id := UploadMutex.noConfusion
  have hcases : ∀ (a : Aggregation) (id' : SliceId) (part' : SlicePart),
      part'.get ((a.append id part l).slices id') = part'.get (a.slices id') ++
        if UploadMutex.slice part' id' = .slice part id then st.inserted part' id' else [] := by
    intro a id' part'
    by_cases hsame : UploadMutex.slice part' id' = .slice part id
    · obtain ⟨rfl, rfl⟩ := UploadMutex.slice.inj hsame
      rw [if_pos rfl, Aggregation.get_append_self, inserted_of_held _ front hi hheld,
        List.take_length]
    · rw [if_neg hsame, List.append_nil, Aggregation.get_append_ne]
      rintro ⟨⟩
      exact hsame rfl
  refine ⟨?_, ?_, ?_, ?_, h.buffer, ?_⟩
  · rw [st.holds_update, UploadPlace.holds_outside]
    exact h.agrees.unlock hholds
  · exact inSection_update (.outside rest) fun j _ => (h.inSection j).append l hb
  · intro hfree
    rw [h.free ((Mutex.unlock_of_ne st.mutexes hbuffer).symm.trans hfree)]
  · intro b' id' hid'
    obtain ⟨hb', hget⟩ := h.kept b' id' hid'
    exact ⟨hb', fun part' => by rw [hcases, hcases, hget]⟩
  · intro id' part'
    rw [hcases, h.slices]
    by_cases hsame : UploadMutex.slice part' id' = .slice part id
    · have hfree : Mutex.unlock st.mutexes (.slice part id) (.slice part' id') = none :=
        hsame ▸ Mutex.unlock_self _ _
      rw [if_pos hsame, inserted_of_free ⟨_, Mutex.unlock _ _, _⟩ hfree, List.append_nil]
    · have hother : st.holds i ≠ some (.slice part' id') := by
        rw [hholds]
        exact fun he => hsame (Option.some.inj he).symm
      rw [if_neg hsame, List.append_nil,
        h.inserted_update _ (Mutex.unlock_of_ne _ hsame) hother]

end LockedState.Shows

/-! ## Runs -/

/-- `st` is `u` with some sections in progress. -/
structure LockedState.Refines (jobs : ι → UploadJob) (a₀ : Aggregation) (st : LockedState ι)
    (u : UploadState ι) : Prop where
  inv : UploadInv jobs a₀ u
  phase : u.phase = fun i => (st.place i).phase
  shows : ∃ found, st.Shows jobs u.aggregation found

namespace LockedState.Refines

variable {a₀ : Aggregation} {st st' : LockedState ι} {u : UploadState ι}

theorem start (h₀ : a₀.Distinct) : Refines jobs a₀ (lockedStart a₀) (uploadStart a₀) where
  inv := .init jobs h₀
  phase := rfl
  shows := ⟨a₀, {
    agrees := fun _ _ => by simp [lockedStart, holds, UploadPlace.holds]
    inSection := fun _ => .outside _
    free := fun _ => rfl
    kept := fun _ _ hb => ⟨hb, fun _ => rfl⟩
    buffer := rfl
    slices := fun _ _ => (List.append_nil _).symm }⟩

theorem aligned (h : st.Refines jobs a₀ u) (i : ι) : (st.place i).phase.Aligned u.aggregation := by
  have hal := h.inv.aligned i
  rwa [h.phase] at hal

theorem phase_update (h : st.Refines jobs a₀ u) (i : ι) (q : UploadPlace) :
    Function.update u.phase i q.phase = fun j => (Function.update st.place i q j).phase := by
  rw [h.phase]
  exact funext fun j => (Function.apply_update (fun _ => UploadPlace.phase) st.place i q j).symm

theorem phase_same (h : st.Refines jobs a₀ u) {i : ι} {p : Phase} {s : Section} {q : UploadPlace}
    (hi : st.place i = ⟨p, s⟩) (hq : q.phase = p) :
    u.phase = fun j => (Function.update st.place i q j).phase := by
  rw [← h.phase_update, hq, h.phase]
  have hp : p = (st.place i).phase := by rw [hi]
  rw [hp]
  exact (Function.update_eq_self i _).symm

/-- **Every statement is a locked section or none.** A section counts when its mutex is unlocked. -/
theorem step (h : st.Refines jobs a₀ u) (hstep : LockedStep jobs st st') :
    ∃ u', Relation.ReflGen (UploadStep jobs) u u' ∧ st'.Refines jobs a₀ u' := by
  obtain ⟨found, hshows⟩ := h.shows
  cases hstep with
  | lockBuffer i pool at_ free =>
    exact ⟨u, .refl, h.inv, h.phase_same at_ rfl, _, hshows.lockBuffer pool at_ free⟩
  | @find i pool b it tpuIt ids tpuIds at_ =>
    have hholds : st.holds i = some .aggrigationBuffer := by rw [st.holds_def, at_]; rfl
    have hin := hshows.inSection i
    rw [at_] at hin
    refine ⟨u, .refl, h.inv, h.phase_same at_ rfl, _,
      hshows.find h.aligned pool b hholds rfl ?_⟩
    rw [(Aggregation.find_congr hshows.buffer pool b).2]
    exact hin.find
  | @findTpu i pool b tpuIt ids tpuIds at_ =>
    have hholds : st.holds i = some .aggrigationBuffer := by rw [st.holds_def, at_]; rfl
    have hin := hshows.inSection i
    rw [at_] at hin
    refine ⟨u, .refl, h.inv, h.phase_same at_ rfl, _,
      hshows.find h.aligned pool b hholds rfl ?_⟩
    rw [(Aggregation.find_congr hshows.buffer pool b).2]
    exact hin.findTpu
  | @unlockBuffer i pool ids tpuIds at_ =>
    have hholds : st.holds i = some .aggrigationBuffer := by rw [st.holds_def, at_]; rfl
    have hin := hshows.inSection i
    rw [at_] at hin
    have hbuilt : u.phase i = .built := by simp [h.phase, at_]
    have hstep : UploadStep jobs u _ := .lookup i pool hbuilt
    rw [hin.lookup] at hstep
    exact ⟨_, .single hstep, h.inv.step hstep, h.phase_update i ⟨_, .outside⟩, _,
      hshows.unlockBuffer (UploadPlace.holds_outside _) (.outside _) hholds⟩
  | lock i front at_ free =>
    exact ⟨u, .refl, h.inv, h.phase_same at_ rfl, _, hshows.lock front at_ free⟩
  | insert i front at_ hn =>
    exact ⟨u, .refl, h.inv, h.phase_same at_ rfl, _, hshows.insert front at_ hn⟩
  | @unlock i p rest part b id l front at_ =>
    have hal := h.aligned i
    rw [at_] at hal
    have hp : u.phase i = p := by simp [h.phase, at_]
    have hstep : UploadStep jobs u _ := front.step hp
    exact ⟨_, .single hstep, h.inv.step hstep, h.phase_update i ⟨rest, .outside⟩, _,
      hshows.unlock front at_ (front.sliceOf hal)⟩

theorem of_run (h₀ : a₀.Distinct)
    (hrun : Relation.ReflTransGen (LockedStep jobs) (lockedStart a₀) st) :
    ∃ u, Relation.ReflTransGen (UploadStep jobs) (uploadStart a₀) u ∧ st.Refines jobs a₀ u :=
  Relation.simulates (fun h hstep => h.step hstep) (start h₀) hrun

end LockedState.Refines

/-- **The locked sections are atomic.** Every run of the single statements is one of the locked
    sections: no two jobs are in the sections of one mutex, and what a mutex guards is what the
    sections that have been left have made of it, whenever the mutex is free. In between a vector
    has grown at its end only. -/
theorem mutexes_refine {a₀ : Aggregation} (h₀ : a₀.Distinct) {st : LockedState ι}
    (hrun : Relation.ReflTransGen (LockedStep jobs) (lockedStart a₀) st) :
    (∀ m i j, st.holds i = some m → st.holds j = some m → i = j) ∧
    ∃ u : UploadState ι, Relation.ReflTransGen (UploadStep jobs) (uploadStart a₀) u ∧
      (∀ i, u.phase i = (st.place i).phase) ∧
      (st.mutexes .aggrigationBuffer = none →
        st.aggregation.aggrigationBuffer = u.aggregation.aggrigationBuffer) ∧
      ∀ b id, u.aggregation.sliceOf b = some id → ∀ part : SlicePart,
        st.aggregation.sliceOf b = some id ∧
        part.get (u.aggregation.slices id) <+: part.get (st.aggregation.slices id) ∧
        (st.mutexes (.slice part id) = none →
          part.get (st.aggregation.slices id) = part.get (u.aggregation.slices id)) := by
  obtain ⟨u, hu, -, hphase, found, hshows⟩ := LockedState.Refines.of_run h₀ hrun
  refine ⟨fun m i j hi hj => hshows.agrees.exclusive hi hj, u, hu, congrFun hphase, ?_, ?_⟩
  · intro hfree
    rw [hshows.buffer, hshows.free hfree]
  · intro b id hb part
    obtain ⟨hfound, hget⟩ := hshows.kept b id hb
    refine ⟨?_, ?_, ?_⟩
    · rw [← hfound]
      exact congrArg (IndexMap.get · b) hshows.buffer
    · rw [hshows.slices, hget]
      exact List.prefix_append _ _
    · intro hfree
      rw [hshows.slices, hget, st.inserted_of_free hfree, List.append_nil]

/-- A state in which the second job is writing its reduced hits to the slice that the first job has
    made, while the first is at its raw words. -/
theorem lockedRun_twoJobs : ∃ st : LockedState (Fin 2),
    Relation.ReflTransGen (LockedStep twoJobs) (lockedStart Aggregation.empty) st ∧
      st.holds 0 = some (.slice .raw 1) ∧ st.holds 1 = some (.slice .reduced 1) := by
  refine ⟨_, .tail (.tail (.tail (.tail (.tail (.tail (.tail (.tail (.tail (.tail (.tail (.tail
    (.tail (.tail .refl
    (.lockBuffer 0 .counting rfl rfl)) (.find 0 rfl)) (.findTpu 0 rfl)) (.unlockBuffer 0 rfl))
    (.lockBuffer 1 .counting rfl rfl)) (.find 1 rfl)) (.findTpu 1 rfl)) (.unlockBuffer 1 rfl))
    (.lock 1 .raw rfl rfl)) (.insert 1 .raw (n := 0) rfl (by decide))) (.unlock 1 .raw rfl))
    (.lock 1 .reduced rfl rfl)) (.lock 0 .raw rfl rfl))
    (.insert 1 .reduced (n := 0) rfl (by decide)), ?_⟩
  exact ⟨rfl, rfl⟩

theorem mutexes_refine_twoJobs : ∃ st : LockedState (Fin 2),
    st.holds 1 = some (.slice .reduced 1) ∧ ∃ u : UploadState (Fin 2),
      Relation.ReflTransGen (UploadStep twoJobs) (uploadStart Aggregation.empty) u ∧
      ∀ i, u.phase i = (st.place i).phase := by
  obtain ⟨st, hrun, -, hholds⟩ := lockedRun_twoJobs
  obtain ⟨-, u, hu, hphase, -⟩ := mutexes_refine Aggregation.distinct_empty hrun
  exact ⟨st, hholds, u, hu, hphase⟩

/-! ## The end -/

/-- The upload is over. -/
def UploadPlace.Done (p : UploadPlace) : Prop := p.phase.Finished ∧ p.inside = .outside

section Done

variable {a₀ : Aggregation} {st : LockedState ι} {u : UploadState ι}

theorem LockedState.Refines.contents (h : st.Refines jobs a₀ u)
    (hout : ∀ i, (st.place i).inside = .outside) (b : U64) :
    st.aggregation.aggrigationBuffer = u.aggregation.aggrigationBuffer ∧
      Aggregation.contents TimeSlice.rawIdod st.aggregation b =
        Aggregation.contents TimeSlice.rawIdod u.aggregation b ∧
      Aggregation.contents TimeSlice.reducedHits st.aggregation b =
        Aggregation.contents TimeSlice.reducedHits u.aggregation b := by
  obtain ⟨found, hshows⟩ := h.shows
  have hfree := hshows.all_free hout
  obtain rfl := hshows.free (hfree _)
  have hbuffer := hshows.buffer
  have hslice : st.aggregation.sliceOf b = u.aggregation.sliceOf b :=
    congrArg (IndexMap.get · b) hbuffer
  have hget : ∀ (part : SlicePart) id,
      part.get (st.aggregation.slices id) = part.get (u.aggregation.slices id) := by
    intro part id
    rw [hshows.slices, st.inserted_of_free (hfree _), List.append_nil]
  refine ⟨hbuffer, ?_, ?_⟩
  · rw [Aggregation.contents, Aggregation.contents, hslice]
    cases u.aggregation.sliceOf b with
    | none => rfl
    | some id => exact hget .raw id
  · rw [Aggregation.contents, Aggregation.contents, hslice]
    cases u.aggregation.sliceOf b with
    | none => rfl
    | some id => exact hget .reduced id

end Done

/-- **Word by word, nothing is lost, torn or doubled.** However the jobs come between one another's
    statements, when all are done the buffer has gained the bins of the jobs and no others, and what
    a bin holds is what it held before and then the chunks of the jobs for it, each once and in one
    piece. -/
theorem locked_conserves [Fintype ι] {a₀ : Aggregation} (h₀ : a₀.Distinct) {st : LockedState ι}
    (hrun : Relation.ReflTransGen (LockedStep jobs) (lockedStart a₀) st)
    (hdone : ∀ i, (st.place i).Done) (b : U64) :
    (b ∈ st.aggregation.aggrigationBuffer ↔
      b ∈ a₀.aggrigationBuffer ∨ ∃ i, b ∈ (jobs i).bins) ∧
    (∃ order : List (List U32),
      Aggregation.contents TimeSlice.rawIdod st.aggregation b =
        Aggregation.contents TimeSlice.rawIdod a₀ b ++ order.flatten ∧
      (order : Multiset (List U32)) =
        ∑ i, (((jobs i).collections.lookup b).toList : Multiset (List U32))) ∧
    ∃ order : List (List TPUHit),
      Aggregation.contents TimeSlice.reducedHits st.aggregation b =
        Aggregation.contents TimeSlice.reducedHits a₀ b ++ order.flatten ∧
      (order : Multiset (List TPUHit)) =
        ∑ i, (((jobs i).tpuHitCollection.lookup b).toList : Multiset (List TPUHit)) := by
  obtain ⟨u, -, hrefines⟩ := LockedState.Refines.of_run h₀ hrun
  obtain ⟨hbuffer, hraw, hreduced⟩ := hrefines.contents (fun i => (hdone i).2) b
  have hfinished : ∀ i, (u.phase i).Finished := fun i => hrefines.phase ▸ (hdone i).1
  rw [hbuffer, hraw, hreduced]
  exact ⟨hrefines.inv.mem_of_finished hfinished b, hrefines.inv.raw_of_finished hfinished b,
    hrefines.inv.reduced_of_finished hfinished b⟩

/-- A run in which the two jobs write to the two vectors of the slice at the same time. -/
theorem locked_conserves_twoJobs : ∃ st : LockedState (Fin 2),
    (∃ order : List (List U32),
      Aggregation.contents TimeSlice.rawIdod st.aggregation 7#64 =
        Aggregation.contents TimeSlice.rawIdod Aggregation.empty 7#64 ++ order.flatten ∧
      (order : Multiset (List U32)) =
        ∑ i, (((twoJobs i).collections.lookup 7#64).toList : Multiset (List U32))) ∧
    ∃ order : List (List TPUHit),
      Aggregation.contents TimeSlice.reducedHits st.aggregation 7#64 =
        Aggregation.contents TimeSlice.reducedHits Aggregation.empty 7#64 ++ order.flatten ∧
      (order : Multiset (List TPUHit)) =
        ∑ i, (((twoJobs i).tpuHitCollection.lookup 7#64).toList : Multiset (List TPUHit)) := by
  have hbegin : Relation.ReflTransGen (LockedStep twoJobs) (lockedStart Aggregation.empty) _ :=
    .tail (.tail (.tail (.tail (.tail (.tail (.tail (.tail .refl
      (.lockBuffer 0 .counting rfl rfl)) (.find 0 rfl)) (.findTpu 0 rfl)) (.unlockBuffer 0 rfl))
      (.lockBuffer 1 .counting rfl rfl)) (.find 1 rfl)) (.findTpu 1 rfl)) (.unlockBuffer 1 rfl)
  have hrun : Relation.ReflTransGen (LockedStep twoJobs) (lockedStart Aggregation.empty) _ :=
    .tail (.tail (.tail (.tail (.tail (.tail (.tail (.tail (.tail (.tail (.tail (.tail hbegin
      (.lock 1 .raw rfl rfl)) (.insert 1 .raw (n := 0) rfl (by decide))) (.unlock 1 .raw rfl))
      (.lock 1 .reduced rfl rfl)) (.lock 0 .raw rfl rfl))
      (.insert 1 .reduced (n := 0) rfl (by decide))) (.insert 0 .raw (n := 0) rfl (by decide)))
      (.unlock 0 .raw rfl)) (.unlock 1 .reduced rfl)) (.lock 0 .reduced rfl rfl))
      (.insert 0 .reduced (n := 0) rfl (by decide))) (.unlock 0 .reduced rfl)
  have hall := locked_conserves Aggregation.distinct_empty hrun fun
    | 0 => ⟨⟨rfl, rfl⟩, rfl⟩
    | 1 => ⟨⟨rfl, rfl⟩, rfl⟩
  exact ⟨_, (hall 7#64).2⟩

end HkRbu
