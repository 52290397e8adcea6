import HkRbu.Data.TPUHit
import HkRbu.Decode.Scan

/-!
# The aggregation buffer

`aggrigation_buffer` maps a bin to the `TimeSlice` that collects it; a null pointer, like a
missing entry, means there is none yet. The slices themselves live on the heap and are reached
through pointers, so that two bins *could* share one. That they do not (`Distinct`) is what makes
"the contents of a bin" (`contents`) change only when that bin is appended to.
-/

namespace HkRbu

/-- `TimeSlice`, with the parts the upload writes. -/
structure TimeSlice where
  rawIdod : List U32
  reducedHits : List TPUHit

/-- The part of the data model the upload works on. -/
structure Aggregation where
  aggrigationBuffer : IndexMap U64 (Option SliceId)
  slices : SliceId → TimeSlice

/-- `time_slice_pool`, as far as the upload can tell: `GetNew` returns a slice that is not in the
    buffer. It is returned empty, see `find`. -/
structure TimeSlicePool where
  getNew : IndexMap U64 (Option SliceId) → SliceId
  fresh : ∀ buffer b, IndexMap.get buffer b ≠ some (getNew buffer)

/-- The highest number of a slice in the buffer. -/
def topSlice (buffer : IndexMap U64 (Option SliceId)) : SliceId :=
  (buffer.entries.map fun e => e.2.getD 0).foldr max 0

theorem le_topSlice {buffer : IndexMap U64 (Option SliceId)} {b : U64} {id : SliceId}
    (h : IndexMap.get buffer b = some id) : id ≤ topSlice buffer := by
  have hle : ∀ (l : List Nat), ∀ n ∈ l, n ≤ l.foldr max 0 := by
    intro l
    induction l with
    | nil => exact fun n hn => absurd hn List.not_mem_nil
    | cons x l ih =>
      intro n hn
      rcases List.mem_cons.mp hn with rfl | hn
      · exact Nat.le_max_left _ _
      · exact Nat.le_trans (ih n hn) (Nat.le_max_right _ _)
  have hlookup : buffer.lookup b = some (some id) := by
    unfold IndexMap.get at h
    cases hl : buffer.lookup b with
    | none =>
      rw [hl] at h
      exact absurd h (by simp)
    | some v =>
      rw [hl] at h
      exact congrArg some h
  exact hle _ id (List.mem_map.mpr ⟨_, AList.mem_lookup_iff.mp hlookup, rfl⟩)

/-- A pool that always allocates, with numbers counted up. -/
def TimeSlicePool.counting : TimeSlicePool where
  getNew buffer := topSlice buffer + 1
  fresh _ _ h := absurd (le_topSlice h) (Nat.not_succ_le_self _)

namespace Aggregation

/-- No bin has a slice. -/
def empty : Aggregation := ⟨∅, fun _ => ⟨[], []⟩⟩

/-- The slice of a bin. -/
def sliceOf (a : Aggregation) (b : U64) : Option SliceId := IndexMap.get a.aggrigationBuffer b

/-- `if (aggrigation_buffer[b] == 0) aggrigation_buffer[b] = time_slice_pool.GetNew();`, and the
    pointer that is pushed. -/
def find (pool : TimeSlicePool) (a : Aggregation) (b : U64) : Aggregation × SliceId :=
  match a.sliceOf b with
  | some id => ({ a with aggrigationBuffer := IndexMap.touch a.aggrigationBuffer b }, id)
  | none =>
    let id := pool.getNew a.aggrigationBuffer
    ({ aggrigationBuffer := IndexMap.update a.aggrigationBuffer b fun _ => some id
       slices := Function.update a.slices id ⟨[], []⟩ }, id)

/-- The loop over the bins of one map, with the queue it fills. -/
def findAll (pool : TimeSlicePool) (a : Aggregation) : List U64 → Aggregation × List SliceId
  | [] => (a, [])
  | b :: bins =>
    let (a, id) := a.find pool b
    let (a, ids) := a.findAll pool bins
    (a, id :: ids)

/-- `f` is done to the slice `id`. -/
def updateSlice (a : Aggregation) (id : SliceId) (f : TimeSlice → TimeSlice) : Aggregation :=
  { a with slices := Function.update a.slices id (f (a.slices id)) }

/-- `raw_idod.insert(raw_idod.end(), …)` on a slice. -/
def appendRaw (a : Aggregation) (id : SliceId) (ws : List U32) : Aggregation :=
  a.updateSlice id fun t => { t with rawIdod := t.rawIdod ++ ws }

/-- `reduced_hits.insert(reduced_hits.end(), …)` on a slice. -/
def appendReduced (a : Aggregation) (id : SliceId) (hits : List TPUHit) : Aggregation :=
  a.updateSlice id fun t => { t with reducedHits := t.reducedHits ++ hits }

/-- What part `part` of the slice of a bin holds; nothing if the bin has no slice. -/
def contents {α : Type} (part : TimeSlice → List α) (a : Aggregation) (b : U64) : List α :=
  match a.sliceOf b with
  | some id => part (a.slices id)
  | none => []

/-- No two bins share a slice. -/
def Distinct (a : Aggregation) : Prop :=
  ∀ b b' id, a.sliceOf b = some id → a.sliceOf b' = some id → b = b'

theorem distinct_empty : Distinct empty := by
  intro b b' id h
  exact absurd h (by simp [sliceOf, empty])

/-! ## Looking up -/

section Find

variable (pool : TimeSlicePool) (a : Aggregation) (b : U64)

/-- Everything a lookup does: the bin has a slice afterwards, and the other bins keep theirs. -/
theorem sliceOf_find (b' : U64) :
    (a.find pool b).1.sliceOf b' = if b' = b then some (a.find pool b).2 else a.sliceOf b' := by
  unfold find
  cases h : a.sliceOf b with
  | some id =>
    by_cases hb : b' = b
    · subst hb
      rw [if_pos rfl]
      exact (IndexMap.get_touch _ _ _).trans h
    · rw [if_neg hb]
      exact IndexMap.get_touch _ _ _
  | none => exact IndexMap.get_update _ _ _ _

theorem mem_find (b' : U64) :
    b' ∈ (a.find pool b).1.aggrigationBuffer ↔ b' = b ∨ b' ∈ a.aggrigationBuffer := by
  unfold find
  cases a.sliceOf b with
  | some id => exact IndexMap.mem_touch _ _ _
  | none => exact IndexMap.mem_update _ _ _ _

theorem sliceOf_find_of_some {b' : U64} {id : SliceId} (h : a.sliceOf b' = some id) :
    (a.find pool b).1.sliceOf b' = some id := by
  rw [sliceOf_find]
  split
  · rename_i hb
    subst hb
    rw [find, h]
  · exact h

theorem Distinct.find {a : Aggregation} (h : a.Distinct) : (a.find pool b).1.Distinct := by
  -- A slice that is found for `b` was either there before or is in no other entry.
  have hother : ∀ b', b' ≠ b → a.sliceOf b' ≠ some (a.find pool b).2 := by
    intro b' hb' he
    unfold Aggregation.find at he
    cases hs : a.sliceOf b with
    | some id =>
      rw [hs] at he
      exact hb' (h b' b id he hs)
    | none =>
      rw [hs] at he
      exact pool.fresh _ _ he
  intro b₁ b₂ id h₁ h₂
  rw [sliceOf_find] at h₁ h₂
  by_cases hb₁ : b₁ = b <;> by_cases hb₂ : b₂ = b
  · rw [hb₁, hb₂]
  · rw [if_pos hb₁] at h₁
    rw [if_neg hb₂] at h₂
    exact absurd (h₂.trans h₁.symm) (hother b₂ hb₂)
  · rw [if_neg hb₁] at h₁
    rw [if_pos hb₂] at h₂
    exact absurd (h₁.trans h₂.symm) (hother b₁ hb₁)
  · rw [if_neg hb₁] at h₁
    rw [if_neg hb₂] at h₂
    exact h b₁ b₂ id h₁ h₂

/-- **A lookup changes the contents of no bin**: a new slice is empty, and in no other entry. -/
theorem contents_find {α : Type} {part : TimeSlice → List α} (hpart : part ⟨[], []⟩ = [])
    (b' : U64) :
    contents part (a.find pool b).1 b' = contents part a b' := by
  unfold contents
  rw [sliceOf_find]
  by_cases hb : b' = b
  · subst hb
    rw [if_pos rfl]
    unfold find
    cases h : a.sliceOf b' with
    | some id => rfl
    | none => simp [hpart]
  · rw [if_neg hb]
    cases h' : a.sliceOf b' with
    | none => rfl
    | some id =>
      unfold find
      cases h : a.sliceOf b with
      | some _ => rfl
      | none =>
        have hne : id ≠ pool.getNew a.aggrigationBuffer := fun he => pool.fresh _ b' (he ▸ h')
        simp [Function.update_of_ne hne]

end Find

/-- What the lookup of `bins` does: it gives each of them a slice, and leaves alone what was
    there. -/
structure Found (a : Aggregation) (bins : List U64) (a' : Aggregation) (ids : List SliceId) :
    Prop where
  aligned : List.Forall₂ (fun b id => a'.sliceOf b = some id) bins ids
  kept : ∀ b id, a.sliceOf b = some id → a'.sliceOf b = some id
  mem : ∀ b, b ∈ a'.aggrigationBuffer ↔ b ∈ bins ∨ b ∈ a.aggrigationBuffer
  distinct : a.Distinct → a'.Distinct
  contents : ∀ {α : Type} {part : TimeSlice → List α}, part ⟨[], []⟩ = [] →
    ∀ b, contents part a' b = contents part a b

theorem findAll_found (pool : TimeSlicePool) (a : Aggregation) (bins : List U64) :
    Found a bins (a.findAll pool bins).1 (a.findAll pool bins).2 := by
  induction bins generalizing a with
  | nil => exact ⟨.nil, fun _ _ h => h, fun b => by simp [findAll], fun h => h, fun _ _ => rfl⟩
  | cons b bins ih =>
    obtain ⟨haligned, hkept, hmem, hdistinct, hcontents⟩ := ih (a.find pool b).1
    have hb : (a.find pool b).1.sliceOf b = some (a.find pool b).2 := by
      rw [sliceOf_find, if_pos rfl]
    refine ⟨.cons (hkept _ _ hb) haligned, ?_, ?_, fun h => hdistinct (h.find pool b), ?_⟩
    · intro b' id h
      exact hkept _ _ (sliceOf_find_of_some pool a b h)
    · intro b'
      refine (hmem b').trans ?_
      rw [mem_find, List.mem_cons]
      tauto
    · intro α part hpart b'
      exact (hcontents hpart b').trans (contents_find pool a b hpart b')

/-! ## Appending -/

/-- Changing the slice of a bin changes the contents of that bin only, as no other has the slice. -/
theorem contents_updateSlice {α : Type} (part : TimeSlice → List α) {a : Aggregation}
    (h : a.Distinct) {b : U64} {id : SliceId} (hb : a.sliceOf b = some id)
    (f : TimeSlice → TimeSlice) :
    contents part (a.updateSlice id f) =
      Function.update (contents part a) b (part (f (a.slices id))) := by
  have hsame : ∀ b', (a.updateSlice id f).sliceOf b' = a.sliceOf b' := fun _ => rfl
  funext b'
  rw [contents, hsame]
  by_cases hbb : b' = b
  · subst hbb
    simp [hb, updateSlice]
  · rw [Function.update_of_ne hbb, contents]
    cases h' : a.sliceOf b' with
    | none => rfl
    | some id' =>
      have hne : id' ≠ id := fun he => hbb (h b' b id (he ▸ h') hb)
      simp [updateSlice, Function.update_of_ne hne]

theorem contents_of_sliceOf {α : Type} (part : TimeSlice → List α) {a : Aggregation} {b : U64}
    {id : SliceId} (hb : a.sliceOf b = some id) : contents part a b = part (a.slices id) := by
  rw [contents, hb]

end Aggregation
end HkRbu
