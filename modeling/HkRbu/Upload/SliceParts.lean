import HkRbu.Upload.Slices

/-!
# The vectors of a slice

The locked sections on `raw_idod` and on `reduced_hits` are the same but for the vector, and are
written once for both. An append to a slice that is in the buffer and a lookup do not get in each
other's way (`find_append`).
-/

namespace HkRbu

/-- The two vectors of a slice. -/
inductive SlicePart where
  | raw | reduced
  deriving DecidableEq

namespace SlicePart

/-- What a vector holds. -/
abbrev Elem : SlicePart → Type
  | raw => U32
  | reduced => TPUHit

/-- The vector of a slice. -/
def get : (part : SlicePart) → TimeSlice → List part.Elem
  | raw => TimeSlice.rawIdod
  | reduced => TimeSlice.reducedHits

/-- `insert` at the end of the vector. -/
def extend : (part : SlicePart) → List part.Elem → TimeSlice → TimeSlice
  | raw => fun (ws : List U32) t => { t with rawIdod := t.rawIdod ++ ws }
  | reduced => fun (hits : List TPUHit) t => { t with reducedHits := t.reducedHits ++ hits }

variable {part part' : SlicePart} (t : TimeSlice)

theorem get_empty (part : SlicePart) : part.get ⟨[], []⟩ = [] := by
  cases part with
  | raw => rfl
  | reduced => rfl

theorem get_extend_self (l : List part.Elem) : part.get (part.extend l t) = part.get t ++ l := by
  cases part with
  | raw => rfl
  | reduced => rfl

theorem get_extend_ne (l : List part.Elem) (h : part' ≠ part) :
    part'.get (part.extend l t) = part'.get t := by
  cases part with
  | raw =>
    cases part' with
    | raw => exact absurd rfl h
    | reduced => rfl
  | reduced =>
    cases part' with
    | raw => rfl
    | reduced => exact absurd rfl h

end SlicePart

namespace Aggregation

/-- `l` is appended to a vector of the slice `id`. -/
def append (a : Aggregation) (id : SliceId) (part : SlicePart) (l : List part.Elem) : Aggregation :=
  a.updateSlice id (part.extend l)

variable (a : Aggregation) {id id' : SliceId} {part part' : SlicePart}

theorem slices_append (l : List part.Elem) :
    (a.append id part l).slices = Function.update a.slices id (part.extend l (a.slices id)) := rfl

theorem get_append_self (l : List part.Elem) :
    part.get ((a.append id part l).slices id) = part.get (a.slices id) ++ l := by
  rw [slices_append, Function.update_self, SlicePart.get_extend_self]

theorem get_append_ne (l : List part.Elem) (h : (id', part') ≠ (id, part)) :
    part'.get ((a.append id part l).slices id') = part'.get (a.slices id') := by
  rw [slices_append]
  by_cases hid : id' = id
  · subst hid
    rw [Function.update_self, SlicePart.get_extend_ne _ l fun hpart => h (Prod.ext rfl hpart)]
  · rw [Function.update_of_ne hid]

/-- An append goes to a slice of the buffer, so no lookup resets it. -/
theorem find_append (pool : TimeSlicePool) (l : List part.Elem) {b : U64}
    (hid : a.sliceOf b = some id) (b' : U64) :
    (a.append id part l).find pool b' =
      ((a.find pool b').1.append id part l, (a.find pool b').2) := by
  have hfresh : pool.getNew a.aggrigationBuffer ≠ id := fun he => pool.fresh _ b (he ▸ hid)
  have hsame : (a.append id part l).sliceOf b' = a.sliceOf b' := rfl
  unfold find
  rw [hsame]
  cases a.sliceOf b' with
  | some id' => rfl
  | none =>
    simp only [append, updateSlice, Function.update_of_ne hfresh.symm]
    rw [Function.update_comm hfresh]

theorem findAll_append (pool : TimeSlicePool) (l : List part.Elem) {b : U64}
    (hid : a.sliceOf b = some id) (bins : List U64) :
    (a.append id part l).findAll pool bins =
      ((a.findAll pool bins).1.append id part l, (a.findAll pool bins).2) := by
  induction bins generalizing a with
  | nil => rfl
  | cons b' bins ih =>
    have hrest := ih (a.find pool b').1 (sliceOf_find_of_some pool a b' hid)
    simp only [findAll, a.find_append pool l hid, hrest]

theorem findAll_concat (pool : TimeSlicePool) (bins bins' : List U64) :
    a.findAll pool (bins ++ bins') =
      (((a.findAll pool bins).1.findAll pool bins').1,
        (a.findAll pool bins).2 ++ ((a.findAll pool bins).1.findAll pool bins').2) := by
  induction bins generalizing a with
  | nil => rfl
  | cons b bins ih => simp only [List.cons_append, findAll, ih]

/-- What a lookup leaves of the slices: a slice made for the bin is empty, the others are as they
    were. -/
theorem get_find (pool : TimeSlicePool) (b : U64) (id : SliceId) (part : SlicePart) :
    part.get ((a.find pool b).1.slices id) =
      if a.sliceOf b = none ∧ id = pool.getNew a.aggrigationBuffer then []
      else part.get (a.slices id) := by
  unfold find
  cases hb : a.sliceOf b with
  | some id' => simp
  | none =>
    by_cases hid : id = pool.getNew a.aggrigationBuffer
    · subst hid
      simp [SlicePart.get_empty]
    · simp [hid]

/-- What a lookup finds or makes depends on the buffer alone. -/
theorem find_congr {a a' : Aggregation} (h : a.aggrigationBuffer = a'.aggrigationBuffer)
    (pool : TimeSlicePool) (b : U64) :
    (a.find pool b).1.aggrigationBuffer = (a'.find pool b).1.aggrigationBuffer ∧
      (a.find pool b).2 = (a'.find pool b).2 := by
  have hslice : a.sliceOf b = a'.sliceOf b := congrArg (IndexMap.get · b) h
  unfold find
  rw [hslice]
  cases a'.sliceOf b with
  | some id => exact ⟨congrArg (IndexMap.touch · b) h, rfl⟩
  | none => simp only [h, and_self]

end Aggregation

end HkRbu
