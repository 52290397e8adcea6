import Mathlib.Data.List.Perm.Basic

/-!
# Object pools

A pool keeps the objects given back to it in a free list. `getNew` hands out one of them or a
fresh object; which one is up to the pool, so it is an argument. What a user may rely on is
`getNew_cases`: either the free list loses exactly the object handed out, or the object is the
fresh one.
-/

namespace Pool

variable {α : Type}

/-- Take the object at index `pick` of the free list, or `fresh` if there is none. -/
def getNew (pick : Option Nat) (fresh : α) (free : List α) : α × List α :=
  match pick.bind (free[·]?) with
  | some x => (x, free.eraseIdx (pick.getD 0))
  | none => (fresh, free)

/-- An object is made, or one is taken that was free. -/
theorem getNew_cases (pick : Option Nat) (fresh : α) (free : List α) :
    getNew pick fresh free = (fresh, free) ∨
      ∃ x rest, getNew pick fresh free = (x, rest) ∧ free.Perm (x :: rest) := by
  unfold getNew
  cases pick with
  | none => exact Or.inl rfl
  | some k =>
    cases h : free[k]? with
    | none => simp [h]
    | some x =>
      obtain ⟨hk, rfl⟩ := List.getElem?_eq_some_iff.mp h
      refine Or.inr ⟨free[k], free.eraseIdx k, by simp [h], ?_⟩
      exact (List.getElem_cons_eraseIdx_perm hk).symm

theorem mem_of_mem_getNew {pick : Option Nat} {fresh x : α} {free : List α}
    (h : x ∈ (getNew pick fresh free).2) : x ∈ free := by
  obtain he | ⟨y, rest, he, hperm⟩ := getNew_cases pick fresh free
  · rwa [he] at h
  · rw [he] at h
    exact hperm.mem_iff.mpr (List.mem_cons_of_mem y h)

end Pool
