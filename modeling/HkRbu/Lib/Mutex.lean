import Mathlib.Logic.Function.Basic
import Mathlib.Logic.Relation

/-!
# Mutexes

A table says which thread holds each mutex, if any. What a thread has to hold is a matter of its
place in the code; where the table says the same (`Agrees`), locking and unlocking keep it so, and
no two threads are between the locking and the unlocking of one mutex (`Agrees.exclusive`).

A machine that goes through its locked sections step by step is verified by showing that it
simulates one that goes through each at once: `simulates` is the rule that takes this from steps to
runs. In between, what a section has done so far is known from the holder of its mutex (`done`).
-/

namespace Mutex

variable {μ ι α : Type} {table table' : μ → Option ι} {needs : ι → Option μ} {m : μ} {i j : ι}

/-- A thread holds a mutex if its place in the code needs it, and only then. -/
def Agrees (table : μ → Option ι) (needs : ι → Option μ) : Prop :=
  ∀ m i, table m = some i ↔ needs i = some m

/-- No two threads are at places that need the same mutex. -/
theorem Agrees.exclusive (h : Agrees table needs) (hi : needs i = some m) (hj : needs j = some m) :
    i = j :=
  Option.some.inj (((h m i).mpr hi).symm.trans ((h m j).mpr hj))

theorem Agrees.free (h : Agrees table needs) (hnone : ∀ i, needs i ≠ some m) : table m = none := by
  cases hm : table m with
  | none => rfl
  | some i => exact absurd ((h m i).mp hm) (hnone i)

/-- What the holder of a mutex has done so far. -/
def done (table : μ → Option ι) (m : μ) (f : ι → List α) : List α := (table m).elim [] f

theorem done_of_free (h : table m = none) (f : ι → List α) : done table m f = [] := by
  rw [done, h, Option.elim_none]

theorem done_of_held (h : table m = some i) (f : ι → List α) : done table m f = f i := by
  rw [done, h, Option.elim_some]

section Table

variable [DecidableEq μ]

/-- The thread `i` becomes the holder of `m`. -/
def lock (table : μ → Option ι) (m : μ) (i : ι) : μ → Option ι := Function.update table m (some i)

/-- Nobody holds `m` any more. -/
def unlock (table : μ → Option ι) (m : μ) : μ → Option ι := Function.update table m none

@[simp] theorem lock_self (table : μ → Option ι) (m : μ) (i : ι) : lock table m i m = some i :=
  Function.update_self _ _ _

theorem lock_of_ne (table : μ → Option ι) {m' : μ} (h : m' ≠ m) (i : ι) :
    lock table m i m' = table m' := Function.update_of_ne h _ _

@[simp] theorem unlock_self (table : μ → Option ι) (m : μ) : unlock table m m = none :=
  Function.update_self _ _ _

theorem unlock_of_ne (table : μ → Option ι) {m' : μ} (h : m' ≠ m) :
    unlock table m m' = table m' := Function.update_of_ne h _ _

end Table

variable [DecidableEq μ] [DecidableEq ι]

theorem Agrees.lock (h : Agrees table needs) (hfree : table m = none) (hi : needs i = none) :
    Agrees (lock table m i) (Function.update needs i (some m)) := by
  intro m' j
  by_cases hm : m' = m
  · subst hm
    by_cases hj : j = i
    · subst hj
      simp
    · have hnot : needs j ≠ some m' := fun he => by simp [(h m' j).mpr he] at hfree
      simp [Function.update_of_ne hj, hnot, Ne.symm hj]
  · by_cases hj : j = i
    · subst hj
      have hnot : table m' ≠ some j := fun he => by simp [(h m' j).mp he] at hi
      simp [lock_of_ne table hm, hnot, Ne.symm hm]
    · rw [lock_of_ne table hm, Function.update_of_ne hj]
      exact h m' j

theorem Agrees.unlock (h : Agrees table needs) (hi : needs i = some m) :
    Agrees (unlock table m) (Function.update needs i none) := by
  intro m' j
  by_cases hj : j = i
  · subst hj
    have hnot : m' ≠ m → table m' ≠ some j := fun hm he =>
      hm (Option.some.inj (((h m' j).mp he).symm.trans hi))
    by_cases hm : m' = m
    · subst hm
      simp
    · simp [unlock_of_ne table hm, hnot hm]
  · rw [Function.update_of_ne hj, ← h m' j]
    by_cases hm : m' = m
    · subst hm
      have hnot : table m' ≠ some j := fun he => hj (h.exclusive ((h m' j).mp he) hi)
      simp [hnot]
    · rw [unlock_of_ne table hm]

omit [DecidableEq μ] in
/-- A thread that does not hold a mutex does not change what its holder has done. -/
theorem Agrees.done_update {π : Type} (h : Agrees table needs) (hm : table' m = table m)
    (hi : needs i ≠ some m) (place : ι → π) (p : π) (f : π → List α) :
    done table' m (fun j => f (Function.update place i p j)) =
      done table m fun j => f (place j) := by
  cases htable : table m with
  | none => rw [done_of_free (hm.trans htable), done_of_free htable]
  | some j =>
    have hj : j ≠ i := fun he => hi (he ▸ (h m j).mp htable)
    rw [done_of_held (hm.trans htable), done_of_held htable, Function.update_of_ne hj]

end Mutex

/-- **Simulation.** If every step of the one machine is a step of the other or none, a run of the
    one is a run of the other. -/
theorem Relation.simulates {σ τ : Type} {step : σ → σ → Prop} {step' : τ → τ → Prop}
    {R : σ → τ → Prop}
    (hstep : ∀ {s s' t}, R s t → step s s' → ∃ t', Relation.ReflGen step' t t' ∧ R s' t')
    {s s' : σ} {t : τ} (h : R s t) (hrun : Relation.ReflTransGen step s s') :
    ∃ t', Relation.ReflTransGen step' t t' ∧ R s' t' := by
  induction hrun with
  | refl => exact ⟨t, .refl, h⟩
  | tail _ hlast ih =>
    obtain ⟨t', hrun', hR⟩ := ih
    obtain ⟨t'', hgen, hR'⟩ := hstep hR hlast
    exact ⟨t'', hrun'.trans hgen.to_reflTransGen, hR'⟩
