import Mathlib.Algebra.BigOperators.Group.Finset.Basic
import Mathlib.Logic.Relation

/-!
# Writers appending to shared logs

Any finite number of writers append chunks to logs. Each writer has its chunks in an order of its
own; one step of one writer appends its next chunk to the log the chunk is for. Whatever the
interleaving, a log only ever grows by whole chunks, and a chunk is either in a log or still
pending: nothing is lost, torn or duplicated (`conserved`).

A program that does this in a more roundabout way is verified by mapping its states to ledgers, so
that each of its steps is a step of the ledger or none.
-/

/-- What the logs hold, and what each writer still has to append, in its order. -/
structure Ledger (ι K α : Type) where
  log : K → List α
  pending : ι → List (K × List α)

namespace Ledger

variable {ι K α : Type} [DecidableEq ι] [DecidableEq K]

/-- A thread appends the next of its chunks to the log of its key. -/
inductive Step : Ledger ι K α → Ledger ι K α → Prop where
  | append {L : Ledger ι K α} (i : ι) {k : K} {c : List α} {rest : List (K × List α)}
      (next : L.pending i = (k, c) :: rest) :
      Step L ⟨Function.update L.log k (L.log k ++ c), Function.update L.pending i rest⟩

/-- The chunks that are pending for the key `k`. -/
def chunks (k : K) (pending : List (K × List α)) : Multiset (List α) :=
  ((pending.filter (·.1 = k)).map (·.2) : List (List α))

@[simp] theorem chunks_nil (k : K) : chunks k ([] : List (K × List α)) = 0 := rfl

theorem chunks_cons (k : K) (e : K × List α) (pending : List (K × List α)) :
    chunks k (e :: pending) = (if e.1 = k then {e.2} else 0) + chunks k pending := by
  by_cases h : e.1 = k
  · simp [chunks, h, ← Multiset.cons_coe]
  · simp [chunks, h]

variable [Fintype ι]

theorem sum_chunks_update (k k' : K) (c : List α) {rest : List (K × List α)}
    {pending : ι → List (K × List α)} {i : ι} (next : pending i = (k', c) :: rest) :
    ∑ j, chunks k (pending j) =
      (if k' = k then {c} else 0) + ∑ j, chunks k (Function.update pending i rest j) := by
  have hsplit : ∀ f : ι → List (K × List α), ∑ j, chunks k (f j) =
      chunks k (f i) + ∑ j ∈ Finset.univ.erase i, chunks k (f j) := fun f =>
    (Finset.add_sum_erase Finset.univ (fun j => chunks k (f j)) (Finset.mem_univ i)).symm
  have hrest : ∑ j ∈ Finset.univ.erase i, chunks k (Function.update pending i rest j) =
      ∑ j ∈ Finset.univ.erase i, chunks k (pending j) := by
    refine Finset.sum_congr rfl ?_
    intro j hj
    rw [Function.update_of_ne (Finset.ne_of_mem_erase hj)]
  rw [hsplit pending, hsplit (Function.update pending i rest), hrest, Function.update_self, next,
    chunks_cons, add_assoc]

/-- **Conservation.** A log has grown by whole chunks, which with the pending ones are the chunks
    that were pending at the start. -/
theorem conserved {L L' : Ledger ι K α} (h : Relation.ReflTransGen Step L L') (k : K) :
    ∃ order : List (List α), L'.log k = L.log k ++ order.flatten ∧
      (order : Multiset (List α)) + ∑ i, chunks k (L'.pending i) =
        ∑ i, chunks k (L.pending i) := by
  induction h with
  | refl => exact ⟨[], (List.append_nil _).symm, zero_add _⟩
  | tail _ hstep ih =>
    obtain ⟨order, hlog, hsum⟩ := ih
    cases hstep with
    | @append i k' c rest next =>
      rw [sum_chunks_update k k' c next] at hsum
      by_cases hk : k' = k
      · subst hk
        refine ⟨order ++ [c], ?_, ?_⟩
        · refine (Function.update_self _ _ _).trans ?_
          rw [hlog]
          simp
        · rw [← hsum, if_pos rfl, ← add_assoc, ← Multiset.coe_add]
          rfl
      · refine ⟨order, ?_, ?_⟩
        · exact (Function.update_of_ne (Ne.symm hk) _ _).trans hlog
        · rw [← hsum, if_neg hk, zero_add]

/-- **Nothing lost, nothing twice**: when nothing is pending any more, every log has been extended
    by exactly the chunks for it, in some order. -/
theorem conserved_of_done {L L' : Ledger ι K α} (h : Relation.ReflTransGen Step L L')
    (hdone : ∀ i, L'.pending i = []) (k : K) :
    ∃ order : List (List α), L'.log k = L.log k ++ order.flatten ∧
      (order : Multiset (List α)) = ∑ i, chunks k (L.pending i) := by
  obtain ⟨order, hlog, hsum⟩ := conserved h k
  refine ⟨order, hlog, ?_⟩
  rw [← hsum, Finset.sum_eq_zero fun i _ => by rw [hdone i, chunks_nil], add_zero]

end Ledger
