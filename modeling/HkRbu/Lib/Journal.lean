import HkRbu.Lib.Runs
import Mathlib.Algebra.BigOperators.Group.List.Basic
import Mathlib.Tactic.Abel

/-!
# What a run records

Each step of a machine may record events. The journal of a run is what its steps have recorded, in
order; `journal_induct` is the rule for a relation between the state and the journal so far.

`balance` is the bookkeeping of a machine that is owed things: what comes in is credited, what goes
out is debited, and what is neither out nor lost is held. If every step balances its own events,
the run balances its journal, and it has lost nothing unless it has recorded a loss.
-/

namespace Runs

variable {σ ℓ ε : Type} (step : σ → ℓ → σ) (record : σ → ℓ → List ε)

/-- What the steps of a run record, one after the other. -/
def journal : σ → List ℓ → List ε
  | _, [] => []
  | s, l :: ls => record s l ++ journal (step s l) ls

@[simp] theorem journal_nil (s : σ) : journal step record s [] = [] := rfl

theorem journal_append (s : σ) (ls ls' : List ℓ) :
    journal step record s (ls ++ ls') =
      journal step record s ls ++ journal step record (exec step s ls) ls' := by
  induction ls generalizing s with
  | nil => rfl
  | cons l ls ih =>
    rw [List.cons_append, journal, ih, journal, List.append_assoc]
    rfl

theorem journal_concat (s : σ) (ls : List ℓ) (l : ℓ) :
    journal step record s (ls ++ [l]) =
      journal step record s ls ++ record (exec step s ls) l := by
  rw [journal_append, journal, journal, List.append_nil]

variable {step record} {Inv : σ → Prop} {s : σ} {ls : List ℓ}

/-- **Induction along a run**, with the journal so far. -/
theorem journal_induct {R : σ → List ε → Prop} (hinv : ∀ s l, Inv s → Inv (step s l))
    (hstep : ∀ s es l, Inv s → R s es → R (step s l) (es ++ record s l)) (h : Inv s)
    (h₀ : R s []) : Inv (exec step s ls) ∧ R (exec step s ls) (journal step record s ls) := by
  induction ls using List.reverseRecOn with
  | nil => exact ⟨h, h₀⟩
  | append_singleton ls l ih =>
    rw [exec_concat, journal_concat]
    exact ⟨hinv _ l ih.1, hstep _ _ l ih.1 ih.2⟩

variable {M : Type} [AddCommMonoid M]

/-- **Balance.** What a run has let out, still holds and has lost is what it held and has been
    given; where no loss is recorded, nothing is lost. -/
theorem balance {held : σ → M} {credit debit : ε → M} (ls : List ℓ) (loss : ε → Prop)
    (hinv : ∀ s l, Inv s → Inv (step s l))
    (hstep : ∀ s l, Inv s → ∃ lost, held (step s l) + ((record s l).map debit).sum + lost =
        held s + ((record s l).map credit).sum ∧ ((∀ e ∈ record s l, ¬ loss e) → lost = 0))
    (h : Inv s) :
    ∃ lost, held (exec step s ls) + ((journal step record s ls).map debit).sum + lost =
        held s + ((journal step record s ls).map credit).sum ∧
      ((∀ e ∈ journal step record s ls, ¬ loss e) → lost = 0) := by
  refine (journal_induct (R := fun t es => ∃ lost, held t + (es.map debit).sum + lost =
    held s + (es.map credit).sum ∧ ((∀ e ∈ es, ¬ loss e) → lost = 0)) hinv ?_ h ?_).2
  · rintro t es l ht ⟨lost, hsum, hnone⟩
    obtain ⟨lost', hsum', hnone'⟩ := hstep t l ht
    refine ⟨lost + lost', ?_, ?_⟩
    · calc held (step t l) + ((es ++ record t l).map debit).sum + (lost + lost')
          = held (step t l) + ((record t l).map debit).sum + lost' +
              ((es.map debit).sum + lost) := by
            rw [List.map_append, List.sum_append]
            abel
        _ = held t + (es.map debit).sum + lost + ((record t l).map credit).sum := by
            rw [hsum']
            abel
        _ = held s + ((es ++ record t l).map credit).sum := by
            rw [hsum, List.map_append, List.sum_append, add_assoc]
    · intro hall
      rw [hnone fun e he => hall e (List.mem_append_left _ he),
        hnone' fun e he => hall e (List.mem_append_right _ he), add_zero]
  · exact ⟨0, by simp, fun _ => rfl⟩

end Runs
