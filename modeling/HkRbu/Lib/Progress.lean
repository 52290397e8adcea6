import HkRbu.Lib.Runs
import Mathlib.Algebra.BigOperators.Group.Finset.Basic
import Mathlib.Logic.Relation

/-!
# Getting done

Some labels of a machine are the ones that work. If a working step that changes anything lowers a
measure, runs of such steps are bounded by it (`length_le_measure`); if there is a step that lowers
it wherever the work is not done, the work can be done (`exists_done`), and where no working step
changes anything it is (`done_of_stuck`). `reaches_done` is the same for a machine that is a
relation. A measure that is a sum over threads changes by what the thread that moves changes
(`sum_update`).
-/

namespace Runs

variable {σ ℓ : Type} {step : σ → ℓ → σ} {Inv Done : σ → Prop} {Works : ℓ → Prop} {s : σ}
  {ls : List ℓ} {μ : σ → Nat}

/-- **Bounded work.** The steps that change something are no more than the measure. -/
theorem length_le_measure (hinv : ∀ s l, Inv s → Inv (step s l))
    (hdec : ∀ s l, Inv s → Works l → step s l ≠ s → μ (step s l) < μ s) (h : Inv s)
    (hworks : ∀ l ∈ ls, Works l) (hchange : Along step (fun s l => step s l ≠ s) s ls) :
    ls.length + μ (exec step s ls) ≤ μ s := by
  induction ls using List.reverseRecOn with
  | nil => simp
  | append_singleton ls l ih =>
    obtain ⟨hls, hl⟩ := hchange.of_concat
    have hbefore := ih (fun x hx => hworks x (List.mem_append_left _ hx)) hls
    have hreached : Inv (exec step s ls) :=
      exec_invariant (P := fun _ _ => True) (fun t l ht _ => hinv t l ht) h fun _ _ _ => trivial
    have hlast := hdec _ l hreached (hworks l (by simp)) hl
    rw [exec_concat, List.length_append, List.length_singleton]
    omega

/-- **The work can be done**, in as many steps as the measure says. -/
theorem exists_done (hinv : ∀ s l, Inv s → Inv (step s l))
    (hmove : ∀ s, Inv s → ¬ Done s → ∃ l, Works l ∧ μ (step s l) < μ s) (h : Inv s) :
    ∃ ls, (∀ l ∈ ls, Works l) ∧ ls.length ≤ μ s ∧ Done (exec step s ls) := by
  induction hn : μ s using Nat.strongRecOn generalizing s with
  | ind n ih =>
    by_cases hdone : Done s
    · exact ⟨[], fun _ hl => absurd hl List.not_mem_nil, Nat.zero_le _, hdone⟩
    · obtain ⟨l, hl, hlt⟩ := hmove s h hdone
      obtain ⟨ls, hworks, hlen, hls⟩ := ih (μ (step s l)) (hn ▸ hlt) (hinv s l h) rfl
      refine ⟨l :: ls, List.forall_mem_cons.mpr ⟨hl, hworks⟩, ?_, hls⟩
      rw [List.length_cons]
      omega

/-- Where no working step changes anything, the work is done. -/
theorem done_of_stuck (hmove : ∀ s, Inv s → ¬ Done s → ∃ l, Works l ∧ μ (step s l) < μ s)
    (h : Inv s) (hstuck : ∀ l, Works l → step s l = s) : Done s := by
  by_contra hdone
  obtain ⟨l, hl, hlt⟩ := hmove s h hdone
  rw [hstuck l hl] at hlt
  exact absurd hlt (Nat.lt_irrefl _)

/-- From wherever a step that lowers the measure is possible, the end can be reached. -/
theorem reaches_done {Step : σ → σ → Prop} (hinv : ∀ s s', Inv s → Step s s' → Inv s')
    (hmove : ∀ s, Inv s → ¬ Done s → ∃ s', Step s s' ∧ μ s' < μ s) (h : Inv s) :
    ∃ s', Relation.ReflTransGen Step s s' ∧ Done s' := by
  induction hn : μ s using Nat.strongRecOn generalizing s with
  | ind n ih =>
    by_cases hdone : Done s
    · exact ⟨s, .refl, hdone⟩
    · obtain ⟨s', hstep, hlt⟩ := hmove s h hdone
      obtain ⟨s'', hrun, hs''⟩ := ih (μ s') (hn ▸ hlt) (hinv s s' h hstep) rfl
      exact ⟨s'', hrun.head hstep, hs''⟩

theorem sum_update {ι π M : Type} [Fintype ι] [DecidableEq ι] [AddCommMonoid M] (f : ι → π → M)
    (g : ι → π) (i : ι) (x : π) :
    ∑ j, f j (Function.update g i x j) + f i (g i) = ∑ j, f j (g j) + f i x := by
  have hrest : ∑ j ∈ Finset.univ.erase i, f j (Function.update g i x j) =
      ∑ j ∈ Finset.univ.erase i, f j (g j) := by
    refine Finset.sum_congr rfl ?_
    intro j hj
    rw [Function.update_of_ne (Finset.ne_of_mem_erase hj)]
  rw [← Finset.add_sum_erase Finset.univ _ (Finset.mem_univ i),
    ← Finset.add_sum_erase Finset.univ (fun j => f j (g j)) (Finset.mem_univ i), hrest,
    Function.update_self, add_right_comm, add_comm (f i x), add_right_comm]

end Runs
