/-!
# While loops

`run cond body fuel` is `while (cond) body` cut off after `fuel` rounds. A loop whose rounds
shrink a measure does not notice the cut: with at least that much fuel it stops because its
condition is false (`run_exit`). What every round preserves holds at the end (`run_invariant`).
What is wanted of every round can be had from the state before the loop (`forall_head_iff`).
-/

namespace Loop

variable {σ : Type}

/-- `while (cond) body`, in at most as many rounds as there is fuel. -/
def run (cond : σ → Bool) (body : σ → σ) : Nat → σ → σ
  | 0, s => s
  | fuel + 1, s => if cond s then run cond body fuel (body s) else s

theorem run_of_not (cond : σ → Bool) {body : σ → σ} {s : σ} (h : cond s = false) (fuel : Nat) :
    run cond body fuel s = s := by
  cases fuel with
  | zero => rfl
  | succ fuel => simp [run, h]

theorem run_succ_of (cond : σ → Bool) {body : σ → σ} {s : σ} (h : cond s = true) (fuel : Nat) :
    run cond body (fuel + 1) s = run cond body fuel (body s) := by
  simp [run, h]

/-- **Exit.** With fuel for the measure, the loop ends because its condition fails. -/
theorem run_exit {cond : σ → Bool} {body : σ → σ} (μ : σ → Nat)
    (hdec : ∀ s, cond s = true → μ (body s) < μ s) {fuel : Nat} {s : σ} (hfuel : μ s ≤ fuel) :
    cond (run cond body fuel s) = false := by
  induction fuel generalizing s with
  | zero =>
    cases hc : cond s with
    | false => exact hc
    | true => exact absurd (hdec s hc) (by omega)
  | succ fuel ih =>
    cases hc : cond s with
    | false => rwa [run_of_not cond hc]
    | true =>
      have := hdec s hc
      rw [run_succ_of cond hc]
      exact ih (by omega)

theorem run_succ_eq {cond : σ → Bool} {body : σ → σ} (μ : σ → Nat)
    (hdec : ∀ s, cond s = true → μ (body s) < μ s) {fuel : Nat} {s : σ} (hfuel : μ s ≤ fuel) :
    run cond body (fuel + 1) s = run cond body fuel s := by
  induction fuel generalizing s with
  | zero =>
    cases hc : cond s with
    | false => exact run_of_not cond hc 1
    | true => exact absurd (hdec s hc) (by omega)
  | succ fuel ih =>
    cases hc : cond s with
    | false => rw [run_of_not cond hc, run_of_not cond hc]
    | true =>
      have := hdec s hc
      rw [run_succ_of cond hc, run_succ_of cond hc, ih (by omega)]

/-- A round taken before the loop makes no difference, with fuel for the measure. -/
theorem run_body {cond : σ → Bool} {body : σ → σ} (μ : σ → Nat)
    (hdec : ∀ s, cond s = true → μ (body s) < μ s) {fuel : Nat} {s : σ} (hfuel : μ s ≤ fuel)
    (h : cond s = true) : run cond body fuel (body s) = run cond body fuel s := by
  rw [← run_succ_of cond h, run_succ_eq μ hdec hfuel]

/-- **Invariant.** What a round preserves, the loop preserves. -/
theorem run_invariant {cond : σ → Bool} {body : σ → σ} {P : σ → Prop}
    (hstep : ∀ s, P s → cond s = true → P (body s)) {s : σ} (h : P s) (fuel : Nat) :
    P (run cond body fuel s) := by
  induction fuel generalizing s with
  | zero => exact h
  | succ fuel ih =>
    cases hc : cond s with
    | false => rwa [run_of_not cond hc]
    | true =>
      rw [run_succ_of cond hc]
      exact ih (hstep s h hc)

/-- More fuel than the measure makes no difference. -/
theorem run_of_le {cond : σ → Bool} {body : σ → σ} (μ : σ → Nat)
    (hdec : ∀ s, cond s = true → μ (body s) < μ s) {fuel fuel' : Nat} {s : σ} (hfuel : μ s ≤ fuel)
    (hle : fuel ≤ fuel') : run cond body fuel' s = run cond body fuel s := by
  induction hle with
  | refl => rfl
  | step hle ih => rw [run_succ_eq μ hdec (Nat.le_trans hfuel hle), ih]

/-- **Projection.** A loop on a richer state whose condition and rounds agree with this loop's
    through `f` runs like this loop. -/
theorem map_run {τ : Type} (f : τ → σ) {cond : σ → Bool} {body : σ → σ} {body' : τ → τ}
    (hbody : ∀ t, f (body' t) = body (f t)) (fuel : Nat) (t : τ) :
    f (run (fun t => cond (f t)) body' fuel t) = run cond body fuel (f t) := by
  induction fuel generalizing t with
  | zero => rfl
  | succ fuel ih =>
    cases hc : cond (f t) with
    | false => rw [run_of_not (fun t => cond (f t)) hc, run_of_not cond hc]
    | true =>
      rw [run_succ_of (fun t => cond (f t)) hc, run_succ_of cond hc, ih, hbody]

/-- **Simulation.** Loops whose conditions agree and whose rounds keep a relation end related. -/
theorem run_related {τ : Type} {R : σ → τ → Prop} {cond : σ → Bool} {body : σ → σ}
    {cond' : τ → Bool} {body' : τ → τ} (hcond : ∀ s t, R s t → cond s = cond' t)
    (hbody : ∀ s t, R s t → cond s = true → R (body s) (body' t)) {s : σ} {t : τ} (h : R s t)
    (fuel : Nat) : R (run cond body fuel s) (run cond' body' fuel t) := by
  induction fuel generalizing s t with
  | zero => exact h
  | succ fuel ih =>
    cases hc : cond s with
    | false => rwa [run_of_not cond hc, run_of_not cond' ((hcond s t h).symm.trans hc)]
    | true =>
      rw [run_succ_of cond hc, run_succ_of cond' ((hcond s t h).symm.trans hc)]
      exact ih (hbody s t h hc)

/-! ## Every round -/

/-- `t` is a state in which a round begins, of the loop started in `s`. -/
def Head (cond : σ → Bool) (body : σ → σ) (s t : σ) : Prop :=
  ∃ fuel, run cond body fuel s = t ∧ cond t = true

theorem head_iff {cond : σ → Bool} {body : σ → σ} {s t : σ} (h : cond s = true) :
    Head cond body s t ↔ t = s ∨ Head cond body (body s) t := by
  constructor
  · rintro ⟨fuel, hrun, ht⟩
    cases fuel with
    | zero => exact Or.inl hrun.symm
    | succ fuel =>
      rw [run_succ_of cond h] at hrun
      exact Or.inr ⟨fuel, hrun, ht⟩
  · rintro (rfl | ⟨fuel, hrun, ht⟩)
    · exact ⟨0, rfl, h⟩
    · refine ⟨fuel + 1, ?_, ht⟩
      rw [run_succ_of cond h, hrun]

theorem not_head {cond : σ → Bool} {body : σ → σ} {s : σ} (h : cond s = false) (t : σ) :
    ¬ Head cond body s t := by
  rintro ⟨fuel, hrun, ht⟩
  rw [run_of_not cond h] at hrun
  rw [← hrun, h] at ht
  exact absurd ht Bool.false_ne_true

/-- **Weakest precondition of a requirement on every round.** If before each round `Q` says that
    the round meets `P` and `Q` holds again after it, then `Q` before the loop says that all rounds
    meet `P`. -/
theorem forall_head_iff {cond : σ → Bool} {body : σ → σ} {Inv P Q : σ → Prop} (μ : σ → Nat)
    (hdec : ∀ s, cond s = true → μ (body s) < μ s)
    (hinv : ∀ s, Inv s → cond s = true → Inv (body s))
    (hexit : ∀ s, Inv s → cond s = false → Q s)
    (hround : ∀ s, Inv s → cond s = true → (Q s ↔ P s ∧ Q (body s))) {s : σ} (h : Inv s) :
    (∀ t, Head cond body s t → P t) ↔ Q s := by
  induction hn : μ s using Nat.strongRecOn generalizing s with
  | ind n ih =>
    cases hc : cond s with
    | false => exact iff_of_true (fun t ht => absurd ht (not_head hc t)) (hexit s h hc)
    | true =>
      have hrest := ih (μ (body s)) (hn ▸ hdec s hc) (hinv s h hc) rfl
      rw [hround s h hc, ← hrest]
      constructor
      · intro hall
        exact ⟨hall s ((head_iff hc).mpr (Or.inl rfl)),
          fun t ht => hall t ((head_iff hc).mpr (Or.inr ht))⟩
      · rintro ⟨hs, hall⟩ t ht
        rcases (head_iff hc).mp ht with rfl | ht
        · exact hs
        · exact hall t ht

end Loop
