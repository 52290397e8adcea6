import Mathlib.Data.List.Infix

/-!
# Runs of a machine with labelled steps

The machine is a function `step`; a run is a list of labels, executed from a state. A property may
be wanted of every state a run reaches (`Throughout`), and a condition may be put on every step it
takes, in the state before it (`Along`). `throughout_iff_along` is the rule that ties the two: if
steps that meet the condition keep an invariant that implies the property, and a step that does not
meet it leads to a state without the property, then the runs with the property are exactly those
whose steps meet the condition.
-/

namespace Runs

variable {σ ℓ : Type} (step : σ → ℓ → σ)

/-- The state after a run. -/
def exec (s : σ) (ls : List ℓ) : σ := ls.foldl step s

/-- `Q` holds in every state of the run. -/
def Throughout (Q : σ → Prop) (s : σ) (ls : List ℓ) : Prop :=
  ∀ before, before <+: ls → Q (exec step s before)

/-- `P` holds of every step of the run. -/
def Along (P : σ → ℓ → Prop) (s : σ) (ls : List ℓ) : Prop :=
  ∀ before l, before ++ [l] <+: ls → P (exec step s before) l

@[simp] theorem exec_nil (s : σ) : exec step s [] = s := rfl

theorem exec_concat (s : σ) (ls : List ℓ) (l : ℓ) :
    exec step s (ls ++ [l]) = step (exec step s ls) l := by
  simp [exec]

theorem exec_append (s : σ) (ls ls' : List ℓ) :
    exec step s (ls ++ ls') = exec step (exec step s ls) ls' := List.foldl_append

variable {step} {P : σ → ℓ → Prop} {Q Inv : σ → Prop} {s : σ} {ls : List ℓ}

theorem Along.of_concat {l : ℓ} (h : Along step P s (ls ++ [l])) :
    Along step P s ls ∧ P (exec step s ls) l :=
  ⟨fun before x hx => h before x (hx.trans (List.prefix_append ls [l])),
    h ls l (List.prefix_refl _)⟩

theorem Throughout.of_concat {l : ℓ} (h : Throughout step Q s (ls ++ [l])) :
    Throughout step Q s ls ∧ Q (step (exec step s ls) l) := by
  refine ⟨fun before hb => h before (hb.trans (List.prefix_append ls [l])), ?_⟩
  rw [← exec_concat step]
  exact h _ (List.prefix_refl _)

/-- What every step of the run keeps holds at its end. -/
theorem exec_invariant (hstep : ∀ s l, Inv s → P s l → Inv (step s l)) (h : Inv s)
    (hP : Along step P s ls) : Inv (exec step s ls) := by
  induction ls using List.reverseRecOn with
  | nil => exact h
  | append_singleton ls l ih =>
    obtain ⟨hls, hl⟩ := hP.of_concat
    rw [exec_concat]
    exact hstep _ l (ih hls) hl

/-- A condition on the labels alone is one on the list. -/
theorem along_iff_forall_mem {P : ℓ → Prop} :
    Along step (fun _ l => P l) s ls ↔ ∀ l ∈ ls, P l := by
  constructor
  · intro h l hl
    obtain ⟨before, after, rfl⟩ := List.append_of_mem hl
    exact h before l ⟨after, by simp⟩
  · intro h before l hl
    exact h l (hl.subset (List.mem_append_right before (List.mem_singleton.mpr rfl)))

/-- **The exact condition on a run.** -/
theorem throughout_iff_along (hQ : ∀ s, Inv s → Q s)
    (hgood : ∀ s l, Inv s → P s l → Inv (step s l))
    (hbad : ∀ s l, Inv s → Q (step s l) → P s l) (h : Inv s) :
    Throughout step Q s ls ↔ Along step P s ls := by
  constructor
  · intro hall
    induction ls using List.reverseRecOn with
    | nil =>
      intro before l hl
      exact absurd (List.prefix_nil.mp hl) (by simp)
    | append_singleton ls l ih =>
      obtain ⟨hls, hlast⟩ := hall.of_concat
      have halong := ih hls
      have hinv := exec_invariant hgood h halong
      intro before x hx
      rcases List.prefix_concat_iff.mp hx with he | hx
      · obtain ⟨rfl, hlast'⟩ := List.append_inj' he rfl
        obtain rfl := List.cons.inj hlast' |>.1
        exact hbad _ _ hinv hlast
      · exact halong before x hx
  · intro halong before hb
    refine hQ _ (exec_invariant hgood h fun b l hl => halong b l (hl.trans hb))

end Runs
