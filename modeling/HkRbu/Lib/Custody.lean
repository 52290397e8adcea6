import Mathlib.Data.Multiset.ZeroCons
import Mathlib.Logic.Function.Basic
import Mathlib.Logic.Relation

/-!
# Custody of tokens

Tokens lie at places; a custody says which tokens each place holds, with repetitions. It is
*exclusive* if no token is held twice, neither at one place nor at two. A step mints a token that
is held nowhere, moves a token from one place to another, or loses one, and keeps custody exclusive
(`Step.exclusive`). Where no token is ever lost, one that is held stays held (`Step.keeps`).

The tokens are what a program hands around by reference (buffers, connections, jobs), the places
are those who may give them back. A program is verified by reading a custody off its states, so
that each of its steps is a step of the custody or none.
-/

namespace Custody

variable {π τ : Type} [DecidableEq π]

/-- The thing `t` is brought to the place `p`. -/
def put (c : π → Multiset τ) (p : π) (t : τ) : π → Multiset τ :=
  Function.update c p (t ::ₘ c p)

/-- Nothing is in two places, or in one place twice. -/
structure Exclusive (c : π → Multiset τ) : Prop where
  nodup : ∀ p, (c p).Nodup
  place : ∀ {p q : π} {t : τ}, t ∈ c p → t ∈ c q → p = q

/-- What can happen to one token. The tokens that may be minted are the `new` ones, and tokens are
    lost only in a `lossy` custody. -/
inductive Step (new : τ → Prop) (lossy : Prop) (c : π → Multiset τ) : (π → Multiset τ) → Prop where
  | mint (p : π) {t : τ} (isNew : new t) : Step new lossy c (put c p t)
  | move (p q : π) {t : τ} {rest : Multiset τ} (held : c p = t ::ₘ rest) :
      Step new lossy c (put (Function.update c p rest) q t)
  | lose (p : π) {t : τ} {rest : Multiset τ} (held : c p = t ::ₘ rest) (loses : lossy) :
      Step new lossy c (Function.update c p rest)

variable {new : τ → Prop} {lossy : Prop} {c c' : π → Multiset τ} {p q : π} {t t' : τ}
  {rest : Multiset τ}

theorem mem_put : t' ∈ put c p t q ↔ (q = p ∧ t' = t) ∨ t' ∈ c q := by
  by_cases hq : q = p
  · subst hq
    simp [put]
  · simp [put, hq]

theorem mem_of_mem_take (held : c p = t ::ₘ rest) (h : t' ∈ Function.update c p rest q) :
    t' ∈ c q := by
  by_cases hq : q = p
  · subst hq
    rw [Function.update_self] at h
    rw [held]
    exact Multiset.mem_cons_of_mem h
  · rwa [Function.update_of_ne hq] at h

omit [DecidableEq π] in
theorem Exclusive.mono (h : Exclusive c) (hle : ∀ p, c' p ≤ c p) : Exclusive c' where
  nodup p := Multiset.nodup_of_le (hle p) (h.nodup p)
  place hp hq := h.place (Multiset.mem_of_le (hle _) hp) (Multiset.mem_of_le (hle _) hq)

/-- What is brought to a place must not be in one already. -/
theorem Exclusive.put (h : Exclusive c) (new : ∀ q, t ∉ c q) : Exclusive (put c p t) where
  nodup q := by
    by_cases hq : q = p
    · subst hq
      simpa [Custody.put] using ⟨new q, h.nodup q⟩
    · simpa [Custody.put, hq] using h.nodup q
  place h₁ h₂ := by
    rcases mem_put.mp h₁ with ⟨rfl, rfl⟩ | hp
    · rcases mem_put.mp h₂ with ⟨rfl, -⟩ | hq
      · rfl
      · exact absurd hq (new _)
    · rcases mem_put.mp h₂ with ⟨rfl, rfl⟩ | hq
      · exact absurd hp (new _)
      · exact h.place hp hq

theorem Exclusive.take (h : Exclusive c) (held : c p = t ::ₘ rest) :
    Exclusive (Function.update c p rest) where
  nodup q := by
    by_cases hq : q = p
    · subst hq
      rw [Function.update_self]
      have hnodup := h.nodup q
      rw [held] at hnodup
      exact (Multiset.nodup_cons.mp hnodup).2
    · rw [Function.update_of_ne hq]
      exact h.nodup q
  place h₁ h₂ := h.place (mem_of_mem_take held h₁) (mem_of_mem_take held h₂)

theorem Exclusive.not_mem_take (h : Exclusive c) (held : c p = t ::ₘ rest) (q : π) :
    t ∉ Function.update c p rest q := by
  intro hmem
  have hp : t ∈ c p := held ▸ Multiset.mem_cons_self t rest
  obtain rfl := h.place hp (mem_of_mem_take held hmem)
  rw [Function.update_self] at hmem
  have hnodup := h.nodup p
  rw [held] at hnodup
  exact (Multiset.nodup_cons.mp hnodup).1 hmem

/-- **Custody stays exclusive**, if new tokens are not held. -/
theorem Step.exclusive (hstep : Step new lossy c c') (h : Exclusive c)
    (hnew : ∀ t, new t → ∀ p, t ∉ c p) : Exclusive c' := by
  cases hstep with
  | mint p isNew => exact h.put (hnew _ isNew)
  | move p q held => exact (h.take held).put (h.not_mem_take held)
  | lose p held _ => exact h.take held

theorem Step.held (hstep : Step new lossy c c') (h : t' ∈ c' q) : new t' ∨ ∃ p, t' ∈ c p := by
  cases hstep with
  | mint p isNew =>
    rcases mem_put.mp h with ⟨-, rfl⟩ | h
    · exact Or.inl isNew
    · exact Or.inr ⟨q, h⟩
  | move p p' held =>
    rcases mem_put.mp h with ⟨-, rfl⟩ | h
    · exact Or.inr ⟨p, held ▸ Multiset.mem_cons_self t' _⟩
    · exact Or.inr ⟨q, mem_of_mem_take held h⟩
  | lose p held _ => exact Or.inr ⟨q, mem_of_mem_take held h⟩

/-- A token that is held before a step is held after it, unless tokens are lost. -/
theorem Step.keeps (hstep : Step new lossy c c') (hkept : ¬ lossy) (h : t' ∈ c q) :
    ∃ p, t' ∈ c' p := by
  cases hstep with
  | mint p isNew => exact ⟨q, mem_put.mpr (Or.inr h)⟩
  | @move p p' t rest held =>
    by_cases hq : q = p
    · subst hq
      rw [held] at h
      rcases Multiset.mem_cons.mp h with rfl | h
      · exact ⟨p', mem_put.mpr (Or.inl ⟨rfl, rfl⟩)⟩
      · exact ⟨q, mem_put.mpr (Or.inr (by rwa [Function.update_self]))⟩
    · exact ⟨q, mem_put.mpr (Or.inr (by rwa [Function.update_of_ne hq]))⟩
  | lose p held loses => exact absurd loses hkept

theorem keeps_reflGen (hstep : Relation.ReflGen (Step new lossy) c c') (hkept : ¬ lossy)
    (h : t' ∈ c q) : ∃ p, t' ∈ c' p := by
  cases hstep with
  | refl => exact ⟨q, h⟩
  | single hstep => exact hstep.keeps hkept h

theorem Exclusive.reflGen (h : Exclusive c) (hstep : Relation.ReflGen (Step new lossy) c c')
    (hnew : ∀ t, new t → ∀ p, t ∉ c p) :
    Exclusive c' ∧ ∀ p, ∀ t ∈ c' p, new t ∨ ∃ q, t ∈ c q := by
  cases hstep with
  | refl => exact ⟨h, fun p t ht => Or.inr ⟨p, ht⟩⟩
  | single hstep => exact ⟨hstep.exclusive h hnew, fun p t ht => hstep.held ht⟩

end Custody
