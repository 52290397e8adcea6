import Mathlib.Order.Lattice
import Mathlib.Data.List.Basic

/-!
# Intervals laid end to end

`Tiles lo hi a ts b` says that the half-open intervals `[lo t, hi t)` of the list `ts` begin at `a`
and each where the one before it ended, and that the last ends at `b`; an interval may be empty.
That is what a program keeps that cuts an input into pieces as it walks over it. From it follows
what such pieces are used for: they are in order and disjoint (`Tiles.pairwise`), they cover
exactly `[a, b)` (`Tiles.covers`), and nothing twice (`Tiles.countP_eq_one`, `Tiles.unique`).
-/

variable {τ α : Type} [LinearOrder α]

/-- The intervals go from `a` to the last argument, each beginning where the one before ends. -/
def Tiles (lo hi : τ → α) (a : α) : List τ → α → Prop
  | [], b => a = b
  | t :: ts, b => lo t = a ∧ lo t ≤ hi t ∧ Tiles lo hi (hi t) ts b

namespace Tiles

variable {lo hi : τ → α} {a b i : α} {t t' : τ} {ts : List τ}

/-- A piece more, from where the last one ended. -/
theorem concat (h : Tiles lo hi a ts b) (hlo : lo t = b) (hle : lo t ≤ hi t) :
    Tiles lo hi a (ts ++ [t]) (hi t) := by
  induction ts generalizing a with
  | nil => exact ⟨hlo.trans h.symm, hle, rfl⟩
  | cons x ts ih =>
    obtain ⟨hx, hxle, hrest⟩ := h
    exact ⟨hx, hxle, ih hrest⟩

theorem le (h : Tiles lo hi a ts b) : a ≤ b := by
  induction ts generalizing a with
  | nil => exact le_of_eq h
  | cons x ts ih =>
    obtain ⟨rfl, hxle, hrest⟩ := h
    exact hxle.trans (ih hrest)

theorem le_lo_of_mem (h : Tiles lo hi a ts b) (ht : t ∈ ts) : a ≤ lo t := by
  induction ts generalizing a with
  | nil => exact absurd ht List.not_mem_nil
  | cons x ts ih =>
    obtain ⟨rfl, hxle, hrest⟩ := h
    rcases List.mem_cons.mp ht with rfl | ht
    · exact le_refl _
    · exact hxle.trans (ih hrest ht)

/-- **In order, and disjoint.** -/
theorem pairwise (h : Tiles lo hi a ts b) : ts.Pairwise fun t t' => hi t ≤ lo t' := by
  induction ts generalizing a with
  | nil => exact List.Pairwise.nil
  | cons x ts ih =>
    obtain ⟨-, -, hrest⟩ := h
    exact List.Pairwise.cons (fun t ht => hrest.le_lo_of_mem ht) (ih hrest)

/-- **Everything between the ends, and nothing else.** -/
theorem covers (h : Tiles lo hi a ts b) :
    (∃ t ∈ ts, lo t ≤ i ∧ i < hi t) ↔ a ≤ i ∧ i < b := by
  induction ts generalizing a with
  | nil =>
    obtain rfl := h
    refine iff_of_false (by simp) ?_
    rintro ⟨hle, hlt⟩
    exact absurd hlt (not_lt.mpr hle)
  | cons x ts ih =>
    obtain ⟨rfl, hxle, hrest⟩ := h
    rw [List.exists_mem_cons_iff, ih hrest]
    constructor
    · rintro (⟨hle, hlt⟩ | ⟨hle, hlt⟩)
      · exact ⟨hle, hlt.trans_le hrest.le⟩
      · exact ⟨hxle.trans hle, hlt⟩
    · rintro ⟨hle, hlt⟩
      rcases lt_or_ge i (hi x) with hx | hx
      · exact Or.inl ⟨hle, hx⟩
      · exact Or.inr ⟨hx, hlt⟩

/-- **Nothing twice.** -/
theorem countP_eq_one (h : Tiles lo hi a ts b) (hle : a ≤ i) (hlt : i < b) :
    ts.countP (fun t => lo t ≤ i ∧ i < hi t) = 1 := by
  induction ts generalizing a with
  | nil =>
    obtain rfl := h
    exact absurd hlt (not_lt.mpr hle)
  | cons x ts ih =>
    obtain ⟨rfl, hxle, hrest⟩ := h
    rw [List.countP_cons]
    rcases lt_or_ge i (hi x) with hx | hx
    · have hnone : ts.countP (fun t => lo t ≤ i ∧ i < hi t) = 0 := by
        refine List.countP_eq_zero.mpr fun t ht hholds => ?_
        have hge := hrest.le_lo_of_mem ht
        exact absurd (hge.trans (of_decide_eq_true hholds).1) (not_le.mpr hx)
      rw [hnone]
      simp [hle, hx]
    · rw [ih hrest hx]
      simp [not_lt.mpr hx]

/-- No index lies in two intervals. -/
theorem unique (h : Tiles lo hi a ts b) (ht : t ∈ ts) (ht' : t' ∈ ts) (hi₁ : lo t ≤ i ∧ i < hi t)
    (hi₂ : lo t' ≤ i ∧ i < hi t') : t = t' := by
  obtain ⟨hle, hlt⟩ := h.covers.mp ⟨t, ht, hi₁⟩
  have hone := h.countP_eq_one hle hlt
  rw [List.countP_eq_length_filter] at hone
  obtain ⟨x, hx⟩ := List.length_eq_one_iff.mp hone
  have honly : ∀ u ∈ ts, lo u ≤ i ∧ i < hi u → u = x := by
    intro u hu hholds
    exact List.mem_singleton.mp (hx ▸ List.mem_filter.mpr ⟨hu, decide_eq_true hholds⟩)
  exact (honly t ht hi₁).trans (honly t' ht' hi₂).symm

end Tiles
