import HkRbu.Lib.BitField
import Mathlib.Data.Fintype.BigOperators
import Mathlib.Logic.Function.Basic

/-!
# Layouts: a record packed into words

A `Layout` places every field of a record in one of `m` words of `n` bits, no two fields
overlapping. The codec law of a packed record then needs no reasoning about any particular
mask: after any sequence of writes a field reads as the last value written to it, cut to the
field's width, or as the bits that were there before if it was never written (`read_writes`).

A class with getters and setters is tied to a layout by two facts, that each setter writes one
field and that each getter reads its own; `fieldLaw` makes the law of the class from them.
-/

/-- Where the fields `F` of a record lie in `m` words of `n` bits. -/
structure Layout (F : Type) (m n : Nat) where
  word : F → Fin m
  lo : F → Nat
  len : F → Nat
  fits : ∀ f, lo f + len f ≤ n
  disjoint : ∀ f g, f ≠ g → word f ≠ word g ∨ lo f + len f ≤ lo g ∨ lo g + len g ≤ lo f

namespace Layout

open BitField

variable {F : Type} {m n : Nat}

/-- The value of a field. -/
def read (L : Layout F m n) (ws : Fin m → BitVec n) (f : F) : Nat :=
  ((ws (L.word f)).extractLsb' (L.lo f) (L.len f)).toNat

/-- Write a field, cutting the value to the field's width. -/
def write (L : Layout F m n) (ws : Fin m → BitVec n) (f : F) (v : Nat) : Fin m → BitVec n :=
  Function.update ws (L.word f) (setField (L.lo f) (ws (L.word f)) (BitVec.ofNat (L.len f) v))

/-- Writing fields one after the other. -/
def writes (L : Layout F m n) (ws : Fin m → BitVec n) (cs : List (F × Nat)) : Fin m → BitVec n :=
  cs.foldl (fun ws c => L.write ws c.1 c.2) ws

theorem read_write_self (L : Layout F m n) (ws : Fin m → BitVec n) (f : F) (v : Nat) :
    L.read (L.write ws f v) f = v % 2 ^ L.len f := by
  rw [read, write, Function.update_self, extractLsb'_setField_self _ _ _ (L.fits f),
    BitVec.toNat_ofNat]

theorem read_write_of_ne (L : Layout F m n) (ws : Fin m → BitVec n) {f g : F} (v : Nat)
    (h : g ≠ f) : L.read (L.write ws f v) g = L.read ws g := by
  rw [read, write, read]
  by_cases hw : L.word g = L.word f
  · have hd : L.lo g + L.len g ≤ L.lo f ∨ L.lo f + L.len f ≤ L.lo g :=
      (L.disjoint g f h).resolve_left (fun hne => hne hw)
    rw [hw, Function.update_self, extractLsb'_setField_of_disjoint _ _ _ _ _ hd]
  · rw [Function.update_of_ne hw]

/-- The assignment of a hand-written setter: clear the field's mask in its word, then or in the
    argument, masked to the field's width and shifted up. -/
theorem update_masked {k : Nat} (L : Layout F m n) (ws : Fin m → BitVec n) (f : F)
    (v : BitVec k) :
    Function.update ws (L.word f) ((ws (L.word f) &&& ~~~(mask n (L.lo f) (L.len f))) |||
      ((v.setWidth n &&& mask n 0 (L.len f)) <<< L.lo f)) = L.write ws f v.toNat := by
  rw [or_shiftLeft_eq_setField]
  rfl

/-- The assignment of a setter whose field is a whole word. -/
theorem update_whole (L : Layout F m n) (ws : Fin m → BitVec n) (f : F) (hlo : L.lo f = 0)
    (hlen : L.len f = n) (v : BitVec n) :
    Function.update ws (L.word f) v = L.write ws f v.toNat := by
  have hmask : mask n 0 n = BitVec.allOnes n := by
    apply BitVec.eq_of_getLsbD_eq
    intro i hi
    simp [getLsbD_mask, hi]
  rw [write, setField, hlo, hlen, hmask]
  simp

/-- Where the fields leave no gap, a record is determined by what they read. -/
theorem eq_of_read_eq (L : Layout F m n)
    (hcovers : ∀ i b, b < n → ∃ f, L.word f = i ∧ L.lo f ≤ b ∧ b < L.lo f + L.len f)
    {ws ws' : Fin m → BitVec n} (h : ∀ f, L.read ws f = L.read ws' f) : ws = ws' := by
  funext i
  apply BitVec.eq_of_getLsbD_eq
  intro b hb
  obtain ⟨f, rfl, hlo, hhi⟩ := hcovers i b hb
  have hread := congrArg (BitVec.getLsbD · (b - L.lo f)) (BitVec.eq_of_toNat_eq (h f))
  simpa [show b - L.lo f < L.len f by omega, show L.lo f + (b - L.lo f) = b by omega]
    using hread

variable [DecidableEq F]

/-- What has last been written to a field. -/
def lastWrite : List (F × Nat) → F → Option Nat
  | [], _ => none
  | c :: cs, f => (lastWrite cs f).or (if c.1 = f then some c.2 else none)

@[simp] theorem lastWrite_nil (f : F) : lastWrite [] f = none := rfl

/-- **The codec law of a packed record.** -/
theorem read_writes (L : Layout F m n) (ws : Fin m → BitVec n) (cs : List (F × Nat)) (f : F) :
    L.read (L.writes ws cs) f =
      match lastWrite cs f with
      | some v => v % 2 ^ L.len f
      | none => L.read ws f := by
  induction cs generalizing ws with
  | nil => rfl
  | cons c cs ih =>
    rw [writes, List.foldl_cons, ← writes, ih]
    cases hl : lastWrite cs f with
    | some v => simp [lastWrite, hl]
    | none =>
      by_cases hc : c.1 = f
      · subst hc
        simp [lastWrite, hl, read_write_self]
      · simp [lastWrite, hl, hc, read_write_of_ne L ws c.2 (Ne.symm hc)]

theorem read_writes_of_lastWrite (L : Layout F m n) (ws : Fin m → BitVec n) {cs : List (F × Nat)}
    {f : F} {v : Nat} (h : lastWrite cs f = some v) :
    L.read (L.writes ws cs) f = v % 2 ^ L.len f := by
  rw [read_writes, h]

/-! ## Layouts without gaps -/

omit [DecidableEq F] in
theorem read_lt (L : Layout F m n) (ws : Fin m → BitVec n) (f : F) : L.read ws f < 2 ^ L.len f :=
  BitVec.isLt _

/-- **Fields that add up to the words leave no gap**: no two of them have a bit in common. -/
theorem covers_of_sum [Fintype F] (L : Layout F m n) (hsum : ∑ f, L.len f = m * n) (i : Fin m)
    (b : Nat) (hb : b < n) : ∃ f, L.word f = i ∧ L.lo f ≤ b ∧ b < L.lo f + L.len f := by
  let bit : (Σ f, Fin (L.len f)) → Fin m × Fin n := fun x =>
    (L.word x.1, ⟨L.lo x.1 + x.2, Nat.lt_of_lt_of_le (Nat.add_lt_add_left x.2.isLt _) (L.fits x.1)⟩)
  have hinj : Function.Injective bit := by
    rintro ⟨f, j⟩ ⟨g, k⟩ h
    have hword : L.word f = L.word g := congrArg (·.1) h
    have hbit : L.lo f + j = L.lo g + k := congrArg (fun x => x.2.val) h
    obtain rfl : f = g := by
      by_contra hne
      have hdisjoint := (L.disjoint f g hne).resolve_left fun hw => hw hword
      omega
    obtain rfl : j = k := Fin.ext (Nat.add_left_cancel hbit)
    rfl
  have hcard : Fintype.card (Σ f, Fin (L.len f)) = Fintype.card (Fin m × Fin n) := by
    simp [hsum]
  have hsurj := ((Fintype.bijective_iff_injective_and_card bit).mpr ⟨hinj, hcard⟩).surjective
  obtain ⟨⟨f, j⟩, h⟩ := hsurj (i, ⟨b, hb⟩)
  have hbit : L.lo f + j = b := congrArg (fun x => x.2.val) h
  exact ⟨f, congrArg (·.1) h, by omega, by omega⟩

theorem lastWrite_map (v : F → Nat) (fs : List F) (f : F) :
    lastWrite (fs.map fun g => (g, v g)) f = if f ∈ fs then some (v f) else none := by
  induction fs with
  | nil => rfl
  | cons g fs ih =>
    rw [List.map_cons, lastWrite, ih]
    by_cases hmem : f ∈ fs
    · simp [hmem]
    · by_cases hg : g = f
      · simp [hmem, hg]
      · simp [hmem, hg, Ne.symm hg]

/-- **A record without gaps is its fields**: values are those of exactly one record if and only if
    every one fits its field. -/
theorem existsUnique_read_iff [Fintype F] (L : Layout F m n) (hsum : ∑ f, L.len f = m * n)
    (v : F → Nat) : (∃! ws, ∀ f, L.read ws f = v f) ↔ ∀ f, v f < 2 ^ L.len f := by
  constructor
  · rintro ⟨ws, hread, -⟩ f
    rw [← hread f]
    exact L.read_lt ws f
  · intro hfits
    have hwrites : ∀ f, L.read (L.writes 0 (Finset.univ.toList.map fun f => (f, v f))) f = v f := by
      intro f
      have hlast := lastWrite_map v Finset.univ.toList f
      rw [if_pos (Finset.mem_toList.mpr (Finset.mem_univ f))] at hlast
      rw [L.read_writes_of_lastWrite 0 hlast, Nat.mod_eq_of_lt (hfits f)]
    refine ⟨_, hwrites, fun ws hread => ?_⟩
    exact L.eq_of_read_eq (L.covers_of_sum hsum) fun f => (hread f).trans (hwrites f).symm

/-- The getters `get` tell the whole record. -/
def Exact (L : Layout F m n) (get : (Fin m → BitVec n) → F → Nat) : Prop :=
  ∀ v : F → Nat, (∃! ws, ∀ f, get ws f = v f) ↔ ∀ f, v f < 2 ^ L.len f

theorem exact_of_get [Fintype F] (L : Layout F m n) (hsum : ∑ f, L.len f = m * n)
    {get : (Fin m → BitVec n) → F → Nat} (hget : ∀ ws f, get ws f = L.read ws f) :
    L.Exact get := by
  intro v
  simp only [hget]
  exact L.existsUnique_read_iff hsum v

/-! ## Classes with getters and setters -/

variable {σ κ : Type}

omit [DecidableEq F] in
theorem words_foldl {L : Layout F m n} {words : σ → Fin m → BitVec n} {apply : σ → κ → σ}
    {field : κ → F × Nat}
    (happly : ∀ s c, words (apply s c) = L.write (words s) (field c).1 (field c).2) (s : σ)
    (calls : List κ) :
    words (calls.foldl apply s) = L.writes (words s) (calls.map field) := by
  induction calls generalizing s with
  | nil => rfl
  | cons c calls ih =>
    rw [List.foldl_cons, ih, happly]
    rfl

/-- The law of a class: after any calls of setters, a getter returns the last value set for its
    field, cut to the field's width, or the bits that were there before; and a call changes no
    field but its own. -/
structure FieldLaw (L : Layout F m n) (words : σ → Fin m → BitVec n) (apply : σ → κ → σ)
    (field : κ → F × Nat) (get : σ → F → Nat) : Prop where
  last : ∀ (s : σ) (calls : List κ) (f : F), get (calls.foldl apply s) f =
    match lastWrite (calls.map field) f with
    | some v => v % 2 ^ L.len f
    | none => L.read (words s) f
  frame : ∀ (s : σ) (c : κ) (f : F), f ≠ (field c).1 → get (apply s c) f = get s f

/-- **Setters that write one field and getters that read one** obey the law. -/
theorem fieldLaw {L : Layout F m n} {words : σ → Fin m → BitVec n} {apply : σ → κ → σ}
    {field : κ → F × Nat} {get : σ → F → Nat}
    (happly : ∀ s c, words (apply s c) = L.write (words s) (field c).1 (field c).2)
    (hget : ∀ s f, get s f = L.read (words s) f) : FieldLaw L words apply field get where
  last s calls f := by
    rw [hget, words_foldl happly, read_writes]
  frame s c f hf := by
    rw [hget, hget, happly, read_write_of_ne L (words s) _ hf]

end Layout
