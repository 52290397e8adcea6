import HkRbu.Lib.Chunks
import Mathlib.Algebra.BigOperators.Group.List.Basic
import Mathlib.Data.List.AList

/-!
# Maps read and written through `operator[]`

A C++ map's `m[k]` never fails: a missing entry is created with the default value, and the
expression is a reference to the entry. So a *write* `m[k] = f(m[k])` is `update`, a *read*
`m[k]` is `touch` together with `get`, and the entry is there afterwards in both cases.

The carrier is Mathlib's `AList`, an association list without repeated keys; its entry order
stands for the iteration order of the map.
-/

/-- A finite map from `K` to `V`, with an iteration order. -/
abbrev IndexMap (K V : Type) := AList (fun _ : K => V)

namespace IndexMap

variable {K V : Type} [DecidableEq K] [Inhabited V]

/-- The value `m[k]` evaluates to. -/
def get (m : IndexMap K V) (k : K) : V := (m.lookup k).getD default

/-- `m[k] = f(m[k])`. -/
def update (m : IndexMap K V) (k : K) (f : V → V) : IndexMap K V := m.insert k (f (get m k))

/-- The map after `m[k]` was evaluated: a missing entry has been created. -/
def touch (m : IndexMap K V) (k : K) : IndexMap K V := update m k id

@[simp] theorem get_empty (k : K) : get (∅ : IndexMap K V) k = default := rfl

theorem get_of_notMem {m : IndexMap K V} {k : K} (h : k ∉ m) : get m k = default := by
  simp [get, AList.lookup_eq_none.mpr h]

@[simp] theorem get_update_self (m : IndexMap K V) (k : K) (f : V → V) :
    get (update m k f) k = f (get m k) := by
  simp [get, update]

theorem get_update_ne (m : IndexMap K V) {k k' : K} (f : V → V) (h : k' ≠ k) :
    get (update m k f) k' = get m k' := by
  simp [get, update, AList.lookup_insert_ne h]

theorem get_update (m : IndexMap K V) (k k' : K) (f : V → V) :
    get (update m k f) k' = if k' = k then f (get m k') else get m k' := by
  by_cases h : k' = k
  · subst h
    simp
  · rw [get_update_ne m f h, if_neg h]

@[simp] theorem mem_update (m : IndexMap K V) (k k' : K) (f : V → V) :
    k' ∈ update m k f ↔ k' = k ∨ k' ∈ m :=
  AList.mem_insert m

/-- Evaluating `m[k]` changes no value: the new entry holds the default it would have read. -/
@[simp] theorem get_touch (m : IndexMap K V) (k k' : K) : get (touch m k) k' = get m k' := by
  simp [touch, get_update]

@[simp] theorem mem_touch (m : IndexMap K V) (k k' : K) : k' ∈ touch m k ↔ k' = k ∨ k' ∈ m :=
  mem_update m k k' id

/-! ## Going through the entries -/

section Entries

variable {K α : Type} [DecidableEq K]

/-- Of the entries visited, one at most has the key. -/
theorem proper_entries (m : IndexMap K (List α)) (k : K) :
    Chunks.proper (m.entries.map fun e => if e.1 = k then e.2 else []) =
      Chunks.proper [get m k] := by
  obtain ⟨entries, nodup⟩ := m
  show _ = Chunks.proper [(entries.dlookup k).getD []]
  induction entries with
  | nil => rfl
  | cons e entries ih =>
    obtain ⟨k', v⟩ := e
    obtain ⟨hk, hnodup⟩ := List.nodupKeys_cons.mp nodup
    rw [List.map_cons, ← List.singleton_append, Chunks.proper_append, ih hnodup]
    by_cases h : k' = k
    · subst h
      rw [if_pos rfl, List.dlookup_cons_eq, List.dlookup_eq_none.mpr hk]
      exact List.append_nil _
    · rw [if_neg h, List.dlookup_cons_ne _ _ (Ne.symm h)]
      rfl

theorem sum_entries {V M : Type} [Inhabited V] [AddMonoid M] {g : V → M} (hdefault : g default = 0)
    (m : IndexMap K V) (k : K) :
    (m.entries.map fun e => if e.1 = k then g e.2 else 0).sum = g (get m k) := by
  obtain ⟨entries, nodup⟩ := m
  show _ = g ((entries.dlookup k).getD default)
  induction entries with
  | nil => exact hdefault.symm
  | cons e entries ih =>
    obtain ⟨k', v⟩ := e
    obtain ⟨hk, hnodup⟩ := List.nodupKeys_cons.mp nodup
    rw [List.map_cons, List.sum_cons, ih hnodup]
    by_cases h : k' = k
    · subst h
      rw [if_pos rfl, List.dlookup_cons_eq, List.dlookup_eq_none.mpr hk, Option.getD_none, hdefault]
      exact add_zero (g v)
    · rw [if_neg h, List.dlookup_cons_ne _ _ (Ne.symm h), zero_add]

section Total

variable {V M : Type} [Inhabited V] [AddCommMonoid M] {g : V → M}

/-- What the values of a map come to. -/
def total (g : V → M) (m : IndexMap K V) : M := (m.entries.map fun e => g e.2).sum

/-- A map without its entry for a key, and what the key gives. -/
theorem add_sum_kerase (hdefault : g default = 0) (entries : List (Σ _ : K, V)) (k : K) :
    g ((entries.dlookup k).getD default) + ((entries.kerase k).map fun e => g e.2).sum =
      (entries.map fun e => g e.2).sum := by
  induction entries with
  | nil => simp [hdefault]
  | cons e entries ih =>
    obtain ⟨k', v⟩ := e
    by_cases h : k = k'
    · subst h
      have herase : List.kerase k (⟨k, v⟩ :: entries) = entries := List.kerase_cons_eq rfl
      rw [List.dlookup_cons_eq, herase]
      rfl
    · rw [List.dlookup_cons_ne _ _ h, List.kerase_cons_ne h, List.map_cons, List.map_cons,
        List.sum_cons, List.sum_cons, ← ih, add_left_comm]

theorem total_update (hdefault : g default = 0) (m : IndexMap K V) (k : K) {f : V → V} {x : M}
    (hf : g (f (get m k)) = g (get m k) + x) : total g (update m k f) = total g m + x := by
  rw [total, total, ← add_sum_kerase hdefault m.entries k, update, AList.entries_insert,
    List.map_cons, List.sum_cons, hf, add_right_comm]
  rfl

end Total

end Entries

/-! ## Reading, and the map it leaves -/

/-- The maps have the same keys with the same values; they may be iterated in different orders. -/
def Same (m m' : IndexMap K V) : Prop := ∀ k, m.lookup k = m'.lookup k

omit [Inhabited V] in
theorem Same.refl (m : IndexMap K V) : Same m m := fun _ => rfl

omit [Inhabited V] in
theorem Same.mem_iff {m m' : IndexMap K V} (h : Same m m') (k : K) : k ∈ m ↔ k ∈ m' := by
  rw [← AList.lookup_isSome, h k, AList.lookup_isSome]

/-- Evaluating `m[k]` for a key of the map leaves the map as it is. -/
theorem Same.touch {m m' : IndexMap K V} (h : Same m m') {k : K} (hk : k ∈ m') :
    Same (touch m k) m' := by
  intro k'
  by_cases he : k' = k
  · subst he
    obtain ⟨v, hv⟩ := Option.isSome_iff_exists.mp (AList.lookup_isSome.mpr hk)
    rw [IndexMap.touch, update, AList.lookup_insert, get, h k', hv]
    rfl
  · rw [IndexMap.touch, update, AList.lookup_insert_ne he, h k']

theorem mem_foldl_touch (ks : List K) (m : IndexMap K V) (k : K) :
    k ∈ ks.foldl touch m ↔ k ∈ ks ∨ k ∈ m := by
  induction ks generalizing m with
  | nil => simp
  | cons x ks ih =>
    rw [List.foldl_cons, ih, mem_touch, List.mem_cons, or_left_comm, or_assoc]

/-- **Reading leaves the map as it was** exactly if every key that is read is in it. -/
theorem Same.foldl_touch_iff {m m' : IndexMap K V} (h : Same m m') (ks : List K) :
    Same (ks.foldl IndexMap.touch m) m' ↔ ∀ k ∈ ks, k ∈ m' := by
  constructor
  · intro hsame k hk
    exact (hsame.mem_iff k).mp ((mem_foldl_touch ks m k).mpr (Or.inl hk))
  · intro hall
    induction ks generalizing m with
    | nil => exact h
    | cons x ks ih =>
      exact ih (h.touch (hall x List.mem_cons_self))
        fun k hk => hall k (List.mem_cons_of_mem x hk)

end IndexMap
