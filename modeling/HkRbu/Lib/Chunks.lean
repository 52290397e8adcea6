import Mathlib.Data.List.Flatten
import Mathlib.Data.List.Perm.Basic

/-!
# Chunks in some order

Parties each have a list of things to do, of which at most one appends something to a given log.
Whatever the order in which everything is done, the log gains one chunk for each party, in some
order of the parties (`exists_order`): no chunk is torn, and what does not append leaves no trace.
-/

namespace Chunks

variable {α β γ : Type}

/-- The chunks that are not empty. -/
def proper (cs : List (List α)) : List (List α) := cs.filter fun c => !c.isEmpty

theorem flatten_proper (cs : List (List α)) : (proper cs).flatten = cs.flatten :=
  List.flatten_filter_not_isEmpty

theorem proper_append (cs cs' : List (List α)) : proper (cs ++ cs') = proper cs ++ proper cs' :=
  List.filter_append cs cs'

theorem proper_map {g : γ → List α} (ms : List γ) :
    proper (ms.map g) = (ms.filter fun m => !(g m).isEmpty).map g :=
  List.filter_map

theorem flatMap_of_proper {l : List γ} {f : γ → List α} {c : List α}
    (h : proper (l.map f) = proper [c]) : l.flatMap f = c := by
  rw [List.flatMap_def, ← flatten_proper, h, flatten_proper, List.flatten_singleton]

theorem subperm_flatMap {l l' : List γ} (h : l.Subperm l') (f : γ → List α) :
    (l.flatMap f).Subperm (l'.flatMap f) := by
  obtain ⟨m, hperm, hsub⟩ := h
  exact ⟨m.flatMap f, hperm.flatMap_right f, hsub.flatMap f⟩

theorem exists_of_perm_map {g : γ → α} {l : List α} {ms : List γ} (h : l.Perm (ms.map g)) :
    ∃ ms' : List γ, ms'.Perm ms ∧ l = ms'.map g := by
  obtain ⟨ms', hl, hperm⟩ := (congrFun (congrFun (List.eq_map_comp_perm g) l) ms).mpr h
  exact ⟨ms', hperm, hl⟩

/-- **One chunk for each party**, in some order of the parties. -/
theorem exists_order {items : γ → List β} {f : β → List α} {g : γ → List α}
    (h : ∀ m, proper ((items m).map f) = proper [g m]) {order : List β} {ms : List γ}
    (hperm : order.Perm (ms.flatMap items)) :
    ∃ ms' : List γ, ms'.Perm ms ∧ order.flatMap f = ms'.flatMap g := by
  have hparties : ∀ ms : List γ, proper ((ms.flatMap items).map f) = proper (ms.map g) := by
    intro ms
    induction ms with
    | nil => rfl
    | cons m ms ih =>
      rw [List.flatMap_cons, List.map_append, proper_append, ih, h m, ← proper_append]
      rfl
  have hchunks : (proper (order.map f)).Perm ((ms.filter fun m => !(g m).isEmpty).map g) := by
    rw [← proper_map, ← hparties]
    exact (hperm.map f).filter _
  obtain ⟨some, hperm', hsome⟩ := exists_of_perm_map hchunks
  refine ⟨some ++ ms.filter (fun m => !!(g m).isEmpty), ?_, ?_⟩
  · exact (hperm'.append_right _).trans (List.filter_append_perm _ ms)
  · have hrest : (ms.filter fun m => !!(g m).isEmpty).flatMap g = [] := by
      refine List.flatMap_eq_nil_iff.mpr fun m hm => ?_
      simpa using (List.mem_filter.mp hm).2
    rw [List.flatMap_append, hrest, List.append_nil, List.flatMap_def, List.flatMap_def,
      ← flatten_proper, hsome]

end Chunks
