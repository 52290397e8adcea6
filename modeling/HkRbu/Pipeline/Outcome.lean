import HkRbu.Pipeline.Conservation
import Mathlib.Data.BitVec

/-!
# What a drained run leaves

The items of the messages, read bin by bin and counter by counter: every bin has gained the raw
words and the reduced hits the messages have for it, message after message in some order, and every
counter the messages' counts (`View.Gains`).
-/

namespace HkRbu

namespace Item

/-- The bins that get a slice if they have none. -/
def opened : Item → List U64
  | bins bs => bs
  | card _ | raw .. | reduced .. | count .. => []

/-- The raw words for bin `b`. -/
def rawAt (b : U64) : Item → List U32
  | raw b' ws => if b' = b then ws else []
  | card _ | bins _ | reduced .. | count .. => []

/-- The reduced hits for bin `b`. -/
def reducedAt (b : U64) : Item → List TPUHit
  | reduced b' hits => if b' = b then hits else []
  | card _ | bins _ | raw .. | count .. => []

/-- The increment of the counter of PMT `p`. -/
def countAt (p : U16) : Item → U64
  | count p' n => if p' = p then n else 0
  | card _ | bins _ | raw .. | reduced .. => 0

/-- The increment of the counter of card `c`. -/
def cardAt (c : U16) : Item → U64
  | card c' => if c' = c then 1 else 0
  | bins _ | raw .. | reduced .. | count .. => 0

theorem update_append {K α : Type} [DecidableEq K] (f : K → List α) (k : K) (l : List α) :
    Function.update f k (f k ++ l) = fun k' => f k' ++ if k = k' then l else [] := by
  funext k'
  by_cases h : k = k'
  · subst h
    simp
  · rw [Function.update_of_ne (Ne.symm h), if_neg h, List.append_nil]

theorem update_add {K M : Type} [DecidableEq K] [AddMonoid M] (f : K → M) (k : K) (x : M) :
    Function.update f k (f k + x) = fun k' => f k' + if k = k' then x else 0 := by
  funext k'
  by_cases h : k = k'
  · subst h
    simp
  · rw [Function.update_of_ne (Ne.symm h), if_neg h, add_zero]

/-- One item, field by field. -/
theorem apply_eq (i : Item) (v : View) :
    i.apply v =
      { bins := {b | b ∈ i.opened} ∪ v.bins
        raw := fun b => v.raw b ++ i.rawAt b
        reduced := fun b => v.reduced b ++ i.reducedAt b
        pmt := fun p => v.pmt p + i.countAt p
        card := fun c => v.card c + i.cardAt c } := by
  cases i with
  | card c => simp [apply, opened, rawAt, reducedAt, countAt, cardAt, update_add]
  | bins bs => simp [apply, opened, rawAt, reducedAt, countAt, cardAt]
  | raw b ws => simp [apply, opened, rawAt, reducedAt, countAt, cardAt, update_append]
  | reduced b hits => simp [apply, opened, rawAt, reducedAt, countAt, cardAt, update_append]
  | count p n => simp [apply, opened, rawAt, reducedAt, countAt, cardAt, update_add]

/-- **Items in any number**, field by field. -/
theorem foldl_apply (items : List Item) (v : View) :
    items.foldl apply v =
      { bins := {b | b ∈ items.flatMap opened} ∪ v.bins
        raw := fun b => v.raw b ++ items.flatMap (rawAt b)
        reduced := fun b => v.reduced b ++ items.flatMap (reducedAt b)
        pmt := fun p => v.pmt p + (items.map (countAt p)).sum
        card := fun c => v.card c + (items.map (cardAt c)).sum } := by
  induction items generalizing v with
  | nil => simp
  | cons i items ih =>
    rw [List.foldl_cons, ih, apply_eq]
    simp only [List.flatMap_cons, List.append_assoc, List.map_cons, List.sum_cons, add_assoc]
    refine View.ext (Set.ext fun b => ?_) rfl rfl rfl rfl
    show b ∈ items.flatMap opened ∨ b ∈ i.opened ∨ b ∈ v.bins ↔
      b ∈ i.opened ++ items.flatMap opened ∨ b ∈ v.bins
    rw [List.mem_append, or_left_comm, or_assoc]

end Item
/-! ## The items of a message -/

namespace Inputs

variable (ids : IndexMap U32 U16) (inp : Inputs)

/-- The bins of a message: those of its raw words and those of its reduced hits. -/
def bins : List U64 :=
  UploadJob.bins ⟨(inp.scanned ids).collections, (inp.scanned ids).tpuHitCollection⟩

/-- The card of a message. -/
def card : U16 := (DAQHeader.overlay inp.header).getCardID

theorem opened_items : (inp.items ids).flatMap Item.opened = inp.bins ids := by
  simp [items, DataReceiverJobArgs.items, rawItems, reducedItems, countItems, Item.opened, bins,
    List.flatMap_map]

theorem rawAt_items (b : U64) :
    Chunks.proper ((inp.items ids).map (Item.rawAt b)) =
      Chunks.proper [IndexMap.get (inp.scanned ids).collections b] := by
  rw [← IndexMap.proper_entries]
  simp [items, DataReceiverJobArgs.items, rawItems, reducedItems, countItems, Item.rawAt,
    Function.comp_def, Chunks.proper, List.filter_append]

theorem reducedAt_items (b : U64) :
    Chunks.proper ((inp.items ids).map (Item.reducedAt b)) =
      Chunks.proper [IndexMap.get (inp.scanned ids).tpuHitCollection b] := by
  rw [← IndexMap.proper_entries]
  simp [items, DataReceiverJobArgs.items, rawItems, reducedItems, countItems, Item.reducedAt,
    Function.comp_def, Chunks.proper, List.filter_append]

theorem countAt_items (p : U16) :
    ((inp.items ids).map (Item.countAt p)).sum = IndexMap.get (inp.scanned ids).pmtCounters p := by
  rw [← id_eq (IndexMap.get _ p), ← IndexMap.sum_entries (g := id) rfl]
  simp [items, DataReceiverJobArgs.items, rawItems, reducedItems, countItems, Item.countAt,
    Function.comp_def]

theorem cardAt_items (c : U16) :
    ((inp.items ids).map (Item.cardAt c)).sum = if inp.card = c then 1 else 0 := by
  simp [items, DataReceiverJobArgs.items, rawItems, reducedItems, countItems, Item.cardAt, card,
    Function.comp_def]
  rfl

end Inputs
/-! ## What messages add up to -/

/-- `v'` is `v` with the messages decoded into it, with the PMT ids `ids`. In every bin the messages
    come in some order, each with all it has for the bin; the order may be another one in another
    bin. -/
structure View.Gains (ids : IndexMap U32 U16) (ms : List Inputs) (v v' : View) : Prop where
  bins : v'.bins = {b | ∃ m ∈ ms, b ∈ m.bins ids} ∪ v.bins
  raw : ∀ b, ∃ order : List Inputs, order.Perm ms ∧
    v'.raw b = v.raw b ++ order.flatMap fun m => IndexMap.get (m.scanned ids).collections b
  reduced : ∀ b, ∃ order : List Inputs, order.Perm ms ∧ v'.reduced b =
    v.reduced b ++ order.flatMap fun m => IndexMap.get (m.scanned ids).tpuHitCollection b
  pmt : ∀ p, v'.pmt p =
    v.pmt p + (ms.map fun m => IndexMap.get (m.scanned ids).pmtCounters p).sum
  card : ∀ c, v'.card c = v.card c + BitVec.ofNat 64 (ms.countP fun m => m.card = c)

theorem sum_map_card (ms : List Inputs) (c : U16) :
    (ms.map fun m => if m.card = c then (1 : U64) else 0).sum =
      BitVec.ofNat 64 (ms.countP fun m => m.card = c) := by
  induction ms with
  | nil => rfl
  | cons m ms ih =>
    rw [List.map_cons, List.sum_cons, ih, List.countP_cons, BitVec.ofNat_add, BitVec.add_comm]
    by_cases h : m.card = c
    · simp [h]
    · simp [h]

/-- The items of messages, in any order. -/
theorem View.gains_of_perm {ids : IndexMap U32 U16} {ms : List Inputs} {order : List Item}
    (h : order.Perm (ms.flatMap (Inputs.items ids))) (v : View) :
    Gains ids ms v (order.foldl Item.apply v) := by
  have hopened : (order.flatMap Item.opened).Perm
      (ms.flatMap fun m => (m.items ids).flatMap Item.opened) := by
    rw [← List.flatMap_assoc]
    exact h.flatMap_right Item.opened
  have hsum : ∀ f : Item → U64, (order.map f).sum =
      (ms.map fun m => ((m.items ids).map f).sum).sum := by
    intro f
    rw [(h.map f).sum_eq, List.map_flatMap, List.flatMap, List.sum_flatten, List.map_map]
    rfl
  rw [Item.foldl_apply]
  refine ⟨?_, ?_, ?_, ?_, ?_⟩
  · refine congrArg (· ∪ v.bins) (Set.ext fun b => ?_)
    show b ∈ order.flatMap Item.opened ↔ ∃ m ∈ ms, b ∈ m.bins ids
    rw [hopened.mem_iff, List.mem_flatMap]
    simp only [Inputs.opened_items]
  · intro b
    obtain ⟨ms', hperm, hraw⟩ := Chunks.exists_order (fun m => m.rawAt_items ids b) h
    exact ⟨ms', hperm, congrArg (v.raw b ++ ·) hraw⟩
  · intro b
    obtain ⟨ms', hperm, hreduced⟩ := Chunks.exists_order (fun m => m.reducedAt_items ids b) h
    exact ⟨ms', hperm, congrArg (v.reduced b ++ ·) hreduced⟩
  · intro p
    simpa only [Inputs.countAt_items] using congrArg (v.pmt p + ·) (hsum (Item.countAt p))
  · intro c
    rw [← sum_map_card]
    simpa only [Inputs.cardAt_items] using congrArg (v.card c + ·) (hsum (Item.cardAt c))

namespace Pipeline

variable {ι : Type} [DecidableEq ι] (service : ι → Service) (currentCounter : U64)
  {dm₀ : DataModel} (ls : List (Label ι))

theorem dues_eq (ids : IndexMap U32 U16) (ms : List Inputs) :
    dues ids ms = (ms.flatMap (Inputs.items ids) : List Item) := by
  induction ms with
  | nil => rfl
  | cons m ms ih =>
    rw [dues, List.map_cons, List.sum_cons, List.flatMap_cons, ← Multiset.coe_add, ← ih]
    rfl

/-- **What a drained run leaves**: the bins and the counters with what the accepted messages add. -/
theorem drained_gains (h₀ : dm₀.Distinct) (hdrained : (exec service currentCounter dm₀ ls).Drained)
    (hnone : .failed ∉ journal service currentCounter dm₀ ls) :
    View.Gains dm₀.pmtIdMap (messages currentCounter (journal service currentCounter dm₀ ls))
      dm₀.view (exec service currentCounter dm₀ ls).dataModel.view := by
  obtain ⟨lost, hsum, hlost⟩ := conserved service currentCounter ls h₀
  rw [hdrained.owed, hlost hnone, zero_add, add_zero, dues_eq] at hsum
  rw [view_exec service currentCounter ls h₀]
  exact View.gains_of_perm (Multiset.coe_eq_coe.mp hsum) _

/-- **Nothing is made up**: in every state of every run a bin has gained hits that accepted messages
    have for it, none of them more often. -/
theorem gained_reduced (h₀ : dm₀.Distinct) (b : U64) :
    ∃ hits : List TPUHit,
      (exec service currentCounter dm₀ ls).dataModel.view.reduced b =
        dm₀.view.reduced b ++ hits ∧
      hits.Subperm ((messages currentCounter (journal service currentCounter dm₀ ls)).flatMap
        fun m => IndexMap.get (m.scanned dm₀.pmtIdMap).tpuHitCollection b) := by
  obtain ⟨lost, hsum, -⟩ := conserved service currentCounter ls h₀
  rw [view_exec service currentCounter ls h₀, Item.foldl_apply]
  refine ⟨_, rfl, ?_⟩
  have hle : (writtenItems (journal service currentCounter dm₀ ls) : Multiset Item) ≤
      dues dm₀.pmtIdMap (messages currentCounter (journal service currentCounter dm₀ ls)) := by
    rw [← hsum, add_comm (owed _ _), add_assoc]
    exact Multiset.le_add_right _ _
  rw [dues_eq] at hle
  have hhits := Chunks.subperm_flatMap (Multiset.coe_le.mp hle) (Item.reducedAt b)
  have hitems : ∀ m : Inputs, (m.items dm₀.pmtIdMap).flatMap (Item.reducedAt b) =
      IndexMap.get (m.scanned dm₀.pmtIdMap).tpuHitCollection b := fun m =>
    Chunks.flatMap_of_proper (m.reducedAt_items dm₀.pmtIdMap b)
  simpa only [List.flatMap_assoc, hitems] using hhits

end Pipeline
end HkRbu
