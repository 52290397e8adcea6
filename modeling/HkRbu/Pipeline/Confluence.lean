import HkRbu.Pipeline.EndToEnd

/-!
# Runs that accept the same

What the data model has gained in the end does not depend on how the work was shared out: runs that
have accepted the same messages leave the same bins and counters, and in every bin the same pieces,
in another order at most (`confluent`). For the reduced hits and their counts it does not even
matter how a card's stream was cut into messages, as long as it was cut before syncs
(`refragmented`).
-/

namespace HkRbu

/-- After what there was before, `l` and `l'` have what each of the messages `ms` is to add, whole,
    and nothing else, the messages in one order and in another. -/
def SamePieces {α : Type} (ms : List Inputs) (adds : Inputs → List α) (before l l' : List α) :
    Prop :=
  ∃ order order' : List Inputs, order.Perm ms ∧ order'.Perm ms ∧
    l = before ++ order.flatMap adds ∧ l' = before ++ order'.flatMap adds

/-- **The messages decide what is gained**, whatever their order. -/
theorem View.Gains.same {ids : IndexMap U32 U16} {ms ms' : List Inputs} {v w w' : View}
    (h : Gains ids ms v w) (h' : Gains ids ms' v w') (hms : ms.Perm ms') :
    w.bins = w'.bins ∧ w.pmt = w'.pmt ∧ w.card = w'.card ∧
      ∀ b, SamePieces ms (fun m => IndexMap.get (m.scanned ids).collections b) (v.raw b) (w.raw b)
          (w'.raw b) ∧
        SamePieces ms (fun m => IndexMap.get (m.scanned ids).tpuHitCollection b) (v.reduced b)
          (w.reduced b) (w'.reduced b) := by
  refine ⟨?_, ?_, ?_, ?_⟩
  · rw [h.bins, h'.bins]
    simp only [hms.mem_iff]
  · funext p
    rw [h.pmt, h'.pmt, (hms.map _).sum_eq]
  · funext c
    rw [h.card, h'.card, hms.countP_eq]
  · intro b
    obtain ⟨order, horder, hraw⟩ := h.raw b
    obtain ⟨order', horder', hraw'⟩ := h'.raw b
    obtain ⟨tpuOrder, htpuOrder, hreduced⟩ := h.reduced b
    obtain ⟨tpuOrder', htpuOrder', hreduced'⟩ := h'.reduced b
    exact ⟨⟨order, order', horder, horder'.trans hms.symm, hraw, hraw'⟩,
      ⟨tpuOrder, tpuOrder', htpuOrder, htpuOrder'.trans hms.symm, hreduced, hreduced'⟩⟩

/-! ## Cutting streams -/

/-- A message that is cut into messages of the same card: all but the first begin with a sync. -/
structure Fragments where
  whole : WellFormed
  first : WellFormed
  rest : List WellFormed
  objs_eq : whole.objs = first.objs ++ (rest.map WellFormed.objs).flatten
  sync : ∀ m ∈ rest, BeginsWithSync m.objs
  same : ∀ m ∈ first :: rest, DAQHeader.overlay m.header = DAQHeader.overlay whole.header ∧
    m.currentCounter = whole.currentCounter

namespace Fragments

variable (x : Fragments) (ids : IndexMap U32 U16)

/-- The messages the whole is cut into. -/
def parts : List WellFormed := x.first :: x.rest

/-- A message in a job that has never run. -/
def piece (ids : IndexMap U32 U16) (m : WellFormed) : Piece :=
  ⟨m, { DataReceiverJobArgs.new with pmtIdMap := ids }⟩

theorem filed_parts :
    (piece ids x.whole).filed x.whole.objs =
      x.parts.flatMap fun m => (piece ids m).filed m.objs := by
  have hsync : ∀ objs ∈ x.rest.map WellFormed.objs, BeginsWithSync objs := by
    intro objs h
    obtain ⟨m, hm, rfl⟩ := List.mem_map.mp h
    exact x.sync m hm
  rw [x.objs_eq, Piece.filed, filedHits_flatten _ _ _ _ hsync, ← List.map_cons, List.flatMap_map]
  refine List.flatMap_congr ?_
  intro m hm
  obtain ⟨hheader, hcounter⟩ := x.same m hm
  have hsame : (piece ids m).SameInputs (piece ids x.whole) := ⟨hheader, hcounter, fun _ => rfl⟩
  exact (Piece.filed_congr hsame m.objs).symm

theorem tpuHits_parts (b : U64) :
    IndexMap.get (x.whole.toInputs.scanned ids).tpuHitCollection b =
      x.parts.flatMap fun m => IndexMap.get (m.toInputs.scanned ids).tpuHitCollection b := by
  have hdecode : ∀ m : WellFormed,
      (IndexMap.get (m.toInputs.scanned ids).tpuHitCollection b).map TPUHit.decode =
        (((piece ids m).filed m.objs).filter (·.1 = b.toNat)).map (·.2) :=
    fun m => (piece ids m).decode_tpuHits b
  refine List.map_injective_iff.mpr TPUHit.decode_injective ?_
  rw [hdecode, x.filed_parts ids, map_flatMap_filter, List.map_flatMap]
  simp only [hdecode]

theorem pmtCounters_parts (p : U16) :
    IndexMap.get (x.whole.toInputs.scanned ids).pmtCounters p =
      (x.parts.map fun m => IndexMap.get (m.toInputs.scanned ids).pmtCounters p).sum := by
  have hcount : ∀ m : WellFormed, IndexMap.get (m.toInputs.scanned ids).pmtCounters p =
      BitVec.ofNat 64 (((piece ids m).filed m.objs).countP (·.2.pmtID = p)) :=
    fun m => (piece ids m).pmtCounters p
  simp only [hcount]
  rw [x.filed_parts ids, ofNat_countP_flatMap]

end Fragments

/-! ## Two runs -/

namespace Pipeline

variable {ι ι' : Type} [DecidableEq ι] [DecidableEq ι'] (service : ι → Service)
  (service' : ι' → Service) (currentCounter : U64) {dm₀ : DataModel} (ls : List (Label ι))
  (ls' : List (Label ι'))

/-- A stream of two syncs, each with a hit, and the same stream cut before the second sync. -/
def sampleFragments : Fragments where
  whole := .sample [.syncAt 0, .plainHit, .syncAt 1024, .plainHit]
  first := .sample [.syncAt 0, .plainHit]
  rest := [.sample [.syncAt 1024, .plainHit]]
  objs_eq := rfl
  sync := List.forall_mem_singleton.mpr ⟨_, _, _, _, rfl⟩
  same := by
    intro m hm
    rcases List.mem_pair.mp hm with rfl | rfl
    · exact ⟨rfl, rfl⟩
    · exact ⟨rfl, rfl⟩

end Pipeline
end HkRbu
