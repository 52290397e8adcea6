import HkRbu.Decode.PmtKey
import HkRbu.Decode.Reference
import HkRbu.Upload.Process

/-!
# What decoding does to `pmt_id_map`

The map belongs to the data model and is there to be read: the buffers beside it have a mutex, and
the counters atomic values, and it has neither. The decoder reads it with `pmt_id_map[pmt_info]`,
which is an insertion for a key that is not there: the map gets an entry with PMT 0. So a sequence
of messages leaves the map as it was exactly if it has the keys of all their hits
(`pmtMapKept_iff`).
-/

namespace HkRbu

/-- The keys of the hits among the words, object by object, after `skip` words of sub-hits. -/
def hitKeys (header : Buffer) : Nat → List U32 → List U32
  | _, [] => []
  | skip + 1, _ :: ws => hitKeys header skip ws
  | 0, [_] => []
  | 0, w₀ :: w₁ :: ws =>
    if w₀ >>> 30 = 0b11#32 ∧ (w₁ >>> 25) &&& 0b1#32 = 0#32 then
      pmtKey header w₀ :: hitKeys header (subHits w₀ w₁) ws
    else hitKeys header (subHits w₀ w₁) ws

/-- The keys of the hits of a message whose objects begin at the word `i` or later. An object that
    begins at the last word takes its second word from behind the part. -/
def Inputs.keysFrom (inp : Inputs) (i : Nat) : List U32 :=
  hitKeys inp.header 0 (inp.data.slice i (inp.data.size / 4 + 1 - i))

/-- The keys of the hits of a message. -/
def Inputs.keys (inp : Inputs) : List U32 := inp.keysFrom 0

/-- The data model after a call. -/
def DataModel.process (dm : DataModel) (c : Call) : DataModel :=
  (processDataIDOD c.pool c.message dm c.job).1

/-- After every one of the calls, `pmt_id_map` is what it was before the first. -/
def PmtMapKept (dm : DataModel) (calls : List Call) : Prop :=
  Runs.Throughout DataModel.process (fun dm' => IndexMap.Same dm'.pmtIdMap dm.pmtIdMap) dm calls

/-! ## One message -/

theorem hitKeys_drop (header : Buffer) (skip : Nat) (ws : List U32) :
    hitKeys header skip ws = hitKeys header 0 (ws.drop skip) := by
  induction ws generalizing skip with
  | nil => simp [hitKeys]
  | cons w ws ih =>
    cases skip with
    | zero => rfl
    | succ skip => exact ih skip

namespace Scan

variable {inp : Inputs} {s : Scan}

theorem Holds.pmtInfo (h : Holds inp s) : s.pmtInfo = pmtKey inp.header (s.at_ 0) := by
  rw [Scan.pmtInfo, h.daqHeader, h.cardId]
  rfl

/-- The keys from the current word on are those of a hit at that word and those after it. -/
theorem Holds.keysFrom (h : Holds inp s) (hmore : s.currentWord < inp.data.size / 4) :
    inp.keysFrom s.currentWord =
      if s.kind = .hit then s.pmtInfo :: inp.keysFrom (s.step inp).currentWord
      else inp.keysFrom (s.step inp).currentWord := by
  obtain ⟨n, hn⟩ : ∃ n, inp.data.size / 4 + 1 - s.currentWord = n + 2 :=
    ⟨inp.data.size / 4 - s.currentWord - 1, by omega⟩
  have hrest : inp.keysFrom (s.step inp).currentWord =
      hitKeys inp.header (subHits (s.at_ 0) (s.at_ 1)) (inp.data.slice (s.currentWord + 2) n) := by
    rw [hitKeys_drop, Buffer.drop_slice, ← s.step_currentWord inp, Inputs.keysFrom,
      show inp.data.size / 4 + 1 - (s.step inp).currentWord = n - subHits (s.at_ 0) (s.at_ 1) by
        rw [s.step_currentWord inp]; omega]
  obtain ⟨h₀, h₁⟩ := at_of_words h.words
  rw [hrest, Inputs.keysFrom, hn, Buffer.slice_succ_succ, hitKeys, ← h₀, ← h₁, h.pmtInfo]
  simp only [s.kind_eq_hit_iff]

theorem step_pmtIdMap (inp : Inputs) (s : Scan) :
    (s.step inp).pmtIdMap =
      if s.kind = .hit then IndexMap.touch s.pmtIdMap s.pmtInfo else s.pmtIdMap := by
  obtain ⟨hk, hs, -⟩ | ⟨hk, hs, -⟩ := s.step_cases inp
  · rw [hs, if_pos hk]
    rfl
  · rw [hs, if_neg hk, fileObject_eq, arrive_eq]

/-- **The step lemma**: a round reads the keys it takes off the list of those still to be read. -/
theorem Holds.foldl_touch_step (h : Holds inp s) (hmore : s.currentWord < inp.data.size / 4) :
    (inp.keysFrom (s.step inp).currentWord).foldl IndexMap.touch (s.step inp).pmtIdMap =
      (inp.keysFrom s.currentWord).foldl IndexMap.touch s.pmtIdMap := by
  rw [h.keysFrom hmore, step_pmtIdMap]
  split
  · rfl
  · rfl

theorem keysFrom_of_exit (hexit : more inp s = false) : inp.keysFrom s.currentWord = [] := by
  have hle := not_more_iff.mp hexit
  obtain hn | hn : inp.data.size / 4 + 1 - s.currentWord = 0 ∨
      inp.data.size / 4 + 1 - s.currentWord = 1 := by omega
  · rw [Inputs.keysFrom, hn]
    rfl
  · rw [Inputs.keysFrom, hn]
    rfl

/-- **The scan reads the keys of the hits of the message**, and no others. -/
theorem run_pmtIdMap (inp : Inputs) (s : Scan) :
    (s.run inp).pmtIdMap = inp.keys.foldl IndexMap.touch s.pmtIdMap := by
  have hloop : Holds inp (s.loop inp) ∧
      (inp.keysFrom (s.loop inp).currentWord).foldl IndexMap.touch (s.loop inp).pmtIdMap =
        inp.keys.foldl IndexMap.touch s.pmtIdMap := by
    refine Loop.run_invariant (P := fun t => Holds inp t ∧
      (inp.keysFrom t.currentWord).foldl IndexMap.touch t.pmtIdMap =
        inp.keys.foldl IndexMap.touch s.pmtIdMap) ?_ ⟨⟨rfl, rfl, rfl⟩, rfl⟩ _
    rintro t ⟨hholds, hkeys⟩ hmore
    refine ⟨hholds.step, ?_⟩
    rw [hholds.foldl_touch_step (more_iff.mp hmore), hkeys]
  rw [keysFrom_of_exit (s.loop_exit inp)] at hloop
  exact hloop.2

end Scan

/-! ## Sequences of messages -/

theorem DataModel.process_pmtIdMap (dm : DataModel) (c : Call) :
    (dm.process c).pmtIdMap = c.message.keys.foldl IndexMap.touch dm.pmtIdMap :=
  Scan.run_pmtIdMap c.message { c.job with pmtIdMap := dm.pmtIdMap }

/-- **When decoding only reads the map**: the keys of all hits of the messages are in it. -/
theorem pmtMapKept_iff (dm : DataModel) (calls : List Call) :
    PmtMapKept dm calls ↔ ∀ c ∈ calls, ∀ k ∈ c.message.keys, k ∈ dm.pmtIdMap := by
  have hcall : ∀ (dm' : DataModel) (c : Call), IndexMap.Same dm'.pmtIdMap dm.pmtIdMap →
      (IndexMap.Same (dm'.process c).pmtIdMap dm.pmtIdMap ↔
        ∀ k ∈ c.message.keys, k ∈ dm.pmtIdMap) := by
    intro dm' c hsame
    rw [dm'.process_pmtIdMap c]
    exact hsame.foldl_touch_iff c.message.keys
  have halong : Runs.Along DataModel.process
      (fun _ c => ∀ k ∈ c.message.keys, k ∈ dm.pmtIdMap) dm calls ↔ _ := Runs.along_iff_forall_mem
  rw [← halong]
  exact Runs.throughout_iff_along (fun _ h => h) (fun dm' c h => (hcall dm' c h).mpr)
    (fun dm' c h => (hcall dm' c h).mp) (IndexMap.Same.refl _)

/-- One hit from card 0, decoded with an empty map: the key 192 is in the map afterwards. -/
theorem not_pmtMapKept_plainHit :
    ¬ PmtMapKept (DataModel.empty ∅) [⟨.counting, (plainHitOf 0).inp, .new⟩] := by
  intro h
  have hsame := h _ (List.prefix_refl _)
  have hmem : 192#32 ∈ (DataModel.process (DataModel.empty ∅)
      ⟨.counting, (plainHitOf 0).inp, .new⟩).pmtIdMap := by
    rw [DataModel.process_pmtIdMap]
    exact (IndexMap.mem_foldl_touch _ _ _).mpr (Or.inl (by decide))
  exact absurd ((hsame.mem_iff 192#32).mp hmem) (AList.notMem_empty _)

end HkRbu
