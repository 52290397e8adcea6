import HkRbu.Decode.Agreement
import HkRbu.Lib.Tiling

/-!
# The raw and the reduced path

A hit takes two ways out of the scan. Its reduced hit is filed at once, under `bin`; its words are
appended later, under `current_bin`, with the segment they happen to lie in, when some object of
another bin arrives or the loop ends. The two name the same bin because at every loop head
`bin = current_bin`, and because the segments cut the words at object boundaries, end to end
(`Filing`).
-/

namespace HkRbu

/-- An append of message words to `collections[bin]`: those with indices in `[start, stop)`. -/
structure Segment where
  bin : U64
  start : Nat
  stop : Nat

/-- The word `i` is one of the segment. -/
def Segment.Holds (g : Segment) (i : Nat) : Prop := g.start ≤ i ∧ i < g.stop

instance (g : Segment) (i : Nat) : Decidable (g.Holds i) :=
  inferInstanceAs (Decidable (g.start ≤ i ∧ i < g.stop))

/-- The segment that is inserted, if it is one. -/
def Insert.segment? : Insert → Option Segment
  | segment b start stop => some ⟨b, start, stop⟩
  | header .. | tpuHit .. => none

/-- The segments appended to `collections`, in the order they were. -/
def segments (log : List Insert) : List Segment := log.filterMap Insert.segment?

/-- What holds at every loop head; the collections are the inserts so far (`replays`). -/
structure HeadInv (m : WellFormed) (t : Logged) : Prop where
  replays : t.Replays m.toInputs
  bin : t.scan.bin = t.scan.currentBin
  startPos : t.scan.startPos ≤ t.scan.currentWord
  currentWord : t.scan.currentWord ≤ m.data.size / 4
  inOrder : (segments t.log).Pairwise fun g g' => g.stop ≤ g'.start
  covered : ∀ i, (∃ g ∈ segments t.log, g.Holds i) ↔ i < t.scan.startPos

/-- What holds of the inserts of the whole scan, of which the two collections are made: every word
    is appended once, and the words of a hit to the bin its reduced hit is in. -/
structure Filed (m : WellFormed) (s : Scan) : Prop where
  collections : (s.run m.toInputs).collections =
    (s.log m.toInputs).foldl (Insert.applyRaw m.data) ∅
  tpuHitCollection : (s.run m.toInputs).tpuHitCollection =
    (s.log m.toInputs).foldl Insert.applyTPU ∅
  once : ∀ i, i < m.data.size / 4 →
    (segments (s.log m.toInputs)).countP (fun g => g.Holds i) = 1
  hits : ∀ before o rest, m.objs = before.reverse ++ o :: rest → o.isHit = true → ∀ b,
    (∃ g ∈ segments (s.log m.toInputs), g.bin = b ∧
        ∀ i, WellFormed.size before ≤ i → i < WellFormed.size before + o.words.length →
          g.Holds i) ↔
      ∃ h, Insert.tpuHit b (WellFormed.size before) h ∈ s.log m.toInputs

/-! ## The segments of one round -/

theorem segments_append (log log' : List Insert) :
    segments (log ++ log') = segments log ++ segments log' :=
  List.filterMap_append

theorem segments_openInserts (s : Scan) (n : Nat) : segments (s.openInserts n) = [] := by
  unfold Scan.openInserts
  split <;> rfl

/-- **What a round does to the segments**, on any data part: nothing, or what is pending becomes
    one and the current word starts the next. -/
theorem Logged.step_segments (inp : Inputs) (t : Logged) :
    (segments (t.step inp).log = segments t.log ∧
      (t.step inp).scan.startPos = t.scan.startPos ∧
      (t.step inp).scan.currentBin = t.scan.currentBin) ∨
    (segments (t.step inp).log =
        segments t.log ++ [⟨t.scan.currentBin, t.scan.startPos, t.scan.currentWord⟩] ∧
      (t.step inp).scan.startPos = t.scan.currentWord) := by
  obtain ⟨-, hs, hi⟩ | ⟨-, hs, hi⟩ := t.scan.step_cases inp
  · refine Or.inl ?_
    rw [Logged.step, hs, hi, segments_append]
    exact ⟨List.append_nil _, rfl, rfl⟩
  · obtain ⟨hcurrent, hstart, hword⟩ := t.scan.arrive_pending inp
    rw [Logged.step, hs, hi, Scan.fileInserts, segments_append, segments_append,
      segments_openInserts, List.nil_append, Scan.flushInserts, hcurrent, hstart, hword]
    simp only [Scan.fileObject_startPos, Scan.fileObject_currentBin, hcurrent, hstart, hword]
    by_cases hbin : (t.scan.arrive inp).bin = t.scan.currentBin
    · refine Or.inl ⟨?_, ?_, hbin⟩
      · rw [if_neg (not_not.mpr hbin)]
        exact List.append_nil _
      · exact if_neg (not_not.mpr hbin)
    · refine Or.inr ⟨?_, if_pos hbin⟩
      rw [if_pos hbin]
      rfl

/-! ## The invariant -/

/-- The object after `before` is appended to its bin, all of it by one segment. -/
def Obj.InSegment (m : WellFormed) (log : List Insert) (before : List Obj) (o : Obj) : Prop :=
  ∃ g ∈ segments log, g.bin.toNat = binOf m.currentCounter before o ∧
    g.start ≤ WellFormed.size before ∧ WellFormed.size before + o.words.length ≤ g.stop

/-- `past` has been read: the segments lie end to end up to `start_pos`, and every object of `past`
    is in a segment of its bin, or pending and of the current bin. -/
structure Filing (m : WellFormed) (past : List Obj) (t : Logged) : Prop where
  tiles : Tiles Segment.start Segment.stop 0 (segments t.log) t.scan.startPos
  objects : ∀ after o before, past = after ++ o :: before →
    o.InSegment m t.log before ∨
      t.scan.currentBin.toNat = binOf m.currentCounter before o ∧
        t.scan.startPos ≤ WellFormed.size before

theorem Filing.init (m : WellFormed) (s : Scan) : Filing m [] ⟨s.start m.toInputs, []⟩ where
  tiles := rfl
  objects after o before h := absurd h (by simp)

theorem size_le_of_split {past after before : List Obj} {o : Obj}
    (h : past = after ++ o :: before) :
    WellFormed.size before + o.words.length ≤ WellFormed.size past := by
  rw [h, WellFormed.size_append, WellFormed.size_cons]
  exact Nat.le_add_left _ _

theorem Obj.InSegment.append {m : WellFormed} {log log' : List Insert} {before : List Obj} {o : Obj}
    (h : o.InSegment m log before) : o.InSegment m (log ++ log') before := by
  obtain ⟨g, hg, hbin, hstart, hstop⟩ := h
  refine ⟨g, ?_, hbin, hstart, hstop⟩
  rw [segments_append]
  exact List.mem_append_left _ hg

/-- **The invariant is preserved by one object.** -/
theorem Filing.step {m : WellFormed} {s₀ : Scan} {past : List Obj} {o : Obj} {t : Logged}
    (h : Filing m past t) (hinv : Inv m s₀ past t.scan) (hr : Reads t.scan o) :
    Filing m (o :: past) (t.step m.toInputs) := by
  have hinv' : Inv m s₀ (o :: past) (t.step m.toInputs).scan := hinv.step hr
  have hnew : (t.step m.toInputs).scan.currentBin.toNat = binOf m.currentCounter past o := by
    rw [hinv'.currentBin, hinv'.bin]
    rfl
  obtain ⟨hseg, hstart, hcurrent⟩ | ⟨hseg, hstart⟩ := t.step_segments m.toInputs
  · refine ⟨?_, ?_⟩
    · rw [hseg, hstart]
      exact h.tiles
    · intro after x before hsplit
      rw [hstart]
      cases after with
      | nil =>
        obtain ⟨rfl, rfl⟩ := List.cons.inj hsplit
        exact Or.inr ⟨hnew, hinv.currentWord ▸ hinv.startPos⟩
      | cons y after =>
        rw [hcurrent]
        exact (h.objects after x before (List.cons.inj hsplit).2).imp Obj.InSegment.append id
  -- What was pending is a segment now, and only the new object waits.
  · refine ⟨?_, ?_⟩
    · rw [hseg, hstart]
      exact h.tiles.concat rfl hinv.startPos
    · intro after x before hsplit
      cases after with
      | nil =>
        obtain ⟨rfl, rfl⟩ := List.cons.inj hsplit
        exact Or.inr ⟨hnew, le_of_eq (hstart.trans hinv.currentWord)⟩
      | cons y after =>
        refine Or.inl ?_
        obtain hold | ⟨hbin, hpos⟩ := h.objects after x before (List.cons.inj hsplit).2
        · exact hold.append
        · refine ⟨⟨t.scan.currentBin, t.scan.startPos, t.scan.currentWord⟩, ?_, hbin, hpos, ?_⟩
          · rw [hseg]
            exact List.mem_append_right _ (List.mem_singleton.mpr rfl)
          · exact hinv.currentWord ▸ size_le_of_split (List.cons.inj hsplit).2

/-! ## The heads and the end of the scan -/

/-- The invariant holds at every head of the loop. -/
theorem headInv_rounds (m : WellFormed) (s : Scan) (n : Nat) :
    HeadInv m (Logged.rounds m.toInputs s n) := by
  obtain ⟨past, rest, hobjs, hinv, hrep, hfiling⟩ := heads_induct m s (Filing.init m s)
    (fun _ _ _ hinv hr _ h => h.step hinv hr) n
  exact {
    replays := hrep
    bin := hinv.currentBin.symm
    startPos := hinv.startPos
    currentWord := by
      rw [hinv.currentWord, m.size_data, hobjs, WellFormed.size_append, WellFormed.size_reverse]
      exact Nat.le_add_right _ _
    inOrder := hfiling.tiles.pairwise
    covered := fun i => hfiling.tiles.covers.trans ⟨And.right, fun hi => ⟨Nat.zero_le i, hi⟩⟩ }

theorem filing_loop (m : WellFormed) (s : Scan) :
    Inv m s m.objs.reverse (s.loop m.toInputs) ∧
      Filing m m.objs.reverse (Logged.loop m.toInputs s) :=
  loop_induct m s (Filing.init m s) (fun _ _ _ hinv hr _ h => h.step hinv hr)

theorem segments_log (inp : Inputs) (s : Scan) :
    segments (s.log inp) = segments (Logged.loop inp s).log ++
      [⟨(s.loop inp).currentBin, (s.loop inp).startPos, (s.loop inp).currentWord + 1⟩] := by
  rw [Scan.log, segments_append, Logged.scan_loop]
  rfl

/-- After the last append the segments reach one word past the end. -/
theorem tiles_log (m : WellFormed) (s : Scan) :
    Tiles Segment.start Segment.stop 0 (segments (s.log m.toInputs)) (m.data.size / 4 + 1) := by
  obtain ⟨hinv, hfiling⟩ := filing_loop m s
  have htiles := hfiling.tiles
  rw [Logged.scan_loop] at htiles
  rw [segments_log, ← hinv.currentWord_end]
  exact htiles.concat rfl (Nat.le_succ_of_le hinv.startPos)

/-- Every object is appended to its bin. -/
theorem inSegment_log {m : WellFormed} {before rest : List Obj} {o : Obj} (s : Scan)
    (hobjs : m.objs = before.reverse ++ o :: rest) :
    o.InSegment m (s.log m.toInputs) before := by
  obtain ⟨hinv, hfiling⟩ := filing_loop m s
  have hsplit : m.objs.reverse = rest.reverse ++ o :: before := by simp [hobjs]
  obtain hold | ⟨hbin, hpos⟩ := hfiling.objects _ _ _ hsplit
  · exact hold.append
  · rw [Logged.scan_loop] at hbin hpos
    refine ⟨⟨(s.loop m.toInputs).currentBin, (s.loop m.toInputs).startPos,
      (s.loop m.toInputs).currentWord + 1⟩, ?_, hbin, hpos, ?_⟩
    · rw [segments_log]
      exact List.mem_append_right _ (List.mem_singleton.mpr rfl)
    · exact Nat.le_succ_of_le (hinv.currentWord ▸ size_le_of_split hsplit)

/-- **The raw and the reduced path file a hit in the same bin**: at every loop head the two bins
    are one and the segments lie end to end, and after the last append every word has been appended
    once, that of a hit to the bin its reduced hit was appended to. -/
theorem headInv_and_filed (m : WellFormed) (s : Scan) :
    (∀ n, HeadInv m (Logged.rounds m.toInputs s n)) ∧ Filed m s := by
  refine ⟨headInv_rounds m s, s.run_collections m.toInputs, s.run_tpuHitCollection m.toInputs,
    ?_, ?_⟩
  · intro i hi
    exact (tiles_log m s).countP_eq_one (Nat.zero_le i) (Nat.lt_succ_of_lt hi)
  · intro before o rest hobjs ho b
    obtain ⟨g, hg, hbin, hstart, hstop⟩ := inSegment_log s hobjs
    rw [binOf_of_isHit m.currentCounter before ho] at hbin
    have hlen : 0 < o.words.length := List.length_pos_of_ne_nil (List.cons_ne_nil _ _)
    constructor
    · rintro ⟨g', hg', rfl, hholds⟩
      -- The first word of the hit is in `g` and in `g'`, and nothing is appended twice.
      obtain rfl : g' = g := (tiles_log m s).unique hg' hg
        (hholds _ (le_refl _) (Nat.lt_add_of_pos_right hlen))
        ⟨hstart, Nat.lt_of_lt_of_le (Nat.lt_add_of_pos_right hlen) hstop⟩
      obtain ⟨b, h, hi⟩ := exists_tpuHit_mem s hobjs ho
      have hsame : b = g'.bin :=
        BitVec.eq_of_toNat_eq ((toNat_bin_of_tpuHit hobjs hi).trans hbin.symm)
      exact ⟨h, hsame ▸ hi⟩
    · rintro ⟨h, hi⟩
      refine ⟨g, hg, BitVec.eq_of_toNat_eq (hbin.trans (toNat_bin_of_tpuHit hobjs hi).symm), ?_⟩
      intro i hle hlt
      exact ⟨hstart.trans hle, Nat.lt_of_lt_of_le hlt hstop⟩

end HkRbu
