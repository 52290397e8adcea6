import HkRbu.Decode.Run

/-!
# Where the words of a message go

The raw copy is lazy: the words `[start_pos, current_word)` are appended to the entry of
`current_bin` only when an object of another bin arrives, or after the loop. The invariant is
that the segments already appended to a bin, followed by the pending ones if the bin is the
current one, are the words of the objects assigned to it (`SegmentInv`).

The last append breaks it. `current_word` is incremented before the segment is copied, so the
segment ends one word after the end of the part, and the bin of the last object is given a word
that is not in the message (`storedWords_eq`).
-/

namespace HkRbu

/-- What the headers put into the entry of `b`. -/
def heldHeaders (b : U64) (log : List Insert) : List U32 := log.flatMap (Insert.headerAt b)

/-- What the segments put into the entry of `b`. -/
def heldSegments (words : Buffer) (b : U64) (log : List Insert) : List U32 :=
  log.flatMap (Insert.segmentAt words b)

theorem heldHeaders_append (b : U64) (l l' : List Insert) :
    heldHeaders b (l ++ l') = heldHeaders b l ++ heldHeaders b l' :=
  List.flatMap_append

theorem heldSegments_append (words : Buffer) (b : U64) (l l' : List Insert) :
    heldSegments words b (l ++ l') = heldSegments words b l ++ heldSegments words b l' :=
  List.flatMap_append

theorem held_of_notMem {words : Buffer} {b : U64} {log : List Insert}
    (h : b ∉ log.foldl (Insert.applyRaw words) ∅) :
    heldHeaders b log = [] ∧ heldSegments words b log = [] := by
  have hno : ∀ i ∈ log, ¬ Insert.touchesRaw b i := fun i hi ht =>
    h ((Insert.mem_foldl_applyRaw words log ∅ b).mpr (Or.inr ⟨i, hi, ht⟩))
  constructor
  · refine List.flatMap_eq_nil_iff.mpr ?_
    intro i hi
    cases i with
    | header b' ws => exact if_neg (hno _ hi)
    | segment | tpuHit => rfl
  · refine List.flatMap_eq_nil_iff.mpr ?_
    intro i hi
    cases i with
    | segment b' start stop => exact if_neg (hno _ hi)
    | header | tpuHit => rfl

theorem get_applyRaw (words : Buffer) (c : IndexMap U64 (List U32)) (i : Insert) (b : U64) :
    IndexMap.get (i.applyRaw words c) b =
      IndexMap.get c b ++ (i.headerAt b ++ i.segmentAt words b) := by
  cases i with
  | header b' | segment b' =>
    simp only [Insert.applyRaw, Insert.headerAt, Insert.segmentAt, IndexMap.get_update,
      eq_comm (a := b)]
    split <;> simp
  | tpuHit => simp [Insert.applyRaw, Insert.headerAt, Insert.segmentAt]

/-! ## Headers come first -/

/-- In every entry the header words precede the message words. -/
def HeadersFirst (words : Buffer) (log : List Insert) : Prop :=
  ∀ b, IndexMap.get (log.foldl (Insert.applyRaw words) ∅) b =
    heldHeaders b log ++ heldSegments words b log

theorem HeadersFirst.snoc {words : Buffer} {log : List Insert} (h : HeadersFirst words log)
    {i : Insert}
    (hi : ∀ b ws, i = .header b ws → b ∉ log.foldl (Insert.applyRaw words) ∅) :
    HeadersFirst words (log ++ [i]) := by
  intro b
  rw [List.foldl_append, List.foldl_cons, List.foldl_nil, get_applyRaw, h b, heldHeaders_append,
    heldSegments_append, heldHeaders, heldHeaders, heldSegments, heldSegments,
    List.flatMap_singleton, List.flatMap_singleton]
  cases i with
  | header b' ws =>
    by_cases hb : b' = b
    · obtain ⟨hh, hs⟩ := held_of_notMem (hb ▸ hi b' ws rfl)
      rw [heldHeaders] at hh
      rw [heldSegments] at hs
      simp [hh, hs]
    · simp [Insert.headerAt, Insert.segmentAt, hb]
  | segment | tpuHit => simp [Insert.headerAt]

/-- A round keeps the header of every entry in front of its segments. -/
theorem HeadersFirst.step {inp : Inputs} {t : Logged} (h : HeadersFirst inp.data t.log)
    (hrep : t.Replays inp) : HeadersFirst inp.data (t.step inp).log := by
  obtain ⟨_, _, hi⟩ | ⟨_, _, hi⟩ := t.scan.step_cases inp
  · rw [Logged.step, hi]
    refine h.snoc ?_
    intro b ws he
    exact absurd he (by simp)
  · have hopened : HeadersFirst inp.data
        (t.log ++ (t.scan.arrive inp).openInserts t.scan.kind.headerLen) := by
      unfold Scan.openInserts
      split
      · rename_i hnew
        rw [Scan.arrive_collections, hrep.collections] at hnew
        refine h.snoc ?_
        intro b ws he
        obtain ⟨rfl, _⟩ := Insert.header.inj he
        exact hnew
      · rwa [List.append_nil]
    rw [Logged.step, hi, Scan.fileInserts, ← List.append_assoc, Scan.flushInserts]
    split
    · refine hopened.snoc ?_
      intro b ws he
      exact absurd he (by simp)
    · rwa [List.append_nil]

/-- **Every entry is its header words followed by its message words.** -/
theorem headersFirst_log (inp : Inputs) (s : Scan) : HeadersFirst inp.data (s.log inp) := by
  have hloop := Logged.loop_invariant (s := s)
    (P := fun t => HeadersFirst inp.data t.log) (fun _ => rfl) (fun _ hrep h => h.step hrep)
  refine hloop.snoc ?_
  intro b ws he
  exact absurd he (by simp)

/-- An entry is its headers and then its segments. -/
theorem get_run_collections (inp : Inputs) (s : Scan) (b : U64) :
    IndexMap.get (s.run inp).collections b =
      heldHeaders b (s.log inp) ++ heldSegments inp.data b (s.log inp) := by
  rw [Scan.run_collections]
  exact headersFirst_log inp s b

/-! ## Segments -/

/-- **The scan invariant of the raw copy**: the words appended to a bin, and for the current bin
    the pending words `[start, stop)`, are the words of the objects assigned to it. -/
def SegmentInv (m : WellFormed) (past : List Obj) (current : U64) (start stop : Nat)
    (log : List Insert) : Prop :=
  ∀ b, heldSegments m.data b log ++
      (if b = current then m.data.slice start (stop - start) else []) =
    assigned m.currentCounter b past

theorem SegmentInv.append {m : WellFormed} {past : List Obj} {current : U64} {start stop : Nat}
    {log l : List Insert} (h : SegmentInv m past current start stop log)
    (hl : ∀ b, heldSegments m.data b l = []) : SegmentInv m past current start stop (log ++ l) := by
  intro b
  rw [heldSegments_append, hl, List.append_nil]
  exact h b

theorem SegmentInv.flush {m : WellFormed} {past : List Obj} {current : U64} {start stop : Nat}
    {log : List Insert} (h : SegmentInv m past current start stop log) (bin : U64) :
    SegmentInv m past bin stop stop (log ++ [.segment current start stop]) := by
  intro b
  have hseg : heldSegments m.data b [.segment current start stop] =
      if b = current then m.data.slice start (stop - start) else [] := by
    simp [heldSegments, Insert.segmentAt, eq_comm (a := b)]
  rw [heldSegments_append, hseg, h b, Nat.sub_self, Buffer.slice_zero]
  simp

theorem SegmentInv.advance {m : WellFormed} {past : List Obj} {current : U64} {start stop : Nat}
    {log : List Insert} (h : SegmentInv m past current start stop log) (hle : start ≤ stop)
    {o : Obj} (ho : m.data.slice stop o.words.length = o.words)
    (hbin : current.toNat = binOf m.currentCounter past o) :
    SegmentInv m (o :: past) current start (stop + o.words.length) log := by
  intro b
  have heq : binOf m.currentCounter past o = b.toNat ↔ b = current := by
    rw [← hbin, BitVec.toNat_inj]
    exact eq_comm
  rw [assigned, ← h b, List.append_assoc]
  by_cases hb : b = current
  · rw [if_pos hb, if_pos hb, if_pos (heq.mpr hb), Buffer.slice_extend _ hle, ho]
  · rw [if_neg hb, if_neg hb, if_neg (fun he => hb (heq.mp he)), List.append_nil,
      List.append_nil, List.append_nil]

theorem SegmentInv.fileInserts {m : WellFormed} {past : List Obj} {s : Scan} {log : List Insert}
    (h : SegmentInv m past s.currentBin s.startPos s.currentWord log) (n : Nat) :
    SegmentInv m past s.bin (if s.bin ≠ s.currentBin then s.currentWord else s.startPos)
      s.currentWord (log ++ s.fileInserts n) := by
  have hhead := h.append (l := s.openInserts n) fun b => by unfold Scan.openInserts; split <;> rfl
  rw [Scan.fileInserts, ← List.append_assoc, Scan.flushInserts]
  by_cases hne : s.bin = s.currentBin
  · rw [if_neg (not_not.mpr hne), if_neg (not_not.mpr hne), List.append_nil]
    exact hne ▸ hhead
  · rw [if_pos hne, if_pos hne]
    exact hhead.flush _

/-- One object preserves the invariant: a non-hit object may flush first, then both kinds
    advance in the current bin. -/
theorem segmentInv_step {m : WellFormed} {s₀ : Scan} {past : List Obj} {o : Obj} {t : Logged}
    (hinv : Inv m s₀ past t.scan) (hr : Reads t.scan o)
    (h : SegmentInv m past t.scan.currentBin t.scan.startPos t.scan.currentWord t.log) :
    SegmentInv m (o :: past) (t.step m.toInputs).scan.currentBin (t.step m.toInputs).scan.startPos
      (t.step m.toInputs).scan.currentWord (t.step m.toInputs).log := by
  have hnext := hinv.step hr
  have ho : m.data.slice t.scan.currentWord o.words.length = o.words := by
    rw [← hinv.words]
    exact hr
  have hstop : (t.step m.toInputs).scan.currentWord = t.scan.currentWord + o.words.length :=
    hnext.currentWord.trans (by rw [WellFormed.size_cons, ← hinv.currentWord])
  have hcur : (t.step m.toInputs).scan.currentBin.toNat = binOf m.currentCounter past o :=
    (congrArg _ hnext.currentBin).trans hnext.bin
  -- Up to the position of the object, the pending words are those of the bin it is filed under.
  have hfiled : SegmentInv m past (t.step m.toInputs).scan.currentBin
        (t.step m.toInputs).scan.startPos t.scan.currentWord (t.step m.toInputs).log ∧
      (t.step m.toInputs).scan.startPos ≤ t.scan.currentWord := by
    obtain ⟨_, hs, hi⟩ | ⟨_, hs, hi⟩ := t.scan.step_cases m.toInputs
    · rw [Logged.step, hs, hi]
      exact ⟨h.append fun _ => rfl, hinv.startPos⟩
    · obtain ⟨hcb, hsp, hcw⟩ := t.scan.arrive_pending m.toInputs
      have hle : (t.scan.arrive m.toInputs).startPos ≤ (t.scan.arrive m.toInputs).currentWord := by
        rw [hsp, hcw]
        exact hinv.startPos
      rw [← hcb, ← hsp, ← hcw] at h
      rw [Logged.step, hs, hi, Scan.fileObject_currentBin, Scan.fileObject_startPos, ← hcw]
      refine ⟨h.fileInserts _, ?_⟩
      split
      · exact Nat.le_refl _
      · exact hle
  rw [hstop]
  exact hfiled.1.advance hfiled.2 ho hcur

/-! ## What is stored -/

/-- What the entry of bin `b` holds when the scan is over, without the injected header words. -/
def storedWords (inp : Inputs) (s : Scan) (b : U64) : List U32 :=
  (IndexMap.get (s.run inp).collections b).drop (heldHeaders b (s.log inp)).length

/-- Every bin is given the words of the objects assigned to it, in order, and nothing else. -/
def RawConserved (m : WellFormed) (s : Scan) : Prop :=
  ∀ b, storedWords m.toInputs s b = assigned m.currentCounter b m.objs.reverse

theorem storedWords_eq_heldSegments (inp : Inputs) (s : Scan) (b : U64) :
    storedWords inp s b = heldSegments inp.data b (s.log inp) := by
  rw [storedWords, get_run_collections, List.drop_left]

/-- **What is stored, exactly**: every word of the message once and in order, and in the bin of
    the last object one word more, read past the end of the part. -/
theorem storedWords_eq (m : WellFormed) (s : Scan) (b : U64) :
    storedWords m.toInputs s b = assigned m.currentCounter b m.objs.reverse ++
      if b.toNat = lastBin m.currentCounter m.objs.reverse then [m.data.wordAt (m.data.size / 4)]
      else [] := by
  obtain ⟨hinv, hseg⟩ := loop_induct m s
    (P := fun past t =>
      SegmentInv m past t.scan.currentBin t.scan.startPos t.scan.currentWord t.log)
    (by
      intro b
      show [] ++ (if b = 0 then m.data.slice 0 (0 - 0) else []) = []
      split <;> rfl)
    (fun past o t hinv hr _ h => segmentInv_step hinv hr h)
  rw [Logged.scan_loop] at hseg
  have hlast : b.toNat = lastBin m.currentCounter m.objs.reverse ↔
      b = (s.loop m.toInputs).currentBin := by
    rw [← hinv.bin, ← hinv.currentBin, BitVec.toNat_inj]
  rw [storedWords_eq_heldSegments, Scan.log, Logged.scan_loop, heldSegments_append, ← hseg b,
    List.append_assoc]
  congr 1
  rw [heldSegments, List.flatMap_singleton, Insert.segmentAt]
  by_cases hb : b = (s.loop m.toInputs).currentBin
  · -- The last segment is the pending words and the word at the end of the part.
    rw [if_pos hb.symm, if_pos hb, if_pos (hlast.mpr hb), Buffer.slice_extend _ hinv.startPos,
      Buffer.slice_one, hinv.currentWord_end]
  · rw [if_neg (Ne.symm hb), if_neg hb, if_neg (fun h => hb (hlast.mp h)), List.append_nil]

/-- **No message is conserved.** -/
theorem not_rawConserved (m : WellFormed) (s : Scan) : ¬ RawConserved m s := by
  intro h
  obtain ⟨b, hb⟩ := exists_toNat_eq_lastBin m.currentCounter m.objs.reverse
  have hmore := (storedWords_eq m s b).symm.trans (h b)
  rw [if_pos hb] at hmore
  exact absurd (List.append_right_eq_self.mp hmore) (List.cons_ne_nil _ _)

/-- A message of one sync, the shortest that the decoder stores a word too many of. -/
def oneSync : WellFormed := .sample [.syncAt 0#32]

theorem not_rawConserved_oneSync : ¬ RawConserved oneSync Scan.new := by
  intro h
  have hbin : storedWords oneSync.toInputs Scan.new 0 = [0x80000000#32, 0#32, 0xABABABAB#32] := by
    decide
  exact absurd (hbin.symm.trans (h 0)) (by decide)

end HkRbu
