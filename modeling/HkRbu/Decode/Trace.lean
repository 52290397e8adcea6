import HkRbu.Decode.Object

/-!
# What the scan inserts

The scan builds `collections` and `tpu_hit_collection` by appending to their entries. An
`Insert` names one such append; a run of the scan is accompanied by the list of its inserts,
and the two maps at the end are that list replayed (`run_collections`, `run_tpuHitCollection`).
Statements about *which* words went where are statements about this list.
-/

namespace HkRbu

/-- One append to an entry of the job's collections. -/
inductive Insert where
  /-- Header words, into `collections[bin]`. -/
  | header (bin : U64) (ws : List U32)
  /-- The message words with indices in `[start, stop)`, into `collections[bin]`. -/
  | segment (bin : U64) (start stop : Nat)
  /-- The reduced hit of the hit at word `pos`, into `tpu_hit_collection[bin]`. -/
  | tpuHit (bin : U64) (pos : Nat) (hit : TPUHit)

namespace Insert

/-- What an insertion does to `collections`. -/
def applyRaw (words : Buffer) (c : IndexMap U64 (List U32)) : Insert → IndexMap U64 (List U32)
  | header b ws => IndexMap.update c b (· ++ ws)
  | segment b start stop => IndexMap.update c b (· ++ words.slice start (stop - start))
  | tpuHit .. => c

/-- What an insertion does to `tpu_hit_collection`. -/
def applyTPU (c : IndexMap U64 (List TPUHit)) : Insert → IndexMap U64 (List TPUHit)
  | tpuHit b _ hit => IndexMap.update c b (· ++ [hit])
  | header .. | segment .. => c

/-- The words that a header puts into the entry of `b`. -/
def headerAt (b : U64) : Insert → List U32
  | header b' ws => if b' = b then ws else []
  | segment .. | tpuHit .. => []

/-- The words that a segment puts into the entry of `b`. -/
def segmentAt (words : Buffer) (b : U64) : Insert → List U32
  | segment b' start stop => if b' = b then words.slice start (stop - start) else []
  | header .. | tpuHit .. => []

/-- The reduced hits that are put into the entry of `b`. -/
def tpuAt (b : U64) : Insert → List TPUHit
  | tpuHit b' _ hit => if b' = b then [hit] else []
  | header .. | segment .. => []

/-- The insertion makes an entry for `b` in `collections` if there is none. -/
def touchesRaw (b : U64) : Insert → Prop
  | header b' _ | segment b' _ _ => b' = b
  | tpuHit .. => False

theorem mem_foldl_applyRaw (words : Buffer) (log : List Insert) (c : IndexMap U64 (List U32))
    (b : U64) :
    b ∈ log.foldl (applyRaw words) c ↔ b ∈ c ∨ ∃ i ∈ log, touchesRaw b i := by
  induction log generalizing c with
  | nil => simp
  | cons i log ih =>
    rw [List.foldl_cons, ih]
    cases i with
    | header b' | segment b' =>
      simp only [applyRaw, IndexMap.mem_update, List.mem_cons, exists_eq_or_imp, touchesRaw,
        eq_comm (a := b)]
      tauto
    | tpuHit => simp [applyRaw, touchesRaw]

theorem get_foldl_applyTPU (log : List Insert) (c : IndexMap U64 (List TPUHit)) (b : U64) :
    IndexMap.get (log.foldl applyTPU c) b = IndexMap.get c b ++ log.flatMap (tpuAt b) := by
  induction log generalizing c with
  | nil => simp
  | cons i log ih =>
    rw [List.foldl_cons, ih, List.flatMap_cons, ← List.append_assoc]
    cases i with
    | tpuHit b' =>
      simp only [applyTPU, tpuAt, IndexMap.get_update, eq_comm (a := b)]
      split <;> simp
    | header | segment => simp [applyTPU, tpuAt]

theorem mem_foldl_applyTPU (log : List Insert) (c : IndexMap U64 (List TPUHit)) (b : U64) :
    b ∈ log.foldl applyTPU c ↔ b ∈ c ∨ ∃ pos h, tpuHit b pos h ∈ log := by
  induction log generalizing c with
  | nil => simp
  | cons i log ih =>
    rw [List.foldl_cons, ih]
    cases i with
    | header | segment => simp [applyTPU]
    | tpuHit b' pos' h' =>
      simp only [applyTPU, IndexMap.mem_update, List.mem_cons, tpuHit.injEq, exists_or]
      rw [or_assoc, or_left_comm]
      simp

end Insert

namespace Scan

/-! ## The inserts of one round -/

/-- What `openBin` inserts. -/
def openInserts (s : Scan) (n : Nat) : List Insert :=
  if s.bin ∉ s.collections then [.header s.bin (s.stampHeader.headerWords n)] else []

/-- What `flush` inserts. -/
def flushInserts (s : Scan) : List Insert :=
  if s.bin ≠ s.currentBin then [.segment s.currentBin s.startPos s.currentWord] else []

/-- What filing an object inserts: the header of its bin comes before the segment of the old one. -/
def fileInserts (s : Scan) (n : Nat) : List Insert := s.openInserts n ++ s.flushInserts

/-- What a round of the loop inserts. -/
def inserts (inp : Inputs) (s : Scan) : List Insert :=
  match s.kind with
  | .hit => [.tpuHit s.bin s.currentWord (s.reducedHit inp)]
  | .ped => (s.pedBin inp).fileInserts 3
  | .sync => (s.syncBin inp).fileInserts 2
  | .error => (s.errorBin inp).fileInserts 3
  | .special => (s.specialBin inp).fileInserts 3

theorem openBin_eq (s : Scan) (n : Nat) :
    s.openBin n =
      { s with
        collections := (s.openInserts n).foldl (Insert.applyRaw s.words) s.collections
        header := if s.bin ∉ s.collections then s.stampHeader.header else s.header } := by
  by_cases hopen : s.bin ∈ s.collections
  · simp [openBin, openInserts, hopen]
  · simp [openBin, openInserts, insertHeader, stampHeader, Insert.applyRaw, hopen]

theorem flush_eq (s : Scan) :
    s.flush =
      { s with
        collections := s.flushInserts.foldl (Insert.applyRaw s.words) s.collections
        currentBin := s.bin
        startPos := if s.bin ≠ s.currentBin then s.currentWord else s.startPos } := by
  by_cases hbin : s.bin = s.currentBin
  · have hsame := not_not.mpr hbin
    rw [flush, flushInserts, if_neg hsame, if_neg hsame, if_neg hsame]
    exact congrArg (fun b : U64 => { s with currentBin := b }) hbin.symm
  · simp [flush, flushInserts, insertSegment, Insert.applyRaw, hbin]

/-- Everything `fileObject` does, field by field. -/
theorem fileObject_eq (s : Scan) (n words : Nat) :
    s.fileObject n words =
      { s with
        collections := (s.fileInserts n).foldl (Insert.applyRaw s.words) s.collections
        header := if s.bin ∉ s.collections then s.stampHeader.header else s.header
        currentBin := s.bin
        startPos := if s.bin ≠ s.currentBin then s.currentWord else s.startPos
        currentWord := s.currentWord + words } := by
  rw [fileObject, openBin_eq, flush_eq, fileInserts, List.foldl_append]
  rfl

theorem fileObject_collections (s : Scan) (n words : Nat) :
    (s.fileObject n words).collections =
      (s.fileInserts n).foldl (Insert.applyRaw s.words) s.collections := by
  rw [fileObject_eq]

@[simp] theorem fileObject_currentBin (s : Scan) (n words : Nat) :
    (s.fileObject n words).currentBin = s.bin := by
  rw [fileObject_eq]

@[simp] theorem fileObject_startPos (s : Scan) (n words : Nat) :
    (s.fileObject n words).startPos =
      if s.bin ≠ s.currentBin then s.currentWord else s.startPos := by
  rw [fileObject_eq]

/-! ## What one round can do

Either a hit is decoded, or a non-hit object sets the bin (a sync the time as well) and is filed
under it. -/

/-- The state in which a non-hit branch files its object: bin and time of the object are set. -/
def arrive (inp : Inputs) (s : Scan) : Scan :=
  match s.kind with
  | .hit => s
  | .ped => s.pedBin inp
  | .sync => s.syncBin inp
  | .error => s.errorBin inp
  | .special => s.specialBin inp

/-- How many words of the header the branch inserts for a bin that is new. -/
def Kind.headerLen : Kind → Nat
  | .hit => 0
  | .sync => 2
  | .ped | .error | .special => 3

theorem arrive_eq (inp : Inputs) (s : Scan) :
    s.arrive inp = { s with
      bin := (s.arrive inp).bin
      currentTime := (s.arrive inp).currentTime
      badSync := (s.arrive inp).badSync } := by
  unfold arrive
  cases s.kind <;> rfl

theorem arrive_pending (inp : Inputs) (s : Scan) :
    (s.arrive inp).currentBin = s.currentBin ∧ (s.arrive inp).startPos = s.startPos ∧
      (s.arrive inp).currentWord = s.currentWord := by
  rw [arrive_eq]
  exact ⟨rfl, rfl, rfl⟩

theorem arrive_collections (inp : Inputs) (s : Scan) :
    (s.arrive inp).collections = s.collections := by
  rw [arrive_eq]

theorem arrive_header (inp : Inputs) (s : Scan) : (s.arrive inp).header = s.header := by
  rw [arrive_eq]

/-- All a round can do: it files a hit, or it sets the bin and files another object. -/
theorem step_cases (inp : Inputs) (s : Scan) :
    (s.kind = .hit ∧ s.step inp = s.hitBranch inp ∧
      s.inserts inp = [.tpuHit s.bin s.currentWord (s.reducedHit inp)]) ∨
    (s.kind ≠ .hit ∧ s.step inp = (s.arrive inp).fileObject s.kind.headerLen 2 ∧
      s.inserts inp = (s.arrive inp).fileInserts s.kind.headerLen) := by
  unfold step inserts arrive
  cases s.kind with
  | hit => exact Or.inl ⟨rfl, rfl, rfl⟩
  | ped | sync | error | special => exact Or.inr ⟨by simp, rfl, rfl⟩

theorem more_iff {inp : Inputs} {s : Scan} :
    more inp s = true ↔ s.currentWord < inp.data.size / 4 :=
  decide_eq_true_iff

theorem not_more_iff {inp : Inputs} {s : Scan} :
    more inp s = false ↔ inp.data.size / 4 ≤ s.currentWord :=
  decide_eq_false_iff_not.trans Nat.not_lt

theorem at_of_words {s : Scan} {b : Buffer} (h : s.words = b) :
    s.at_ 0 = b.wordAt s.currentWord ∧ s.at_ 1 = b.wordAt (s.currentWord + 1) := by
  rw [at_, at_, h]
  exact ⟨rfl, rfl⟩

/-- Every round gets on, so that the loop ends. -/
theorem currentWord_lt_step (inp : Inputs) (s : Scan) :
    s.currentWord < (s.step inp).currentWord := by
  obtain ⟨_, hs, _⟩ | ⟨_, hs, _⟩ := s.step_cases inp
  · have hwords : 2 ≤ s.hitAt.getWords := Nat.le_add_right 2 _
    rw [hs, hitBranch]
    exact Nat.lt_add_of_pos_right (Nat.lt_of_lt_of_le Nat.two_pos hwords)
  · rw [hs, fileObject_eq, (s.arrive_pending inp).2.2]
    exact Nat.lt_add_of_pos_right Nat.two_pos

/-- **The loop ends by its own condition**, whatever the data part is. -/
theorem loop_exit (inp : Inputs) (s : Scan) : more inp (s.loop inp) = false := by
  refine Loop.run_exit (fun s => inp.data.size / 4 - s.currentWord) ?_ (Nat.sub_le _ _)
  intro s hmore
  have hlt := more_iff.mp hmore
  have hstep := s.currentWord_lt_step inp
  omega

/-- A round changes the two maps by what it logs. -/
theorem step_replay (inp : Inputs) (s : Scan) :
    (s.step inp).words = s.words ∧
      (s.step inp).collections = (s.inserts inp).foldl (Insert.applyRaw s.words) s.collections ∧
      (s.step inp).tpuHitCollection = (s.inserts inp).foldl Insert.applyTPU s.tpuHitCollection := by
  obtain ⟨_, hs, hi⟩ | ⟨_, hs, hi⟩ := s.step_cases inp
  · rw [hs, hi]
    exact ⟨rfl, rfl, rfl⟩
  · rw [hs, hi, arrive_eq, fileObject_eq]
    refine ⟨rfl, rfl, ?_⟩
    rw [fileInserts, openInserts, flushInserts]
    split <;> split <;> rfl

end Scan

/-! ## The run with its inserts -/

/-- The loop together with the insertions it has made. -/
structure Logged where
  scan : Scan
  log : List Insert

namespace Logged

/-- One round, with what it inserts. -/
def step (inp : Inputs) (t : Logged) : Logged := ⟨t.scan.step inp, t.log ++ t.scan.inserts inp⟩

/-- The whole loop, from an empty log. -/
def loop (inp : Inputs) (s : Scan) : Logged :=
  Loop.run (fun t => Scan.more inp t.scan) (step inp) (inp.data.size / 4) ⟨s.start inp, []⟩

/-- The loop cut off after `n` rounds: over all `n` these are its heads. -/
def rounds (inp : Inputs) (s : Scan) (n : Nat) : Logged :=
  Loop.run (fun t => Scan.more inp t.scan) (step inp) n ⟨s.start inp, []⟩

theorem scan_rounds (inp : Inputs) (s : Scan) (n : Nat) :
    (rounds inp s n).scan = Loop.run (Scan.more inp) (Scan.step inp) n (s.start inp) :=
  Loop.map_run Logged.scan (fun _ => rfl) n _

theorem scan_loop (inp : Inputs) (s : Scan) : (loop inp s).scan = s.loop inp :=
  scan_rounds inp s _

/-- The maps are the log, replayed. -/
structure Replays (inp : Inputs) (t : Logged) : Prop where
  words : t.scan.words = inp.data
  collections : t.scan.collections = t.log.foldl (Insert.applyRaw inp.data) ∅
  tpuHitCollection : t.scan.tpuHitCollection = t.log.foldl Insert.applyTPU ∅

theorem Replays.init (inp : Inputs) (s : Scan) : Replays inp ⟨s.start inp, []⟩ := ⟨rfl, rfl, rfl⟩

theorem Replays.step {inp : Inputs} {t : Logged} (h : Replays inp t) :
    Replays inp (t.step inp) := by
  obtain ⟨hw, hc, ht⟩ := t.scan.step_replay inp
  refine ⟨hw.trans h.words, ?_, ?_⟩
  · rw [Logged.step, hc, h.words, h.collections, List.foldl_append]
  · rw [Logged.step, ht, h.tpuHitCollection, List.foldl_append]

theorem loop_replays (inp : Inputs) (s : Scan) : Replays inp (loop inp s) :=
  Loop.run_invariant (fun _ h _ => h.step) (Replays.init inp s) _

/-- What a round preserves holds after the loop, whatever the data part is. -/
theorem loop_invariant {inp : Inputs} {s : Scan} {P : Logged → Prop}
    (init : P ⟨s.start inp, []⟩) (step : ∀ t, Replays inp t → P t → P (t.step inp)) :
    P (loop inp s) := by
  have h : Replays inp (loop inp s) ∧ P (loop inp s) :=
    Loop.run_invariant (P := fun t => Replays inp t ∧ P t)
      (fun t h _ => ⟨h.1.step, step t h.1 h.2⟩) ⟨Replays.init inp s, init⟩ _
  exact h.2

end Logged

namespace Scan

/-- The insertions of the whole function: those of the loop, and the last segment, which is a word
    too long. -/
def log (inp : Inputs) (s : Scan) : List Insert :=
  let t := Logged.loop inp s
  t.log ++ [.segment t.scan.currentBin t.scan.startPos (t.scan.currentWord + 1)]

/-- `collections` is what the logged insertions make of an empty map. -/
theorem run_collections (inp : Inputs) (s : Scan) :
    (s.run inp).collections = (s.log inp).foldl (Insert.applyRaw inp.data) ∅ := by
  have h := Logged.loop_replays inp s
  rw [run, ← Logged.scan_loop, finish, insertSegment, log, List.foldl_append, ← h.collections,
    ← h.words]
  rfl

/-- `tpu_hit_collection` is what the logged insertions make of an empty map. -/
theorem run_tpuHitCollection (inp : Inputs) (s : Scan) :
    (s.run inp).tpuHitCollection = (s.log inp).foldl Insert.applyTPU ∅ := by
  rw [run, ← Logged.scan_loop, finish, insertSegment, log, List.foldl_append,
    ← (Logged.loop_replays inp s).tpuHitCollection]
  rfl

theorem get_run_tpuHitCollection (inp : Inputs) (s : Scan) (b : U64) :
    IndexMap.get (s.run inp).tpuHitCollection b = (s.log inp).flatMap (Insert.tpuAt b) := by
  rw [run_tpuHitCollection, Insert.get_foldl_applyTPU, IndexMap.get_empty]
  rfl

end Scan
end HkRbu
