import HkRbu.Decode.Trace

/-!
# The scan of a well-formed message

Over a well-formed data part the loop takes one round per object, and at every loop head its
variables say what the reference says of the objects read so far (`Inv`). `loop_induct` is the
induction rule everything else is proved with: a property of the objects read and the inserts
made, preserved by one object, holds of the whole message.
-/

namespace HkRbu

/-- The branch of the loop an object is decoded in. -/
def Obj.kind : Obj → Scan.Kind
  | .hit .. => .hit
  | .ped .. => .ped
  | .sync .. => .sync
  | .error .. => .error
  | .special .. => .special

/-- The words of `o` are what lies at the current word. -/
def Reads (s : Scan) (o : Obj) : Prop := s.words.slice s.currentWord o.words.length = o.words

theorem Reads.at_ {s : Scan} {o : Obj} (h : Reads s o) : s.at_ 0 = o.word₀ ∧ s.at_ 1 = o.word₁ := by
  rw [Reads, Obj.length_words, ← Buffer.slice_append, Obj.words] at h
  exact ⟨(List.cons.inj h).1, (List.cons.inj (List.cons.inj h).2).1⟩

/-- The decoder takes the words of an object for what it is. -/
theorem kind_of_reads {s : Scan} {o : Obj} (h : Reads s o) : s.kind = o.kind := by
  obtain ⟨h0, h1⟩ := h.at_
  unfold Scan.kind
  cases o with
  | hit w₀ w₁ subs type notPed =>
    rw [h0, h1]
    simp [Obj.word₀, Obj.word₁, Obj.kind, type, notPed]
  | ped w₀ w₁ type isPed =>
    rw [h0, h1]
    simp [Obj.word₀, Obj.word₁, Obj.kind, type, isPed]
  | sync w₀ w₁ type | error w₀ w₁ type | special w₀ w₁ type =>
    rw [h0]
    simp [Obj.word₀, Obj.kind, type]

theorem isHit_of_kind_eq_hit {o : Obj} (h : o.kind = .hit) : o.isHit = true := by
  cases o with
  | hit => rfl
  | ped | sync | error | special => exact absurd h (by simp [Obj.kind])

theorem isHit_of_kind_ne_hit {o : Obj} (h : o.kind ≠ .hit) : o.isHit = false := by
  cases o with
  | hit => exact absurd rfl h
  | ped | sync | error | special => rfl

theorem getWords_hitAt {s : Scan} {o : Obj} (h : Reads s o) (hh : o.isHit = true) :
    s.hitAt.getWords = o.words.length := by
  cases o with
  | hit w₀ w₁ subs type notPed len =>
    have h1 : s.hitAt.data 1 = w₁ := h.at_.2
    rw [Obj.length_words, RAWrIDODHit.getWords, HitWords.getWords_eq, HitWords.getNumSubHits_eq, h1,
      BitVec.toNat_setWidth_of_le (by simp)]
    exact congrArg (2 + ·) len.symm
  | ped | sync | error | special => exact absurd hh (by simp [Obj.isHit])

/-! ## The invariant at the loop head -/

/-- `past` has been read, newest object first; `s₀` is the job as it was handed over. -/
structure Inv (m : WellFormed) (s₀ : Scan) (past : List Obj) (s : Scan) : Prop where
  words : s.words = m.data
  currentWord : s.currentWord = WellFormed.size past
  daqHeader : s.daqHeader = DAQHeader.overlay m.header
  cardId : s.cardId = (DAQHeader.overlay m.header).getCardID
  header₀ : s.header 0 = s₀.header 0
  header₁ : s.header 1 = 0b01000000111111110000000000000000#32 |||
    (DAQHeader.overlay m.header).getCardID.setWidth 32
  bin : s.bin.toNat = lastBin m.currentCounter past
  currentBin : s.currentBin = s.bin
  startPos : s.startPos ≤ s.currentWord
  currentTime : s.currentTime = syncCounter past
  badSync : s.badSync = syncIsBad past
  pmtIdMap : ∀ k, IndexMap.get s.pmtIdMap k = IndexMap.get s₀.pmtIdMap k

theorem Inv.init (m : WellFormed) (s₀ : Scan) : Inv m s₀ [] (s₀.start m.toInputs) where
  words := rfl
  currentWord := rfl
  daqHeader := rfl
  cardId := rfl
  header₀ := rfl
  header₁ := rfl
  bin := rfl
  currentBin := rfl
  startPos := Nat.le_refl 0
  currentTime := rfl
  badSync := rfl
  pmtIdMap _ := rfl

/-- What a non-hit object sets: its bin, and the time of a sync. -/
theorem arrive_spec {m : WellFormed} {s₀ s : Scan} {past : List Obj} {o : Obj}
    (h : Inv m s₀ past s) (hr : Reads s o) (hh : o.isHit = false) :
    (s.arrive m.toInputs).bin.toNat = binOf m.currentCounter past o ∧
      (s.arrive m.toInputs).currentTime = syncCounter (o :: past) ∧
      (s.arrive m.toInputs).badSync = syncIsBad (o :: past) := by
  obtain ⟨h0, h1⟩ := hr.at_
  rw [Scan.arrive, kind_of_reads hr]
  cases o with
  | hit => exact absurd hh (by simp [Obj.isHit])
  | ped w₀ w₁ type isPed =>
    have hcoarse : RAWIDODPed.getCoarse s.at_ = (w₀.extractLsb' 0 24).setWidth 32 := by
      rw [RAWIDODPed.getCoarse, h0]
      exact BitField.and_mask_zero 24 w₀
    refine ⟨?_, h.currentTime, h.badSync⟩
    have hlt := RAWIDODPed.toNat_getCoarse_lt s.at_
    refine (toNat_pedBin m.currentCounter s.currentTime _ hlt).trans ?_
    rw [h.currentTime, hcoarse]
    rfl
  | sync w₀ w₁ type =>
    refine ⟨(toNat_counterBin _ _).trans (congrArg (counterBin m.currentCounter) h1), h1, ?_⟩
    refine (congrArg₂ (· && ·) (RAWIDODSync.getSync500_eq _) (RAWIDODSync.getSync125_eq _)).trans ?_
    rw [h0]
    rfl
  | error w₀ w₁ type | special w₀ w₁ type =>
    exact ⟨(toNat_counterBin _ _).trans (congrArg (counterBin m.currentCounter) h1),
      h.currentTime, h.badSync⟩

theorem header_ite_stampHeader (c : Prop) [Decidable c] (s : Scan) {i : Fin 3} (h : i ≠ 2) :
    (if c then s.stampHeader.header else s.header) i = s.header i := by
  split
  · simp [Scan.stampHeader, Function.update_of_ne h]
  · rfl

theorem Inv.fileObject {m : WellFormed} {s₀ s : Scan} {past : List Obj} {o : Obj}
    (h : Inv m s₀ past s) (hlen : o.words.length = 2) {b : U64} {t : U32} {bad : Bool}
    (hb : b.toNat = binOf m.currentCounter past o) (ht : t = syncCounter (o :: past))
    (hbad : bad = syncIsBad (o :: past)) (n : Nat) :
    Inv m s₀ (o :: past)
      (({ s with bin := b, currentTime := t, badSync := bad } : Scan).fileObject n 2) := by
  rw [Scan.fileObject_eq]
  exact {
    words := h.words
    currentWord := by
      rw [WellFormed.size_cons, hlen, ← h.currentWord]
    daqHeader := h.daqHeader
    cardId := h.cardId
    header₀ := (header_ite_stampHeader _ _ (by decide)).trans h.header₀
    header₁ := (header_ite_stampHeader _ _ (by decide)).trans h.header₁
    bin := hb
    currentBin := rfl
    startPos := by
      split
      · exact Nat.le_add_right _ _
      · exact Nat.le_trans h.startPos (Nat.le_add_right _ _)
    currentTime := ht
    badSync := hbad
    pmtIdMap := h.pmtIdMap }

theorem Inv.hitBranch {m : WellFormed} {s₀ s : Scan} {past : List Obj} {o : Obj}
    (h : Inv m s₀ past s) (hr : Reads s o) (hh : o.isHit = true) :
    Inv m s₀ (o :: past) (s.hitBranch m.toInputs) := by
  have hsync : lastSync (o :: past) = lastSync past := by
    cases o with
    | hit => rfl
    | ped | sync | error | special => exact absurd hh (by simp [Obj.isHit])
  exact {
    words := h.words
    currentWord := by
      rw [WellFormed.size_cons, ← getWords_hitAt hr hh, ← h.currentWord]
      rfl
    daqHeader := h.daqHeader
    cardId := h.cardId
    header₀ := h.header₀
    header₁ := h.header₁
    bin := h.bin.trans (binOf_of_isHit m.currentCounter past hh).symm
    currentBin := h.currentBin
    startPos := Nat.le_trans h.startPos (Nat.le_add_right _ _)
    currentTime := by rw [syncCounter, hsync]; exact h.currentTime
    badSync := by rw [syncIsBad, hsync]; exact h.badSync
    pmtIdMap := fun k => (IndexMap.get_touch _ _ _).trans (h.pmtIdMap k) }

/-- What the round does that reads the object `o`. -/
theorem Reads.step_cases {s : Scan} {o : Obj} (h : Reads s o) (inp : Inputs) :
    (o.isHit = true ∧ s.step inp = s.hitBranch inp ∧
      s.inserts inp = [.tpuHit s.bin s.currentWord (s.reducedHit inp)]) ∨
    (o.isHit = false ∧ s.step inp = (s.arrive inp).fileObject s.kind.headerLen 2 ∧
      s.inserts inp = (s.arrive inp).fileInserts s.kind.headerLen) := by
  have hkind := kind_of_reads h
  refine (s.step_cases inp).imp ?_ ?_
  · rintro ⟨hk, hround⟩
    exact ⟨isHit_of_kind_eq_hit (hkind.symm.trans hk), hround⟩
  · rintro ⟨hk, hround⟩
    exact ⟨isHit_of_kind_ne_hit fun he => hk (hkind.trans he), hround⟩

/-- **The invariant is preserved by one object.** -/
theorem Inv.step {m : WellFormed} {s₀ s : Scan} {past : List Obj} {o : Obj}
    (h : Inv m s₀ past s) (hr : Reads s o) : Inv m s₀ (o :: past) (s.step m.toInputs) := by
  obtain ⟨hh, hs, -⟩ | ⟨hh, hs, -⟩ := hr.step_cases m.toInputs
  · rw [hs]
    exact h.hitBranch hr hh
  · have hlen : o.words.length = 2 := by
      cases o with
      | hit => exact absurd hh (by simp [Obj.isHit])
      | ped | sync | error | special => rfl
    obtain ⟨hbin, htime, hbad⟩ := arrive_spec h hr hh
    rw [hs, Scan.arrive_eq]
    exact h.fileObject hlen hbin htime hbad _

/-! ## The whole loop -/

theorem Inv.reads {m : WellFormed} {s₀ s : Scan} {past rest : List Obj} {o : Obj}
    (h : Inv m s₀ past s) (hobjs : m.objs = past.reverse ++ o :: rest) : Reads s o := by
  rw [Reads, h.words, h.currentWord, ← WellFormed.size_reverse]
  exact Buffer.slice_of_words_eq (m.words_split hobjs)

/-- While the loop goes on there is an object left. -/
theorem Inv.exists_rest {m : WellFormed} {s₀ s : Scan} {past rest : List Obj}
    (h : Inv m s₀ past s) (hobjs : m.objs = past.reverse ++ rest)
    (hmore : Scan.more m.toInputs s = true) : ∃ o rest', rest = o :: rest' := by
  cases rest with
  | cons o rest => exact ⟨o, rest, rfl⟩
  | nil =>
    have hlt := Scan.more_iff.mp hmore
    rw [h.currentWord, m.size_data, hobjs, List.append_nil, WellFormed.size_reverse] at hlt
    exact absurd hlt (Nat.lt_irrefl _)

theorem Inv.eq_reverse {m : WellFormed} {s₀ s : Scan} {past rest : List Obj}
    (h : Inv m s₀ past s) (hobjs : m.objs = past.reverse ++ rest)
    (hexit : Scan.more m.toInputs s = false) : past = m.objs.reverse := by
  have hle := Scan.not_more_iff.mp hexit
  rw [h.currentWord, m.size_data, hobjs, WellFormed.size_append, WellFormed.size_reverse] at hle
  have hzero : WellFormed.size rest = 0 := by omega
  rw [hobjs, WellFormed.eq_nil_of_size hzero, List.append_nil, List.reverse_reverse]

theorem Inv.currentWord_end {m : WellFormed} {s₀ s : Scan} (h : Inv m s₀ m.objs.reverse s) :
    s.currentWord = m.data.size / 4 := by
  rw [h.currentWord, WellFormed.size_reverse, m.size_data]

/-- **Induction over the stream**, at every loop head: `past` has been read, `rest` has not. -/
theorem heads_induct (m : WellFormed) (s₀ : Scan) {P : List Obj → Logged → Prop}
    (init : P [] ⟨s₀.start m.toInputs, []⟩)
    (step : ∀ past o t, Inv m s₀ past t.scan → Reads t.scan o → t.Replays m.toInputs → P past t →
      P (o :: past) (t.step m.toInputs)) (n : Nat) :
    ∃ past rest, m.objs = past.reverse ++ rest ∧
      Inv m s₀ past (Logged.rounds m.toInputs s₀ n).scan ∧
      (Logged.rounds m.toInputs s₀ n).Replays m.toInputs ∧
      P past (Logged.rounds m.toInputs s₀ n) := by
  refine Loop.run_invariant (P := fun t => ∃ past rest, m.objs = past.reverse ++ rest ∧
    Inv m s₀ past t.scan ∧ t.Replays m.toInputs ∧ P past t) ?_ ?_ n
  · rintro t ⟨past, rest, hobjs, hinv, hrep, hP⟩ hmore
    obtain ⟨o, rest, rfl⟩ := hinv.exists_rest hobjs hmore
    have hr := hinv.reads hobjs
    exact ⟨o :: past, rest, by simp [hobjs], hinv.step hr, hrep.step, step past o t hinv hr hrep hP⟩
  · exact ⟨[], m.objs, rfl, Inv.init m s₀, Logged.Replays.init m.toInputs s₀, init⟩

/-- Induction over the stream, at the exit. -/
theorem loop_induct (m : WellFormed) (s₀ : Scan) {P : List Obj → Logged → Prop}
    (init : P [] ⟨s₀.start m.toInputs, []⟩)
    (step : ∀ past o t, Inv m s₀ past t.scan → Reads t.scan o → t.Replays m.toInputs → P past t →
      P (o :: past) (t.step m.toInputs)) :
    Inv m s₀ m.objs.reverse (s₀.loop m.toInputs) ∧
      P m.objs.reverse (Logged.loop m.toInputs s₀) := by
  obtain ⟨past, rest, hobjs, hinv, -, hP⟩ := heads_induct m s₀ init step (m.data.size / 4)
  have hloop : Logged.rounds m.toInputs s₀ (m.data.size / 4) = Logged.loop m.toInputs s₀ := rfl
  rw [hloop, Logged.scan_loop] at hinv
  obtain rfl := hinv.eq_reverse hobjs (s₀.loop_exit m.toInputs)
  exact ⟨hinv, hloop ▸ hP⟩

end HkRbu
