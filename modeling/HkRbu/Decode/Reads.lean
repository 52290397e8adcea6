import HkRbu.Decode.Trace
import HkRbu.Receiver.Reply

/-!
# What is read of a message

The bytes of the header and data parts that `Thread` and the scan read: the copy into the reply,
the card id, and in each round of the loop the words of the object and the segment that is flushed.
The two words an object begins with are read in every round, and the loop condition has only
checked the first; nothing checks the size of the header part. So all reads are inside the parts
exactly for the messages with a whole header in which no object begins at the last word.
-/

namespace HkRbu

/-- The two parts of a message that `ProcessDataIDOD` reads. -/
inductive Part where
  | header | data
  deriving DecidableEq, Repr

/-- A read of `len` bytes of a part, from byte `start` on. -/
structure Access where
  part : Part
  start : Nat
  len : Nat
  deriving DecidableEq, Repr

namespace Access

/-- The access to the `i`-th word of a part. -/
def word (part : Part) (i : Nat) : Access := ⟨part, 4 * i, 4⟩

/-- The words with indices in `[start, stop)`. -/
def segment (part : Part) (start stop : Nat) : Access := ⟨part, 4 * start, 4 * (stop - start)⟩

/-- The read stays inside its part. -/
def Inside (header data : Buffer) (a : Access) : Prop :=
  a.start + a.len ≤ match a.part with
    | .header => header.size
    | .data => data.size

/-- Two memories have the same bytes where the read is. -/
def Agree (b b' : Buffer) (a : Access) : Prop :=
  ∀ k, a.start ≤ k → k < a.start + a.len → b.byteAt k = b'.byteAt k

theorem inside_word_data {header data : Buffer} {i : Nat} :
    (word .data i).Inside header data ↔ i < data.size / 4 := by
  show 4 * i + 4 ≤ data.size ↔ _
  omega

theorem inside_word_header {header data : Buffer} {i : Nat} :
    (word .header i).Inside header data ↔ 4 * (i + 1) ≤ header.size := Iff.rfl

theorem inside_segment_data {header data : Buffer} {start stop : Nat} (h : start ≤ stop)
    (hstop : stop ≤ data.size / 4) : (segment .data start stop).Inside header data := by
  show 4 * start + 4 * (stop - start) ≤ data.size
  omega

theorem Agree.wordAt {b b' : Buffer} {part : Part} {i : Nat} (h : (word part i).Agree b b') :
    b.wordAt i = b'.wordAt i := by
  have hbyte : ∀ k, k < 4 → b.byteAt (4 * i + k) = b'.byteAt (4 * i + k) := fun k hk =>
    h (4 * i + k) (Nat.le_add_right _ _) (Nat.add_lt_add_left hk _)
  rw [Buffer.wordAt, Buffer.wordAt, hbyte 3 (by simp), hbyte 2 (by simp), hbyte 1 (by simp),
    show b.byteAt (4 * i) = b'.byteAt (4 * i) from hbyte 0 (by simp)]

theorem Agree.slice {b b' : Buffer} {part : Part} {start stop : Nat}
    (h : (segment part start stop).Agree b b') :
    b.slice start (stop - start) = b'.slice start (stop - start) := by
  refine List.map_congr_left ?_
  intro i hi
  obtain ⟨hstart, hlt⟩ := List.mem_range'_1.mp hi
  have hword : (word part i).Agree b b' := by
    intro k hk hk'
    refine h k ?_ ?_
    · exact le_trans (Nat.mul_le_mul_left 4 hstart) hk
    · have hend : k < 4 * i + 4 := hk'
      show k < 4 * start + 4 * (stop - start)
      omega
  exact hword.wordAt

end Access

/-- `memcpy(reply.data(), messages->at(1).data(), reply.size())`. -/
def replyReads (reply : List U8) : List Access := [⟨.header, 0, reply.length⟩]

/-- `GetCardID`. -/
def headerReads : List Access := [.word .header 2]

namespace Scan

/-- The words inserted by `flush`. -/
def flushReads (s : Scan) : List Access :=
  if s.bin ≠ s.currentBin then [.segment .data s.startPos s.currentWord] else []

/-- The reads of one round: the first word of the object in `switch`, the second one in `case 0b11`
    for bit 25 and in the other cases for the counter or the coarse time, the type in the header
    for the key of a hit, and what is flushed. -/
def reads (inp : Inputs) (s : Scan) : List Access :=
  .word .data s.currentWord ::
    match s.kind with
    | .hit => [.word .data (s.currentWord + 1), .word .header 2]
    | .ped => .word .data (s.currentWord + 1) :: (s.pedBin inp).flushReads
    | .sync => .word .data (s.currentWord + 1) :: (s.syncBin inp).flushReads
    | .error => .word .data (s.currentWord + 1) :: (s.errorBin inp).flushReads
    | .special => .word .data (s.currentWord + 1) :: (s.specialBin inp).flushReads

end Scan

/-- All reads of a message are inside its parts: the copy into `reply`, and those of the decoder up
    to the exit of its loop. The reads listed are all there are: a round does the same on any words
    that agree with the message where it reads (`complete`). -/
structure ReadsInside (reply : List U8) (inp : Inputs) (s : Scan) : Prop where
  reply : ∀ a ∈ replyReads reply, a.Inside inp.header inp.data
  header : ∀ a ∈ headerReads, a.Inside inp.header inp.data
  rounds : ∀ t, Loop.Head (Scan.more inp) (Scan.step inp) (s.start inp) t →
    ∀ a ∈ t.reads inp, a.Inside inp.header inp.data
  complete : ∀ (t : Scan) (b : Buffer),
    (∀ a ∈ t.reads inp, a.part = .data → a.Agree b t.words) →
      ({ t with words := b } : Scan).step inp = { t.step inp with words := b }

/-! ## The reads are all that matters -/

namespace Scan

theorem mem_reads_words (inp : Inputs) (s : Scan) :
    .word .data s.currentWord ∈ s.reads inp ∧ .word .data (s.currentWord + 1) ∈ s.reads inp := by
  unfold reads
  cases s.kind <;> simp

theorem mem_reads_flush (inp : Inputs) (s : Scan) (h : s.kind ≠ .hit) {a : Access}
    (ha : a ∈ (s.arrive inp).flushReads) : a ∈ s.reads inp := by
  unfold arrive at ha
  unfold reads
  cases hk : s.kind with
  | hit => exact absurd hk h
  | ped | sync | error | special =>
    rw [hk] at ha
    exact List.mem_cons_of_mem _ (List.mem_cons_of_mem _ ha)

variable {inp : Inputs} {s : Scan} {b : Buffer}

theorem flushReads_part {a : Access} (h : a ∈ s.flushReads) : a.part = .data := by
  unfold flushReads at h
  split at h
  · rw [List.mem_singleton.mp h]
    rfl
  · exact absurd h List.not_mem_nil

theorem arrive_congr (inp : Inputs) (h₀ : ({ s with words := b } : Scan).at_ 0 = s.at_ 0)
    (h₁ : ({ s with words := b } : Scan).at_ 1 = s.at_ 1) :
    ({ s with words := b } : Scan).kind = s.kind ∧
      ({ s with words := b } : Scan).arrive inp = { s.arrive inp with words := b } := by
  have hkind : ({ s with words := b } : Scan).kind = s.kind := by rw [kind, kind, h₀, h₁]
  refine ⟨hkind, ?_⟩
  unfold arrive
  rw [hkind]
  cases s.kind with
  | hit => rfl
  | ped => simp only [Scan.pedBin, RAWIDODPed.getCoarse, h₀]
  | sync =>
    simp only [syncBin, RAWIDODSync.getCounter, RAWIDODSync.getSync500, RAWIDODSync.getSync125,
      h₀, h₁]
  | error => simp only [errorBin, RAWIDODError.getCoarse, h₁]
  | special => simp only [specialBin, RAWIDODSpecial.getCoarse, h₁]

theorem fileObject_congr (h : ∀ a ∈ s.flushReads, a.Agree b s.words) (n words : Nat) :
    ({ s with words := b } : Scan).fileObject n words =
      { s.fileObject n words with words := b } := by
  have hopen : ∀ c, (s.openInserts n).foldl (Insert.applyRaw b) c =
      (s.openInserts n).foldl (Insert.applyRaw s.words) c := by
    intro c
    by_cases hbin : s.bin ∈ s.collections
    · simp [openInserts, hbin]
    · simp [openInserts, hbin, Insert.applyRaw]
  have hflush : ∀ c, s.flushInserts.foldl (Insert.applyRaw b) c =
      s.flushInserts.foldl (Insert.applyRaw s.words) c := by
    intro c
    unfold flushReads at h
    by_cases hbin : s.bin = s.currentBin
    · simp [flushInserts, hbin]
    · rw [if_pos hbin] at h
      have hslice := (h _ (List.mem_singleton.mpr rfl)).slice
      simp [flushInserts, hbin, Insert.applyRaw, hslice]
  have hcollections : (s.fileInserts n).foldl (Insert.applyRaw b) s.collections =
      (s.fileInserts n).foldl (Insert.applyRaw s.words) s.collections := by
    rw [fileInserts, List.foldl_append, List.foldl_append, hopen, hflush]
  rw [fileObject_eq, fileObject_eq, ← hcollections]
  rfl

/-- **A round depends on the data part only through its reads.** -/
theorem step_congr (h : ∀ a ∈ s.reads inp, a.part = .data → a.Agree b s.words) :
    ({ s with words := b } : Scan).step inp = { s.step inp with words := b } := by
  obtain ⟨hmem₀, hmem₁⟩ := s.mem_reads_words inp
  have h₀ : b.wordAt s.currentWord = s.words.wordAt s.currentWord := (h _ hmem₀ rfl).wordAt
  have h₁ : b.wordAt (s.currentWord + 1) = s.words.wordAt (s.currentWord + 1) :=
    (h _ hmem₁ rfl).wordAt
  obtain ⟨hkind, harrive⟩ := arrive_congr inp h₀ h₁
  obtain ⟨hk, hs, -⟩ | ⟨hk, hs, -⟩ := s.step_cases inp
  · have hhit : ({ s with words := b } : Scan).hitAt = s.hitAt := by
      rw [hitAt, hitAt, RAWrIDODHit.overlay, RAWrIDODHit.overlay, h₀, h₁]
    have hinfo : ({ s with words := b } : Scan).pmtInfo = s.pmtInfo := by
      rw [pmtInfo, pmtInfo, show ({ s with words := b } : Scan).at_ 0 = s.at_ 0 from h₀]
    rw [hs, step, hkind, hk]
    simp only [hitBranch, pmtid, reducedHit, hitTime, hhit, hinfo]
  · obtain ⟨hk', -, -⟩ | ⟨-, hs', -⟩ := ({ s with words := b } : Scan).step_cases inp
    · exact absurd (hkind.symm.trans hk') hk
    · rw [hs, hs', hkind, harrive]
      refine fileObject_congr ?_ _ _
      intro a ha
      have hwords : (s.arrive inp).words = s.words := by rw [arrive_eq]
      rw [hwords]
      exact h a (s.mem_reads_flush inp hk ha) (flushReads_part ha)

end Scan

/-! ## The exact condition -/

/-- How many sub-hit words follow the words `w₀` and `w₁` of an object. -/
def subHits (w₀ w₁ : U32) : Nat :=
  if w₀ >>> 30 = 0b11#32 ∧ (w₁ >>> 25) &&& 0b1#32 = 0#32 then min (w₁ >>> 27).toNat 15 else 0

/-- Object by object, after `skip` words of sub-hits: no object begins at the last of the words. -/
def wholePairs : Nat → List U32 → Bool
  | _, [] => true
  | skip + 1, _ :: ws => wholePairs skip ws
  | 0, [_] => false
  | 0, w₀ :: w₁ :: ws => wholePairs (subHits w₀ w₁) ws

theorem wholePairs_drop (skip : Nat) (ws : List U32) :
    wholePairs skip ws = wholePairs 0 (ws.drop skip) := by
  induction ws generalizing skip with
  | nil => simp [wholePairs]
  | cons w ws ih =>
    cases skip with
    | zero => rfl
    | succ skip => exact ih skip

theorem Buffer.drop_words (b : Buffer) {i : Nat} (h : i < b.size / 4) :
    b.words.drop i = b.wordAt i :: b.words.drop (i + 1) := by
  have hi : i < b.words.length := by rwa [Buffer.length_words]
  rw [List.drop_eq_getElem_cons hi, b.wordAt_eq_getElem hi]

namespace Scan

theorem kind_eq_hit_iff (s : Scan) :
    s.kind = .hit ↔ s.at_ 0 >>> 30 = 0b11#32 ∧ (s.at_ 1 >>> 25) &&& 0b1#32 = 0#32 := by
  have htype : s.at_ 0 >>> 30 = 0b11#32 ↔ (s.at_ 0 >>> 30).toNat = 0b11 := BitVec.toNat_inj.symm
  rw [htype]
  unfold kind
  split
  · rename_i h
    by_cases hped : (s.at_ 1 >>> 25) &&& 0b1#32 = 0#32
    · simp [h, hped]
    · simp [h, hped]
  · rename_i h
    exact iff_of_false (by simp) (by simp [h])
  · rename_i h
    exact iff_of_false (by simp) (by simp [h])
  · rename_i h _ _
    exact iff_of_false (by simp) (fun hhit => h hhit.1)

theorem step_currentWord (inp : Inputs) (s : Scan) :
    (s.step inp).currentWord = s.currentWord + 2 + subHits (s.at_ 0) (s.at_ 1) := by
  obtain ⟨hk, hs, -⟩ | ⟨hk, hs, -⟩ := s.step_cases inp
  · have hwords : s.hitAt.getWords = 2 + min (s.at_ 1 >>> 27).toNat 15 := by
      rw [RAWrIDODHit.getWords, HitWords.getWords_eq, HitWords.getNumSubHits_eq,
        BitVec.toNat_setWidth_of_le (by simp),
        BitField.ushiftRight_eq_extractLsb' 27 5 (s.at_ 1) (by simp),
        BitVec.toNat_setWidth_of_le (by simp)]
      rfl
    rw [hs, subHits, if_pos (s.kind_eq_hit_iff.mp hk), hitBranch, hwords, Nat.add_assoc]
  · rw [hs, subHits, if_neg fun h => hk (s.kind_eq_hit_iff.mpr h), fileObject_eq,
      (s.arrive_pending inp).2.2]

/-- What holds at the loop head, for the reads: the words of the message, and what is pending lies
    before the current word. -/
structure ReadsInv (inp : Inputs) (s : Scan) : Prop where
  words : s.words = inp.data
  startPos : s.startPos ≤ s.currentWord

/-- A round moves both words on. -/
theorem ReadsInv.step {inp : Inputs} {s : Scan} (h : ReadsInv inp s) :
    ReadsInv inp (s.step inp) := by
  refine ⟨(s.step_replay inp).1.trans h.words, ?_⟩
  obtain ⟨-, hs, -⟩ | ⟨-, hs, -⟩ := s.step_cases inp
  · rw [hs]
    exact le_trans h.startPos (Nat.le_add_right _ _)
  · obtain ⟨-, hstart, hword⟩ := s.arrive_pending inp
    rw [hs, fileObject_eq, hstart, hword]
    refine le_trans ?_ (Nat.le_add_right s.currentWord 2)
    split
    · exact le_refl _
    · exact h.startPos

/-- **The reads of a round** are inside if and only if the object has both its words. -/
theorem reads_inside_iff {inp : Inputs} {s : Scan} (h : ReadsInv inp s)
    (hheader : 12 ≤ inp.header.size) (hmore : s.currentWord < inp.data.size / 4) :
    (∀ a ∈ s.reads inp, a.Inside inp.header inp.data) ↔
      s.currentWord + 1 < inp.data.size / 4 := by
  constructor
  · intro hall
    exact Access.inside_word_data.mp (hall _ (s.mem_reads_words inp).2)
  · intro hlt a ha
    have hword₀ : (Access.word .data s.currentWord).Inside inp.header inp.data :=
      Access.inside_word_data.mpr hmore
    have hword₁ : (Access.word .data (s.currentWord + 1)).Inside inp.header inp.data :=
      Access.inside_word_data.mpr hlt
    -- What is flushed has been walked over, so it ends at the current word.
    have hflush : ∀ t : Scan, t.startPos = s.startPos → t.currentWord = s.currentWord →
        a ∈ t.flushReads → a.Inside inp.header inp.data := by
      intro t hstart hword ht
      unfold flushReads at ht
      split at ht
      · rw [List.mem_singleton.mp ht, hstart, hword]
        exact Access.inside_segment_data h.startPos (Nat.le_of_lt hmore)
      · exact absurd ht List.not_mem_nil
    rcases List.mem_cons.mp ha with rfl | ha
    · exact hword₀
    · cases hk : s.kind with
      | hit =>
        rw [hk] at ha
        simp only [List.mem_cons, List.not_mem_nil, or_false] at ha
        rcases ha with rfl | rfl
        · exact hword₁
        · exact Access.inside_word_header.mpr hheader
      | ped | sync | error | special =>
        rw [hk] at ha
        rcases List.mem_cons.mp ha with rfl | ha
        · exact hword₁
        · refine hflush _ ?_ ?_ ha
          · rfl
          · rfl

theorem wholePairs_step {inp : Inputs} {s : Scan} (h : ReadsInv inp s)
    (hmore : s.currentWord < inp.data.size / 4) :
    wholePairs 0 (inp.data.words.drop s.currentWord) = true ↔
      s.currentWord + 1 < inp.data.size / 4 ∧
        wholePairs 0 (inp.data.words.drop (s.step inp).currentWord) = true := by
  rw [inp.data.drop_words hmore]
  by_cases hlt : s.currentWord + 1 < inp.data.size / 4
  · obtain ⟨h₀, h₁⟩ := at_of_words h.words
    rw [inp.data.drop_words hlt, wholePairs, wholePairs_drop, List.drop_drop, step_currentWord,
      h₀, h₁]
    simp only [hlt, true_and]
  -- The object begins at the last word.
  · have hend : inp.data.words.drop (s.currentWord + 1) = [] := by
      rw [List.drop_eq_nil_iff, Buffer.length_words]
      exact Nat.not_lt.mp hlt
    rw [hend]
    simp [wholePairs, hlt]

/-- The rounds of the loop read inside the parts if and only if no object begins at the last
    word. -/
theorem rounds_inside_iff (inp : Inputs) (s : Scan) (hheader : 12 ≤ inp.header.size) :
    (∀ t, Loop.Head (more inp) (step inp) (s.start inp) t →
        ∀ a ∈ t.reads inp, a.Inside inp.header inp.data) ↔
      wholePairs 0 inp.data.words = true := by
  have hinit : ReadsInv inp (s.start inp) := ⟨rfl, le_refl 0⟩
  have hstep : ∀ s, ReadsInv inp s → more inp s = true → ReadsInv inp (s.step inp) :=
    fun _ h _ => h.step
  refine Loop.forall_head_iff
    (Q := fun s => wholePairs 0 (inp.data.words.drop s.currentWord) = true)
    (fun s => inp.data.size / 4 - s.currentWord) ?_ hstep ?_ ?_ hinit
  · intro s hmore
    have hlt := s.currentWord_lt_step inp
    have hmore := more_iff.mp hmore
    omega
  · intro s _ hmore
    have hend : inp.data.words.drop s.currentWord = [] := by
      rw [List.drop_eq_nil_iff, Buffer.length_words]
      exact not_more_iff.mp hmore
    rw [hend]
    rfl
  · intro s hinv hmore
    have hlt := more_iff.mp hmore
    rw [reads_inside_iff hinv hheader hlt, wholePairs_step hinv hlt]

end Scan

theorem readsInside_iff_of_fits {reply : List U8} (hreply : reply.length ≤ 4) (inp : Inputs)
    (s : Scan) :
    ReadsInside reply inp s ↔ 12 ≤ inp.header.size ∧ wholePairs 0 inp.data.words = true := by
  constructor
  · rintro ⟨-, hheader, hrounds, -⟩
    have htwelve : 12 ≤ inp.header.size :=
      Access.inside_word_header.mp (hheader _ (List.mem_singleton.mpr rfl))
    exact ⟨htwelve, (Scan.rounds_inside_iff inp s htwelve).mp hrounds⟩
  · rintro ⟨htwelve, hpairs⟩
    refine ⟨?_, ?_, (Scan.rounds_inside_iff inp s htwelve).mpr hpairs, ?_⟩
    · intro a ha
      rw [List.mem_singleton.mp ha]
      show 0 + reply.length ≤ inp.header.size
      omega
    · intro a ha
      rw [List.mem_singleton.mp ha]
      exact Access.inside_word_header.mpr htwelve
    · exact fun t b hagree => Scan.step_congr hagree

/-- **Reading inside the parts**: whatever a receiver has done before, it and the decoder read
    inside the parts of exactly those messages that have three whole header words and no object
    beginning at the last data word. -/
theorem readsInside_iff {ι : Type} [DecidableEq ι] (service : ι → Service) (ls : List (Label ι))
    (i : ι) (inp : Inputs) (s : Scan) :
    ReadsInside ((Runs.exec (System.step service) .start ls).receivers i).reply inp s ↔
      12 ≤ inp.header.size ∧ wholePairs 0 inp.data.words = true :=
  readsInside_iff_of_fits (System.repliesFit_exec service ls i) inp s

/-- A message with a whole header and the first word of an error object: the decoder reads the
    second. -/
theorem not_readsInside_oneWord :
    ¬ ReadsInside ((System.start : System Service).receivers .idod).reply
      ⟨Buffer.memcpy [0, 0, 0] fun _ => 0xAB, Buffer.memcpy [0] fun _ => 0xAB, 0, fun _ => default⟩
      .new := by
  intro h
  have hround := h.rounds _ ⟨0, rfl, rfl⟩ (.word .data 1) (Scan.mem_reads_words _ _).2
  exact absurd (Access.inside_word_data.mp hround) (by decide)

end HkRbu
