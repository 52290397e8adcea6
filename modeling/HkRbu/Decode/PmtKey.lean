import HkRbu.Decode.Reads

/-!
# The key a hit is looked up under

`pmt_info` is the header type, the card id and the upper byte of the hit's first word, shifted
next to each other and or-ed. The byte has eight bits and is given six: its upper two, which are
11 in every hit, fall on the lower two bits of the card id. So the key does not say which card of
a group of four the hit is from, and says everything else (`HitRound.pmtInfo_eq_iff`).
-/

namespace HkRbu

/-- A round that decodes a hit: the message, the job and data model it came to, and the state the
    round begins in. -/
structure HitRound where
  inp : Inputs
  job : Scan
  scan : Scan
  head : Loop.Head (Scan.more inp) (Scan.step inp) (job.start inp) scan
  isHit : scan.kind = .hit

/-- The channel a hit is from. -/
structure HitSource where
  type : U8
  cardID : U16
  boardNum : Bool
  idod : Bool
  channel : U8
  deriving DecidableEq, Repr

namespace HitRound

/-- The key that is looked up in `pmt_id_map`. -/
def pmtInfo (r : HitRound) : U32 := r.scan.pmtInfo

/-- What the header part and the hit's words say. -/
def source (r : HitRound) : HitSource where
  type := (DAQHeader.overlay r.inp.header).getType
  cardID := (DAQHeader.overlay r.inp.header).getCardID
  boardNum := (RAWrIDODHit.overlay r.inp.data r.scan.currentWord).getBoardNum
  idod := (RAWrIDODHit.overlay r.inp.data r.scan.currentWord).getIDOD
  channel := (RAWrIDODHit.overlay r.inp.data r.scan.currentWord).getChannel

end HitRound

/-! ## What the decoder holds of the header -/

namespace Scan

theorem step_header (inp : Inputs) (s : Scan) :
    (s.step inp).daqHeader = s.daqHeader ∧ (s.step inp).cardId = s.cardId := by
  obtain ⟨-, hs, -⟩ | ⟨-, hs, -⟩ := s.step_cases inp
  · rw [hs]
    exact ⟨rfl, rfl⟩
  · rw [hs, fileObject_eq, arrive_eq]
    exact ⟨rfl, rfl⟩

/-- At a loop head the job has the header and the words of the message. -/
structure Holds (inp : Inputs) (s : Scan) : Prop where
  words : s.words = inp.data
  daqHeader : s.daqHeader = DAQHeader.overlay inp.header
  cardId : s.cardId = (DAQHeader.overlay inp.header).getCardID

theorem Holds.step {inp : Inputs} {s : Scan} (h : Holds inp s) : Holds inp (s.step inp) where
  words := (s.step_replay inp).1.trans h.words
  daqHeader := (s.step_header inp).1.trans h.daqHeader
  cardId := (s.step_header inp).2.trans h.cardId

end Scan

theorem HitRound.holds (r : HitRound) : Scan.Holds r.inp r.scan := by
  obtain ⟨fuel, hrun, -⟩ := r.head
  rw [← hrun]
  exact Loop.run_invariant (fun _ h _ => h.step) ⟨rfl, rfl, rfl⟩ fuel

/-! ## The bits of the key -/

/-- The three shifted fields, as the code combines them, lie side by side, but for the lower two
    bits of the card id. -/
theorem pmtInfo_bits (t : BitVec 2) (c : BitVec 12) {w : U32} (hw : w >>> 30 = 0b11#32) :
    ((t.setWidth 8).setWidth 32 <<< 18) |||
        ((c.setWidth 16 &&& 0b111111111111#16).setWidth 32 <<< 6) ||| (w >>> 24) =
      (t ++ c.extractLsb' 2 10 ++ w.extractLsb' 24 8).setWidth 32 := by
  have htop : ∀ k, k < 2 → w.getLsbD (30 + k) = true := by
    intro k hk
    have hbit := congrArg (BitVec.getLsbD · k) hw
    rw [BitVec.getLsbD_ushiftRight] at hbit
    refine hbit.trans ?_
    obtain rfl | rfl : k = 0 ∨ k = 1 := by omega
    · rfl
    · rfl
  rw [show 0b111111111111#16 = BitField.mask 16 0 12 from rfl, BitField.and_mask_zero]
  apply BitVec.eq_of_getLsbD_eq
  intro i hi
  simp only [BitVec.getLsbD_or, BitVec.getLsbD_shiftLeft, BitVec.getLsbD_setWidth,
    BitVec.getLsbD_ushiftRight, BitVec.getLsbD_append, BitVec.getLsbD_extractLsb']
  -- Bits 6 and 7 of the key are the type of the hit, whatever the card id has there.
  by_cases h6 : i < 6
  · simp [h6, hi, show i < 18 by omega, show i < 8 by omega]
  by_cases h8 : i < 8
  · have hk := htop (i - 6) (by omega)
    rw [show 30 + (i - 6) = 24 + i by omega] at hk
    simp [h8, hi, hk]
  have hw24 : w.getLsbD (24 + i) = false := BitVec.getLsbD_of_ge w _ (by omega)
  by_cases h18 : i < 18
  · simp [h6, h8, h18, hi, hw24, show i - 6 < 32 by omega, show i - 6 < 16 by omega,
      show i - 6 < 12 by omega, show i - 8 < 10 by omega, show 2 + (i - 8) = i - 6 by omega]
  · have hc : c.getLsbD (i - 6) = false := BitVec.getLsbD_of_ge c _ (by omega)
    by_cases h20 : i < 20
    · simp [h6, h8, h18, hi, hw24, hc, show i - 18 < 32 by omega, show i - 18 < 8 by omega,
        show ¬ i - 8 < 10 by omega, show i - 8 - 10 = i - 18 by omega]
    · have ht : t.getLsbD (i - 18) = false := BitVec.getLsbD_of_ge t _ (by omega)
      simp [h6, h8, h18, hi, hw24, hc, ht, show ¬ i - 8 < 10 by omega,
        show i - 8 - 10 = i - 18 by omega]

/-- The fields of the source, as parts of the two words they are read from. -/
theorem HitRound.toNat_source (r : HitRound) {W w : U32}
    (hW : W = (DAQHeader.overlay r.inp.header).data 2)
    (hw : w = r.inp.data.wordAt r.scan.currentWord) :
    r.source.type.toNat = W.toNat / 2 ^ 30 % 2 ^ 2 ∧
      r.source.cardID.toNat = W.toNat / 2 ^ 18 % 2 ^ 12 ∧
      r.source.boardNum.toNat = w.toNat / 2 ^ 29 % 2 ^ 1 ∧
      r.source.idod.toNat = w.toNat / 2 ^ 28 % 2 ^ 1 ∧
      r.source.channel.toNat = w.toNat / 2 ^ 24 % 2 ^ 4 := by
  subst hW hw
  have hheader := (DAQHeader.overlay r.inp.header).get_eq_read
  have hhit := HitWords.get_eq_read (RAWrIDODHit.overlay r.inp.data r.scan.currentWord).data
  refine ⟨?_, ?_, ?_, ?_, ?_⟩
  · exact (hheader .type).trans (BitField.toNat_extractLsb' 30 2 _)
  · exact (hheader .cardID).trans (BitField.toNat_extractLsb' 18 12 _)
  · exact (hhit .boardNum).trans (BitField.toNat_extractLsb' 29 1 _)
  · exact (hhit .idod).trans (BitField.toNat_extractLsb' 28 1 _)
  · exact (hhit .channel).trans (BitField.toNat_extractLsb' 24 4 _)

/-- Each field of a source is as wide as the header or the hit has it. -/
structure HitSource.Fits (a : HitSource) : Prop where
  type : a.type.toNat < 2 ^ 2
  cardID : a.cardID.toNat < 2 ^ 12
  channel : a.channel.toNat < 2 ^ 4

/-- The source of every hit fits: it is read from fields of that width. -/
theorem HitRound.source_fits (r : HitRound) : r.source.Fits := by
  obtain ⟨htype, hcard, -, -, hchannel⟩ := r.toNat_source rfl rfl
  constructor
  · rw [htype]
    exact Nat.mod_lt _ (Nat.two_pow_pos 2)
  · rw [hcard]
    exact Nat.mod_lt _ (Nat.two_pow_pos 12)
  · rw [hchannel]
    exact Nat.mod_lt _ (Nat.two_pow_pos 4)

/-- The key as a number: the lower two bits of the card id are not in it. -/
theorem HitRound.toNat_pmtInfo (r : HitRound) :
    r.pmtInfo.toNat = r.source.type.toNat * 2 ^ 18 + r.source.cardID.toNat / 4 * 2 ^ 8 +
      (192 + r.source.boardNum.toNat * 32 + r.source.idod.toNat * 16 +
        r.source.channel.toNat) := by
  obtain ⟨hwords, hheader, hcard⟩ := r.holds
  obtain ⟨W, hW⟩ : ∃ W, W = (DAQHeader.overlay r.inp.header).data 2 := ⟨_, rfl⟩
  obtain ⟨w, hw⟩ : ∃ w, w = r.inp.data.wordAt r.scan.currentWord := ⟨_, rfl⟩
  have hat : r.scan.at_ 0 = w := (Scan.at_of_words hwords).1.trans hw.symm
  have htop : w >>> 30 = 0b11#32 := hat ▸ (r.scan.kind_eq_hit_iff.mp r.isHit).1
  have hthree : w.toNat / 2 ^ 30 = 3 := by
    rw [← Nat.shiftRight_eq_div_pow, ← BitVec.toNat_ushiftRight, htop]
    rfl
  have hkey : r.pmtInfo.toNat = W.toNat / 2 ^ 30 % 2 ^ 2 * 2 ^ 18 +
      W.toNat / 2 ^ 18 % 2 ^ 12 / 2 ^ 2 % 2 ^ 10 * 2 ^ 8 + w.toNat / 2 ^ 24 % 2 ^ 8 := by
    rw [pmtInfo, Scan.pmtInfo, hheader, hcard, hat, DAQHeader.getType_eq, DAQHeader.getCardID_eq,
      pmtInfo_bits _ _ htop, ← hW, BitVec.toNat_setWidth_of_le (by simp),
      BitField.toNat_append, BitField.toNat_append]
    simp only [BitField.toNat_extractLsb']
    omega
  obtain ⟨htype, hcardID, hboard, hidod, hchannel⟩ := r.toNat_source hW hw
  rw [hkey, htype, hcardID, hboard, hidod, hchannel]
  omega

/-! ## What the key separates -/

/-- Two hits with the same key are from the same channel. -/
def SameSource (r r' : HitRound) : Prop := r.pmtInfo = r'.pmtInfo → r.source = r'.source

/-- Two sources on different cards of one group of four, otherwise alike. -/
def HitSource.Aliased (a b : HitSource) : Prop :=
  a.type = b.type ∧ a.cardID.toNat / 4 = b.cardID.toNat / 4 ∧ a.boardNum = b.boardNum ∧
    a.idod = b.idod ∧ a.channel = b.channel ∧ a.cardID ≠ b.cardID

/-- **The key tells the source apart**, but for the two lowest bits of the card. -/
theorem HitRound.pmtInfo_eq_iff (r r' : HitRound) :
    r.pmtInfo = r'.pmtInfo ↔
      r.source.type = r'.source.type ∧
        r.source.cardID.toNat / 4 = r'.source.cardID.toNat / 4 ∧
        r.source.boardNum = r'.source.boardNum ∧ r.source.idod = r'.source.idod ∧
        r.source.channel = r'.source.channel := by
  have hkey := r.toNat_pmtInfo
  have hkey' := r'.toNat_pmtInfo
  constructor
  · intro heq
    -- The fields are digits of the key, each within its range.
    rw [heq, hkey'] at hkey
    obtain ⟨ht, hc, hch⟩ := r.source_fits
    obtain ⟨ht', hc', hch'⟩ := r'.source_fits
    have hb := Bool.toNat_le r.source.boardNum
    have hb' := Bool.toNat_le r'.source.boardNum
    have hi := Bool.toNat_le r.source.idod
    have hi' := Bool.toNat_le r'.source.idod
    refine ⟨BitVec.eq_of_toNat_eq ?_, ?_, TPUHit.toNat_bool_inj ?_, TPUHit.toNat_bool_inj ?_,
      BitVec.eq_of_toNat_eq ?_⟩ <;> omega
  · rintro ⟨ht, hc, hb, hi, hch⟩
    refine BitVec.eq_of_toNat_eq ?_
    rw [hkey, hkey', ht, hc, hb, hi, hch]

/-- **The key separates channels** exactly where the cards do not differ in the lower two bits of
    their ids alone. -/
theorem sameSource_iff (r r' : HitRound) :
    SameSource r r' ↔ ¬ r.source.Aliased r'.source := by
  unfold SameSource HitSource.Aliased
  rw [r.pmtInfo_eq_iff r']
  constructor
  · rintro h ⟨ht, hc, hb, hi, hch, hne⟩
    exact hne (congrArg HitSource.cardID (h ⟨ht, hc, hb, hi, hch⟩))
  · rintro h ⟨ht, hc, hb, hi, hch⟩
    have hcard : r.source.cardID = r'.source.cardID := by
      by_contra hne
      exact h ⟨ht, hc, hb, hi, hch, hne⟩
    cases hr : r.source
    cases hr' : r'.source
    rw [hr, hr'] at ht hb hi hch hcard
    cases ht
    cases hb
    cases hi
    cases hch
    cases hcard
    rfl

/-- The data part of a single hit. -/
def plainHitData : Buffer := Buffer.memcpy [0xC0000000, 0] fun _ => 0

theorem plainHitData_more : 0 < plainHitData.size / 4 := by decide

theorem plainHitData_isHit :
    plainHitData.wordAt 0 >>> 30 = 0b11#32 ∧ (plainHitData.wordAt 1 >>> 25) &&& 0b1#32 = 0#32 := by
  decide

/-- The round for a message from card `card` that is one plain hit object. -/
def plainHitOf (card : U32) : HitRound :=
  let inp : Inputs := ⟨Buffer.memcpy [0, 0, card <<< 18] fun _ => 0, plainHitData, 0,
    fun _ => default⟩
  { inp
    job := .new
    scan := Scan.new.start inp
    head := ⟨0, rfl, decide_eq_true plainHitData_more⟩
    isHit := (Scan.kind_eq_hit_iff _).mpr plainHitData_isHit }

theorem not_sameSource_cards01 : ¬ SameSource (plainHitOf 0) (plainHitOf 1) := by
  intro h
  exact absurd (congrArg HitSource.cardID (h (by decide))) (by decide)

end HkRbu
