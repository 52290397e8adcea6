import HkRbu.Data.IDODSync

/-!
# Reduced hits (`TPUHit.h`)

A `TPUHit` is two words in uninitialised memory, filled by the constructor through the setters.
The constructor writes every bit, so a reduced hit is determined by its six fields
(`decode_new`).
-/

namespace HkRbu

/-- The two words of a reduced hit. -/
structure TPUHit where
  data : Fin 2 → U32

namespace TPUHit

instance : Inhabited TPUHit := ⟨⟨![0, 0]⟩⟩

def getType (h : TPUHit) : U8 := (h.data 0 &&& 0b11#32).setWidth 8
def getBadSync (h : TPUHit) : Bool := (h.data 0 >>> 2) &&& 0b1#32 != 0#32
def getGain (h : TPUHit) : Bool := (h.data 0 >>> 3) &&& 0b1#32 != 0#32
def getCharge (h : TPUHit) : U16 := ((h.data 0 >>> 4) &&& 0b111111111111#32).setWidth 16
def getPMTID (h : TPUHit) : U16 := ((h.data 0 >>> 16) &&& 0b1111111111111111#32).setWidth 16
def getTime (h : TPUHit) : U32 := h.data 1

def setWord (h : TPUHit) (i : Fin 2) (w : U32) : TPUHit := ⟨Function.update h.data i w⟩

def setType (h : TPUHit) (input : U8) : TPUHit :=
  h.setWord 0 ((h.data 0 &&& 0b11111111111111111111111111111100#32) |||
    (input.setWidth 32 &&& 0b11#32))
def setBadSync (h : TPUHit) (input : Bool) : TPUHit :=
  h.setWord 0 ((h.data 0 &&& 0b11111111111111111111111111111011#32) |||
    ((flag input &&& 0b1#32) <<< 2))
def setGain (h : TPUHit) (input : Bool) : TPUHit :=
  h.setWord 0 ((h.data 0 &&& 0b11111111111111111111111111110111#32) |||
    ((flag input &&& 0b1#32) <<< 3))
def setCharge (h : TPUHit) (input : U16) : TPUHit :=
  h.setWord 0 ((h.data 0 &&& 0b11111111111111110000000000001111#32) |||
    ((input.setWidth 32 &&& 0b111111111111#32) <<< 4))
def setPMTID (h : TPUHit) (input : U16) : TPUHit :=
  h.setWord 0 ((h.data 0 &&& 0b00000000000000001111111111111111#32) ||| (input.setWidth 32 <<< 16))
def setTime (h : TPUHit) (input : U32) : TPUHit := h.setWord 1 input

/-- The constructor, on the memory `uninit` the object is placed in. -/
def new (uninit : TPUHit) (type : U8) (bad_sync gain : Bool) (charge pmt_id : U16) (time : U32) :
    TPUHit :=
  (((((uninit.setType type).setBadSync bad_sync).setGain gain).setCharge charge).setPMTID
    pmt_id).setTime time

end TPUHit

/-- The fields of a reduced hit. -/
inductive TPUField where
  | type | badSync | gain | charge | pmtID | time
  deriving DecidableEq, Repr

namespace TPUField

def word : TPUField → Fin 2
  | .type | .badSync | .gain | .charge | .pmtID => 0
  | .time => 1

def lo : TPUField → Nat
  | .type => 0 | .badSync => 2 | .gain => 3 | .charge => 4 | .pmtID => 16 | .time => 0

def len : TPUField → Nat
  | .type => 2 | .badSync => 1 | .gain => 1 | .charge => 12 | .pmtID => 16 | .time => 32

end TPUField

/-- Where the fields lie. -/
def tpuLayout : Layout TPUField 2 32 where
  word := TPUField.word
  lo := TPUField.lo
  len := TPUField.len
  fits f := by cases f <;> decide
  disjoint f g h := by cases f <;> cases g <;> first | exact absurd rfl h | decide

theorem tpuLayout_covers (i : Fin 2) (b : Nat) (hb : b < 32) :
    ∃ f, tpuLayout.word f = i ∧ tpuLayout.lo f ≤ b ∧ b < tpuLayout.lo f + tpuLayout.len f := by
  obtain rfl | rfl : i = 0 ∨ i = 1 := by omega
  · by_cases h2 : b < 2
    · exact ⟨.type, rfl, Nat.zero_le b, h2⟩
    by_cases h3 : b < 3
    · exact ⟨.badSync, rfl, Nat.le_of_not_lt h2, h3⟩
    by_cases h4 : b < 4
    · exact ⟨.gain, rfl, Nat.le_of_not_lt h3, h4⟩
    by_cases h16 : b < 16
    · exact ⟨.charge, rfl, Nat.le_of_not_lt h4, h16⟩
    · exact ⟨.pmtID, rfl, Nat.le_of_not_lt h16, hb⟩
  · exact ⟨.time, rfl, Nat.zero_le b, hb⟩

namespace TPUHit

/-! ## Each setter writes its own field -/

theorem data_setType (h : TPUHit) (input : U8) :
    (h.setType input).data = tpuLayout.write h.data .type input.toNat := by
  have hw := tpuLayout.update_masked h.data .type input
  rw [show tpuLayout.lo .type = 0 from rfl, BitVec.shiftLeft_zero] at hw
  exact hw

theorem data_setBadSync (h : TPUHit) (input : Bool) :
    (h.setBadSync input).data = tpuLayout.write h.data .badSync input.toNat :=
  (tpuLayout.update_masked h.data .badSync (BitVec.ofBool input)).trans
    (by rw [BitVec.toNat_ofBool])

theorem data_setGain (h : TPUHit) (input : Bool) :
    (h.setGain input).data = tpuLayout.write h.data .gain input.toNat :=
  (tpuLayout.update_masked h.data .gain (BitVec.ofBool input)).trans (by rw [BitVec.toNat_ofBool])

theorem data_setCharge (h : TPUHit) (input : U16) :
    (h.setCharge input).data = tpuLayout.write h.data .charge input.toNat :=
  tpuLayout.update_masked h.data .charge input

theorem data_setPMTID (h : TPUHit) (input : U16) :
    (h.setPMTID input).data = tpuLayout.write h.data .pmtID input.toNat := by
  have hw := tpuLayout.update_masked h.data .pmtID input
  rw [BitField.setWidth_and_mask_of_le input (by decide)] at hw
  exact hw

theorem data_setTime (h : TPUHit) (input : U32) :
    (h.setTime input).data = tpuLayout.write h.data .time input.toNat :=
  tpuLayout.update_whole h.data .time rfl rfl input

/-- The constructor is six field writes. -/
theorem data_new (uninit : TPUHit) (type : U8) (bad_sync gain : Bool) (charge pmt_id : U16)
    (time : U32) :
    (new uninit type bad_sync gain charge pmt_id time).data =
      tpuLayout.writes uninit.data [(.type, type.toNat), (.badSync, bad_sync.toNat),
        (.gain, gain.toNat), (.charge, charge.toNat), (.pmtID, pmt_id.toNat),
        (.time, time.toNat)] := by
  rw [new, data_setTime, data_setPMTID, data_setCharge, data_setGain, data_setBadSync,
    data_setType]
  rfl

/-- The calls of the setters. -/
inductive Setter where
  | type (input : U8) | badSync (input : Bool) | gain (input : Bool) | charge (input : U16)
  | pmtID (input : U16) | time (input : U32)
  deriving DecidableEq, Repr

namespace Setter

/-- What a call does. -/
def apply (h : TPUHit) : Setter → TPUHit
  | type input => h.setType input
  | badSync input => h.setBadSync input
  | gain input => h.setGain input
  | charge input => h.setCharge input
  | pmtID input => h.setPMTID input
  | time input => h.setTime input

/-- The field a call sets, and the value. -/
def field : Setter → TPUField × Nat
  | type input => (.type, input.toNat)
  | badSync input => (.badSync, input.toNat)
  | gain input => (.gain, input.toNat)
  | charge input => (.charge, input.toNat)
  | pmtID input => (.pmtID, input.toNat)
  | time input => (.time, input.toNat)

end Setter

theorem data_apply (h : TPUHit) (c : Setter) :
    (c.apply h).data = tpuLayout.write h.data c.field.1 c.field.2 := by
  cases c with
  | type input => exact data_setType h input
  | badSync input => exact data_setBadSync h input
  | gain input => exact data_setGain h input
  | charge input => exact data_setCharge h input
  | pmtID input => exact data_setPMTID h input
  | time input => exact data_setTime h input

/-! ## Reading a constructed hit -/

/-- What a reduced hit says. -/
structure Fields where
  type : U8
  badSync : Bool
  gain : Bool
  charge : U16
  pmtID : U16
  time : U32
  deriving DecidableEq, Repr

/-- What the getters return. -/
def decode (h : TPUHit) : Fields :=
  ⟨h.getType, h.getBadSync, h.getGain, h.getCharge, h.getPMTID, h.getTime⟩

theorem toNat_getType (h : TPUHit) : h.getType.toNat = tpuLayout.read h.data .type := by
  rw [getType, show 0b11#32 = BitField.mask 32 0 2 from rfl, BitField.and_mask_zero,
    BitVec.setWidth_setWidth_of_le _ (by simp), BitVec.toNat_setWidth_of_le (by simp)]
  rfl

theorem toNat_getBadSync (h : TPUHit) : h.getBadSync.toNat = tpuLayout.read h.data .badSync :=
  (congrArg Bool.toNat (BitField.ushiftRight_and_one_bne_zero 2 (h.data 0) (by simp))).trans
    (BitField.toNat_extractLsb'_one 2 (h.data 0)).symm

theorem toNat_getGain (h : TPUHit) : h.getGain.toNat = tpuLayout.read h.data .gain :=
  (congrArg Bool.toNat (BitField.ushiftRight_and_one_bne_zero 3 (h.data 0) (by simp))).trans
    (BitField.toNat_extractLsb'_one 3 (h.data 0)).symm

theorem toNat_getCharge (h : TPUHit) : h.getCharge.toNat = tpuLayout.read h.data .charge := by
  rw [getCharge, show 0b111111111111#32 = BitField.mask 32 0 12 from rfl,
    BitField.ushiftRight_and_mask, BitVec.setWidth_setWidth_of_le _ (by simp),
    BitVec.toNat_setWidth_of_le (by simp)]
  rfl

theorem toNat_getPMTID (h : TPUHit) : h.getPMTID.toNat = tpuLayout.read h.data .pmtID := by
  rw [getPMTID, show 0b1111111111111111#32 = BitField.mask 32 0 16 from rfl,
    BitField.ushiftRight_and_mask, BitVec.setWidth_setWidth_of_le _ (by simp),
    BitVec.toNat_setWidth_of_le (by simp)]
  rfl

theorem toNat_getTime (h : TPUHit) : h.getTime.toNat = tpuLayout.read h.data .time :=
  congrArg BitVec.toNat BitVec.extractLsb'_eq_self.symm

def get (h : TPUHit) : TPUField → Nat
  | .type => h.getType.toNat
  | .badSync => h.getBadSync.toNat
  | .gain => h.getGain.toNat
  | .charge => h.getCharge.toNat
  | .pmtID => h.getPMTID.toNat
  | .time => h.getTime.toNat

theorem get_eq_read (h : TPUHit) (f : TPUField) : h.get f = tpuLayout.read h.data f := by
  cases f with
  | type => exact h.toNat_getType
  | badSync => exact h.toNat_getBadSync
  | gain => exact h.toNat_getGain
  | charge => exact h.toNat_getCharge
  | pmtID => exact h.toNat_getPMTID
  | time => exact h.toNat_getTime

theorem toNat_bool_inj {a b : Bool} (h : a.toNat = b.toNat) : a = b := by
  cases a <;> cases b <;> first | rfl | exact absurd h (by decide)

/-- The fields are all there is to a reduced hit. -/
theorem decode_injective : Function.Injective decode := by
  intro h h' heq
  have hread : ∀ f, tpuLayout.read h.data f = tpuLayout.read h'.data f := by
    intro f
    rw [← get_eq_read, ← get_eq_read]
    cases f with
    | type => exact congrArg (fun d => d.type.toNat) heq
    | badSync => exact congrArg (fun d => d.badSync.toNat) heq
    | gain => exact congrArg (fun d => d.gain.toNat) heq
    | charge => exact congrArg (fun d => d.charge.toNat) heq
    | pmtID => exact congrArg (fun d => d.pmtID.toNat) heq
    | time => exact congrArg (fun d => d.time.toNat) heq
  exact congrArg TPUHit.mk (tpuLayout.eq_of_read_eq tpuLayout_covers hread)

section New

variable (uninit : TPUHit) (type : U8) (bad_sync gain : Bool) (charge pmt_id : U16) (time : U32)

theorem read_new {f : TPUField} {v : Nat}
    (hv : Layout.lastWrite [(TPUField.type, type.toNat), (.badSync, bad_sync.toNat),
      (.gain, gain.toNat), (.charge, charge.toNat), (.pmtID, pmt_id.toNat),
      (.time, time.toNat)] f = some v) :
    tpuLayout.read (new uninit type bad_sync gain charge pmt_id time).data f = v % 2 ^ f.len := by
  rw [data_new]
  exact tpuLayout.read_writes_of_lastWrite uninit.data hv

theorem getType_new :
    (new uninit type bad_sync gain charge pmt_id time).getType = type &&& 0b11#8 := by
  refine BitVec.eq_of_toNat_eq ?_
  rw [toNat_getType, read_new uninit type bad_sync gain charge pmt_id time rfl,
    show 0b11#8 = BitField.mask 8 0 2 from rfl, BitField.and_mask_zero,
    BitVec.toNat_setWidth_of_le (by simp), BitField.toNat_extractLsb']
  simp [TPUField.len]

theorem getBadSync_new :
    (new uninit type bad_sync gain charge pmt_id time).getBadSync = bad_sync := by
  refine toNat_bool_inj ?_
  rw [toNat_getBadSync, read_new uninit type bad_sync gain charge pmt_id time rfl]
  cases bad_sync <;> rfl

theorem getGain_new : (new uninit type bad_sync gain charge pmt_id time).getGain = gain := by
  refine toNat_bool_inj ?_
  rw [toNat_getGain, read_new uninit type bad_sync gain charge pmt_id time rfl]
  cases gain <;> rfl

theorem getCharge_new :
    (new uninit type bad_sync gain charge pmt_id time).getCharge =
      (charge.extractLsb' 0 12).setWidth 16 := by
  refine BitVec.eq_of_toNat_eq ?_
  rw [toNat_getCharge, read_new uninit type bad_sync gain charge pmt_id time rfl,
    BitVec.toNat_setWidth_of_le (by simp), BitField.toNat_extractLsb']
  simp [TPUField.len]

theorem getPMTID_new : (new uninit type bad_sync gain charge pmt_id time).getPMTID = pmt_id := by
  refine BitVec.eq_of_toNat_eq ?_
  rw [toNat_getPMTID, read_new uninit type bad_sync gain charge pmt_id time rfl]
  exact Nat.mod_eq_of_lt pmt_id.isLt

theorem getTime_new : (new uninit type bad_sync gain charge pmt_id time).getTime = time := by
  refine BitVec.eq_of_toNat_eq ?_
  rw [toNat_getTime, read_new uninit type bad_sync gain charge pmt_id time rfl]
  exact Nat.mod_eq_of_lt time.isLt

/-- **A reduced hit is its six fields**, whatever memory it was constructed in. -/
theorem decode_new :
    (new uninit type bad_sync gain charge pmt_id time).decode =
      ⟨type &&& 0b11#8, bad_sync, gain, (charge.extractLsb' 0 12).setWidth 16, pmt_id, time⟩ := by
  rw [decode, getType_new, getBadSync_new, getGain_new, getCharge_new, getPMTID_new, getTime_new]

/-- **The constructor leaves nothing of the memory it starts from.** -/
theorem new_eq_new (uninit' : TPUHit) :
    new uninit type bad_sync gain charge pmt_id time =
      new uninit' type bad_sync gain charge pmt_id time :=
  decode_injective (by rw [decode_new, decode_new])

end New

end TPUHit
end HkRbu
