import HkRbu.Data.IDODSync

/-!
# The message header and the remaining objects

`DAQHeader` overlays the header part of a message, or is filled by the simulation through its
setters; `RAWDAQHeader` reads the same words through a pointer (`RAWDAQHeader.cpp`). Of the ped,
error and special classes the decoder uses only the static `GetCoarse` and `GetWords`.
-/

namespace HkRbu

def CAR_ID_MASK : U32 := 0b00111111111111000000000000000000#32
def WORDS_MASK : U32 := 0b00000000000000111111111111111000#32
def FLAGS_MASK : U32 := 0b00000000000000000000000000000111#32

/-- The fields of the header of a message. -/
inductive DAQField where
  | messageNum | coarseCounter | type | cardID | numWords | flags
  deriving DecidableEq, Repr

namespace DAQField

def word : DAQField → Fin 3
  | .messageNum => 0
  | .coarseCounter => 1
  | .type | .cardID | .numWords | .flags => 2

def lo : DAQField → Nat
  | .messageNum => 0 | .coarseCounter => 0
  | .type => 30 | .cardID => 18 | .numWords => 3 | .flags => 0

def len : DAQField → Nat
  | .messageNum => 32 | .coarseCounter => 32
  | .type => 2 | .cardID => 12 | .numWords => 15 | .flags => 3

end DAQField

/-- Where the fields lie. -/
def daqLayout : Layout DAQField 3 32 where
  word := DAQField.word
  lo := DAQField.lo
  len := DAQField.len
  fits f := by cases f <;> decide
  disjoint f g h := by cases f <;> cases g <;> first | exact absurd rfl h | decide

/-- `DAQHeader`: the three words of the header part. -/
structure DAQHeader where
  data : Fin 3 → U32

namespace DAQHeader

/-- `reinterpret_cast<DAQHeader*>(messages->at(1).data())`. -/
def overlay (part : Buffer) : DAQHeader := ⟨![part.wordAt 0, part.wordAt 1, part.wordAt 2]⟩

def getMessageNum (h : DAQHeader) : U32 := h.data 0
def getCoarseCounter (h : DAQHeader) : U32 := h.data 1
def getType (h : DAQHeader) : U8 := (h.data 2 >>> 30).setWidth 8
def getCardID (h : DAQHeader) : U16 := ((h.data 2 &&& CAR_ID_MASK) >>> 18).setWidth 16
def getNumWords (h : DAQHeader) : U16 := ((h.data 2 &&& WORDS_MASK) >>> 3).setWidth 16
def getFlags (h : DAQHeader) : U8 := (h.data 2 &&& FLAGS_MASK).setWidth 8

/-- The words `GetData()[0]` to `GetData()[2]`. -/
def getData (h : DAQHeader) : List U32 := [h.data 0, h.data 1, h.data 2]

def get (h : DAQHeader) : DAQField → Nat
  | .messageNum => h.getMessageNum.toNat
  | .coarseCounter => h.getCoarseCounter.toNat
  | .type => h.getType.toNat
  | .cardID => h.getCardID.toNat
  | .numWords => h.getNumWords.toNat
  | .flags => h.getFlags.toNat

theorem getType_eq (h : DAQHeader) : h.getType = ((h.data 2).extractLsb' 30 2).setWidth 8 := by
  rw [getType, BitField.ushiftRight_eq_extractLsb' 30 2 _ (by simp),
    BitVec.setWidth_setWidth_of_le _ (by simp)]

theorem getCardID_eq (h : DAQHeader) : h.getCardID = ((h.data 2).extractLsb' 18 12).setWidth 16 :=
  BitField.setWidth_and_mask_ushiftRight 18 12 16 (h.data 2) (by simp)

theorem getNumWords_eq (h : DAQHeader) :
    h.getNumWords = ((h.data 2).extractLsb' 3 15).setWidth 16 :=
  BitField.setWidth_and_mask_ushiftRight 3 15 16 (h.data 2) (by simp)

theorem getFlags_eq (h : DAQHeader) : h.getFlags = ((h.data 2).extractLsb' 0 3).setWidth 8 := by
  rw [getFlags, show FLAGS_MASK = BitField.mask 32 0 3 from rfl, BitField.and_mask_zero,
    BitVec.setWidth_setWidth_of_le _ (by simp)]

theorem get_eq_read (h : DAQHeader) (f : DAQField) : h.get f = daqLayout.read h.data f := by
  cases f with
  | messageNum => exact congrArg BitVec.toNat BitVec.extractLsb'_eq_self.symm
  | coarseCounter => exact congrArg BitVec.toNat BitVec.extractLsb'_eq_self.symm
  | type => rw [get, getType_eq, BitVec.toNat_setWidth_of_le (by simp)]; rfl
  | cardID => rw [get, getCardID_eq, BitVec.toNat_setWidth_of_le (by simp)]; rfl
  | numWords => rw [get, getNumWords_eq, BitVec.toNat_setWidth_of_le (by simp)]; rfl
  | flags => rw [get, getFlags_eq, BitVec.toNat_setWidth_of_le (by simp)]; rfl

/-! ### Setters

As in `IDODSync`, a promoted `int` is converted back to 32 bits. -/

def setWord (h : DAQHeader) (i : Fin 3) (w : U32) : DAQHeader := ⟨Function.update h.data i w⟩

def setMessageNum (h : DAQHeader) (in_ : U32) : DAQHeader := h.setWord 0 in_
def setCoarseCounter (h : DAQHeader) (in_ : U32) : DAQHeader := h.setWord 1 in_
def setType (h : DAQHeader) (in_ : U8) : DAQHeader :=
  h.setWord 2 ((h.data 2 &&& ~~~TYPE_MASK) ||| ((in_.setWidth 32 &&& 0b11#32) <<< 30))
def setCardID (h : DAQHeader) (in_ : U16) : DAQHeader :=
  h.setWord 2 ((h.data 2 &&& ~~~CAR_ID_MASK) ||| ((in_.setWidth 32 &&& 0b111111111111#32) <<< 18))
def setNumWords (h : DAQHeader) (in_ : U16) : DAQHeader :=
  h.setWord 2 ((h.data 2 &&& ~~~WORDS_MASK) ||| ((in_.setWidth 32 &&& 0b111111111111111#32) <<< 3))
def setFlags (h : DAQHeader) (in_ : U8) : DAQHeader :=
  h.setWord 2 ((h.data 2 &&& ~~~FLAGS_MASK) ||| (in_.setWidth 32 &&& 0b111#32))

/-- The calls of the public setters. -/
inductive Setter where
  | messageNum (in_ : U32) | coarseCounter (in_ : U32) | type (in_ : U8) | cardID (in_ : U16)
  | numWords (in_ : U16) | flags (in_ : U8)
  deriving DecidableEq, Repr

namespace Setter

/-- What a call does. -/
def apply (h : DAQHeader) : Setter → DAQHeader
  | messageNum in_ => h.setMessageNum in_
  | coarseCounter in_ => h.setCoarseCounter in_
  | type in_ => h.setType in_
  | cardID in_ => h.setCardID in_
  | numWords in_ => h.setNumWords in_
  | flags in_ => h.setFlags in_

/-- The field a call sets, and the value. -/
def field : Setter → DAQField × Nat
  | messageNum in_ => (.messageNum, in_.toNat)
  | coarseCounter in_ => (.coarseCounter, in_.toNat)
  | type in_ => (.type, in_.toNat)
  | cardID in_ => (.cardID, in_.toNat)
  | numWords in_ => (.numWords, in_.toNat)
  | flags in_ => (.flags, in_.toNat)

end Setter

theorem data_apply (h : DAQHeader) (c : Setter) :
    (c.apply h).data = daqLayout.write h.data c.field.1 c.field.2 := by
  cases c with
  | messageNum in_ => exact daqLayout.update_whole h.data .messageNum rfl rfl in_
  | coarseCounter in_ => exact daqLayout.update_whole h.data .coarseCounter rfl rfl in_
  | type in_ => exact daqLayout.update_masked h.data .type in_
  | cardID in_ => exact daqLayout.update_masked h.data .cardID in_
  | numWords in_ => exact daqLayout.update_masked h.data .numWords in_
  | flags in_ =>
    have hw := daqLayout.update_masked h.data .flags in_
    rw [show daqLayout.lo .flags = 0 from rfl, BitVec.shiftLeft_zero] at hw
    exact hw

end DAQHeader

/-- `RAWDAQHeader`: a pointer to the words of a header; `data i` is the word it reads at index
    `i`. -/
structure RAWDAQHeader where
  data : Nat → U32

namespace RAWDAQHeader

def getMessageNum (h : RAWDAQHeader) : U32 := h.data 0
def getCoarseCounter (h : RAWDAQHeader) : U32 := h.data 1
def getType (h : RAWDAQHeader) : U8 := (h.data 2 >>> 30).setWidth 8
def getCardID (h : RAWDAQHeader) : U16 := ((h.data 2 &&& CAR_ID_MASK) >>> 18).setWidth 16
def getNumWords (h : RAWDAQHeader) : U16 := ((h.data 2 &&& WORDS_MASK) >>> 3).setWidth 16
def getFlags (h : RAWDAQHeader) : U8 := (h.data 2 &&& FLAGS_MASK).setWidth 8

def get (h : RAWDAQHeader) : DAQField → Nat
  | .messageNum => h.getMessageNum.toNat
  | .coarseCounter => h.getCoarseCounter.toNat
  | .type => h.getType.toNat
  | .cardID => h.getCardID.toNat
  | .numWords => h.getNumWords.toNat
  | .flags => h.getFlags.toNat

theorem get_eq (h : RAWDAQHeader) (f : DAQField) :
    h.get f = DAQHeader.get ⟨fun i => h.data i⟩ f := by
  cases f <;> rfl

end RAWDAQHeader

namespace RAWIDODPed

def getCoarse (word : Nat → U32) : U32 := word 0 &&& 0b111111111111111111111111#32
def getWords : Nat := 2

theorem toNat_getCoarse_lt (word : Nat → U32) : (getCoarse word).toNat < 2 ^ 24 := by
  rw [getCoarse, show 0b111111111111111111111111#32 = BitField.mask 32 0 24 from rfl,
    BitField.and_mask_zero, BitVec.toNat_setWidth_of_le (by simp)]
  exact BitVec.isLt _

end RAWIDODPed

namespace RAWIDODError

def getCoarse (word : Nat → U32) : U32 := word 1
def getWords : Nat := 2

end RAWIDODError

namespace RAWIDODSpecial

def getCoarse (word : Nat → U32) : U32 := word 1
def getWords : Nat := 2

end RAWIDODSpecial
end HkRbu
