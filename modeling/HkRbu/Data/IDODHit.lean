import HkRbu.Data.Buffer
import HkRbu.Lib.Layout
import Mathlib.Data.Fin.VecNotation

/-!
# Hit objects (`RAWIDODHit.h`, `RAWIDODHit.cpp`)

The two words of a hit are read by `RAWrIDODHit`, which overlays the words of a message, and
built by `IDODHit`, which owns a vector of words: the two hit words, then the sub-hits. Both
classes use the same masks and shifts, so the getters are written once over the pair of words
(`HitWords`) and each class applies them to its own.
-/

namespace HkRbu

/-- A `bool` converted to `uint32_t`. -/
def flag (b : Bool) : U32 := (BitVec.ofBool b).setWidth 32

def TYPE_MASK : U32 := 0b11000000000000000000000000000000#32
def BOARD_NUM_MASK : U32 := 0b00100000000000000000000000000000#32
def IDOD_MASK : U32 := 0b00010000000000000000000000000000#32
def CHANNEL_MASK : U32 := 0b00001111000000000000000000000000#32
def COARSE_MASK : U32 := 0b00000000111111110000000000000000#32
def FINE_MASK : U32 := 0b00000000000000001111111111111111#32

def SUB_HITS_MASK : U32 := 0b11111000000000000000000000000000#32
def TDC_ERR_MASK : U32 := 0b00000100000000000000000000000000#32
def PED_MASK : U32 := 0b00000010000000000000000000000000#32
def GAIN_MASK : U32 := 0b00000001000000000000000000000000#32
def CHARGE_MASK : U32 := 0b00000000111111111111000000000000#32
def STOP_MASK : U32 := 0b00000000000000000000111111111111#32

/-- The fields of a hit. -/
inductive HitField where
  | type | boardNum | idod | channel | coarse | fine
  | numSubHits | tdcError | ped | gain | charge | stop
  deriving DecidableEq, Repr

namespace HitField

def word : HitField → Fin 2
  | .type | .boardNum | .idod | .channel | .coarse | .fine => 0
  | .numSubHits | .tdcError | .ped | .gain | .charge | .stop => 1

def lo : HitField → Nat
  | .type => 30 | .boardNum => 29 | .idod => 28 | .channel => 24 | .coarse => 16 | .fine => 0
  | .numSubHits => 27 | .tdcError => 26 | .ped => 25 | .gain => 24 | .charge => 12 | .stop => 0

def len : HitField → Nat
  | .type => 2 | .boardNum => 1 | .idod => 1 | .channel => 4 | .coarse => 8 | .fine => 16
  | .numSubHits => 5 | .tdcError => 1 | .ped => 1 | .gain => 1 | .charge => 12 | .stop => 12

end HitField

/-- Where the fields lie; the two laws are checked over all fields and pairs of fields. -/
def hitLayout : Layout HitField 2 32 where
  word := HitField.word
  lo := HitField.lo
  len := HitField.len
  fits f := by cases f <;> decide
  disjoint f g h := by cases f <;> cases g <;> first | exact absurd rfl h | decide

/-! ## Reading -/

namespace HitWords

variable (d : Fin 2 → U32)

def getType : U8 := (d 0 >>> 30).setWidth 8
def getBoardNum : Bool := (d 0 &&& BOARD_NUM_MASK) >>> 29 != 0#32
def getIDOD : Bool := (d 0 &&& IDOD_MASK) >>> 28 != 0#32
def getChannel : U8 := ((d 0 &&& CHANNEL_MASK) >>> 24).setWidth 8
def getCoarse : U8 := ((d 0 &&& COARSE_MASK) >>> 16).setWidth 8
def getFine : U16 := (d 0 &&& FINE_MASK).setWidth 16
def getNumSubHits : U8 := ((d 1 &&& SUB_HITS_MASK) >>> 27).setWidth 8
def getTDCError : Bool := (d 1 &&& TDC_ERR_MASK) >>> 26 != 0#32
def getPed : Bool := (d 1 &&& PED_MASK) >>> 25 != 0#32
def getGain : Bool := (d 1 &&& GAIN_MASK) >>> 24 != 0#32
def getCharge : U16 := ((d 1 &&& CHARGE_MASK) >>> 12).setWidth 16
def getStop : U16 := (d 1 &&& STOP_MASK).setWidth 16
def getSize : Nat := 64 + if (getNumSubHits d).toNat > 15 then 480 else (getNumSubHits d).toNat * 32
def getWords : Nat := 2 + if (getNumSubHits d).toNat > 15 then 15 else (getNumSubHits d).toNat

theorem getType_eq : getType d = ((d 0).extractLsb' 30 2).setWidth 8 := by
  rw [getType, BitField.ushiftRight_eq_extractLsb' 30 2 _ (by simp),
    BitVec.setWidth_setWidth_of_le _ (by simp)]

theorem getBoardNum_eq : getBoardNum d = (d 0).getLsbD 29 :=
  BitField.and_mask_ushiftRight_bne_zero 29 (d 0) (by simp)

theorem getIDOD_eq : getIDOD d = (d 0).getLsbD 28 :=
  BitField.and_mask_ushiftRight_bne_zero 28 (d 0) (by simp)

theorem getChannel_eq : getChannel d = ((d 0).extractLsb' 24 4).setWidth 8 :=
  BitField.setWidth_and_mask_ushiftRight 24 4 8 (d 0) (by simp)

theorem getCoarse_eq : getCoarse d = (d 0).extractLsb' 16 8 := by
  rw [getCoarse, show COARSE_MASK = BitField.mask 32 16 8 from rfl,
    BitField.setWidth_and_mask_ushiftRight 16 8 8 (d 0) (by simp), BitVec.setWidth_eq]

theorem getFine_eq : getFine d = (d 0).extractLsb' 0 16 := by
  rw [getFine, show FINE_MASK = BitField.mask 32 0 16 from rfl, BitField.and_mask_zero,
    BitVec.setWidth_setWidth_of_le _ (by simp), BitVec.setWidth_eq]

theorem getNumSubHits_eq : getNumSubHits d = ((d 1).extractLsb' 27 5).setWidth 8 :=
  BitField.setWidth_and_mask_ushiftRight 27 5 8 (d 1) (by simp)

theorem getTDCError_eq : getTDCError d = (d 1).getLsbD 26 :=
  BitField.and_mask_ushiftRight_bne_zero 26 (d 1) (by simp)

theorem getPed_eq : getPed d = (d 1).getLsbD 25 :=
  BitField.and_mask_ushiftRight_bne_zero 25 (d 1) (by simp)

theorem getGain_eq : getGain d = (d 1).getLsbD 24 :=
  BitField.and_mask_ushiftRight_bne_zero 24 (d 1) (by simp)

theorem getCharge_eq : getCharge d = ((d 1).extractLsb' 12 12).setWidth 16 :=
  BitField.setWidth_and_mask_ushiftRight 12 12 16 (d 1) (by simp)

theorem getStop_eq : getStop d = ((d 1).extractLsb' 0 12).setWidth 16 := by
  rw [getStop, show STOP_MASK = BitField.mask 32 0 12 from rfl, BitField.and_mask_zero,
    BitVec.setWidth_setWidth_of_le _ (by simp)]

theorem getWords_eq : getWords d = 2 + min (getNumSubHits d).toNat 15 := by
  rw [getWords]
  split <;> omega

def get : HitField → Nat
  | .type => (getType d).toNat
  | .boardNum => (getBoardNum d).toNat
  | .idod => (getIDOD d).toNat
  | .channel => (getChannel d).toNat
  | .coarse => (getCoarse d).toNat
  | .fine => (getFine d).toNat
  | .numSubHits => (getNumSubHits d).toNat
  | .tdcError => (getTDCError d).toNat
  | .ped => (getPed d).toNat
  | .gain => (getGain d).toNat
  | .charge => (getCharge d).toNat
  | .stop => (getStop d).toNat

/-- **Each getter reads its own field**, and returns it in an integer wide enough for it. -/
theorem get_eq_read (f : HitField) : get d f = hitLayout.read d f := by
  cases f with
  | type => rw [get, getType_eq, BitVec.toNat_setWidth_of_le (by simp)]; rfl
  | boardNum => rw [get, getBoardNum_eq, ← BitField.toNat_extractLsb'_one]; rfl
  | idod => rw [get, getIDOD_eq, ← BitField.toNat_extractLsb'_one]; rfl
  | channel => rw [get, getChannel_eq, BitVec.toNat_setWidth_of_le (by simp)]; rfl
  | coarse => rw [get, getCoarse_eq]; rfl
  | fine => rw [get, getFine_eq]; rfl
  | numSubHits => rw [get, getNumSubHits_eq, BitVec.toNat_setWidth_of_le (by simp)]; rfl
  | tdcError => rw [get, getTDCError_eq, ← BitField.toNat_extractLsb'_one]; rfl
  | ped => rw [get, getPed_eq, ← BitField.toNat_extractLsb'_one]; rfl
  | gain => rw [get, getGain_eq, ← BitField.toNat_extractLsb'_one]; rfl
  | charge => rw [get, getCharge_eq, BitVec.toNat_setWidth_of_le (by simp)]; rfl
  | stop => rw [get, getStop_eq, BitVec.toNat_setWidth_of_le (by simp)]; rfl

end HitWords

/-- `RAWIDODHit`: a pointer to the words of a hit; `data i` is the word it reads at index `i`. -/
structure RAWIDODHit where
  data : Nat → U32

namespace RAWIDODHit

/-- `data[0]` and `data[1]`. -/
def words (h : RAWIDODHit) (i : Fin 2) : U32 := h.data i

def getType (h : RAWIDODHit) : U8 := HitWords.getType h.words
def getBoardNum (h : RAWIDODHit) : Bool := HitWords.getBoardNum h.words
def getIDOD (h : RAWIDODHit) : Bool := HitWords.getIDOD h.words
def getChannel (h : RAWIDODHit) : U8 := HitWords.getChannel h.words
def getCoarse (h : RAWIDODHit) : U8 := HitWords.getCoarse h.words
def getFine (h : RAWIDODHit) : U16 := HitWords.getFine h.words
def getNumSubHits (h : RAWIDODHit) : U8 := HitWords.getNumSubHits h.words
def getTDCError (h : RAWIDODHit) : Bool := HitWords.getTDCError h.words
def getPed (h : RAWIDODHit) : Bool := HitWords.getPed h.words
def getGain (h : RAWIDODHit) : Bool := HitWords.getGain h.words
def getCharge (h : RAWIDODHit) : U16 := HitWords.getCharge h.words
def getStop (h : RAWIDODHit) : U16 := HitWords.getStop h.words
def getSize (h : RAWIDODHit) : Nat := HitWords.getSize h.words
def getWords (h : RAWIDODHit) : Nat := HitWords.getWords h.words

def get (h : RAWIDODHit) : HitField → Nat
  | .type => h.getType.toNat
  | .boardNum => h.getBoardNum.toNat
  | .idod => h.getIDOD.toNat
  | .channel => h.getChannel.toNat
  | .coarse => h.getCoarse.toNat
  | .fine => h.getFine.toNat
  | .numSubHits => h.getNumSubHits.toNat
  | .tdcError => h.getTDCError.toNat
  | .ped => h.getPed.toNat
  | .gain => h.getGain.toNat
  | .charge => h.getCharge.toNat
  | .stop => h.getStop.toNat

theorem get_eq (h : RAWIDODHit) (f : HitField) : h.get f = HitWords.get h.words f := by
  cases f <;> rfl

end RAWIDODHit

/-- `RAWrIDODHit`: the two words of a hit, overlaid on a message by `reinterpret_cast`. -/
structure RAWrIDODHit where
  data : Fin 2 → U32

namespace RAWrIDODHit

/-- `reinterpret_cast<RAWrIDODHit*>(&words[i])`. -/
def overlay (words : Buffer) (i : Nat) : RAWrIDODHit :=
  ⟨![words.wordAt i, words.wordAt (i + 1)]⟩

def getType (h : RAWrIDODHit) : U8 := HitWords.getType h.data
def getBoardNum (h : RAWrIDODHit) : Bool := HitWords.getBoardNum h.data
def getIDOD (h : RAWrIDODHit) : Bool := HitWords.getIDOD h.data
def getChannel (h : RAWrIDODHit) : U8 := HitWords.getChannel h.data
def getCoarse (h : RAWrIDODHit) : U8 := HitWords.getCoarse h.data
def getFine (h : RAWrIDODHit) : U16 := HitWords.getFine h.data
def getNumSubHits (h : RAWrIDODHit) : U8 := HitWords.getNumSubHits h.data
def getTDCError (h : RAWrIDODHit) : Bool := HitWords.getTDCError h.data
def getPed (h : RAWrIDODHit) : Bool := HitWords.getPed h.data
def getGain (h : RAWrIDODHit) : Bool := HitWords.getGain h.data
def getCharge (h : RAWrIDODHit) : U16 := HitWords.getCharge h.data
def getStop (h : RAWrIDODHit) : U16 := HitWords.getStop h.data
def getSize (h : RAWrIDODHit) : Nat := HitWords.getSize h.data
def getWords (h : RAWrIDODHit) : Nat := HitWords.getWords h.data

def get (h : RAWrIDODHit) : HitField → Nat
  | .type => h.getType.toNat
  | .boardNum => h.getBoardNum.toNat
  | .idod => h.getIDOD.toNat
  | .channel => h.getChannel.toNat
  | .coarse => h.getCoarse.toNat
  | .fine => h.getFine.toNat
  | .numSubHits => h.getNumSubHits.toNat
  | .tdcError => h.getTDCError.toNat
  | .ped => h.getPed.toNat
  | .gain => h.getGain.toNat
  | .charge => h.getCharge.toNat
  | .stop => h.getStop.toNat

theorem get_eq (h : RAWrIDODHit) (f : HitField) : h.get f = HitWords.get h.data f := by
  cases f <;> rfl

end RAWrIDODHit

/-! ## Building -/

/-- `std::out_of_range`, as `at` throws it. -/
inductive OutOfRange where
  | outOfRange
  deriving DecidableEq, Repr

/-- `IDODHit`: the vector of a hit's words. It never has fewer than the two hit words, so
    `data.at(0)` and `data.at(1)` do not throw. -/
structure IDODHit where
  data : List U32
  two_le : 2 ≤ data.length

namespace IDODHit

/-- `data.at(0)`, `data.at(1)`. -/
def words (h : IDODHit) (i : Fin 2) : U32 := h.data.get ⟨i, by have := h.two_le; omega⟩

/-- An assignment to `data.at(i)`. -/
def setWord (h : IDODHit) (i : Fin 2) (w : U32) : IDODHit :=
  ⟨h.data.set i w, by simpa using h.two_le⟩

/-- `data.resize(n)`: words that are added are 0. -/
def resize (h : IDODHit) (n : Nat) (hn : 2 ≤ n) : IDODHit :=
  ⟨h.data.take n ++ List.replicate (n - h.data.length) 0, by
    simp only [List.length_append, List.length_take, List.length_replicate]; omega⟩

def getType (h : IDODHit) : U8 := HitWords.getType h.words
def getBoardNum (h : IDODHit) : Bool := HitWords.getBoardNum h.words
def getIDOD (h : IDODHit) : Bool := HitWords.getIDOD h.words
def getChannel (h : IDODHit) : U8 := HitWords.getChannel h.words
def getCoarse (h : IDODHit) : U8 := HitWords.getCoarse h.words
def getFine (h : IDODHit) : U16 := HitWords.getFine h.words
def getNumSubHits (h : IDODHit) : U8 := HitWords.getNumSubHits h.words
def getTDCError (h : IDODHit) : Bool := HitWords.getTDCError h.words
def getPed (h : IDODHit) : Bool := HitWords.getPed h.words
def getGain (h : IDODHit) : Bool := HitWords.getGain h.words
def getCharge (h : IDODHit) : U16 := HitWords.getCharge h.words
def getStop (h : IDODHit) : U16 := HitWords.getStop h.words
def getSize (h : IDODHit) : Nat := HitWords.getSize h.words
def getWords (h : IDODHit) : Nat := HitWords.getWords h.words
def getData (h : IDODHit) : List U32 := h.data

/-- `&data.at(i)`, which throws `std::out_of_range` past the end; a pointer into the vector is the
    index it points at. -/
def dataAt (h : IDODHit) (i : Nat) : Except OutOfRange Nat :=
  if i < h.data.length then .ok i else .error .outOfRange

/-- `IDODHit::GetSubHits`; `none` is a null pointer. -/
def getSubHits (h : IDODHit) : Except OutOfRange (Option Nat) :=
  if h.getNumSubHits = 0 then .ok none else (h.dataAt 3).map some

def get (h : IDODHit) : HitField → Nat
  | .type => h.getType.toNat
  | .boardNum => h.getBoardNum.toNat
  | .idod => h.getIDOD.toNat
  | .channel => h.getChannel.toNat
  | .coarse => h.getCoarse.toNat
  | .fine => h.getFine.toNat
  | .numSubHits => h.getNumSubHits.toNat
  | .tdcError => h.getTDCError.toNat
  | .ped => h.getPed.toNat
  | .gain => h.getGain.toNat
  | .charge => h.getCharge.toNat
  | .stop => h.getStop.toNat

theorem get_eq (h : IDODHit) (f : HitField) : h.get f = HitWords.get h.words f := by
  cases f <;> rfl

def setType (h : IDODHit) (in_ : U8) : IDODHit :=
  h.setWord 0 ((h.words 0 &&& ~~~TYPE_MASK) ||| ((in_.setWidth 32 &&& 0b11#32) <<< 30))
def setBoardNum (h : IDODHit) (in_ : Bool) : IDODHit :=
  h.setWord 0 ((h.words 0 &&& ~~~BOARD_NUM_MASK) ||| ((flag in_ &&& 0b1#32) <<< 29))
def setIDOD (h : IDODHit) (in_ : Bool) : IDODHit :=
  h.setWord 0 ((h.words 0 &&& ~~~IDOD_MASK) ||| ((flag in_ &&& 0b1#32) <<< 28))
def setChannel (h : IDODHit) (in_ : U8) : IDODHit :=
  h.setWord 0 ((h.words 0 &&& ~~~CHANNEL_MASK) ||| ((in_.setWidth 32 &&& 0b1111#32) <<< 24))
def setCoarse (h : IDODHit) (in_ : U8) : IDODHit :=
  h.setWord 0 ((h.words 0 &&& ~~~COARSE_MASK) ||| (in_.setWidth 32 <<< 16))
def setFine (h : IDODHit) (in_ : U16) : IDODHit :=
  h.setWord 0 ((h.words 0 &&& ~~~FINE_MASK) ||| in_.setWidth 32)
def setNumSubHits (h : IDODHit) (in_ : U8) : IDODHit :=
  let h := h.resize (if in_.toNat > 15 then 17 else 2 + in_.toNat) (by split <;> omega)
  h.setWord 1 ((h.words 1 &&& ~~~SUB_HITS_MASK) ||| ((in_.setWidth 32 &&& 0b11111#32) <<< 27))
def setTDCError (h : IDODHit) (in_ : Bool) : IDODHit :=
  h.setWord 1 ((h.words 1 &&& ~~~TDC_ERR_MASK) ||| ((flag in_ &&& 0b1#32) <<< 26))
def setPed (h : IDODHit) (in_ : Bool) : IDODHit :=
  h.setWord 1 ((h.words 1 &&& ~~~PED_MASK) ||| ((flag in_ &&& 0b1#32) <<< 25))
def setGain (h : IDODHit) (in_ : Bool) : IDODHit :=
  h.setWord 1 ((h.words 1 &&& ~~~GAIN_MASK) ||| ((flag in_ &&& 0b1#32) <<< 24))
def setCharge (h : IDODHit) (in_ : U16) : IDODHit :=
  h.setWord 1 ((h.words 1 &&& ~~~CHARGE_MASK) ||| ((in_.setWidth 32 &&& 0b111111111111#32) <<< 12))
def setStop (h : IDODHit) (in_ : U16) : IDODHit :=
  h.setWord 1 ((h.words 1 &&& ~~~STOP_MASK) ||| (in_.setWidth 32 &&& 0b111111111111#32))

/-- `IDODHit::IDODHit()`. -/
def new : IDODHit := setType ⟨[0, 0], Nat.le_refl 2⟩ 0b11#8

/-- `IDODHit::IDODHit(coarse, fine)`; `r₀` and `r₁` are the two `rand() % UINT_MAX`. -/
def newAt (r₀ r₁ : U32) (coarse : U8) (fine : U16) : IDODHit :=
  ((((⟨[r₀, r₁], Nat.le_refl 2⟩ : IDODHit).setCoarse coarse).setFine fine).setNumSubHits
    0).setType 0b11#8

theorem words_setWord (h : IDODHit) (i : Fin 2) (w : U32) :
    (h.setWord i w).words = Function.update h.words i w := by
  funext j
  by_cases hij : j = i
  · subst hij
    simp [words, setWord]
  · have hne : (i : Nat) ≠ j := fun he => hij (Fin.ext he.symm)
    simp [words, setWord, Function.update_of_ne hij, List.getElem_set_ne hne]

theorem words_resize (h : IDODHit) (n : Nat) (hn : 2 ≤ n) : (h.resize n hn).words = h.words := by
  funext i
  have hi : (i : Nat) < (h.data.take n).length := by
    have := h.two_le
    rw [List.length_take]
    omega
  simp only [words, resize, List.get_eq_getElem]
  rw [List.getElem_append_left hi, List.getElem_take]

/-! ### Setter calls

A hit is built by a constructor followed by any calls of the public setters. -/

/-- One call of a public setter. -/
inductive Setter where
  | boardNum (in_ : Bool) | idod (in_ : Bool) | channel (in_ : U8) | coarse (in_ : U8)
  | fine (in_ : U16) | numSubHits (in_ : U8) | tdcError (in_ : Bool) | ped (in_ : Bool)
  | gain (in_ : Bool) | charge (in_ : U16) | stop (in_ : U16)
  deriving DecidableEq, Repr

namespace Setter

/-- What a call does. -/
def apply (h : IDODHit) : Setter → IDODHit
  | boardNum in_ => h.setBoardNum in_
  | idod in_ => h.setIDOD in_
  | channel in_ => h.setChannel in_
  | coarse in_ => h.setCoarse in_
  | fine in_ => h.setFine in_
  | numSubHits in_ => h.setNumSubHits in_
  | tdcError in_ => h.setTDCError in_
  | ped in_ => h.setPed in_
  | gain in_ => h.setGain in_
  | charge in_ => h.setCharge in_
  | stop in_ => h.setStop in_

/-- The field a call sets, and the value. -/
def field : Setter → HitField × Nat
  | boardNum in_ => (.boardNum, in_.toNat)
  | idod in_ => (.idod, in_.toNat)
  | channel in_ => (.channel, in_.toNat)
  | coarse in_ => (.coarse, in_.toNat)
  | fine in_ => (.fine, in_.toNat)
  | numSubHits in_ => (.numSubHits, in_.toNat)
  | tdcError in_ => (.tdcError, in_.toNat)
  | ped in_ => (.ped, in_.toNat)
  | gain in_ => (.gain, in_.toNat)
  | charge in_ => (.charge, in_.toNat)
  | stop in_ => (.stop, in_.toNat)

end Setter

/-- Calls of the setters, one after the other. -/
def build (h : IDODHit) (calls : List Setter) : IDODHit := calls.foldl Setter.apply h

theorem words_setWord_masked {k : Nat} (h : IDODHit) (f : HitField) (v : BitVec k) :
    (h.setWord f.word ((h.words f.word &&& ~~~(BitField.mask 32 f.lo f.len)) |||
      ((v.setWidth 32 &&& BitField.mask 32 0 f.len) <<< f.lo))).words =
      hitLayout.write h.words f v.toNat := by
  rw [words_setWord]
  exact hitLayout.update_masked h.words f v

theorem words_setWord_flag (h : IDODHit) (f : HitField) (b : Bool) :
    (h.setWord f.word ((h.words f.word &&& ~~~(BitField.mask 32 f.lo f.len)) |||
      ((flag b &&& BitField.mask 32 0 f.len) <<< f.lo))).words =
      hitLayout.write h.words f b.toNat := by
  rw [flag, words_setWord_masked, BitVec.toNat_ofBool]

theorem words_setType (h : IDODHit) (in_ : U8) :
    (h.setType in_).words = hitLayout.write h.words .type in_.toNat :=
  words_setWord_masked h .type in_

/-- **A setter writes its own field and no other.** -/
theorem words_apply (h : IDODHit) (s : Setter) :
    (s.apply h).words = hitLayout.write h.words s.field.1 s.field.2 := by
  cases s with
  | boardNum in_ => exact words_setWord_flag h .boardNum in_
  | idod in_ => exact words_setWord_flag h .idod in_
  | channel in_ => exact words_setWord_masked h .channel in_
  | coarse in_ =>
    have hw := words_setWord_masked h .coarse in_
    rw [BitField.setWidth_and_mask_of_le in_ (by decide)] at hw
    exact hw
  | fine in_ =>
    have hw := words_setWord_masked h .fine in_
    rw [BitField.setWidth_and_mask_of_le in_ (by decide), show HitField.fine.lo = 0 from rfl,
      BitVec.shiftLeft_zero] at hw
    exact hw
  | numSubHits in_ =>
    -- The resize only touches the sub-hits; the count then goes into the second word.
    have hw := words_setWord_masked (h.resize (if in_.toNat > 15 then 17 else 2 + in_.toNat)
      (by split <;> omega)) .numSubHits in_
    exact hw.trans (by rw [words_resize]; rfl)
  | tdcError in_ => exact words_setWord_flag h .tdcError in_
  | ped in_ => exact words_setWord_flag h .ped in_
  | gain in_ => exact words_setWord_flag h .gain in_
  | charge in_ => exact words_setWord_masked h .charge in_
  | stop in_ =>
    have hw := words_setWord_masked h .stop in_
    rw [show HitField.stop.lo = 0 from rfl, BitVec.shiftLeft_zero] at hw
    exact hw

theorem words_build (h : IDODHit) (calls : List Setter) :
    (h.build calls).words = hitLayout.writes h.words (calls.map Setter.field) :=
  Layout.words_foldl words_apply h calls

/-! ### Constructed hits -/

/-- The hit has just been constructed. -/
inductive Constructed : IDODHit → Prop where
  | default : Constructed new
  | time (r₀ r₁ : U32) (coarse : U8) (fine : U16) : Constructed (newAt r₀ r₁ coarse fine)

/-- No setter sets the type. -/
theorem lastWrite_type (calls : List Setter) :
    Layout.lastWrite (calls.map Setter.field) .type = none := by
  induction calls with
  | nil => rfl
  | cons s calls ih =>
    rw [List.map_cons, Layout.lastWrite, ih]
    cases s <;> rfl

theorem read_type_setType (h : IDODHit) (in_ : U8) :
    hitLayout.read (h.setType in_).words .type = in_.toNat % 4 := by
  rw [words_setType]
  exact hitLayout.read_write_self h.words .type in_.toNat

/-- **A constructed hit has the type of a hit**, whatever is set in it. -/
theorem read_type_build {h : IDODHit} (hc : Constructed h) (calls : List Setter) :
    hitLayout.read (h.build calls).words .type = 0b11 := by
  rw [words_build, Layout.read_writes, lastWrite_type]
  cases hc with
  | default => exact read_type_setType _ _
  | time => exact read_type_setType _ _

theorem length_setWord (h : IDODHit) (i : Fin 2) (w : U32) :
    (h.setWord i w).data.length = h.data.length := by
  simp [setWord]

theorem length_resize (h : IDODHit) (n : Nat) (hn : 2 ≤ n) : (h.resize n hn).data.length = n := by
  simp only [resize, List.length_append, List.length_take, List.length_replicate]
  omega

theorem length_apply (h : IDODHit) (s : Setter) :
    (s.apply h).data.length =
      if s.field.1 = .numSubHits then 2 + min s.field.2 15 else h.data.length := by
  cases s with
  | numSubHits in_ =>
    refine (length_setWord _ _ _).trans ((length_resize _ _ _).trans ?_)
    show (if in_.toNat > 15 then 17 else 2 + in_.toNat) = 2 + min in_.toNat 15
    split <;> omega
  | _ => exact length_setWord _ _ _

theorem length_build (h : IDODHit) (calls : List Setter) :
    (h.build calls).data.length =
      match Layout.lastWrite (calls.map Setter.field) .numSubHits with
      | some n => 2 + min n 15
      | none => h.data.length := by
  induction calls generalizing h with
  | nil => rfl
  | cons s calls ih =>
    refine (ih (s.apply h)).trans ?_
    rw [List.map_cons, Layout.lastWrite]
    cases Layout.lastWrite (calls.map Setter.field) .numSubHits with
    | some n => rfl
    | none =>
      show (s.apply h).data.length = _
      rw [length_apply]
      split <;> rfl

/-- Write the sub-hit words, the `i`-th one with `v i`. -/
def fillSubHits (h : IDODHit) (v : Nat → U32) : IDODHit :=
  ⟨h.data.mapIdx fun i w => if i < 2 then w else v (i - 2), by simpa using h.two_le⟩

theorem words_fillSubHits (h : IDODHit) (v : Nat → U32) : (h.fillSubHits v).words = h.words := by
  funext i
  simp only [words, fillSubHits, List.get_eq_getElem, List.getElem_mapIdx, if_pos i.isLt]

theorem length_fillSubHits (h : IDODHit) (v : Nat → U32) :
    (h.fillSubHits v).data.length = h.data.length := by
  simp [fillSubHits]

theorem data_eq (h : IDODHit) : h.data = h.words 0 :: h.words 1 :: h.data.drop 2 := by
  obtain ⟨data, two_le⟩ := h
  match data, two_le with
  | _ :: _ :: _, _ => rfl

end IDODHit
end HkRbu
