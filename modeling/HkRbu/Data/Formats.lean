import HkRbu.Data.DAQHeader
import HkRbu.Data.TPUHit

/-!
# The formats are exact

The objects that are only read, never built: pedestals, errors and specials (`RAWIDODPed.cpp`,
`RAWIDODError.cpp`, `RAWIDODSpecial.cpp`). Their getters shift before they mask, those of the other
classes mask first. `exactFormats` says of all seven classes that the getters together tell the
whole record: any values that fit the fields are read from exactly one record.
-/

namespace HkRbu

open BitField

/-! ## Getters that shift and mask -/

theorem toNat_shift_type (w : U32) :
    ((w >>> 30).setWidth 8 : U8).toNat = (w.extractLsb' 30 2).toNat := by
  rw [ushiftRight_eq_extractLsb' 30 2 w (by simp), BitVec.setWidth_setWidth_of_le _ (by simp),
    BitVec.toNat_setWidth_of_le (by simp)]

theorem toNat_shift_flag (lo : Nat) (w : U32) (h : lo < 32) :
    ((w >>> lo) &&& 0b1#32 != 0#32).toNat = (w.extractLsb' lo 1).toNat := by
  rw [toNat_extractLsb'_one]
  exact congrArg Bool.toNat (ushiftRight_and_one_bne_zero lo w h)

theorem toNat_shift_mask {k : Nat} (lo len : Nat) (w : U32) (hk : len ≤ k) (hk' : k ≤ 32) :
    (((w >>> lo) &&& mask 32 0 len).setWidth k).toNat = (w.extractLsb' lo len).toNat := by
  rw [ushiftRight_and_mask, BitVec.setWidth_setWidth_of_le _ hk', BitVec.toNat_setWidth_of_le hk]

theorem toNat_mask {k : Nat} (len : Nat) (w : U32) (hk : len ≤ k) (hk' : k ≤ 32) :
    ((w &&& mask 32 0 len).setWidth k).toNat = (w.extractLsb' 0 len).toNat := by
  rw [and_mask_zero, BitVec.setWidth_setWidth_of_le _ hk', BitVec.toNat_setWidth_of_le hk]

/-! ## Pedestals -/

/-- The fields of a ped object. -/
inductive PedField where
  | type | boardNum | idod | channel | coarse
  | reserved | pileup | ped | reserved2 | lowCharge | highCharge
  deriving DecidableEq, Repr

namespace PedField

def word : PedField → Fin 2
  | .type | .boardNum | .idod | .channel | .coarse => 0
  | .reserved | .pileup | .ped | .reserved2 | .lowCharge | .highCharge => 1

def lo : PedField → Nat
  | .type => 30 | .boardNum => 29 | .idod => 28 | .channel => 24 | .coarse => 0
  | .reserved => 27 | .pileup => 26 | .ped => 25 | .reserved2 => 24
  | .lowCharge => 12 | .highCharge => 0

def len : PedField → Nat
  | .type => 2 | .boardNum => 1 | .idod => 1 | .channel => 4 | .coarse => 24
  | .reserved => 5 | .pileup => 1 | .ped => 1 | .reserved2 => 1
  | .lowCharge => 12 | .highCharge => 12

end PedField

def pedLayout : Layout PedField 2 32 where
  word := PedField.word
  lo := PedField.lo
  len := PedField.len
  fits f := by cases f <;> decide
  disjoint f g h := by cases f <;> cases g <;> first | exact absurd rfl h | decide

/-- An object of the class: the two words its pointer points at. -/
structure RAWIDODPed.Object where
  data : Fin 2 → U32

namespace RAWIDODPed.Object

variable (p : Object)

def getType : U8 := (p.data 0 >>> 30).setWidth 8
def getBoardNum : Bool := (p.data 0 >>> 29) &&& 0b1#32 != 0#32
def getIDOD : Bool := (p.data 0 >>> 28) &&& 0b1#32 != 0#32
def getChannel : U8 := ((p.data 0 >>> 24) &&& 0b1111#32).setWidth 8
def getCoarse : U32 := p.data 0 &&& 0b111111111111111111111111#32
def getReserved : U16 := ((p.data 1 >>> 27) &&& 0b11111#32).setWidth 16
def getPileup : Bool := (p.data 1 >>> 26) &&& 0b1#32 != 0#32
def getPed : Bool := (p.data 1 >>> 25) &&& 0b1#32 != 0#32
def getReserved2 : U16 := ((p.data 1 >>> 24) &&& 0b1#32).setWidth 16
def getLowCharge : U16 := ((p.data 1 >>> 12) &&& 0b111111111111#32).setWidth 16
def getHighCharge : U16 := (p.data 1 &&& 0b111111111111#32).setWidth 16

def get : PedField → Nat
  | .type => p.getType.toNat
  | .boardNum => p.getBoardNum.toNat
  | .idod => p.getIDOD.toNat
  | .channel => p.getChannel.toNat
  | .coarse => p.getCoarse.toNat
  | .reserved => p.getReserved.toNat
  | .pileup => p.getPileup.toNat
  | .ped => p.getPed.toNat
  | .reserved2 => p.getReserved2.toNat
  | .lowCharge => p.getLowCharge.toNat
  | .highCharge => p.getHighCharge.toNat

theorem get_eq_read (f : PedField) : p.get f = pedLayout.read p.data f := by
  cases f with
  | type => exact toNat_shift_type (p.data 0)
  | boardNum => exact toNat_shift_flag 29 (p.data 0) (by simp)
  | idod => exact toNat_shift_flag 28 (p.data 0) (by simp)
  | channel => exact toNat_shift_mask 24 4 (p.data 0) (by simp) (by simp)
  | coarse =>
    rw [get, getCoarse, ← BitVec.setWidth_eq (p.data 0 &&& _)]
    exact toNat_mask 24 (p.data 0) (by simp) (Nat.le_refl 32)
  | reserved => exact toNat_shift_mask 27 5 (p.data 1) (by simp) (by simp)
  | pileup => exact toNat_shift_flag 26 (p.data 1) (by simp)
  | ped => exact toNat_shift_flag 25 (p.data 1) (by simp)
  | reserved2 => exact toNat_shift_mask 24 1 (p.data 1) (by simp) (by simp)
  | lowCharge => exact toNat_shift_mask 12 12 (p.data 1) (by simp) (by simp)
  | highCharge => exact toNat_mask 12 (p.data 1) (by simp) (by simp)

end RAWIDODPed.Object

/-! ## Errors -/

/-- The fields of an error object. -/
inductive ErrorField where
  | type | boardNum | idod | channel | tdcError | outSyncError | error125 | error500 | reserved
  | coarse
  deriving DecidableEq, Repr

namespace ErrorField

def word : ErrorField → Fin 2
  | .type | .boardNum | .idod | .channel | .tdcError | .outSyncError | .error125 | .error500
  | .reserved => 0
  | .coarse => 1

def lo : ErrorField → Nat
  | .type => 30 | .boardNum => 29 | .idod => 28 | .channel => 24 | .tdcError => 23
  | .outSyncError => 22 | .error125 => 21 | .error500 => 20 | .reserved => 0 | .coarse => 0

def len : ErrorField → Nat
  | .type => 2 | .boardNum => 1 | .idod => 1 | .channel => 4 | .tdcError => 1
  | .outSyncError => 1 | .error125 => 1 | .error500 => 1 | .reserved => 20 | .coarse => 32

end ErrorField

def errorLayout : Layout ErrorField 2 32 where
  word := ErrorField.word
  lo := ErrorField.lo
  len := ErrorField.len
  fits f := by cases f <;> decide
  disjoint f g h := by cases f <;> cases g <;> first | exact absurd rfl h | decide

structure RAWIDODError.Object where
  data : Fin 2 → U32

namespace RAWIDODError.Object

variable (e : Object)

def getType : U8 := (e.data 0 >>> 30).setWidth 8
def getBoardNum : Bool := (e.data 0 >>> 29) &&& 0b1#32 != 0#32
def getIDOD : Bool := (e.data 0 >>> 28) &&& 0b1#32 != 0#32
def getChannel : U8 := ((e.data 0 >>> 24) &&& 0b1111#32).setWidth 8
def getTDCError : Bool := (e.data 0 >>> 23) &&& 0b1#32 != 0#32
def getOutSyncError : Bool := (e.data 0 >>> 22) &&& 0b1#32 != 0#32
def getError125 : Bool := (e.data 0 >>> 21) &&& 0b1#32 != 0#32
def getError500 : Bool := (e.data 0 >>> 20) &&& 0b1#32 != 0#32
def getReserved : U32 := e.data 0 &&& 0b11111111111111111111#32
def getCoarse : U32 := e.data 1

def get : ErrorField → Nat
  | .type => e.getType.toNat
  | .boardNum => e.getBoardNum.toNat
  | .idod => e.getIDOD.toNat
  | .channel => e.getChannel.toNat
  | .tdcError => e.getTDCError.toNat
  | .outSyncError => e.getOutSyncError.toNat
  | .error125 => e.getError125.toNat
  | .error500 => e.getError500.toNat
  | .reserved => e.getReserved.toNat
  | .coarse => e.getCoarse.toNat

theorem get_eq_read (f : ErrorField) : e.get f = errorLayout.read e.data f := by
  cases f with
  | type => exact toNat_shift_type (e.data 0)
  | boardNum => exact toNat_shift_flag 29 (e.data 0) (by simp)
  | idod => exact toNat_shift_flag 28 (e.data 0) (by simp)
  | channel => exact toNat_shift_mask 24 4 (e.data 0) (by simp) (by simp)
  | tdcError => exact toNat_shift_flag 23 (e.data 0) (by simp)
  | outSyncError => exact toNat_shift_flag 22 (e.data 0) (by simp)
  | error125 => exact toNat_shift_flag 21 (e.data 0) (by simp)
  | error500 => exact toNat_shift_flag 20 (e.data 0) (by simp)
  | reserved =>
    rw [get, getReserved, ← BitVec.setWidth_eq (e.data 0 &&& _)]
    exact toNat_mask 20 (e.data 0) (by simp) (Nat.le_refl 32)
  | coarse => exact congrArg BitVec.toNat BitVec.extractLsb'_eq_self.symm

end RAWIDODError.Object

/-! ## Specials -/

/-- The fields of a special object. -/
inductive SpecialField where
  | type | boardNum | reserved | specialPacket | reserved2 | coarse
  deriving DecidableEq, Repr

namespace SpecialField

def word : SpecialField → Fin 2
  | .type | .boardNum | .reserved | .specialPacket | .reserved2 => 0
  | .coarse => 1

def lo : SpecialField → Nat
  | .type => 30 | .boardNum => 29 | .reserved => 24 | .specialPacket => 16 | .reserved2 => 0
  | .coarse => 0

def len : SpecialField → Nat
  | .type => 2 | .boardNum => 1 | .reserved => 5 | .specialPacket => 8 | .reserved2 => 16
  | .coarse => 32

end SpecialField

def specialLayout : Layout SpecialField 2 32 where
  word := SpecialField.word
  lo := SpecialField.lo
  len := SpecialField.len
  fits f := by cases f <;> decide
  disjoint f g h := by cases f <;> cases g <;> first | exact absurd rfl h | decide

structure RAWIDODSpecial.Object where
  data : Fin 2 → U32

namespace RAWIDODSpecial.Object

variable (s : Object)

def getType : U8 := (s.data 0 >>> 30).setWidth 8
def getBoardNum : Bool := (s.data 0 >>> 29) &&& 0b1#32 != 0#32
def getReserved : U8 := ((s.data 0 >>> 24) &&& 0b11111#32).setWidth 8
def getSpecialPacket : U8 := ((s.data 0 >>> 16) &&& 0b11111111#32).setWidth 8
def getReserved2 : U16 := (s.data 0 &&& 0b1111111111111111#32).setWidth 16
def getCoarse : U32 := s.data 1

def get : SpecialField → Nat
  | .type => s.getType.toNat
  | .boardNum => s.getBoardNum.toNat
  | .reserved => s.getReserved.toNat
  | .specialPacket => s.getSpecialPacket.toNat
  | .reserved2 => s.getReserved2.toNat
  | .coarse => s.getCoarse.toNat

theorem get_eq_read (f : SpecialField) : s.get f = specialLayout.read s.data f := by
  cases f with
  | type => exact toNat_shift_type (s.data 0)
  | boardNum => exact toNat_shift_flag 29 (s.data 0) (by simp)
  | reserved => exact toNat_shift_mask 24 5 (s.data 0) (by simp) (by simp)
  | specialPacket => exact toNat_shift_mask 16 8 (s.data 0) (by simp) (by simp)
  | reserved2 => exact toNat_mask 16 (s.data 0) (by simp) (by simp)
  | coarse => exact congrArg BitVec.toNat BitVec.extractLsb'_eq_self.symm

end RAWIDODSpecial.Object

/-! ## The seven formats

The lengths of the fields of a class add up to its words; the sums go over lists of all fields. -/

instance : Fintype HitField := .ofList
  [.type, .boardNum, .idod, .channel, .coarse, .fine, .numSubHits, .tdcError, .ped, .gain,
    .charge, .stop]
  (by intro f; cases f <;> simp)

instance : Fintype SyncField := .ofList
  [.type, .boardNum, .idod, .channel, .sync500, .sync125, .reserved, .counter]
  (by intro f; cases f <;> simp)

instance : Fintype DAQField := .ofList
  [.messageNum, .coarseCounter, .type, .cardID, .numWords, .flags]
  (by intro f; cases f <;> simp)

instance : Fintype TPUField := .ofList
  [.type, .badSync, .gain, .charge, .pmtID, .time]
  (by intro f; cases f <;> simp)

instance : Fintype PedField := .ofList
  [.type, .boardNum, .idod, .channel, .coarse, .reserved, .pileup, .ped, .reserved2, .lowCharge,
    .highCharge]
  (by intro f; cases f <;> simp)

instance : Fintype ErrorField := .ofList
  [.type, .boardNum, .idod, .channel, .tdcError, .outSyncError, .error125, .error500, .reserved,
    .coarse]
  (by intro f; cases f <;> simp)

instance : Fintype SpecialField := .ofList
  [.type, .boardNum, .reserved, .specialPacket, .reserved2, .coarse]
  (by intro f; cases f <;> simp)

theorem hitLayout_sum : ∑ f, hitLayout.len f = 2 * 32 := rfl
theorem syncLayout_sum : ∑ f, syncLayout.len f = 2 * 32 := rfl

/-- Every format is exact, for all seven classes. -/
structure ExactFormats : Prop where
  hit : hitLayout.Exact HitWords.get
  sync : syncLayout.Exact SyncWords.get
  header : daqLayout.Exact fun ws => (DAQHeader.mk ws).get
  tpuHit : tpuLayout.Exact fun ws => (TPUHit.mk ws).get
  ped : pedLayout.Exact fun ws => (RAWIDODPed.Object.mk ws).get
  error : errorLayout.Exact fun ws => (RAWIDODError.Object.mk ws).get
  special : specialLayout.Exact fun ws => (RAWIDODSpecial.Object.mk ws).get

/-- **The getters of a class tell the whole record.** -/
theorem exactFormats : ExactFormats where
  hit := hitLayout.exact_of_get hitLayout_sum HitWords.get_eq_read
  sync := syncLayout.exact_of_get syncLayout_sum SyncWords.get_eq_read
  header := daqLayout.exact_of_get rfl fun ws => (DAQHeader.mk ws).get_eq_read
  tpuHit := tpuLayout.exact_of_get rfl fun ws => (TPUHit.mk ws).get_eq_read
  ped := pedLayout.exact_of_get rfl fun ws => (RAWIDODPed.Object.mk ws).get_eq_read
  error := errorLayout.exact_of_get rfl fun ws => (RAWIDODError.Object.mk ws).get_eq_read
  special :=
    specialLayout.exact_of_get rfl fun ws => (RAWIDODSpecial.Object.mk ws).get_eq_read

end HkRbu
