import HkRbu.Data.IDODHit

/-!
# Sync objects (`RAWIDODSync.h`, `RAWIDODSync.cpp`)

The reader used by the decoder is the set of static accessors of `RAWIDODSync`; the encoder is
`IDODSync`. The member getters of the two classes use the same masks and shifts, so they are
written once over the pair of words (`SyncWords`), as for hits. The setters of `IDODSync` mask
and shift a promoted `int`; `SetType(0b10)` shifts a one into its sign bit, and the conversion
back to `uint32_t` keeps the bits, so the model computes in 32 bits throughout.
-/

namespace HkRbu

def SYNC_500_MASK : U32 := 0b00000000100000000000000000000000#32
def SYNC_125_MASK : U32 := 0b00000000010000000000000000000000#32
def RESERVED_MASK : U32 := 0b00000000001111111111111111111111#32

/-- The fields of a sync. -/
inductive SyncField where
  | type | boardNum | idod | channel | sync500 | sync125 | reserved | counter
  deriving DecidableEq, Repr

namespace SyncField

def word : SyncField → Fin 2
  | .type | .boardNum | .idod | .channel | .sync500 | .sync125 | .reserved => 0
  | .counter => 1

def lo : SyncField → Nat
  | .type => 30 | .boardNum => 29 | .idod => 28 | .channel => 24
  | .sync500 => 23 | .sync125 => 22 | .reserved => 0 | .counter => 0

def len : SyncField → Nat
  | .type => 2 | .boardNum => 1 | .idod => 1 | .channel => 4
  | .sync500 => 1 | .sync125 => 1 | .reserved => 22 | .counter => 32

end SyncField

/-- Where the fields lie. -/
def syncLayout : Layout SyncField 2 32 where
  word := SyncField.word
  lo := SyncField.lo
  len := SyncField.len
  fits f := by cases f <;> decide
  disjoint f g h := by cases f <;> cases g <;> first | exact absurd rfl h | decide

/-! ## Reading -/

namespace SyncWords

variable (d : Fin 2 → U32)

def getType : U8 := (d 0 >>> 30).setWidth 8
def getBoardNum : Bool := (d 0 &&& BOARD_NUM_MASK) >>> 29 != 0#32
def getIDOD : Bool := (d 0 &&& IDOD_MASK) >>> 28 != 0#32
def getChannel : U8 := ((d 0 &&& CHANNEL_MASK) >>> 24).setWidth 8
def getSync500 : Bool := (d 0 &&& SYNC_500_MASK) >>> 23 != 0#32
def getSync125 : Bool := (d 0 &&& SYNC_125_MASK) >>> 22 != 0#32
def getReserved : U32 := d 0 &&& RESERVED_MASK
def getCounter : U32 := d 1

theorem getSync500_eq : getSync500 d = (d 0).getLsbD 23 :=
  BitField.and_mask_ushiftRight_bne_zero 23 (d 0) (by simp)

theorem getSync125_eq : getSync125 d = (d 0).getLsbD 22 :=
  BitField.and_mask_ushiftRight_bne_zero 22 (d 0) (by simp)

theorem getReserved_eq : getReserved d = ((d 0).extractLsb' 0 22).setWidth 32 :=
  BitField.and_mask_zero 22 (d 0)

theorem getCounter_eq : getCounter d = (d 1).extractLsb' 0 32 :=
  BitVec.extractLsb'_eq_self.symm

def get : SyncField → Nat
  | .type => (getType d).toNat
  | .boardNum => (getBoardNum d).toNat
  | .idod => (getIDOD d).toNat
  | .channel => (getChannel d).toNat
  | .sync500 => (getSync500 d).toNat
  | .sync125 => (getSync125 d).toNat
  | .reserved => (getReserved d).toNat
  | .counter => (getCounter d).toNat

/-- The first four fields lie where a hit has them. -/
theorem get_eq_read (f : SyncField) : get d f = syncLayout.read d f := by
  cases f with
  | type => exact HitWords.get_eq_read d .type
  | boardNum => exact HitWords.get_eq_read d .boardNum
  | idod => exact HitWords.get_eq_read d .idod
  | channel => exact HitWords.get_eq_read d .channel
  | sync500 => rw [get, getSync500_eq, ← BitField.toNat_extractLsb'_one]; rfl
  | sync125 => rw [get, getSync125_eq, ← BitField.toNat_extractLsb'_one]; rfl
  | reserved => rw [get, getReserved_eq, BitVec.toNat_setWidth_of_le (by simp)]; rfl
  | counter => rw [get, getCounter_eq]; rfl

end SyncWords

/-! The static accessors take a `uint32_t*`; `word i` is the word it reads at index `i`. -/

namespace RAWIDODSync

def getSync500 (word : Nat → U32) : Bool := (word 0 >>> 23) &&& 0b1#32 != 0#32
def getSync125 (word : Nat → U32) : Bool := (word 0 >>> 22) &&& 0b1#32 != 0#32
def getCounter (word : Nat → U32) : U32 := word 1
def getWords : Nat := 2

theorem getSync500_eq (word : Nat → U32) : getSync500 word = (word 0).getLsbD 23 :=
  BitField.ushiftRight_and_one_bne_zero 23 (word 0) (by simp)

theorem getSync125_eq (word : Nat → U32) : getSync125 word = (word 0).getLsbD 22 :=
  BitField.ushiftRight_and_one_bne_zero 22 (word 0) (by simp)

/-- An object of the class: a pointer to the words of a sync object; `data i` is the word it
    reads at index `i`. -/
structure Object where
  data : Nat → U32

namespace Object

/-- `data[0]` and `data[1]`. -/
def words (s : Object) (i : Fin 2) : U32 := s.data i

def getType (s : Object) : U8 := SyncWords.getType s.words
def getBoardNum (s : Object) : Bool := SyncWords.getBoardNum s.words
def getIDOD (s : Object) : Bool := SyncWords.getIDOD s.words
def getChannel (s : Object) : U8 := SyncWords.getChannel s.words
def getSync500 (s : Object) : Bool := SyncWords.getSync500 s.words
def getSync125 (s : Object) : Bool := SyncWords.getSync125 s.words
def getReserved (s : Object) : U32 := SyncWords.getReserved s.words
def getCounter (s : Object) : U32 := SyncWords.getCounter s.words

def get (s : Object) : SyncField → Nat
  | .type => s.getType.toNat
  | .boardNum => s.getBoardNum.toNat
  | .idod => s.getIDOD.toNat
  | .channel => s.getChannel.toNat
  | .sync500 => s.getSync500.toNat
  | .sync125 => s.getSync125.toNat
  | .reserved => s.getReserved.toNat
  | .counter => s.getCounter.toNat

theorem get_eq (s : Object) (f : SyncField) : s.get f = SyncWords.get s.words f := by
  cases f <;> rfl

/-- The static accessors agree with the members, which mask before they shift. -/
theorem getSync500_static (s : Object) : RAWIDODSync.getSync500 s.data = s.getSync500 :=
  (RAWIDODSync.getSync500_eq s.data).trans (SyncWords.getSync500_eq s.words).symm

theorem getSync125_static (s : Object) : RAWIDODSync.getSync125 s.data = s.getSync125 :=
  (RAWIDODSync.getSync125_eq s.data).trans (SyncWords.getSync125_eq s.words).symm

end Object
end RAWIDODSync

/-! ## Building -/

/-- `IDODSync`: the two words of a sync object. -/
structure IDODSync where
  data : Fin 2 → U32

namespace IDODSync

def setWord (s : IDODSync) (i : Fin 2) (w : U32) : IDODSync := ⟨Function.update s.data i w⟩

/-- The words `GetData()[0]` and `GetData()[1]`. -/
def getData (s : IDODSync) : List U32 := [s.data 0, s.data 1]

def getType (s : IDODSync) : U8 := SyncWords.getType s.data
def getBoardNum (s : IDODSync) : Bool := SyncWords.getBoardNum s.data
def getIDOD (s : IDODSync) : Bool := SyncWords.getIDOD s.data
def getChannel (s : IDODSync) : U8 := SyncWords.getChannel s.data
def getSync500 (s : IDODSync) : Bool := SyncWords.getSync500 s.data
def getSync125 (s : IDODSync) : Bool := SyncWords.getSync125 s.data
def getReserved (s : IDODSync) : U32 := SyncWords.getReserved s.data
def getCounter (s : IDODSync) : U32 := s.data 1

def get (s : IDODSync) : SyncField → Nat
  | .type => s.getType.toNat
  | .boardNum => s.getBoardNum.toNat
  | .idod => s.getIDOD.toNat
  | .channel => s.getChannel.toNat
  | .sync500 => s.getSync500.toNat
  | .sync125 => s.getSync125.toNat
  | .reserved => s.getReserved.toNat
  | .counter => s.getCounter.toNat

theorem get_eq (s : IDODSync) (f : SyncField) : s.get f = SyncWords.get s.data f := by
  cases f <;> rfl

def setType (s : IDODSync) (in_ : U8) : IDODSync :=
  s.setWord 0 ((s.data 0 &&& ~~~TYPE_MASK) ||| ((in_.setWidth 32 &&& 0b11#32) <<< 30))
def setBoardNum (s : IDODSync) (in_ : Bool) : IDODSync :=
  s.setWord 0 ((s.data 0 &&& ~~~BOARD_NUM_MASK) ||| ((flag in_ &&& 0b1#32) <<< 29))
def setIDOD (s : IDODSync) (in_ : Bool) : IDODSync :=
  s.setWord 0 ((s.data 0 &&& ~~~IDOD_MASK) ||| ((flag in_ &&& 0b1#32) <<< 28))
def setChannel (s : IDODSync) (in_ : U8) : IDODSync :=
  s.setWord 0 ((s.data 0 &&& ~~~CHANNEL_MASK) ||| ((in_.setWidth 32 &&& 0b1111#32) <<< 24))
def setSync500 (s : IDODSync) (in_ : Bool) : IDODSync :=
  s.setWord 0 ((s.data 0 &&& ~~~SYNC_500_MASK) ||| ((flag in_ &&& 0b1#32) <<< 23))
def setSync125 (s : IDODSync) (in_ : Bool) : IDODSync :=
  s.setWord 0 ((s.data 0 &&& ~~~SYNC_125_MASK) ||| ((flag in_ &&& 0b1#32) <<< 22))
def setReserved (s : IDODSync) (in_ : U32) : IDODSync :=
  s.setWord 0 ((s.data 0 &&& ~~~RESERVED_MASK) ||| (in_ &&& 0b1111111111111111111111#32))
def setCounter (s : IDODSync) (in_ : U32) : IDODSync := s.setWord 1 in_

/-- `IDODSync::IDODSync()`. -/
def new : IDODSync := setType ⟨![0, 0]⟩ 0b10#8

/-- `IDODSync::IDODSync(counter)`; `r₀` and `r₁` are the two `rand() % UINT_MAX`. -/
def newAt (r₀ r₁ counter : U32) : IDODSync := (setCounter ⟨![r₀, r₁]⟩ counter).setType 0b10#8

/-- The calls of the public setters. -/
inductive Setter where
  | boardNum (in_ : Bool) | idod (in_ : Bool) | channel (in_ : U8) | sync500 (in_ : Bool)
  | sync125 (in_ : Bool) | reserved (in_ : U32) | counter (in_ : U32)
  deriving DecidableEq, Repr

namespace Setter

/-- What a call does. -/
def apply (s : IDODSync) : Setter → IDODSync
  | boardNum in_ => s.setBoardNum in_
  | idod in_ => s.setIDOD in_
  | channel in_ => s.setChannel in_
  | sync500 in_ => s.setSync500 in_
  | sync125 in_ => s.setSync125 in_
  | reserved in_ => s.setReserved in_
  | counter in_ => s.setCounter in_

/-- The field a call sets, and the value. -/
def field : Setter → SyncField × Nat
  | boardNum in_ => (.boardNum, in_.toNat)
  | idod in_ => (.idod, in_.toNat)
  | channel in_ => (.channel, in_.toNat)
  | sync500 in_ => (.sync500, in_.toNat)
  | sync125 in_ => (.sync125, in_.toNat)
  | reserved in_ => (.reserved, in_.toNat)
  | counter in_ => (.counter, in_.toNat)

end Setter

/-- Calls of the setters, one after the other. -/
def build (s : IDODSync) (calls : List Setter) : IDODSync := calls.foldl Setter.apply s

theorem data_setWord_flag (s : IDODSync) (f : SyncField) (b : Bool) :
    Function.update s.data f.word ((s.data f.word &&& ~~~(BitField.mask 32 f.lo f.len)) |||
      ((flag b &&& BitField.mask 32 0 f.len) <<< f.lo)) = syncLayout.write s.data f b.toNat :=
  (syncLayout.update_masked s.data f (BitVec.ofBool b)).trans (by rw [BitVec.toNat_ofBool])

theorem data_setType (s : IDODSync) (in_ : U8) :
    (s.setType in_).data = syncLayout.write s.data .type in_.toNat :=
  syncLayout.update_masked s.data .type in_

theorem data_apply (s : IDODSync) (c : Setter) :
    (c.apply s).data = syncLayout.write s.data c.field.1 c.field.2 := by
  cases c with
  | boardNum in_ => exact data_setWord_flag s .boardNum in_
  | idod in_ => exact data_setWord_flag s .idod in_
  | channel in_ => exact syncLayout.update_masked s.data .channel in_
  | sync500 in_ => exact data_setWord_flag s .sync500 in_
  | sync125 in_ => exact data_setWord_flag s .sync125 in_
  | reserved in_ =>
    have hw := syncLayout.update_masked s.data .reserved in_
    rw [show syncLayout.lo .reserved = 0 from rfl, BitVec.shiftLeft_zero,
      BitVec.setWidth_eq] at hw
    exact hw
  | counter in_ => exact syncLayout.update_whole s.data .counter rfl rfl in_

theorem data_build (s : IDODSync) (calls : List Setter) :
    (s.build calls).data = syncLayout.writes s.data (calls.map Setter.field) :=
  Layout.words_foldl data_apply s calls

/-- The sync has just been constructed. -/
inductive Constructed : IDODSync → Prop where
  | default : Constructed new
  | counter (r₀ r₁ counter : U32) : Constructed (newAt r₀ r₁ counter)

theorem lastWrite_type (calls : List Setter) :
    Layout.lastWrite (calls.map Setter.field) .type = none := by
  induction calls with
  | nil => rfl
  | cons c calls ih =>
    rw [List.map_cons, Layout.lastWrite, ih]
    cases c <;> rfl

theorem read_type_setType (s : IDODSync) (in_ : U8) :
    syncLayout.read (s.setType in_).data .type = in_.toNat % 4 := by
  rw [data_setType]
  exact syncLayout.read_write_self s.data .type in_.toNat

theorem read_type_build {s : IDODSync} (hc : Constructed s) (calls : List Setter) :
    syncLayout.read (s.build calls).data .type = 0b10 := by
  rw [data_build, Layout.read_writes, lastWrite_type]
  cases hc with
  | default => exact read_type_setType _ _
  | counter => exact read_type_setType _ _

end IDODSync
end HkRbu
