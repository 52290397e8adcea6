import HkRbu.Decode.Bin

/-!
# The object stream

A well-formed data part is a concatenation of complete objects. An `Obj` carries the bits that
make it an object of its kind, so the list of objects of a part cannot contain anything else,
and the scan, which only sees words, takes exactly one round per object (`loop_induct`).

What an object is filed under depends on the objects before it. They are listed newest first,
as `past`; each attribute is a lookup backwards through that list, with no running state.
-/

namespace HkRbu

/-- A complete object of the stream. -/
inductive Obj where
  /-- Top bits 11, bit 25 of the second word clear, then the sub-hit words. -/
  | hit (w₀ w₁ : U32) (subs : List U32) (type : w₀ >>> 30 = 0b11#32)
      (notPed : (w₁ >>> 25) &&& 0b1#32 = 0#32)
      (len : subs.length = min (w₁.extractLsb' 27 5).toNat 15)
  /-- Top bits 11, bit 25 of the second word set. -/
  | ped (w₀ w₁ : U32) (type : w₀ >>> 30 = 0b11#32) (isPed : (w₁ >>> 25) &&& 0b1#32 ≠ 0#32)
  | sync (w₀ w₁ : U32) (type : w₀ >>> 30 = 0b10#32)
  | error (w₀ w₁ : U32) (type : w₀ >>> 30 = 0b00#32)
  | special (w₀ w₁ : U32) (type : w₀ >>> 30 = 0b01#32)

namespace Obj

/-- The first word, with the type in its two highest bits. -/
def word₀ : Obj → U32
  | hit w₀ .. | ped w₀ .. | sync w₀ .. | error w₀ .. | special w₀ .. => w₀

def word₁ : Obj → U32
  | hit _ w₁ .. | ped _ w₁ .. | sync _ w₁ .. | error _ w₁ .. | special _ w₁ .. => w₁

/-- The sub-hit words. Only hits have some. -/
def subs : Obj → List U32
  | hit _ _ subs .. => subs
  | ped .. | sync .. | error .. | special .. => []

/-- The words of an object as they stand in the data part. -/
def words (o : Obj) : List U32 := o.word₀ :: o.word₁ :: o.subs

def isHit : Obj → Bool
  | hit .. => true
  | ped .. | sync .. | error .. | special .. => false

/-- A sync, an error and a hit for examples. -/
def syncAt (counter : U32) : Obj := .sync 0x80000000#32 counter (by decide)
def errorAt (counter : U32) : Obj := .error 0#32 counter (by decide)
def plainHit : Obj := .hit 0xC0000000#32 0#32 [] (by decide) (by decide) (by decide)

theorem length_words (o : Obj) : o.words.length = 2 + o.subs.length := by
  simp only [words, List.length_cons]
  omega

end Obj

/-! ## What the past of an object says

`past` is the list of objects before it, newest first. -/

/-- The words of the last sync; the list of the past has the latest object first. -/
def lastSync : List Obj → Option (U32 × U32)
  | [] => none
  | .sync w₀ w₁ _ :: _ => some (w₀, w₁)
  | _ :: past => lastSync past

/-- The counter of the last sync, 0 if there is none. -/
def syncCounter (past : List Obj) : U32 := ((lastSync past).map Prod.snd).getD 0

/-- Sync500 and Sync125 of the last sync, false if there is none. -/
def syncIsBad (past : List Obj) : Bool :=
  ((lastSync past).map fun w => w.1.getLsbD 23 && w.1.getLsbD 22).getD false

/-- The bin the decoder computes for an object from its own counter; it computes none for a hit. -/
def computedBin (currentCounter : U64) (past : List Obj) : Obj → Option Nat
  | .hit .. => none
  | .ped w₀ _ _ _ =>
    some (pedBin currentCounter (syncCounter past) ((w₀.extractLsb' 0 24).setWidth 32))
  | .sync _ w₁ _ | .error _ w₁ _ | .special _ w₁ _ => some (counterBin currentCounter w₁)

/-- The bin of the last non-hit object, 0 if there is none. -/
def lastBin (currentCounter : U64) : List Obj → Nat
  | [] => 0
  | o :: past => (computedBin currentCounter past o).getD (lastBin currentCounter past)

/-- The bin an object is assigned to: its own, and for a hit that of the last non-hit object
    before it. -/
def binOf (currentCounter : U64) (past : List Obj) (o : Obj) : Nat :=
  (computedBin currentCounter past o).getD (lastBin currentCounter past)

theorem binOf_of_isHit (currentCounter : U64) (past : List Obj) {o : Obj} (h : o.isHit = true) :
    binOf currentCounter past o = lastBin currentCounter past := by
  cases o with
  | hit => rfl
  | ped | sync | error | special => exact absurd h (by simp [Obj.isHit])

theorem computedBin_lt {currentCounter : U64} {past : List Obj} {o : Obj} {n : Nat}
    (h : computedBin currentCounter past o = some n) : n < 2 ^ 38 := by
  cases o with
  | hit => exact absurd h (by simp [computedBin])
  | ped w₀ =>
    obtain rfl := Option.some.inj h
    refine pedBin_lt _ _ ?_
    rw [BitVec.toNat_setWidth_of_le (by simp)]
    exact BitVec.isLt _
  | sync | error | special =>
    obtain rfl := Option.some.inj h
    exact counterBin_lt _ _

theorem lastBin_lt (currentCounter : U64) (past : List Obj) :
    lastBin currentCounter past < 2 ^ 38 := by
  induction past with
  | nil => exact Nat.two_pow_pos 38
  | cons o past ih =>
    rw [lastBin]
    cases h : computedBin currentCounter past o with
    | none => exact ih
    | some n => exact computedBin_lt h

/-- Bins are 64-bit numbers. -/
theorem exists_toNat_eq_lastBin (currentCounter : U64) (past : List Obj) :
    ∃ b : U64, b.toNat = lastBin currentCounter past := by
  have hlt := lastBin_lt currentCounter past
  refine ⟨BitVec.ofNat 64 (lastBin currentCounter past), ?_⟩
  rw [BitVec.toNat_ofNat, Nat.mod_eq_of_lt (by omega)]

/-- The words of the objects of bin `b`, in the order of the message. -/
def assigned (currentCounter : U64) (b : U64) : List Obj → List U32
  | [] => []
  | o :: past => assigned currentCounter b past ++
      if binOf currentCounter past o = b.toNat then o.words else []

/-! ## Well-formed messages -/

/-- A message whose data part is a concatenation of complete objects. -/
structure WellFormed extends Inputs where
  objs : List Obj
  words_eq : data.words = objs.flatMap Obj.words

namespace WellFormed

/-- The message a sender of the objects `objs` builds, for the receiver to find in memory. -/
def ofObjs (header : Buffer) (objs : List Obj) (beyond : Nat → U8) (currentCounter : U64)
    (uninit : Nat → TPUHit) : WellFormed where
  header := header
  data := Buffer.memcpy (objs.flatMap Obj.words) beyond
  currentCounter := currentCounter
  uninit := uninit
  objs := objs
  words_eq := Buffer.words_memcpy _ _

/-- A message of card 0 in the first window, in memory filled with `0xAB`. -/
def sample (objs : List Obj) : WellFormed :=
  ofObjs (Buffer.memcpy [0, 0, 0] fun _ => 0xAB) objs (fun _ => 0xAB) 0 fun _ => default

/-- How many words the objects take. -/
def size (past : List Obj) : Nat := (past.flatMap Obj.words).length

@[simp] theorem size_cons (o : Obj) (past : List Obj) :
    size (o :: past) = size past + o.words.length := by
  simp [size, Nat.add_comm]

theorem size_reverse (past : List Obj) : size past.reverse = size past := by
  simp [size, List.length_flatMap, List.map_reverse, List.sum_reverse]

theorem size_append (past past' : List Obj) : size (past ++ past') = size past + size past' := by
  simp [size]

theorem eq_nil_of_size {past : List Obj} (h : size past = 0) : past = [] := by
  cases past with
  | nil => rfl
  | cons o past =>
    rw [size_cons, Obj.length_words] at h
    omega

theorem size_data (m : WellFormed) : m.data.size / 4 = size m.objs := by
  rw [← Buffer.length_words, m.words_eq, size]

/-- The words of an object stand between those of the objects before and after it. -/
theorem words_split (m : WellFormed) {past rest : List Obj} {o : Obj}
    (h : m.objs = past.reverse ++ o :: rest) :
    m.data.words = past.reverse.flatMap Obj.words ++ o.words ++ rest.flatMap Obj.words := by
  rw [m.words_eq, h]
  simp

end WellFormed
end HkRbu
