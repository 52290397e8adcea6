import HkRbu.Data.DAQHeader
import HkRbu.Data.TPUHit
import HkRbu.Lib.IndexMap
import HkRbu.Lib.Loop

/-!
# The scan of `DataReceiver::ProcessDataIDOD`

The part of `ProcessDataIDOD` that walks the data words and fills the job's own collections,
from the top of the function to the last append before the upload. All of its state lives in
the recycled `DataReceiverJob_args`; of the central `DataModel` it reads `current_counter` and
goes through `pmt_id_map`.
-/

namespace HkRbu

/-- A `TimeSlice*` that is not null. -/
abbrev SliceId := Nat

/-- `DataReceiverJob_args`, without the pointers `m_data`, `messages` and `message_pool`. A
    pointer into a message is what it points at (`daqHeader`, `words`) or the index in `words`
    of what it points at (`tmpHit`). -/
structure DataReceiverJobArgs where
  daqHeader : DAQHeader
  words : Buffer
  collections : IndexMap U64 (List U32)
  tpuHitCollection : IndexMap U64 (List TPUHit)
  bin : U64
  currentBin : U64
  startPos : Nat
  tmpHit : Option Nat
  currentWord : Nat
  header : Fin 3 → U32
  currentTime : U32
  badSync : Bool
  timeSlices : List SliceId
  tpuTimeSlices : List SliceId
  cardId : U16
  pmtCounters : IndexMap U16 U64

/-- `DataReceiverJob_args::DataReceiverJob_args()`: the default member initialisers. A null pointer
    is modelled by a message of zeros, which nothing reads before it is replaced. -/
def DataReceiverJobArgs.new : DataReceiverJobArgs where
  daqHeader := ⟨![0, 0, 0]⟩
  words := ⟨[], fun _ => 0⟩
  collections := ∅
  tpuHitCollection := ∅
  bin := 0
  currentBin := 0
  startPos := 0
  tmpHit := none
  currentWord := 0
  header := ![0, 0, 0]
  currentTime := 0
  badSync := false
  timeSlices := []
  tpuTimeSlices := []
  cardId := 0
  pmtCounters := ∅

/-- What a run of the scan is given: the header and data parts of the message, and the
    `current_counter` of the data model. `uninit i` is the memory in which `emplace_back`
    constructs the reduced hit of the hit at word `i`. -/
structure Inputs where
  header : Buffer
  data : Buffer
  currentCounter : U64
  uninit : Nat → TPUHit

/-- The state of the scan: the job's variables and the data model's `pmt_id_map`. -/
structure Scan extends DataReceiverJobArgs where
  pmtIdMap : IndexMap U32 U16

namespace Scan

/-- The variables of a job that has not been used. -/
def new : Scan := { DataReceiverJobArgs.new with pmtIdMap := ∅ }

/-- The word pointer `&args->words[args->current_word]`, as the static accessors index it. -/
def at_ (s : Scan) (i : Nat) : U32 := s.words.wordAt (s.currentWord + i)

/-- `(current_counter & -281474976710656L) >> 26`. -/
def window (currentCounter : U64) : U64 := (currentCounter &&& -281474976710656#64) >>> 26

/-! ## The pieces the four non-hit branches share -/

/-- The first `n` words of the header packet. -/
def headerWords (s : Scan) (n : Nat) : List U32 := [s.header 0, s.header 1, s.header 2].take n

/-- Put the bin into the header. The second assignment overwrites the first, as in the source. -/
def stampHeader (s : Scan) : Scan :=
  let s := { s with header := Function.update s.header 2 ((s.bin >>> 6).setWidth 32) }
  { s with header := Function.update s.header 2 ((s.bin <<< 26).setWidth 32) }

/-- `collections[bin].insert(end(), &header[0], &header[0] + n)`, with the bin in the header. -/
def insertHeader (s : Scan) (n : Nat) : Scan :=
  let s := s.stampHeader
  { s with collections := IndexMap.update s.collections s.bin (· ++ s.headerWords n) }

/-- `collections[current_bin].insert(end(), &words[start_pos], &words[current_word])`. -/
def insertSegment (s : Scan) : Scan :=
  { s with
    collections := IndexMap.update s.collections s.currentBin
      (· ++ s.words.slice s.startPos (s.currentWord - s.startPos)) }

/-- `if(collections.count(bin)==0)`, with a header of `n` words for a bin that is new. -/
def openBin (s : Scan) (n : Nat) : Scan :=
  if s.bin ∉ s.collections then s.insertHeader n else s

/-- `if(bin!=current_bin)`: what has been read of the old bin is stored. -/
def flush (s : Scan) : Scan :=
  if s.bin ≠ s.currentBin then
    { s.insertSegment with currentBin := s.bin, startPos := s.currentWord }
  else s

/-- The branch of a non-hit object, once `bin` (and for a sync the time) has been set: `n` is
    the number of header words the branch inserts, `words` the length of the object. -/
def fileObject (s : Scan) (n words : Nat) : Scan :=
  let s := (s.openBin n).flush
  { s with currentWord := s.currentWord + words }

/-! ## The branches of the switch -/

/-- The key of the PMT of the hit at hand: the type and the card of the header, and the highest byte
    of the hit's first word. -/
def pmtInfo (s : Scan) : U32 :=
  (s.daqHeader.getType.setWidth 32 <<< 18) |||
    ((s.cardId &&& 0b111111111111#16).setWidth 32 <<< 6) ||| (s.at_ 0 >>> 24)

/-- `args->tmp_hit`, set at the top of the hit branch. -/
def hitAt (s : Scan) : RAWrIDODHit := RAWrIDODHit.overlay s.words s.currentWord

/-- The time of the hit at hand: the bits 8 to 15 of `current_time`, the coarse and the fine counter
    of the hit. -/
def hitTime (s : Scan) : U32 :=
  (((s.currentTime &&& 0b00000000000000001111111100000000#32) |||
    (s.hitAt.getCoarse &&& 0b11111111#8).setWidth 32) <<< 16) ||| s.hitAt.getFine.setWidth 32

/-- `pmt_id_map[pmt_info]`, as a value. -/
def pmtid (s : Scan) : U16 := IndexMap.get s.pmtIdMap s.pmtInfo

/-- The object `emplace_back` constructs. -/
def reducedHit (inp : Inputs) (s : Scan) : TPUHit :=
  TPUHit.new (inp.uninit s.currentWord) 0b00#8 s.badSync s.hitAt.getGain s.hitAt.getCharge s.pmtid
    s.hitTime

/-- The branch of a hit. It files the hit under the bin that the last other object has left. -/
def hitBranch (inp : Inputs) (s : Scan) : Scan :=
  { s with
    tmpHit := some s.currentWord
    -- `pmt_id_map[pmt_info]` makes an entry, with PMT 0, for a key that has none.
    pmtIdMap := IndexMap.touch s.pmtIdMap s.pmtInfo
    tpuHitCollection := IndexMap.update s.tpuHitCollection s.bin (· ++ [s.reducedHit inp])
    currentWord := s.currentWord + s.hitAt.getWords
    pmtCounters := IndexMap.update s.pmtCounters s.pmtid (· + 1) }

/-- The bin of a ped: the lowest three bits are those of its own counter, those above are taken from
    `current_time`. -/
def pedBin (inp : Inputs) (s : Scan) : Scan :=
  { s with
    bin := window inp.currentCounter |||
      ((s.currentTime >>> 10) &&& 0b11111111111111111111111111111000#32).setWidth 64 |||
      (RAWIDODPed.getCoarse s.at_ >>> 21).setWidth 64 }

/-- The bin of a sync, which is the only object that sets `current_time`. -/
def syncBin (inp : Inputs) (s : Scan) : Scan :=
  { s with
    bin := window inp.currentCounter ||| (RAWIDODSync.getCounter s.at_ >>> 10).setWidth 64
    currentTime := RAWIDODSync.getCounter s.at_
    badSync := RAWIDODSync.getSync500 s.at_ && RAWIDODSync.getSync125 s.at_ }

/-- The bin of an error object. The time is left as it is. -/
def errorBin (inp : Inputs) (s : Scan) : Scan :=
  { s with
    bin := window inp.currentCounter ||| (RAWIDODError.getCoarse s.at_ >>> 10).setWidth 64 }

/-- The bin of a special object. The time is left as it is. -/
def specialBin (inp : Inputs) (s : Scan) : Scan :=
  { s with
    bin := window inp.currentCounter ||| (RAWIDODSpecial.getCoarse s.at_ >>> 10).setWidth 64 }

/-- The branches of the other objects, which differ in their bin and in how many words of the header
    they insert. -/
def pedBranch (inp : Inputs) (s : Scan) : Scan := (s.pedBin inp).fileObject 3 RAWIDODPed.getWords
def syncBranch (inp : Inputs) (s : Scan) : Scan := (s.syncBin inp).fileObject 2 RAWIDODSync.getWords
def errorBranch (inp : Inputs) (s : Scan) : Scan :=
  (s.errorBin inp).fileObject 3 RAWIDODError.getWords
def specialBranch (inp : Inputs) (s : Scan) : Scan :=
  (s.specialBin inp).fileObject 3 RAWIDODSpecial.getWords

/-- The five branches of the loop. -/
inductive Kind where
  | hit | ped | sync | error | special
  deriving DecidableEq, Repr

/-- `switch (words[current_word] >> 30)`, and inside `case 0b11` the test of bit 25 of the next
    word. Two bits have no value but these four. -/
def kind (s : Scan) : Kind :=
  match (s.at_ 0 >>> 30).toNat with
  | 0b11 => if (s.at_ 1 >>> 25) &&& 0b1#32 = 0#32 then .hit else .ped
  | 0b10 => .sync
  | 0b00 => .error
  | _ => .special

/-- One round of the loop. -/
def step (inp : Inputs) (s : Scan) : Scan :=
  match s.kind with
  | .hit => s.hitBranch inp
  | .ped => s.pedBranch inp
  | .sync => s.syncBranch inp
  | .error => s.errorBranch inp
  | .special => s.specialBranch inp

/-! ## The function up to the upload -/

/-- Freeing up the variables of the job's last use. -/
def freeUp (s : Scan) : Scan :=
  { s with
    collections := ∅
    tpuHitCollection := ∅
    bin := 0
    currentBin := 0
    startPos := 0
    tmpHit := none
    currentWord := 0
    currentTime := 0
    badSync := false
    timeSlices := []
    tpuTimeSlices := []
    pmtCounters := ∅ }

/-- Decoding the header part. The store to `header[3]` is one past the array and hits the next
    member, `current_time`. -/
def readHeader (inp : Inputs) (s : Scan) : Scan :=
  let s := { s with daqHeader := DAQHeader.overlay inp.header }
  let s := { s with cardId := s.daqHeader.getCardID }
  let special := 0b01000000111111110000000000000000#32 ||| s.cardId.setWidth 32
  let s := { s with header := Function.update s.header 1 special }
  let s := { s with header := Function.update s.header 2 0 }
  { s with currentTime := 0 }

/-- The variables at the head of the loop, after the header has been read. -/
def start (inp : Inputs) (s : Scan) : Scan := { s.freeUp.readHeader inp with words := inp.data }

/-- `args->current_word < args->messages->at(2).size()/4`. -/
def more (inp : Inputs) (s : Scan) : Bool := s.currentWord < inp.data.size / 4

/-- The loop; every round advances, so the number of words is fuel enough (`loop_exit`). -/
def loop (inp : Inputs) (s : Scan) : Scan :=
  Loop.run (more inp) (step inp) (inp.data.size / 4) (s.start inp)

/-- The last words, appended after the loop. -/
def finish (s : Scan) : Scan :=
  -- The loop has left `current_word` past the last object already.
  let s := { s with currentWord := s.currentWord + 1 }
  s.insertSegment

/-- From the top of `ProcessDataIDOD` to the upload. -/
def run (inp : Inputs) (s : Scan) : Scan := (s.loop inp).finish

end Scan
end HkRbu
