import HkRbu.Data.Codec
import HkRbu.Upload.Boundaries

/-!
# The simulated cards (`fakedata.cpp`, `fakedata2.cpp`)

A simulated card sends messages of `n` syncs, each followed by `m` hits: `fakedata.cpp` has 100
and 240, `fakedata2.cpp` 100 and 24000. It reads the clock for every object and leaves the other
fields to `rand()`. The receiver finds every hit of such a message again, and what it finds is said
here in terms of the clock and of the random words (`filedHits_message`): the low byte of `ps` is
passed as the coarse time and bits 16 to 31 as the fine time, as the code has it.
-/

namespace HkRbu

/-! ## What a card makes -/

/-- What a turn of the inner loop takes from outside: the nanoseconds since the start, and the two
    `rand() % UINT_MAX` of the constructor. -/
structure FakeHit where
  ns : U64
  r₀ : U32
  r₁ : U32

namespace FakeHit

/-- The clock as the card counts it. -/
def ps (x : FakeHit) : U64 := x.ns * 4

/-- The hit that is made. -/
def tmp2 (x : FakeHit) : IDODHit :=
  (IDODHit.newAt x.r₀ x.r₁ (x.ps.setWidth 8) ((x.ps >>> 16).setWidth 16)).setPed false

/-- `GetData()->at(0)` and `GetData()->at(1)`. -/
def data (x : FakeHit) : List U32 := [x.tmp2.words 0, x.tmp2.words 1]

end FakeHit

/-- A turn of the outer loop, with its hits. -/
structure FakeSync (m : Nat) where
  ns : U64
  r₀ : U32
  r₁ : U32
  hits : List FakeHit
  length_hits : hits.length = m

namespace FakeSync

variable {m : Nat}

def ps (x : FakeSync m) : U64 := x.ns * 4

/-- The sync that is made. -/
def tmp (x : FakeSync m) : IDODSync := .newAt x.r₀ x.r₁ ((x.ps >>> 16).setWidth 32)

/-- The words of the sync and of its hits. -/
def data (x : FakeSync m) : List U32 := x.tmp.getData ++ x.hits.flatMap FakeHit.data

end FakeSync

/-- What the making of one message takes from outside. -/
structure FakeMessage (n m : Nat) where
  ns : U64
  rand : Nat
  syncs : List (FakeSync m)
  length_syncs : syncs.length = n

namespace FakeMessage

variable {n m : Nat}

def ps (x : FakeMessage n m) : U64 := x.ns * 4

/-- The data part of the message. -/
def data (x : FakeMessage n m) : List U32 := x.syncs.flatMap FakeSync.data

end FakeMessage

theorem DAQHeader.getCardID_setCardID (h : DAQHeader) {c : Nat} (hc : c < 2 ^ 12) :
    (h.setCardID (BitVec.ofNat 16 c)).getCardID = BitVec.ofNat 16 c := by
  have hlast := DAQHeader.law.last h [.cardID (BitVec.ofNat 16 c)] .cardID
  apply BitVec.eq_of_toNat_eq
  refine hlast.trans (Nat.mod_eq_of_lt ?_)
  show (BitVec.ofNat 16 c).toNat < 2 ^ 12
  rw [BitVec.toNat_ofNat, Nat.mod_eq_of_lt (by omega)]
  exact hc

/-- A message on its way: its header, and what its data part was made of. -/
structure FakePacket (n m : Nat) where
  header : DAQHeader
  body : FakeMessage n m
  cardID_eq : header.getCardID = BitVec.ofNat 16 (body.rand % 2000)

/-- The variables of `main` that outlive a message. -/
structure FakeSender where
  header : DAQHeader
  messageNum : U32

namespace FakeSender

variable {n m : Nat}

/-- `DAQHeader()` leaves its words as they are. -/
def start (uninit : DAQHeader) : FakeSender := ⟨uninit, 0⟩

/-- One message. -/
def send (s : FakeSender) (x : FakeMessage n m) : FakeSender × FakePacket n m :=
  let header := ((s.header.setMessageNum s.messageNum).setCoarseCounter
    (x.ps.setWidth 32)).setCardID (BitVec.ofNat 16 (x.rand % 2000))
  (⟨header, s.messageNum + 1⟩, ⟨header, x, DAQHeader.getCardID_setCardID _ (by omega)⟩)

end FakeSender

/-! ## Its objects -/

theorem IDODHit.words_newAt (r₀ r₁ : U32) (coarse : U8) (fine : U16) :
    (newAt r₀ r₁ coarse fine).words = hitLayout.writes ![r₀, r₁]
      [(.coarse, coarse.toNat), (.fine, fine.toNat), (.numSubHits, 0), (.type, 0b11)] := by
  have hbase : words ⟨[r₀, r₁], Nat.le_refl 2⟩ = ![r₀, r₁] := by
    funext i
    obtain rfl | rfl : i = 0 ∨ i = 1 := by omega
    · rfl
    · rfl
  have hbuilt := words_build ⟨[r₀, r₁], Nat.le_refl 2⟩
    [.coarse coarse, .fine fine, .numSubHits 0]
  rw [hbase] at hbuilt
  exact (words_setType _ _).trans (congrArg (hitLayout.write · .type 0b11) hbuilt)

namespace FakeHit

variable (x : FakeHit)

/-- What the constructor and `SetPed` leave of the random words. -/
theorem read_tmp2 (f : HitField) :
    hitLayout.read x.tmp2.words f =
      match f with
      | .type => 0b11
      | .coarse => x.ps.toNat % 2 ^ 8
      | .fine => x.ps.toNat / 2 ^ 16 % 2 ^ 16
      | .numSubHits | .ped => 0
      | .boardNum | .idod | .channel | .tdcError | .gain | .charge | .stop =>
        hitLayout.read ![x.r₀, x.r₁] f := by
  have hwords : x.tmp2.words = hitLayout.writes ![x.r₀, x.r₁]
      [(.coarse, (x.ps.setWidth 8).toNat), (.fine, ((x.ps >>> 16).setWidth 16).toNat),
        (.numSubHits, 0), (.type, 0b11), (.ped, 0)] :=
    (IDODHit.words_apply _ (.ped false)).trans
      (congrArg (hitLayout.write · .ped 0) (IDODHit.words_newAt _ _ _ _))
  rw [hwords, Layout.read_writes]
  cases f with
  | coarse => simp [Layout.lastWrite, hitLayout, HitField.len]
  | fine => simp [Layout.lastWrite, hitLayout, HitField.len, Nat.shiftRight_eq_div_pow]
  | type | numSubHits | ped => rfl
  | boardNum | idod | channel | tdcError | gain | charge | stop => rfl

theorem type_tmp2 : x.tmp2.words 0 >>> 30 = 0b11#32 :=
  BitField.ushiftRight_of_toNat_extractLsb' 30 2 (by simp) (x.read_tmp2 .type)

theorem notPed_tmp2 : (x.tmp2.words 1 >>> 25) &&& 0b1#32 = 0#32 := by
  have hped : (x.tmp2.words 1).extractLsb' 25 1 = 0#1 := BitVec.eq_of_toNat_eq (x.read_tmp2 .ped)
  have hmask := BitField.ushiftRight_and_mask 25 1 (x.tmp2.words 1)
  rw [hped] at hmask
  exact hmask

/-- `SetNumSubHits(0)` in the constructor: the two words are the whole hit. -/
theorem length_subs : ([] : List U32).length =
    min ((x.tmp2.words 1).extractLsb' 27 5).toNat 15 := by
  have hsubs : ((x.tmp2.words 1).extractLsb' 27 5).toNat = 0 := x.read_tmp2 .numSubHits
  rw [hsubs]
  rfl

/-- The object the decoder finds at the words of the hit. -/
def obj : Obj := .hit (x.tmp2.words 0) (x.tmp2.words 1) [] x.type_tmp2 x.notPed_tmp2 x.length_subs

end FakeHit

namespace FakeSync

variable {m : Nat} (x : FakeSync m)

/-- What the constructor leaves of the random words. -/
theorem read_tmp (f : SyncField) :
    syncLayout.read x.tmp.data f =
      match f with
      | .type => 0b10
      | .counter => x.ps.toNat / 2 ^ 16 % 2 ^ 32
      | .boardNum | .idod | .channel | .sync500 | .sync125 | .reserved =>
        syncLayout.read ![x.r₀, x.r₁] f := by
  have hcounter := IDODSync.data_apply ⟨![x.r₀, x.r₁]⟩ (.counter ((x.ps >>> 16).setWidth 32))
  have hdata : x.tmp.data = syncLayout.writes ![x.r₀, x.r₁]
      [(.counter, ((x.ps >>> 16).setWidth 32).toNat), (.type, 0b10)] :=
    (IDODSync.data_setType _ 0b10).trans (congrArg (syncLayout.write · .type 0b10) hcounter)
  rw [hdata, Layout.read_writes]
  cases f with
  | counter => simp [Layout.lastWrite, syncLayout, SyncField.len, Nat.shiftRight_eq_div_pow]
  | type => rfl
  | boardNum | idod | channel | sync500 | sync125 | reserved => rfl

theorem toNat_counter : (x.tmp.data 1).toNat = x.ps.toNat / 2 ^ 16 % 2 ^ 32 := by
  rw [← BitVec.extractLsb'_eq_self (x := x.tmp.data 1)]
  exact x.read_tmp .counter

theorem type_tmp : x.tmp.data 0 >>> 30 = 0b10#32 :=
  BitField.ushiftRight_of_toNat_extractLsb' 30 2 (by simp) (x.read_tmp .type)

/-- The objects the decoder finds at the words of the turn. -/
def objs : List Obj := .sync (x.tmp.data 0) (x.tmp.data 1) x.type_tmp :: x.hits.map FakeHit.obj

theorem words_objs : x.objs.flatMap Obj.words = x.data := by
  rw [objs, List.flatMap_cons, List.flatMap_map]
  rfl

end FakeSync

/-! ## What the receiver finds -/

/-- The key of a simulated hit in a message with the header `h`. -/
def FakeHit.pmtInfo (h : DAQHeader) (x : FakeHit) : U32 :=
  (h.getType.setWidth 32 <<< 18) ||| ((h.getCardID &&& 0b111111111111#16).setWidth 32 <<< 6) |||
    (x.tmp2.words 0 >>> 24)

/-- The reduced hit of a simulated hit after the sync `sync`. -/
def FakeHit.fields {m : Nat} (ids : IndexMap U32 U16) (h : DAQHeader) (sync : FakeSync m)
    (x : FakeHit) : TPUHit.Fields where
  type := 0
  badSync := sync.r₀.getLsbD 23 && sync.r₀.getLsbD 22
  gain := x.r₁.getLsbD 24
  charge := (x.r₁.extractLsb' 12 12).setWidth 16
  pmtID := IndexMap.get ids (x.pmtInfo h)
  time := sync.ps.extractLsb' 24 8 ++ x.ps.extractLsb' 0 8 ++ x.ps.extractLsb' 16 16

theorem FakeHit.referenceFields_obj {m : Nat} (ids : IndexMap U32 U16) (h : Buffer)
    (sync : FakeSync m) (x : FakeHit) :
    referenceFields h ids [.sync (sync.tmp.data 0) (sync.tmp.data 1) sync.type_tmp] x.obj =
      x.fields ids (.overlay h) sync := by
  have h500 : (sync.tmp.data 0).getLsbD 23 = sync.r₀.getLsbD 23 :=
    BitField.getLsbD_congr (sync.read_tmp .sync500)
  have h125 : (sync.tmp.data 0).getLsbD 22 = sync.r₀.getLsbD 22 :=
    BitField.getLsbD_congr (sync.read_tmp .sync125)
  have hgain : (x.tmp2.words 1).getLsbD 24 = x.r₁.getLsbD 24 :=
    BitField.getLsbD_congr (x.read_tmp2 .gain)
  have hcharge : (x.tmp2.words 1).extractLsb' 12 12 = x.r₁.extractLsb' 12 12 :=
    BitVec.eq_of_toNat_eq (x.read_tmp2 .charge)
  have hcoarse : (x.tmp2.words 0).extractLsb' 16 8 = x.ps.extractLsb' 0 8 := by
    refine BitVec.eq_of_toNat_eq ((x.read_tmp2 .coarse).trans ?_)
    rw [BitField.toNat_extractLsb', Nat.pow_zero, Nat.div_one]
  have hfine : (x.tmp2.words 0).extractLsb' 0 16 = x.ps.extractLsb' 16 16 :=
    BitVec.eq_of_toNat_eq ((x.read_tmp2 .fine).trans (BitField.toNat_extractLsb' _ _ _).symm)
  have hcounter : (sync.tmp.data 1).extractLsb' 8 8 = sync.ps.extractLsb' 24 8 := by
    apply BitVec.eq_of_toNat_eq
    rw [BitField.toNat_extractLsb', BitField.toNat_extractLsb', sync.toNat_counter]
    omega
  show TPUHit.Fields.mk _ _ _ _ _ _ = TPUHit.Fields.mk _ _ _ _ _ _
  rw [← hcharge, ← hcoarse, ← hfine, ← hcounter, ← h500, ← h125, ← hgain]
  rfl

/-- Hits change neither the last sync nor the bin. -/
theorem past_hits (currentCounter : U64) {hits : List Obj} (h : ∀ o ∈ hits, o.isHit = true)
    (past : List Obj) : lastSync (hits ++ past) = lastSync past ∧
      lastBin currentCounter (hits ++ past) = lastBin currentCounter past := by
  induction hits with
  | nil => exact ⟨rfl, rfl⟩
  | cons o hits ih =>
    obtain ⟨hsync, hbin⟩ := ih fun o' ho' => h o' (List.mem_cons_of_mem o ho')
    cases o with
    | hit => exact ⟨hsync, hbin⟩
    | ped | sync | error | special => exact absurd (h _ List.mem_cons_self) (by simp [Obj.isHit])

namespace FakeSync

variable {m : Nat} (currentCounter : U64) (x : FakeSync m)

/-- The bin of the sync counter. -/
def bin : Nat := currentCounter.toNat / 2 ^ 48 * 2 ^ 22 + x.ps.toNat / 2 ^ 26 % 2 ^ 22

theorem counterBin_tmp : counterBin currentCounter (x.tmp.data 1) = x.bin currentCounter := by
  rw [counterBin, bin, x.toNat_counter]
  omega

/-- The reduced hits of a sync's hits, with their bin. -/
def filed (ids : IndexMap U32 U16) (h : DAQHeader) : List (Nat × TPUHit.Fields) :=
  x.hits.map fun y => (x.bin currentCounter, y.fields ids h x)

/-- What the receiver files of a turn, in terms of what the turn takes from outside. -/
theorem filedHits_objs (inp : Inputs) (ids : IndexMap U32 U16) :
    filedHits inp ids x.objs = x.filed inp.currentCounter ids (.overlay inp.header) := by
  rw [objs, filed]
  generalize x.hits = hits
  induction hits using List.reverseRecOn with
  | nil => rfl
  | append_singleton hits y ih =>
    have hhits : ∀ o ∈ (hits.map FakeHit.obj).reverse, o.isHit = true := by
      intro o ho
      obtain ⟨z, -, rfl⟩ := List.mem_map.mp (List.mem_reverse.mp ho)
      rfl
    obtain ⟨hsync, hbin⟩ := past_hits inp.currentCounter hhits
      [.sync (x.tmp.data 0) (x.tmp.data 1) x.type_tmp]
    have hbin' : lastBin inp.currentCounter ((hits.map FakeHit.obj).reverse ++
        [.sync (x.tmp.data 0) (x.tmp.data 1) x.type_tmp]) = x.bin inp.currentCounter :=
      hbin.trans (x.counterBin_tmp inp.currentCounter)
    have hfields : referenceFields inp.header ids ((hits.map FakeHit.obj).reverse ++
        [.sync (x.tmp.data 0) (x.tmp.data 1) x.type_tmp]) y.obj =
          y.fields ids (.overlay inp.header) x := by
      rw [← y.referenceFields_obj, referenceFields, syncCounter, syncIsBad, hsync]
      rfl
    rw [List.map_append, ← List.cons_append, filedHits, List.reverse_append, List.map_singleton,
      List.reverse_singleton, List.singleton_append, List.reverse_cons, referenceDecode,
      if_pos (show y.obj.isHit = true from rfl), List.map_append, hbin', hfields, List.map_append,
      ← ih, filedHits, List.reverse_cons]
    rfl

end FakeSync

theorem DAQHeader.overlay_memcpy (h : DAQHeader) (beyond : Nat → U8) :
    overlay (.memcpy h.getData beyond) = h := by
  obtain ⟨d⟩ := h
  refine congrArg DAQHeader.mk (funext fun | 0 => ?_ | 1 => ?_ | 2 => ?_)
  · exact Buffer.wordAt_memcpy (show 0 < 3 by simp)
  · exact Buffer.wordAt_memcpy (show 1 < 3 by simp)
  · exact Buffer.wordAt_memcpy (show 2 < 3 by simp)

namespace FakePacket

variable {n m : Nat} (p : FakePacket n m)

/-- The message in the receiver's memory: the two parts, and what lies behind them. -/
def message (currentCounter : U64) (afterHeader afterData : Nat → U8) : WellFormed where
  header := .memcpy p.header.getData afterHeader
  data := .memcpy p.body.data afterData
  currentCounter := currentCounter
  uninit _ := default
  objs := p.body.syncs.flatMap FakeSync.objs
  words_eq := by
    refine (Buffer.words_memcpy _ _).trans ?_
    rw [FakeMessage.data, List.flatMap_assoc]
    exact congrArg (List.flatMap · p.body.syncs) (funext fun x => x.words_objs.symm)

/-- The reduced hits of a message, with their bins. -/
def filed (currentCounter : U64) (ids : IndexMap U32 U16) : List (Nat × TPUHit.Fields) :=
  p.body.syncs.flatMap fun x => x.filed currentCounter ids p.header

/-- **The receiver finds every hit of a simulated card**, in the bin of its sync. -/
theorem filedHits_message (currentCounter : U64) (ids : IndexMap U32 U16)
    (afterHeader afterData : Nat → U8) :
    let w := p.message currentCounter afterHeader afterData
    filedHits w.toInputs ids w.objs = p.filed currentCounter ids := by
  intro w
  have hheader : DAQHeader.overlay w.header = p.header := p.header.overlay_memcpy afterHeader
  have hsyncs := filedHits_flatten w.toInputs ids [] (p.body.syncs.map FakeSync.objs)
      fun objs h => by
    obtain ⟨x, -, rfl⟩ := List.mem_map.mp h
    exact ⟨_, _, _, _, rfl⟩
  rw [List.nil_append, ← List.flatMap_def] at hsyncs
  refine hsyncs.trans ?_
  rw [List.flatMap_cons, List.flatMap_map, filed, ← hheader]
  exact List.flatMap_congr fun x _ => x.filedHits_objs w.toInputs ids

theorem length_filed (currentCounter : U64) (ids : IndexMap U32 U16) :
    (p.filed currentCounter ids).length = n * m := by
  have hsync : ∀ x ∈ p.body.syncs, (x.filed currentCounter ids p.header).length = m := by
    intro x _
    rw [FakeSync.filed, List.length_map, x.length_hits]
  rw [filed, List.length_flatMap, List.map_congr_left hsync, List.map_const',
    List.sum_replicate_nat, p.body.length_syncs]

end FakePacket
end HkRbu
