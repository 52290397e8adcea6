import HkRbu.Decode.Reference

/-!
# Encoding a stream

A sender builds sync and hit objects with the setters and concatenates their word vectors, as
`fakedata.cpp` does: blocks of one sync and the hits of its window of 256 ticks. A hit is given
its own counter value, of which the hit word keeps the low 8 bits; the rest has to come from the
sync. `decode_encode` says that the scan of such a stream finds every hit again, whole.

The encodings carry what was set last in each field, not one order of calls: constructors and
setter calls are arbitrary otherwise, and so are the sub-hit words.
-/

namespace HkRbu

/-- A hit built with the setters for the counter value `time`, of any base object. -/
structure HitEncoding where
  time : Nat
  fine : U16
  gain : Bool
  charge : U16
  channel : U8
  numSubHits : U8
  base : IDODHit
  calls : List IDODHit.Setter
  subHits : Nat → U32
  constructed : IDODHit.Constructed base
  coarse_set : Layout.lastWrite (calls.map IDODHit.Setter.field) .coarse = some (time % 256)
  fine_set : Layout.lastWrite (calls.map IDODHit.Setter.field) .fine = some fine.toNat
  gain_set : Layout.lastWrite (calls.map IDODHit.Setter.field) .gain = some gain.toNat
  charge_set : Layout.lastWrite (calls.map IDODHit.Setter.field) .charge = some charge.toNat
  channel_set : Layout.lastWrite (calls.map IDODHit.Setter.field) .channel = some channel.toNat
  numSubHits_set :
    Layout.lastWrite (calls.map IDODHit.Setter.field) .numSubHits = some numSubHits.toNat
  numSubHits_le : numSubHits.toNat ≤ 31
  ped_set : Layout.lastWrite (calls.map IDODHit.Setter.field) .ped = some 0

/-- A hit encoded by one call of each setter. -/
def HitEncoding.ofValues (time : Nat) (fine : U16) (gain : Bool) (charge : U16)
    (channel numSubHits : U8) (subHits : Nat → U32) (h : numSubHits.toNat ≤ 31) : HitEncoding where
  time := time
  fine := fine
  gain := gain
  charge := charge
  channel := channel
  numSubHits := numSubHits
  base := .new
  calls := [.coarse (BitVec.ofNat 8 time), .fine fine, .gain gain, .charge charge,
    .channel channel, .numSubHits numSubHits, .ped false]
  subHits := subHits
  constructed := .default
  coarse_set := by simp [Layout.lastWrite, IDODHit.Setter.field]
  fine_set := by simp [Layout.lastWrite, IDODHit.Setter.field]
  gain_set := by simp [Layout.lastWrite, IDODHit.Setter.field]
  charge_set := by simp [Layout.lastWrite, IDODHit.Setter.field]
  channel_set := by simp [Layout.lastWrite, IDODHit.Setter.field]
  numSubHits_set := by simp [Layout.lastWrite, IDODHit.Setter.field]
  numSubHits_le := h
  ped_set := by simp [Layout.lastWrite, IDODHit.Setter.field]

/-- How a sync object got its counter `S`: from the last call of `SetCounter`, or if there is none
    from the constructor, which leaves 0 where it is given none. -/
inductive IDODSync.CounterGiven (S : U32) (calls : List Setter) : IDODSync → Prop where
  | set {base : IDODSync} (constructed : Constructed base)
      (last : Layout.lastWrite (calls.map Setter.field) .counter = some S.toNat) :
      CounterGiven S calls base
  | constructor (r₀ r₁ : U32)
      (last : Layout.lastWrite (calls.map Setter.field) .counter = none) :
      CounterGiven S calls (newAt r₀ r₁ S)
  | default (zero : S = 0) (last : Layout.lastWrite (calls.map Setter.field) .counter = none) :
      CounterGiven S calls new

theorem IDODSync.CounterGiven.constructed {S : U32} {calls : List Setter} {base : IDODSync}
    (h : CounterGiven S calls base) : Constructed base := by
  cases h with
  | set constructed => exact constructed
  | constructor r₀ r₁ => exact .counter r₀ r₁ S
  | default => exact .default

/-- **The counter given is the counter got.** -/
theorem IDODSync.CounterGiven.getCounter_build {S : U32} {calls : List Setter} {base : IDODSync}
    (h : CounterGiven S calls base) : (base.build calls).getCounter = S := by
  have hread : ∀ s : IDODSync, s.getCounter.toNat = syncLayout.read s.data .counter := fun s =>
    (s.get_eq .counter).trans (SyncWords.get_eq_read s.data .counter)
  refine BitVec.eq_of_toNat_eq ?_
  rw [hread, data_build, Layout.read_writes]
  cases h with
  | set constructed last =>
    rw [last]
    exact Nat.mod_eq_of_lt S.isLt
  | constructor r₀ r₁ last =>
    rw [last]
    exact (hread (newAt r₀ r₁ S)).symm
  | default zero last =>
    rw [last, zero]
    exact (hread new).symm

/-- A sync object built with the setters for the counter `counter`. -/
structure SyncEncoding where
  counter : U32
  base : IDODSync
  calls : List IDODSync.Setter
  given : IDODSync.CounterGiven counter calls base

namespace HitEncoding

/-- The object the sender has built, its sub-hit words filled in through `GetData`. -/
def hit (e : HitEncoding) : IDODHit := (e.base.build e.calls).fillSubHits e.subHits

/-- A field of a built hit has the value of the last call that sets it. -/
theorem read_hit (e : HitEncoding) {f : HitField} {v : Nat}
    (h : Layout.lastWrite (e.calls.map IDODHit.Setter.field) f = some v) :
    hitLayout.read e.hit.words f = v % 2 ^ f.len := by
  rw [hit, IDODHit.words_fillSubHits, IDODHit.words_build]
  exact hitLayout.read_writes_of_lastWrite e.base.words h

theorem type_hit (e : HitEncoding) : e.hit.words 0 >>> 30 = 0b11#32 := by
  have h : ((e.hit.words 0).extractLsb' 30 2).toNat = 0b11 := by
    have := IDODHit.read_type_build e.constructed e.calls
    rw [← IDODHit.words_fillSubHits _ e.subHits] at this
    exact this
  exact BitField.ushiftRight_of_toNat_extractLsb' 30 2 (by simp) h

theorem notPed_hit (e : HitEncoding) : (e.hit.words 1 >>> 25) &&& 0b1#32 = 0#32 := by
  have h := e.read_hit e.ped_set
  have hbit : (e.hit.words 1).getLsbD 25 = false := by
    have hval : ((e.hit.words 1).getLsbD 25).toNat = 0 :=
      (BitField.toNat_extractLsb'_one 25 (e.hit.words 1)).symm.trans h
    cases hb : (e.hit.words 1).getLsbD 25 with
    | false => rfl
    | true => exact absurd (hb ▸ hval) (by simp)
  have hmask := BitField.ushiftRight_and_one_bne_zero 25 (e.hit.words 1) (by simp)
  rw [hbit] at hmask
  exact bne_eq_false_iff_eq.mp hmask

theorem read_numSubHits (e : HitEncoding) :
    ((e.hit.words 1).extractLsb' 27 5).toNat = e.numSubHits.toNat :=
  (e.read_hit e.numSubHits_set).trans (Nat.mod_eq_of_lt (by
    have := e.numSubHits_le
    show e.numSubHits.toNat < 2 ^ 5
    omega))

/-- **The vector is as long as the sub-hit count says**, capped at 15 sub-hits. -/
theorem length_subs (e : HitEncoding) :
    (e.hit.data.drop 2).length = min ((e.hit.words 1).extractLsb' 27 5).toNat 15 := by
  rw [read_numSubHits, List.length_drop, hit, IDODHit.length_fillSubHits, IDODHit.length_build,
    e.numSubHits_set]
  exact Nat.add_sub_cancel_left 2 _

/-- The object the decoder finds at the words of the hit. -/
def obj (e : HitEncoding) : Obj :=
  .hit (e.hit.words 0) (e.hit.words 1) (e.hit.data.drop 2) e.type_hit e.notPed_hit e.length_subs

theorem words_obj (e : HitEncoding) : e.obj.words = e.hit.getData := e.hit.data_eq.symm

end HitEncoding

namespace SyncEncoding

/-- The sync object itself. -/
def sync (e : SyncEncoding) : IDODSync := e.base.build e.calls

theorem getCounter_sync (e : SyncEncoding) : e.sync.getCounter = e.counter :=
  e.given.getCounter_build

theorem type_sync (e : SyncEncoding) : e.sync.data 0 >>> 30 = 0b10#32 := by
  have h : ((e.sync.data 0).extractLsb' 30 2).toNat = 0b10 :=
    IDODSync.read_type_build e.given.constructed e.calls
  exact BitField.ushiftRight_of_toNat_extractLsb' 30 2 (by simp) h

/-- The object the decoder finds at the words of the sync. -/
def obj (e : SyncEncoding) : Obj := .sync (e.sync.data 0) (e.sync.data 1) e.type_sync

theorem words_obj (e : SyncEncoding) : e.obj.words = e.sync.getData := rfl

end SyncEncoding

/-- A sync and the hits sent after it, whose times all lie in the window of its counter: the sync
    carries the bits above the eight of the coarse counter of a hit. -/
structure Block where
  sync : SyncEncoding
  hits : List HitEncoding
  window : ∀ e ∈ hits, e.time / 256 = sync.counter.toNat / 256

namespace Block

/-- The words of a block, as they are sent. -/
def getData (blk : Block) : List U32 :=
  blk.sync.sync.getData ++ blk.hits.flatMap fun e => e.hit.getData

/-- The objects of a block. -/
def objs (blk : Block) : List Obj := blk.sync.obj :: blk.hits.map HitEncoding.obj

theorem words_objs (blk : Block) : blk.objs.flatMap Obj.words = blk.getData := by
  rw [objs, List.flatMap_cons, SyncEncoding.words_obj, getData, List.flatMap_map]
  exact congrArg _ (congrArg (List.flatMap · blk.hits) (funext HitEncoding.words_obj))

end Block

/-- The message of a list of blocks: the words, copied into the data part. -/
def encode (header : Buffer) (blocks : List Block) (beyond : Nat → U8) (currentCounter : U64)
    (uninit : Nat → TPUHit) : Inputs where
  header := header
  data := Buffer.memcpy (blocks.flatMap Block.getData) beyond
  currentCounter := currentCounter
  uninit := uninit

/-- The message of the blocks, as a well-formed one. -/
def encoded (header : Buffer) (blocks : List Block) (beyond : Nat → U8) (currentCounter : U64)
    (uninit : Nat → TPUHit) : WellFormed where
  toInputs := encode header blocks beyond currentCounter uninit
  objs := blocks.flatMap Block.objs
  words_eq := by
    refine (Buffer.words_memcpy _ _).trans ?_
    rw [List.flatMap_assoc]
    exact congrArg (List.flatMap · blocks) (funext fun blk => blk.words_objs.symm)

/-! ## What the reference decoder makes of the blocks -/

/-- What the encoder fixes of a reduced hit. -/
structure Payload where
  gain : Bool
  charge : Nat
  time : Nat
  deriving DecidableEq, Repr

/-- The fields of a reduced hit that the sender has chosen. -/
def TPUHit.Fields.payload (f : TPUHit.Fields) : Payload := ⟨f.gain, f.charge.toNat, f.time.toNat⟩

namespace HitEncoding

/-- The bin of the counter value the hit was encoded at. -/
def bin (currentCounter : U64) (e : HitEncoding) : Nat :=
  currentCounter.toNat / 2 ^ 48 * 2 ^ 22 + e.time / 2 ^ 10

/-- What is left of the encoded values in a reduced hit: 12 bits of the charge, and 16 bits of the
    counter value before the fine counter. -/
def payload (e : HitEncoding) : Payload :=
  ⟨e.gain, e.charge.toNat % 2 ^ 12, e.time % 2 ^ 16 * 2 ^ 16 + e.fine.toNat⟩

theorem toNat_time (S : U32) (c : U8) (f : U16) :
    (S.extractLsb' 8 8 ++ c ++ f : U32).toNat =
      S.toNat / 2 ^ 8 % 2 ^ 8 * 2 ^ 24 + c.toNat * 2 ^ 16 + f.toNat := by
  rw [BitVec.toNat_append, ← Nat.shiftLeft_add_eq_or_of_lt f.isLt, BitVec.toNat_append,
    ← Nat.shiftLeft_add_eq_or_of_lt c.isLt, BitField.toNat_extractLsb', Nat.shiftLeft_eq,
    Nat.shiftLeft_eq]
  omega

/-- **A hit after a sync of its window is decoded as it was encoded.** -/
theorem payload_reference (e : HitEncoding) (header : Buffer) (ids : IndexMap U32 U16)
    {past : List Obj} (h : e.time / 256 = (syncCounter past).toNat / 256) :
    (referenceFields header ids past e.obj).payload = e.payload := by
  have hgain : (e.hit.words 1).getLsbD 24 = e.gain := by
    refine TPUHit.toNat_bool_inj ?_
    refine (BitField.toNat_extractLsb'_one 24 (e.hit.words 1)).symm.trans
      ((e.read_hit e.gain_set).trans ?_)
    cases e.gain <;> rfl
  have hcharge : (((e.hit.words 1).extractLsb' 12 12).setWidth 16).toNat =
      e.charge.toNat % 2 ^ 12 := by
    have hread := e.read_hit e.charge_set
    rw [BitVec.toNat_setWidth_of_le (by simp)]
    exact hread
  have hcoarse : ((e.hit.words 0).extractLsb' 16 8).toNat = e.time % 256 :=
    (e.read_hit e.coarse_set).trans (Nat.mod_mod_of_dvd _ (by decide))
  have hfine : ((e.hit.words 0).extractLsb' 0 16).toNat = e.fine.toNat :=
    (e.read_hit e.fine_set).trans (Nat.mod_eq_of_lt e.fine.isLt)
  have htime : ((syncCounter past).extractLsb' 8 8 ++ (e.hit.words 0).extractLsb' 16 8 ++
      (e.hit.words 0).extractLsb' 0 16 : U32).toNat = e.time % 2 ^ 16 * 2 ^ 16 + e.fine.toNat := by
    rw [toNat_time, hcoarse, hfine]
    omega
  show Payload.mk _ _ _ = Payload.mk _ _ _
  rw [← hgain, ← hcharge, ← htime]
  rfl

end HitEncoding

/-- The bin and the chosen fields, of a reference hit. -/
def ReferenceHit.located (r : ReferenceHit) : Nat × Payload := (r.bin, r.hit.payload)

/-- The bin and the chosen fields, of an encoded hit. -/
def HitEncoding.located (currentCounter : U64) (e : HitEncoding) : Nat × Payload :=
  (e.bin currentCounter, e.payload)

/-- The reference decoder finds the hits of a block behind its sync. -/
theorem located_hits (inp : Inputs) (ids : IndexMap U32 U16) {S : U32} (hits : List HitEncoding)
    (past : List Obj) (hS : syncCounter past = S)
    (hbin : lastBin inp.currentCounter past = counterBin inp.currentCounter S)
    (hw : ∀ e ∈ hits, e.time / 256 = S.toNat / 256) :
    (referenceDecode inp ids ((hits.map HitEncoding.obj).reverse ++ past)).map
        ReferenceHit.located =
      (referenceDecode inp ids past).map ReferenceHit.located ++
        hits.map (HitEncoding.located inp.currentCounter) := by
  induction hits generalizing past with
  | nil => exact (List.append_nil _).symm
  | cons e hits ih =>
    have hwindow := hw e List.mem_cons_self
    -- The hit changes neither the last sync nor the bin.
    have hrest := ih (e.obj :: past) hS hbin fun e' he' => hw e' (List.mem_cons_of_mem e he')
    have hhere : (⟨lastBin inp.currentCounter past, WellFormed.size past,
        referenceFields inp.header ids past e.obj⟩ : ReferenceHit).located =
        e.located inp.currentCounter := by
      refine Prod.ext ?_ (e.payload_reference inp.header ids (hS ▸ hwindow))
      show lastBin inp.currentCounter past = e.bin inp.currentCounter
      rw [hbin, counterBin, HitEncoding.bin]
      omega
    rw [List.map_cons, List.reverse_cons, List.append_assoc, List.singleton_append, hrest,
      referenceDecode, if_pos (show e.obj.isHit = true from rfl), List.map_append,
      List.append_assoc, List.map_singleton, hhere]
    rfl

/-- The reference decoder finds the hits of all blocks, whatever was before. -/
theorem located_blocks (inp : Inputs) (ids : IndexMap U32 U16) (blocks : List Block)
    (past : List Obj) :
    (referenceDecode inp ids ((blocks.flatMap Block.objs).reverse ++ past)).map
        ReferenceHit.located =
      (referenceDecode inp ids past).map ReferenceHit.located ++
        (blocks.flatMap Block.hits).map (HitEncoding.located inp.currentCounter) := by
  induction blocks generalizing past with
  | nil => exact (List.append_nil _).symm
  | cons blk blocks ih =>
    have hcounter : syncCounter (blk.sync.obj :: past) = blk.sync.counter :=
      blk.sync.getCounter_sync
    have hbin : lastBin inp.currentCounter (blk.sync.obj :: past) =
        counterBin inp.currentCounter blk.sync.counter :=
      congrArg (counterBin inp.currentCounter) blk.sync.getCounter_sync
    have hhits := located_hits inp ids blk.hits (blk.sync.obj :: past) hcounter hbin blk.window
    have hsync : referenceDecode inp ids (blk.sync.obj :: past) = referenceDecode inp ids past :=
      List.append_nil _
    rw [List.flatMap_cons, List.reverse_append, List.append_assoc, ih, Block.objs,
      List.reverse_cons, List.append_assoc, List.singleton_append, hhits, hsync, List.flatMap_cons,
      List.map_append, List.append_assoc]

/-- **The scan finds every encoded hit again**: it appends one reduced hit for each, in order, and
    each bin holds those whose counter value lies in it. -/
theorem decode_encode (header : Buffer) (blocks : List Block) (beyond : Nat → U8)
    (currentCounter : U64) (uninit : Nat → TPUHit) (s : Scan) :
    let inp := encode header blocks beyond currentCounter uninit
    ((s.log inp).filterMap Insert.reduced).map ReferenceHit.located =
        (blocks.flatMap Block.hits).map (HitEncoding.located currentCounter) ∧
      ∀ b, (IndexMap.get (s.run inp).tpuHitCollection b).map (fun h => h.decode.payload) =
        ((blocks.flatMap Block.hits).filter (·.bin currentCounter = b.toNat)).map
          HitEncoding.payload := by
  intro inp
  have hlog : (s.log inp).filterMap Insert.reduced =
      referenceDecode inp s.pmtIdMap (blocks.flatMap Block.objs).reverse :=
    log_eq_referenceDecode (encoded header blocks beyond currentCounter uninit) s
  have hlocated := located_blocks inp s.pmtIdMap blocks []
  rw [List.append_nil, ← hlog] at hlocated
  refine ⟨hlocated, ?_⟩
  intro b
  have hfilter : ∀ l : List ReferenceHit,
      ((l.filter (·.bin = b.toNat)).map (·.hit)).map TPUHit.Fields.payload =
        ((l.map ReferenceHit.located).filter (·.1 = b.toNat)).map Prod.snd := by
    intro l
    rw [List.map_map, List.filter_map, List.map_map]
    rfl
  calc (IndexMap.get (s.run inp).tpuHitCollection b).map (fun h => h.decode.payload)
      = (((s.log inp).flatMap (Insert.tpuAt b)).map TPUHit.decode).map TPUHit.Fields.payload := by
        rw [Scan.get_run_tpuHitCollection, List.map_map]
        rfl
    _ = (((blocks.flatMap Block.hits).map (HitEncoding.located currentCounter)).filter
          (·.1 = b.toNat)).map Prod.snd := by
        rw [decode_tpuAt, hfilter, hlocated]
        rfl
    _ = ((blocks.flatMap Block.hits).filter (·.bin currentCounter = b.toNat)).map
          HitEncoding.payload := by
        rw [List.filter_map, List.map_map]
        rfl

/-- A sync and a hit of its window, with a sub-hit that looks like a sync. -/
example :
    let sync : SyncEncoding := ⟨0x1234#32, .new, [.counter 0x1234#32], .set .default rfl⟩
    let hit : HitEncoding :=
      .ofValues 0x12ab 7#16 true 5#16 3#8 1#8 (fun _ => 0x80000000#32) (by decide)
    let inp := encode ⟨[], fun _ => 0⟩ [⟨sync, [hit], by decide⟩] (fun _ => 0) 0 fun _ => default
    ((Scan.new.log inp).filterMap Insert.reduced).map ReferenceHit.located =
      [(4, ⟨true, 5, 0x12ab0007⟩)] := by
  decide

end HkRbu
