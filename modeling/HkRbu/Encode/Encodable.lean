import HkRbu.Data.Formats
import HkRbu.Decode.Completion
import HkRbu.Encode.Blocks

/-!
# What senders can build

The other way round from the codec laws: given the words of a hit or a sync object, calling the
setters with what the getters return builds these words again, sub-hits included. So the messages
that senders can build in blocks are all that consist of syncs and hits and begin with a sync, and
which these are, the words themselves tell (`encodable_iff`).
-/

namespace HkRbu

/-! ## Hits -/

/-- The calls that set every field to what the getters return. -/
def IDODHit.callsOf (d : Fin 2 → U32) : List IDODHit.Setter :=
  [.boardNum (HitWords.getBoardNum d), .idod (HitWords.getIDOD d),
    .channel (HitWords.getChannel d), .coarse (HitWords.getCoarse d), .fine (HitWords.getFine d),
    .numSubHits (HitWords.getNumSubHits d), .tdcError (HitWords.getTDCError d),
    .ped (HitWords.getPed d), .gain (HitWords.getGain d), .charge (HitWords.getCharge d),
    .stop (HitWords.getStop d)]

/-- Only the constructors set the type. -/
theorem IDODHit.lastWrite_callsOf (d : Fin 2 → U32) {f : HitField} (hf : f ≠ .type) :
    Layout.lastWrite ((callsOf d).map Setter.field) f = some (HitWords.get d f) := by
  cases f with
  | type => exact absurd rfl hf
  | boardNum | idod | channel | coarse | fine | numSubHits | tdcError | ped | gain | charge
  | stop => rfl

theorem toNat_extractLsb'_type {w : U32} {v : Nat} (hv : v < 4) (h : w >>> 30 = BitVec.ofNat 32 v) :
    (w.extractLsb' 30 2).toNat = v := by
  rw [BitField.ushiftRight_eq_extractLsb' 30 2 w (by simp)] at h
  have htoNat := congrArg BitVec.toNat h
  rw [BitVec.toNat_setWidth_of_le (by simp), BitVec.toNat_ofNat] at htoNat
  rw [htoNat]
  omega

namespace HitEncoding

/-- The encoding of the hit with the words `d` and `subs`, in the window of the counter `S`. -/
def ofWords (S : U32) (d : Fin 2 → U32) (subs : List U32) (notPed : HitWords.getPed d = false) :
    HitEncoding where
  time := S.toNat / 256 * 256 + (HitWords.getCoarse d).toNat
  fine := HitWords.getFine d
  gain := HitWords.getGain d
  charge := HitWords.getCharge d
  channel := HitWords.getChannel d
  numSubHits := HitWords.getNumSubHits d
  base := .new
  calls := IDODHit.callsOf d
  subHits i := subs.getD i 0
  constructed := .default
  coarse_set := by
    have hlt : (HitWords.getCoarse d).toNat < 256 := BitVec.isLt _
    rw [IDODHit.lastWrite_callsOf d (f := .coarse) nofun, HitWords.get, Option.some_inj]
    omega
  fine_set := IDODHit.lastWrite_callsOf d nofun
  gain_set := IDODHit.lastWrite_callsOf d nofun
  charge_set := IDODHit.lastWrite_callsOf d nofun
  channel_set := IDODHit.lastWrite_callsOf d nofun
  numSubHits_set := IDODHit.lastWrite_callsOf d nofun
  numSubHits_le := by
    have hlt := hitLayout.read_lt d .numSubHits
    rw [← HitWords.get_eq_read] at hlt
    exact Nat.le_of_lt_succ hlt
  ped_set := by
    rw [IDODHit.lastWrite_callsOf d (f := .ped) nofun, HitWords.get, notPed]
    rfl

variable (S : U32) {d : Fin 2 → U32} {subs : List U32} (notPed : HitWords.getPed d = false)

theorem time_ofWords : (ofWords S d subs notPed).time / 256 = S.toNat / 256 := by
  have hlt : (HitWords.getCoarse d).toNat < 256 := BitVec.isLt _
  show (S.toNat / 256 * 256 + (HitWords.getCoarse d).toNat) / 256 = S.toNat / 256
  omega

/-- Setting every field to what the getters return builds the words of a hit again. -/
theorem words_ofWords (type : d 0 >>> 30 = 0b11#32) : (ofWords S d subs notPed).hit.words = d := by
  refine hitLayout.eq_of_read_eq (hitLayout.covers_of_sum hitLayout_sum) fun f => ?_
  by_cases hf : f = .type
  · subst hf
    rw [hit, IDODHit.words_fillSubHits]
    exact (IDODHit.read_type_build .default _).trans (toNat_extractLsb'_type (by simp) type).symm
  · rw [read_hit _ (IDODHit.lastWrite_callsOf d hf), HitWords.get_eq_read]
    exact Nat.mod_eq_of_lt (hitLayout.read_lt d f)

theorem drop_ofWords (type : d 0 >>> 30 = 0b11#32)
    (len : subs.length = min ((d 1).extractLsb' 27 5).toNat 15) :
    (ofWords S d subs notPed).hit.data.drop 2 = subs := by
  have hlength := (ofWords S d subs notPed).length_subs
  rw [words_ofWords S notPed type, ← len] at hlength
  apply List.ext_getElem hlength
  intro i hi hi'
  rw [List.getElem_drop]
  simp only [hit, IDODHit.fillSubHits, List.getElem_mapIdx]
  rw [if_neg (by omega), Nat.add_sub_cancel_left]
  simp [ofWords, hi']

theorem obj_ofWords {w₀ w₁ : U32} (type : w₀ >>> 30 = 0b11#32)
    (isHit : (w₁ >>> 25) &&& 0b1#32 = 0#32)
    (len : subs.length = min (w₁.extractLsb' 27 5).toNat 15)
    (notPed : HitWords.getPed ![w₀, w₁] = false) :
    (ofWords S ![w₀, w₁] subs notPed).obj = .hit w₀ w₁ subs type isHit len := by
  apply Obj.eq_of_words
  rw [words_obj, IDODHit.getData, IDODHit.data_eq, words_ofWords S notPed type,
    drop_ofWords S notPed type len]
  rfl

end HitEncoding

/-! ## Syncs -/

/-- The calls that set every field to what the getters return. -/
def IDODSync.callsOf (d : Fin 2 → U32) : List IDODSync.Setter :=
  [.boardNum (SyncWords.getBoardNum d), .idod (SyncWords.getIDOD d),
    .channel (SyncWords.getChannel d), .sync500 (SyncWords.getSync500 d),
    .sync125 (SyncWords.getSync125 d), .reserved (SyncWords.getReserved d),
    .counter (SyncWords.getCounter d)]

theorem IDODSync.lastWrite_callsOf (d : Fin 2 → U32) {f : SyncField} (hf : f ≠ .type) :
    Layout.lastWrite ((callsOf d).map Setter.field) f = some (SyncWords.get d f) := by
  cases f with
  | type => exact absurd rfl hf
  | boardNum | idod | channel | sync500 | sync125 | reserved | counter => rfl

namespace SyncEncoding

/-- The encoding of the sync with the words `d`. -/
def ofWords (d : Fin 2 → U32) : SyncEncoding :=
  ⟨SyncWords.getCounter d, .new, IDODSync.callsOf d,
    .set .default (IDODSync.lastWrite_callsOf d nofun)⟩

/-- Setting every field to what the getters return builds the words of a sync again. -/
theorem data_ofWords {d : Fin 2 → U32} (type : d 0 >>> 30 = 0b10#32) :
    (ofWords d).sync.data = d := by
  refine syncLayout.eq_of_read_eq (syncLayout.covers_of_sum syncLayout_sum) fun f => ?_
  by_cases hf : f = .type
  · subst hf
    exact (IDODSync.read_type_build .default _).trans (toNat_extractLsb'_type (by simp) type).symm
  · have hlast := IDODSync.lastWrite_callsOf d hf
    rw [SyncWords.get_eq_read] at hlast
    rw [sync, IDODSync.data_build]
    exact (syncLayout.read_writes_of_lastWrite _ hlast).trans
      (Nat.mod_eq_of_lt (syncLayout.read_lt d f))

theorem obj_ofWords {w₀ w₁ : U32} (type : w₀ >>> 30 = 0b10#32) :
    (ofWords ![w₀, w₁]).obj = .sync w₀ w₁ type := by
  apply Obj.eq_of_words
  rw [words_obj, IDODSync.getData, data_ofWords (d := ![w₀, w₁]) type]
  rfl

end SyncEncoding

/-! ## Streams -/

namespace Block

theorem kind_of_mem {o : Obj} {blk : Block} (h : o ∈ blk.objs) :
    o.kind = .hit ∨ o.kind = .sync := by
  rcases List.mem_cons.mp h with rfl | h
  · exact .inr rfl
  · obtain ⟨e, -, rfl⟩ := List.mem_map.mp h
    exact .inl rfl

/-- Hits and syncs are the rest of a block and blocks. The hits are of the window of the sync before
    them, whose counter is `S`. -/
theorem exists_blocks {objs : List Obj} (h : ∀ o ∈ objs, o.kind = .hit ∨ o.kind = .sync) (S : U32) :
    ∃ hits : List HitEncoding, (∀ e ∈ hits, e.time / 256 = S.toNat / 256) ∧
      ∃ blocks : List Block, objs = hits.map HitEncoding.obj ++ blocks.flatMap Block.objs := by
  induction objs generalizing S with
  | nil => exact ⟨[], fun _ he => absurd he List.not_mem_nil, [], rfl⟩
  | cons o objs ih =>
    have hrest : ∀ o ∈ objs, o.kind = .hit ∨ o.kind = .sync := fun o ho =>
      h o (List.mem_cons_of_mem _ ho)
    cases o with
    | hit w₀ w₁ subs type notPed len =>
      obtain ⟨hits, hwindow, blocks, rfl⟩ := ih hrest S
      have hped : HitWords.getPed ![w₀, w₁] = false := by
        rw [HitWords.getPed_eq, ← BitField.ushiftRight_and_one_bne_zero 25 _ (by simp)]
        exact bne_eq_false_iff_eq.mpr notPed
      refine ⟨.ofWords S ![w₀, w₁] subs hped :: hits,
        List.forall_mem_cons.mpr ⟨HitEncoding.time_ofWords S hped, hwindow⟩, blocks, ?_⟩
      rw [List.map_cons, HitEncoding.obj_ofWords S type notPed len]
      rfl
    | sync w₀ w₁ type =>
      obtain ⟨hits, hwindow, blocks, rfl⟩ := ih hrest (SyncEncoding.ofWords ![w₀, w₁]).counter
      refine ⟨[], fun _ he => absurd he List.not_mem_nil, ⟨_, hits, hwindow⟩ :: blocks, ?_⟩
      rw [List.flatMap_cons, Block.objs, SyncEncoding.obj_ofWords type]
      rfl
    | ped | error | special => exact absurd (h _ List.mem_cons_self) (by simp [Obj.kind])

/-- **The streams of blocks** are those of hits and syncs that begin with a sync. -/
theorem objs_eq_iff (objs : List Obj) :
    (∃ blocks : List Block, objs = blocks.flatMap Block.objs) ↔
      (∀ o ∈ objs, o.kind = .hit ∨ o.kind = .sync) ∧ ∀ o ∈ objs.head?, o.kind = .sync := by
  constructor
  · rintro ⟨blocks, rfl⟩
    refine ⟨?_, ?_⟩
    · intro o ho
      obtain ⟨blk, -, hblk⟩ := List.mem_flatMap.mp ho
      exact kind_of_mem hblk
    · intro o ho
      cases blocks with
      | nil => exact absurd ho (by simp)
      | cons blk blocks =>
        obtain rfl : blk.sync.obj = o := Option.mem_some_iff.mp ho
        rfl
  · rintro ⟨hkinds, hfirst⟩
    obtain ⟨hits, -, blocks, rfl⟩ := exists_blocks hkinds 0
    cases hits with
    | nil => exact ⟨blocks, rfl⟩
    | cons e hits => exact absurd (hfirst e.obj rfl) (by simp [HitEncoding.obj, Obj.kind])

end Block

end HkRbu
