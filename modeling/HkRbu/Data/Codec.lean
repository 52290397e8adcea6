import HkRbu.Data.DAQHeader
import HkRbu.Data.TPUHit

/-!
# The codec law of the four classes

Every setter of `IDODHit`, `IDODSync`, `DAQHeader` and `TPUHit` writes one field of its layout
and every getter reads one, so each class obeys `Layout.FieldLaw` whatever its words held
before. The raw readers are given the memory a message was copied into, with the object
anywhere in it, and read there what the object itself returns.
-/

namespace HkRbu

open Layout

/-! ## Hits -/

namespace IDODHit

theorem get_eq_read (h : IDODHit) (f : HitField) : h.get f = hitLayout.read h.words f :=
  (h.get_eq f).trans (HitWords.get_eq_read h.words f)

theorem law : FieldLaw hitLayout words Setter.apply Setter.field get :=
  fieldLaw words_apply get_eq_read

theorem getType_build {h : IDODHit} (hc : Constructed h) (calls : List Setter) :
    (h.build calls).getType = 0b11#8 := by
  refine BitVec.eq_of_toNat_eq ?_
  have hget := (h.build calls).get_eq_read .type
  rw [read_type_build hc] at hget
  exact hget

theorem getElem_getData (h : IDODHit) (i : Fin 2) (hi : (i : Nat) < h.getData.length) :
    h.getData[(i : Nat)] = h.words i := rfl

/-- What the raw readers of a hit return at word `i` of a part is what the hit returns. -/
structure ReadRaw (h : IDODHit) (part : Buffer) (i : Nat) : Prop where
  raw : ∀ f, (RAWIDODHit.mk (part.pointer i)).get f = h.get f
  rawSize : (RAWIDODHit.mk (part.pointer i)).getSize = h.getSize
  rawWords : (RAWIDODHit.mk (part.pointer i)).getWords = h.getWords
  overlaid : ∀ f, (RAWrIDODHit.overlay part i).get f = h.get f
  overlaidSize : (RAWrIDODHit.overlay part i).getSize = h.getSize
  overlaidWords : (RAWrIDODHit.overlay part i).getWords = h.getWords

theorem readRaw_of_pointer {h : IDODHit} {part : Buffer} {i : Nat}
    (hword : ∀ j : Fin 2, part.pointer i j = h.words j) : h.ReadRaw part i := by
  have hraw : (RAWIDODHit.mk (part.pointer i)).words = h.words := funext hword
  have hover : (RAWrIDODHit.overlay part i).data = h.words := by
    funext j
    obtain rfl | rfl : j = 0 ∨ j = 1 := by omega
    · exact hword 0
    · exact hword 1
  exact {
    raw := fun f => by rw [RAWIDODHit.get_eq, hraw, h.get_eq]
    rawSize := congrArg HitWords.getSize hraw
    rawWords := congrArg HitWords.getWords hraw
    overlaid := fun f => by rw [RAWrIDODHit.get_eq, hover, h.get_eq]
    overlaidSize := congrArg HitWords.getSize hover
    overlaidWords := congrArg HitWords.getWords hover }

/-- The raw reader finds the fields of a hit in any stream the hit is copied into. -/
theorem readRaw_memcpy (h : IDODHit) (before after : List U32) (beyond : Nat → U8) :
    h.ReadRaw (Buffer.memcpy (before ++ h.getData ++ after) beyond) before.length := by
  refine readRaw_of_pointer ?_
  intro i
  have hi : (i : Nat) < h.getData.length := Nat.lt_of_lt_of_le i.isLt h.two_le
  rw [Buffer.pointer_memcpy hi, getElem_getData]

end IDODHit

/-! ## Sync objects -/

namespace IDODSync

theorem get_eq_read (s : IDODSync) (f : SyncField) : s.get f = syncLayout.read s.data f :=
  (s.get_eq f).trans (SyncWords.get_eq_read s.data f)

theorem law : FieldLaw syncLayout data Setter.apply Setter.field get :=
  fieldLaw data_apply get_eq_read

theorem getType_build {s : IDODSync} (hc : Constructed s) (calls : List Setter) :
    (s.build calls).getType = 0b10#8 := by
  refine BitVec.eq_of_toNat_eq ?_
  have hget := (s.build calls).get_eq_read .type
  rw [read_type_build hc] at hget
  exact hget

theorem getElem_getData (s : IDODSync) (i : Fin 2) (hi : (i : Nat) < s.getData.length) :
    s.getData[(i : Nat)] = s.data i := by
  obtain rfl | rfl : i = 0 ∨ i = 1 := by omega
  all_goals rfl

/-- What `RAWIDODSync`, its members and its static accessors, returns at word `i` of a part is
    what the sync object returns. -/
structure ReadRaw (s : IDODSync) (part : Buffer) (i : Nat) : Prop where
  raw : ∀ f, (RAWIDODSync.Object.mk (part.pointer i)).get f = s.get f
  sync500 : RAWIDODSync.getSync500 (part.pointer i) = s.getSync500
  sync125 : RAWIDODSync.getSync125 (part.pointer i) = s.getSync125
  counter : RAWIDODSync.getCounter (part.pointer i) = s.getCounter

theorem readRaw_of_pointer {s : IDODSync} {part : Buffer} {i : Nat}
    (hword : ∀ j : Fin 2, part.pointer i j = s.data j) : s.ReadRaw part i := by
  have hraw : (RAWIDODSync.Object.mk (part.pointer i)).words = s.data := funext hword
  exact {
    raw := fun f => by rw [RAWIDODSync.Object.get_eq, hraw, s.get_eq]
    sync500 := (RAWIDODSync.Object.getSync500_static ⟨part.pointer i⟩).trans
      (congrArg SyncWords.getSync500 hraw)
    sync125 := (RAWIDODSync.Object.getSync125_static ⟨part.pointer i⟩).trans
      (congrArg SyncWords.getSync125 hraw)
    counter := congrArg SyncWords.getCounter hraw }

theorem readRaw_memcpy (s : IDODSync) (before after : List U32) (beyond : Nat → U8) :
    s.ReadRaw (Buffer.memcpy (before ++ s.getData ++ after) beyond) before.length := by
  refine readRaw_of_pointer ?_
  intro i
  exact (Buffer.pointer_memcpy (show (i : Nat) < s.getData.length from i.isLt)).trans
    (s.getElem_getData i i.isLt)

end IDODSync

/-! ## Headers and reduced hits -/

namespace DAQHeader

theorem law : FieldLaw daqLayout data Setter.apply Setter.field get :=
  fieldLaw data_apply get_eq_read

theorem getElem_getData (h : DAQHeader) (i : Fin 3) (hi : (i : Nat) < h.getData.length) :
    h.getData[(i : Nat)] = h.data i := by
  obtain rfl | rfl | rfl : i = 0 ∨ i = 1 ∨ i = 2 := by omega
  all_goals rfl

theorem get_raw_memcpy (h : DAQHeader) (before after : List U32) (beyond : Nat → U8)
    (f : DAQField) :
    (RAWDAQHeader.mk ((Buffer.memcpy (before ++ h.getData ++ after) beyond).pointer
      before.length)).get f = h.get f := by
  rw [RAWDAQHeader.get_eq]
  refine congrArg (fun d => DAQHeader.get ⟨d⟩ f) ?_
  funext i
  exact (Buffer.pointer_memcpy (show (i : Nat) < h.getData.length from i.isLt)).trans
    (h.getElem_getData i i.isLt)

end DAQHeader

theorem TPUHit.law :
    FieldLaw tpuLayout TPUHit.data TPUHit.Setter.apply TPUHit.Setter.field TPUHit.get :=
  fieldLaw TPUHit.data_apply TPUHit.get_eq_read

/-! ## The law -/

/-- The objects may be anywhere in a message: `before` and `after` are the words around them. -/
structure CodecLaw : Prop where
  hit : FieldLaw hitLayout IDODHit.words IDODHit.Setter.apply IDODHit.Setter.field IDODHit.get
  sync : FieldLaw syncLayout IDODSync.data IDODSync.Setter.apply IDODSync.Setter.field
    IDODSync.get
  header : FieldLaw daqLayout DAQHeader.data DAQHeader.Setter.apply DAQHeader.Setter.field
    DAQHeader.get
  tpuHit : FieldLaw tpuLayout TPUHit.data TPUHit.Setter.apply TPUHit.Setter.field TPUHit.get
  hitType : ∀ h, IDODHit.Constructed h → ∀ calls, (h.build calls).getType = 0b11#8
  syncType : ∀ s, IDODSync.Constructed s → ∀ calls, (s.build calls).getType = 0b10#8
  hitRaw : ∀ (h : IDODHit) (before after : List U32) (beyond : Nat → U8),
    h.ReadRaw (Buffer.memcpy (before ++ h.getData ++ after) beyond) before.length
  syncRaw : ∀ (s : IDODSync) (before after : List U32) (beyond : Nat → U8),
    s.ReadRaw (Buffer.memcpy (before ++ s.getData ++ after) beyond) before.length
  headerRaw : ∀ (h : DAQHeader) (before after : List U32) (beyond : Nat → U8) (f : DAQField),
    (RAWDAQHeader.mk ((Buffer.memcpy (before ++ h.getData ++ after) beyond).pointer
      before.length)).get f = h.get f
  tpuHitNew : ∀ (uninit uninit' : TPUHit) (type : U8) (bad_sync gain : Bool)
    (charge pmt_id : U16) (time : U32),
    TPUHit.new uninit type bad_sync gain charge pmt_id time =
      TPUHit.new uninit' type bad_sync gain charge pmt_id time

/-- **The field codec law** of the four classes and their raw readers. -/
theorem codecLaw : CodecLaw where
  hit := IDODHit.law
  sync := IDODSync.law
  header := DAQHeader.law
  tpuHit := TPUHit.law
  hitType _ hc calls := IDODHit.getType_build hc calls
  syncType _ hc calls := IDODSync.getType_build hc calls
  hitRaw := IDODHit.readRaw_memcpy
  syncRaw := IDODSync.readRaw_memcpy
  headerRaw := DAQHeader.get_raw_memcpy
  tpuHitNew uninit uninit' type bad_sync gain charge pmt_id time :=
    TPUHit.new_eq_new uninit type bad_sync gain charge pmt_id time uninit'

end HkRbu
