import HkRbu.Decode.Agreement
import HkRbu.Decode.RawReference
import HkRbu.Upload.Boundaries

/-!
# The raw words of a bin decode to its hits

A slice is given the raw words of its bin beside the reduced hits made of them. Read as a message of
their own, the raw words give the same reduced hits (`redecoded`), as long as every hit comes after
a sync and the last object before it that is not a hit lies in the bin of that sync: what the hit
takes from the stream is then in its own bin.
-/

namespace HkRbu

/-- The objects assigned to the bin `b`, of objects that are listed newest first. -/
def filedObjs (currentCounter : U64) (b : U64) : List Obj → List Obj
  | [] => []
  | o :: past =>
    if binOf currentCounter past o = b.toNat then o :: filedObjs currentCounter b past
    else filedObjs currentCounter b past

section Filed

variable {currentCounter : U64} {b : U64} {past : List Obj}

/-- The objects filed under a bin have the words that are assigned to it. -/
theorem words_filedObjs (currentCounter : U64) (b : U64) (past : List Obj) :
    (filedObjs currentCounter b past).reverse.flatMap Obj.words =
      assigned currentCounter b past := by
  induction past with
  | nil => rfl
  | cons o past ih =>
    rw [filedObjs, assigned, ← ih]
    split <;> simp

/-- A sync of the bin is the last one of the bin's objects too. -/
theorem lastSync_filedObjs {w₀ w₁ : U32} (h : lastSync past = some (w₀, w₁))
    (hbin : counterBin currentCounter w₁ = b.toNat) :
    lastSync (filedObjs currentCounter b past) = some (w₀, w₁) := by
  induction past with
  | nil => exact absurd h (by simp [lastSync])
  | cons o past ih =>
    cases o with
    | sync v₀ v₁ type =>
      obtain ⟨rfl, rfl⟩ := Prod.mk.inj (Option.some.inj h)
      exact (congrArg lastSync (if_pos hbin)).trans rfl
    | hit | ped | error | special =>
      rw [filedObjs]
      split
      · exact ih h
      · exact ih h

/-- The last object that sets the bin is one of the bin's. -/
theorem lastNonHit_filedObjs {o : Obj} (h : lastNonHit past = some o)
    (hbin : lastBin currentCounter past = b.toNat) :
    lastNonHit (filedObjs currentCounter b past) = some o := by
  induction past with
  | nil => exact absurd h (by simp [lastNonHit])
  | cons x past ih =>
    have hkept : filedObjs currentCounter b (x :: past) =
        x :: filedObjs currentCounter b past := if_pos hbin
    rw [hkept]
    cases x with
    | hit => exact ih h hbin
    | ped | sync | error | special => exact h

theorem exists_lastNonHit_of_lastSync {w : U32 × U32} (h : lastSync past = some w) :
    ∃ o, lastNonHit past = some o := by
  induction past with
  | nil => exact absurd h (by simp [lastSync])
  | cons o past ih =>
    cases o with
    | hit => exact ih h
    | ped | sync | error | special => exact ⟨_, rfl⟩

theorem lastSync_concat (past : List Obj) {w₀ w₁ : U32} (type : w₀ >>> 30 = 0b10#32) :
    lastSync (past ++ [.sync w₀ w₁ type]) ≠ none := by
  induction past with
  | nil => simp [lastSync]
  | cons o past ih =>
    cases o with
    | sync => simp [lastSync]
    | hit | ped | error | special => exact ih

theorem lastSync_ne_none {objs before rest : List Obj} {o : Obj} (hsync : BeginsWithSync objs)
    (hobjs : objs = before.reverse ++ o :: rest) (ho : o.isHit = true) :
    lastSync before ≠ none := by
  obtain ⟨w₀, w₁, type, objs', rfl⟩ := hsync
  cases before using List.reverseRecOn with
  | nil =>
    obtain ⟨rfl, -⟩ := List.cons.inj hobjs
    exact absurd ho (by simp [Obj.isHit])
  | append_singleton before x =>
    rw [List.reverse_append] at hobjs
    obtain ⟨rfl, -⟩ := List.cons.inj hobjs
    exact lastSync_concat before type

/-- What a hit of the bin takes from the objects before it, it takes from those of its bin. -/
theorem past_filedObjs (hsync : lastSync past ≠ none) (hstep : InStep past)
    (hbin : lastBin currentCounter past = b.toNat) :
    lastBin currentCounter (filedObjs currentCounter b past) = b.toNat ∧
      lastSync (filedObjs currentCounter b past) = lastSync past := by
  obtain ⟨⟨w₀, w₁⟩, hlast⟩ := Option.ne_none_iff_exists'.mp hsync
  have hcounter : ∀ past', lastSync past' = some (w₀, w₁) → syncCounter past' = w₁ := by
    intro past' h
    rw [syncCounter, h]
    rfl
  obtain ⟨o, hnon⟩ := exists_lastNonHit_of_lastSync hlast
  have hinStep := hstep o hnon
  have hsyncBin : counterBin currentCounter w₁ = b.toNat := by
    rw [← hbin, (lastBin_eq_counterBin_iff currentCounter hnon).mpr hinStep, hcounter _ hlast]
  have hlast' := lastSync_filedObjs hlast hsyncBin
  refine ⟨?_, hlast'.trans hlast.symm⟩
  rw [hcounter _ hlast] at hinStep
  rw [(lastBin_eq_counterBin_iff currentCounter (lastNonHit_filedObjs hnon hbin)).mpr
    (by rwa [hcounter _ hlast']), hcounter _ hlast', hsyncBin]

/-- **The objects of a bin decode to the hits of the bin.** -/
theorem decode_filedObjs (inp : Inputs) (ids : IndexMap U32 U16) (b : U64) {past : List Obj}
    (hhits : ∀ after o before, past = after ++ o :: before → o.isHit = true →
      lastSync before ≠ none ∧ InStep before) :
    (referenceDecode inp ids (filedObjs inp.currentCounter b past)).map ReferenceHit.filed =
      ((referenceDecode inp ids past).map ReferenceHit.filed).filter (·.1 = b.toNat) := by
  induction past with
  | nil => rfl
  | cons o past ih =>
    have hrest := ih fun after o' before he ho' =>
      hhits (o :: after) o' before (by rw [he]; rfl) ho'
    cases hhit : o.isHit with
    | false =>
      rw [filedObjs, referenceDecode, hhit]
      split
      · rw [referenceDecode, hhit]
        simpa using hrest
      · simpa using hrest
    | true =>
      obtain ⟨hsync, hstep⟩ := hhits [] o past rfl hhit
      have hbinOf := binOf_of_isHit inp.currentCounter past hhit
      rw [filedObjs, referenceDecode, hbinOf, if_pos hhit, List.map_append, List.filter_append,
        ← hrest]
      by_cases hb : lastBin inp.currentCounter past = b.toNat
      · obtain ⟨hbin', hlast'⟩ := past_filedObjs hsync hstep hb
        have hfields : referenceFields inp.header ids (filedObjs inp.currentCounter b past) o =
            referenceFields inp.header ids past o := by
          rw [referenceFields, syncCounter, syncIsBad, hlast']
          rfl
        rw [if_pos hb, referenceDecode, if_pos hhit, List.map_append]
        simp [ReferenceHit.filed, hbin', hb, hfields]
      · rw [if_neg hb]
        simp [ReferenceHit.filed, hb]

end Filed

/-- The words assigned to the bin `b`, as a message of the same card. -/
def WellFormed.inBin (m : WellFormed) (b : U64) (beyond : Nat → U8) : WellFormed :=
  .ofObjs m.header (filedObjs m.currentCounter b m.objs.reverse).reverse beyond m.currentCounter
    m.uninit

/-- **The raw words of a bin decode to its hits.** Where the message begins with a sync and every
    hit lies in the bin of the last sync, the raw words stored for a bin are a header, a message and
    at most one word more, and the scan of that message files the same hits under the bin. -/
theorem redecoded (m : WellFormed) {s : Scan} (hheader : s.header 0 = 0)
    (hsync : BeginsWithSync m.objs)
    (hhits : ∀ before o rest, m.objs = before.reverse ++ o :: rest → o.isHit = true →
      InStep before) (b : U64) (beyond : Nat → U8) :
    (∃ hdr tail, IndexMap.get (s.run m.toInputs).collections b =
      hdr ++ ((m.inBin b beyond).data.words ++ tail) ∧ hdr.length ≤ 3 ∧ tail.length ≤ 1) ∧
    IndexMap.get (s.run (m.inBin b beyond).toInputs).tpuHitCollection b =
      IndexMap.get (s.run m.toInputs).tpuHitCollection b := by
  constructor
  · rw [get_run_collections_eq m hheader, rawReference, WellFormed.inBin, WellFormed.ofObjs,
      Buffer.words_memcpy, words_filedObjs]
    refine ⟨_, _, rfl, ?_, ?_⟩
    · cases opener m.currentCounter b m.objs.reverse with
      | none => exact Nat.zero_le 3
      | some o => exact (List.length_take_le' _ _).trans (Nat.le_refl 3)
    · split <;> simp
  · refine List.map_injective_iff.mpr TPUHit.decode_injective ?_
    have hpast : ∀ after o before, m.objs.reverse = after ++ o :: before → o.isHit = true →
        lastSync before ≠ none ∧ InStep before := by
      intro after o before he ho
      have hobjs : m.objs = before.reverse ++ o :: after.reverse := by
        rw [← List.reverse_reverse m.objs, he]
        simp
      exact ⟨lastSync_ne_none hsync hobjs ho, hhits before o after.reverse hobjs ho⟩
    have hsame : Piece.SameInputs ⟨m.inBin b beyond, s⟩ ⟨m, s⟩ := ⟨rfl, rfl, fun _ => rfl⟩
    have hfiled := decode_filedObjs m.toInputs s.pmtIdMap b hpast
    calc (IndexMap.get (s.run (m.inBin b beyond).toInputs).tpuHitCollection b).map TPUHit.decode
        = ((Piece.filed ⟨m.inBin b beyond, s⟩ (m.inBin b beyond).objs).filter
            (·.1 = b.toNat)).map (·.2) := Piece.decode_tpuHits ⟨m.inBin b beyond, s⟩ b
      _ = ((((referenceDecode m.toInputs s.pmtIdMap m.objs.reverse).map
            ReferenceHit.filed).filter (·.1 = b.toNat)).filter (·.1 = b.toNat)).map (·.2) := by
          rw [Piece.filed_congr hsame, ← hfiled]
          exact congrArg (fun past => (((referenceDecode m.toInputs s.pmtIdMap past).map
            ReferenceHit.filed).filter (·.1 = b.toNat)).map (·.2)) (List.reverse_reverse _)
      _ = ((Piece.filed ⟨m, s⟩ m.objs).filter (·.1 = b.toNat)).map (·.2) := by
          rw [List.filter_filter]
          simp only [Bool.and_self]
          rfl
      _ = (IndexMap.get (s.run m.toInputs).tpuHitCollection b).map TPUHit.decode :=
          (Piece.decode_tpuHits ⟨m, s⟩ b).symm

theorem redecoded_syncHit :
    IndexMap.get (Scan.new.run (syncHit.inBin 141 fun _ => 0).toInputs).tpuHitCollection 141 =
      IndexMap.get (Scan.new.run syncHit.toInputs).tpuHitCollection 141 := by
  refine (redecoded syncHit rfl ⟨_, _, _, _, rfl⟩ ?_ 141 fun _ => 0).2
  intro before o rest hobjs ho
  rcases before with _ | ⟨x, _ | ⟨y, before⟩⟩
  · obtain ⟨rfl, -⟩ := List.cons.inj hobjs
    exact absurd ho (by simp [Obj.isHit, Obj.syncAt])
  · obtain ⟨rfl, -⟩ := List.cons.inj hobjs
    rintro _ ⟨⟩
    trivial
  · have hlen := congrArg List.length hobjs
    simp [syncHit, WellFormed.sample, WellFormed.ofObjs] at hlen
    omega

end HkRbu
