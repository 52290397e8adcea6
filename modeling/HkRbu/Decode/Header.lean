import HkRbu.Decode.Agreement
import HkRbu.Decode.Raw

/-!
# The injected headers

A non-hit branch inserts a header into the bin of its object if `collections` has no entry for it
yet. Two things get in the way of one header per bin. The flush of the previous bin creates
entries too, so bin 0, where the scan starts, may get its entry without a header. And the header
itself is cut short: the low bits of the bin overwrite the high ones, and the sync branch inserts
two words where the others insert three.

`injectedHeaders_eq` says exactly which headers a message leaves in its bins; the property wanted
of them then fails on every message with an object (`headersIdentify_iff`).
-/

namespace HkRbu

/-! ## Which bins have an entry -/

/-- Whether an object has been filed in a bin: any but a hit has. -/
def anyFiled (past : List Obj) : Bool := past.any fun o => !o.isHit

/-- Bin `b` has an entry in `collections` at the loop head: a non-hit object was filed under it,
    or it is the bin the scan starts in and was flushed. -/
def hasEntry (currentCounter : U64) (b : U64) : List Obj → Bool
  | [] => false
  | o :: past => hasEntry currentCounter b past ||
      (!o.isHit && (binOf currentCounter past o == b.toNat || b == 0#64))

/-- The object whose header opens the entry of bin `b`: the first that is not a hit and lies in `b`.
    For bin 0 it is only the first object of all bins that is not a hit: if that lies in another
    bin, its flush makes the entry, without a header. -/
def opener (currentCounter : U64) (b : U64) : List Obj → Option Obj
  | [] => none
  | o :: past => (opener currentCounter b past).or
      (if o.isHit = false ∧ binOf currentCounter past o = b.toNat ∧
        (b = 0#64 → anyFiled past = false) then some o else none)

theorem isHit_of_opener {currentCounter : U64} {b : U64} {past : List Obj} {o : Obj}
    (h : opener currentCounter b past = some o) : o.isHit = false := by
  induction past with
  | nil => exact absurd h (by simp [opener])
  | cons x past ih =>
    rw [opener] at h
    cases hop : opener currentCounter b past with
    | some y =>
      rw [hop, Option.some_or] at h
      exact ih (hop.trans h)
    | none =>
      rw [hop, Option.none_or] at h
      split at h
      · rename_i hx
        obtain rfl := Option.some.inj h
        exact hx.1
      · exact absurd h (by simp)

theorem hasEntry_zero (currentCounter : U64) (past : List Obj) :
    hasEntry currentCounter 0#64 past = anyFiled past := by
  induction past with
  | nil => rfl
  | cons o past ih =>
    rw [hasEntry, ih, anyFiled, anyFiled, List.any_cons, Bool.or_comm]
    simp

theorem hasEntry_lastBin (currentCounter : U64) {past : List Obj} {b : U64}
    (hb : b.toNat = lastBin currentCounter past) (h : anyFiled past = true) :
    hasEntry currentCounter b past = true := by
  induction past with
  | nil => exact absurd h (by simp [anyFiled])
  | cons o past ih =>
    cases ho : o.isHit with
    | true =>
      have hlast : lastBin currentCounter (o :: past) = lastBin currentCounter past :=
        binOf_of_isHit currentCounter past ho
      have hany : anyFiled past = true := by simpa [anyFiled, ho] using h
      simp [hasEntry, ih (hb.trans hlast) hany]
    | false =>
      have hbin : binOf currentCounter past o = b.toNat := hb.symm
      simp [hasEntry, ho, hbin]

/-- There is no entry as long as nothing has opened one, and for bin 0 nothing has been filed at
    all. -/
theorem hasEntry_eq_false_iff (currentCounter : U64) (b : U64) (past : List Obj) :
    hasEntry currentCounter b past = false ↔
      opener currentCounter b past = none ∧ (b = 0#64 → anyFiled past = false) := by
  induction past with
  | nil => simp [hasEntry, opener, anyFiled]
  | cons o past ih =>
    rw [hasEntry, Bool.or_eq_false_iff, ih, opener, Option.or_eq_none_iff]
    have hany : anyFiled (o :: past) = (!o.isHit || anyFiled past) := rfl
    rw [hany]
    cases ho : o.isHit with
    | true => simp
    | false =>
      by_cases hb : b = 0#64
      · simp [hb]
      · simp [hb]

theorem opener_cons (currentCounter : U64) (b : U64) {past : List Obj} {o : Obj}
    (ho : o.isHit = false) :
    opener currentCounter b (o :: past) =
      if binOf currentCounter past o = b.toNat ∧ hasEntry currentCounter b past = false then some o
      else opener currentCounter b past := by
  have hiff := hasEntry_eq_false_iff currentCounter b past
  rw [opener]
  by_cases hb : binOf currentCounter past o = b.toNat
  · by_cases he : hasEntry currentCounter b past = false
    · obtain ⟨hnone, hzero⟩ := hiff.mp he
      rw [if_pos ⟨ho, hb, hzero⟩, if_pos ⟨hb, he⟩, hnone]
      rfl
    · cases hop : opener currentCounter b past with
      | some x =>
        rw [Option.some_or, if_neg (fun h => he h.2)]
      | none =>
        rw [if_neg (fun h => he (hiff.mpr ⟨hop, h.2.2⟩)), if_neg (fun h => he h.2)]
        rfl
  · rw [if_neg (fun h => hb h.2.1), if_neg (fun h => hb h.1), Option.or_none]

/-! ## What one object adds -/

/-- The words of a header that is inserted in the entry of `b`. -/
def Insert.headerOf (b : U64) : Insert → Option (List U32)
  | .header b' ws => if b' = b then some ws else none
  | .segment .. | .tpuHit .. => none

/-- The first `n` words of the header of bin `b`: word 0 as the job has it, the card, and the
    bin. -/
def headerFor (m : WellFormed) (s₀ : Scan) (b : U64) (n : Nat) : List U32 :=
  [s₀.header 0, 0b01000000111111110000000000000000#32 |||
    (DAQHeader.overlay m.header).getCardID.setWidth 32, (b <<< 26).setWidth 32].take n

theorem headerWords_stampHeader (s : Scan) (n : Nat) :
    s.stampHeader.headerWords n = [s.header 0, s.header 1, (s.bin <<< 26).setWidth 32].take n := by
  simp [Scan.stampHeader, Scan.headerWords]

theorem touchesRaw_openInserts (s : Scan) (n : Nat) (b : U64) :
    (∃ i ∈ s.openInserts n, Insert.touchesRaw b i) ↔ s.bin ∉ s.collections ∧ s.bin = b := by
  unfold Scan.openInserts
  split <;> simp [Insert.touchesRaw, *]

theorem touchesRaw_flushInserts (s : Scan) (b : U64) :
    (∃ i ∈ s.flushInserts, Insert.touchesRaw b i) ↔ s.bin ≠ s.currentBin ∧ s.currentBin = b := by
  unfold Scan.flushInserts
  split <;> simp [Insert.touchesRaw, *]

theorem mem_fileInserts (s : Scan) (n : Nat) (words : Buffer) (b : U64) :
    b ∈ (s.fileInserts n).foldl (Insert.applyRaw words) s.collections ↔
      b ∈ s.collections ∨ s.bin = b ∨ s.bin ≠ s.currentBin ∧ s.currentBin = b := by
  simp only [Insert.mem_foldl_applyRaw, Scan.fileInserts, List.mem_append, or_and_right, exists_or,
    touchesRaw_openInserts, touchesRaw_flushInserts]
  by_cases hb : s.bin = b
  · by_cases hmem : s.bin ∈ s.collections
    · simp [hb, hb ▸ hmem]
    · simp [hb, hb ▸ hmem]
  · simp [hb]

theorem headerOf_flushInserts (s : Scan) (b : U64) :
    s.flushInserts.filterMap (Insert.headerOf b) = [] := by
  unfold Scan.flushInserts
  split <;> rfl

theorem headerOf_fileInserts (s : Scan) (n : Nat) (b : U64) :
    (s.fileInserts n).filterMap (Insert.headerOf b) =
      if s.bin = b ∧ s.bin ∉ s.collections then
        [[s.header 0, s.header 1, (s.bin <<< 26).setWidth 32].take n] else [] := by
  rw [Scan.fileInserts, List.filterMap_append, headerOf_flushInserts, List.append_nil,
    Scan.openInserts, headerWords_stampHeader]
  by_cases hmem : s.bin ∈ s.collections
  · rw [if_neg (not_not.mpr hmem), if_neg (fun h => h.2 hmem)]
    rfl
  · rw [if_pos hmem]
    by_cases hb : s.bin = b
    · rw [if_pos ⟨hb, hmem⟩]
      exact List.filterMap_cons_some (if_pos hb)
    · rw [if_neg (fun h => hb h.1)]
      exact List.filterMap_cons_none (if_neg hb)

/-! ## The headers of a message -/

/-- The entries and the headers at a loop head are those of the objects read. -/
structure HeaderInv (m : WellFormed) (s₀ : Scan) (past : List Obj) (t : Logged) : Prop where
  entries : ∀ b, b ∈ t.scan.collections ↔ hasEntry m.currentCounter b past = true
  headers : ∀ b, t.log.filterMap (Insert.headerOf b) =
    ((opener m.currentCounter b past).map fun o => headerFor m s₀ b o.kind.headerLen).toList

theorem HeaderInv.init (m : WellFormed) (s₀ : Scan) :
    HeaderInv m s₀ [] ⟨s₀.start m.toInputs, []⟩ where
  entries b := iff_of_false (AList.notMem_empty b) Bool.false_ne_true
  headers _ := rfl

theorem lastBin_of_not_anyFiled (currentCounter : U64) {past : List Obj}
    (h : anyFiled past = false) : lastBin currentCounter past = 0 := by
  induction past with
  | nil => rfl
  | cons o past ih =>
    obtain ⟨ho, hpast⟩ := Bool.or_eq_false_iff.mp h
    have hhit : o.isHit = true := by simpa using ho
    exact (binOf_of_isHit currentCounter past hhit).trans (ih hpast)

section File

variable {m : WellFormed} {s₀ : Scan} {past : List Obj} {o : Obj} {t : Logged}

/-- A non-hit object makes entries for its own bin and for the bin it flushes. -/
theorem HeaderInv.entries_file (h : HeaderInv m s₀ past t) (hinv : Inv m s₀ past t.scan)
    (hr : Reads t.scan o) (ho : o.isHit = false) (n : Nat) (words : Buffer) (b : U64) :
    b ∈ ((t.scan.arrive m.toInputs).fileInserts n).foldl (Insert.applyRaw words)
        (t.scan.arrive m.toInputs).collections ↔
      hasEntry m.currentCounter b (o :: past) = true := by
  obtain ⟨hbin, -, -⟩ := arrive_spec hinv hr ho
  obtain ⟨hcb, -, -⟩ := t.scan.arrive_pending m.toInputs
  have hcur : t.scan.currentBin.toNat = lastBin m.currentCounter past := by
    rw [hinv.currentBin]
    exact hinv.bin
  rw [mem_fileInserts, t.scan.arrive_collections, hcb, h.entries b, hasEntry, ho,
    ← BitVec.toNat_inj, hbin]
  cases hany : anyFiled past with
  | true =>
    -- The bin flushed has an entry already, and so has bin 0.
    have hold : t.scan.currentBin = b → hasEntry m.currentCounter b past = true := by
      intro he
      exact hasEntry_lastBin m.currentCounter (he ▸ hcur) hany
    have hzero : b = 0#64 → hasEntry m.currentCounter b past = true := by
      rintro rfl
      exact (hasEntry_zero _ _).trans hany
    simp only [Bool.or_eq_true, Bool.and_eq_true, beq_iff_eq, Bool.not_false, true_and]
    tauto
  | false =>
    have hzero : t.scan.currentBin = 0#64 :=
      BitVec.eq_of_toNat_eq (hcur.trans (lastBin_of_not_anyFiled m.currentCounter hany))
    -- Bin 0 is flushed, unless it is the bin that is opened.
    have hstart : b = 0#64 → (t.scan.arrive m.toInputs).bin = 0#64 →
        binOf m.currentCounter past o = b.toNat := by
      rintro rfl he
      rw [← hbin, he]
    simp only [Bool.or_eq_true, Bool.and_eq_true, beq_iff_eq, Bool.not_false, true_and, hzero,
      eq_comm (a := (0#64 : U64))]
    tauto

/-- A non-hit object injects a header if its bin has no entry. -/
theorem HeaderInv.headers_file (h : HeaderInv m s₀ past t) (hinv : Inv m s₀ past t.scan)
    (hr : Reads t.scan o) (ho : o.isHit = false) (b : U64) :
    ((t.scan.arrive m.toInputs).fileInserts t.scan.kind.headerLen).filterMap (Insert.headerOf b) =
      if binOf m.currentCounter past o = b.toNat ∧ hasEntry m.currentCounter b past = false then
        [headerFor m s₀ b o.kind.headerLen]
      else [] := by
  obtain ⟨hbin, -, -⟩ := arrive_spec hinv hr ho
  have hnew : ((t.scan.arrive m.toInputs).bin = b ∧
      (t.scan.arrive m.toInputs).bin ∉ t.scan.collections) ↔
      binOf m.currentCounter past o = b.toNat ∧ hasEntry m.currentCounter b past = false := by
    rw [← hbin, BitVec.toNat_inj]
    refine and_congr_right ?_
    intro he
    rw [he, h.entries b, Bool.not_eq_true]
  rw [headerOf_fileInserts, t.scan.arrive_collections, t.scan.arrive_header, hinv.header₀,
    hinv.header₁, kind_of_reads hr]
  by_cases hopen : binOf m.currentCounter past o = b.toNat ∧
      hasEntry m.currentCounter b past = false
  · rw [if_pos (hnew.mpr hopen), if_pos hopen, (hnew.mpr hopen).1]
    rfl
  · rw [if_neg (mt hnew.mp hopen), if_neg hopen]

/-- A round inserts a header exactly if the object at hand opens the entry of its bin. -/
theorem HeaderInv.step (hinv : Inv m s₀ past t.scan) (hr : Reads t.scan o)
    (h : HeaderInv m s₀ past t) : HeaderInv m s₀ (o :: past) (t.step m.toInputs) := by
  obtain ⟨ho, hs, hi⟩ | ⟨ho, hs, hi⟩ := hr.step_cases m.toInputs
  · constructor
    · intro b
      rw [Logged.step, hs, hasEntry, ho, Bool.not_true, Bool.false_and, Bool.or_false]
      exact h.entries b
    · intro b
      rw [Logged.step, hi, List.filterMap_append, h.headers b, opener, ho]
      simp [Insert.headerOf]
  · constructor
    · intro b
      rw [Logged.step, hs, Scan.fileObject_collections]
      exact h.entries_file hinv hr ho _ _ b
    · intro b
      rw [Logged.step, hi, List.filterMap_append, h.headers b, h.headers_file hinv hr ho b,
        opener_cons _ _ ho]
      by_cases hopen : binOf m.currentCounter past o = b.toNat ∧
          hasEntry m.currentCounter b past = false
      · obtain ⟨hnone, -⟩ := (hasEntry_eq_false_iff _ _ _).mp hopen.2
        rw [if_pos hopen, if_pos hopen, hnone]
        rfl
      · rw [if_neg hopen, if_neg hopen, List.append_nil]

end File

/-- The headers that a message inserts in the entry of `b`, in order. -/
def injectedHeaders (inp : Inputs) (s : Scan) (b : U64) : List (List U32) :=
  (s.log inp).filterMap (Insert.headerOf b)

/-- **Which headers are injected**: one if an object opened the bin, cut to the length of that
    object's branch, and none otherwise. -/
theorem injectedHeaders_eq (m : WellFormed) (s : Scan) (b : U64) :
    injectedHeaders m.toInputs s b = ((opener m.currentCounter b m.objs.reverse).map
      fun o => headerFor m s b o.kind.headerLen).toList := by
  obtain ⟨-, h⟩ := loop_induct m s (P := HeaderInv m s) (HeaderInv.init m s)
    (fun past o t hinv hr _ h => h.step hinv hr)
  rw [injectedHeaders, Scan.log, List.filterMap_append, h.headers b]
  exact List.append_nil _

/-! ## What the headers are wanted for -/

/-- `hdr` is the only header of bin `b`, at the start of its entry; headers have one length; the
    card id and the two parts of the bin can be read from it; and no message gives it to another
    card or bin. -/
structure HeaderIdentifies (m : WellFormed) (s : Scan) (b : U64) (hdr : List U32) : Prop where
  once : injectedHeaders m.toInputs s b = [hdr]
  first : hdr <+: IndexMap.get (s.run m.toInputs).collections b
  sameLength : ∀ (m' : WellFormed) b' hdr', injectedHeaders m'.toInputs s b' = [hdr'] →
    hdr'.length = hdr.length
  card : 0b01000000111111110000000000000000#32 |||
    (DAQHeader.overlay m.header).getCardID.setWidth 32 ∈ hdr
  upper : (b >>> 6).setWidth 32 ∈ hdr
  lower : (b <<< 26).setWidth 32 ∈ hdr
  unique : ∀ (m' : WellFormed) b', injectedHeaders m'.toInputs s b' = [hdr] →
    (DAQHeader.overlay m'.header).getCardID = (DAQHeader.overlay m.header).getCardID ∧ b' = b

/-- Every bin that is given words of an object has a header that identifies card and bin. -/
def HeadersIdentify (m : WellFormed) (s : Scan) : Prop :=
  ∀ b, assigned m.currentCounter b m.objs.reverse ≠ [] → ∃ hdr, HeaderIdentifies m s b hdr

theorem exists_counterBin {n : Nat} (h : n < 2 ^ 38) :
    ∃ (currentCounter : U64) (c : U32), counterBin currentCounter c = n := by
  refine ⟨BitVec.ofNat 64 (n / 2 ^ 22 * 2 ^ 48), BitVec.ofNat 32 (n % 2 ^ 22 * 2 ^ 10), ?_⟩
  rw [counterBin, BitVec.toNat_ofNat, BitVec.toNat_ofNat]
  omega

/-- A header does not determine its bin: a bin 64 away, opened by the first object of a message,
    has the same one. -/
theorem exists_same_header (m : WellFormed) (s : Scan) (b : U64) {o : Obj} (ho : o.isHit = false) :
    ∃ (m' : WellFormed) (b' : U64), b' ≠ b ∧
      injectedHeaders m'.toInputs s b' = [headerFor m s b o.kind.headerLen] := by
  obtain ⟨cc, c, hbin⟩ := exists_counterBin (n := (b.toNat + 64) % 2 ^ 38) (by omega)
  let b' : U64 := BitVec.ofNat 64 ((b.toNat + 64) % 2 ^ 38)
  have hb' : b'.toNat = (b.toNat + 64) % 2 ^ 38 := by
    rw [BitVec.toNat_ofNat]
    omega
  have hlow : (b' <<< 26).setWidth 32 = (b <<< 26).setWidth 32 := by
    refine BitVec.eq_of_toNat_eq ?_
    rw [BitVec.toNat_setWidth, BitVec.toNat_setWidth, BitVec.toNat_shiftLeft,
      BitVec.toNat_shiftLeft, Nat.shiftLeft_eq, Nat.shiftLeft_eq, hb']
    omega
  -- An object of the same length of header, with a counter of the other bin.
  obtain ⟨o', hlen, ho', hcomp⟩ : ∃ o' : Obj, o'.kind.headerLen = o.kind.headerLen ∧
      o'.isHit = false ∧ computedBin cc [] o' = some (counterBin cc c) := by
    cases o with
    | hit => exact absurd ho (by simp [Obj.isHit])
    | sync => exact ⟨.syncAt c, rfl, rfl, rfl⟩
    | ped | error | special => exact ⟨.errorAt c, rfl, rfl, rfl⟩
  refine ⟨.ofObjs m.header [o'] (fun _ => 0) cc fun _ => default, b', ?_, ?_⟩
  · intro he
    rw [he] at hb'
    omega
  · have hopen : opener cc b' [o'] = some o' := by
      rw [opener_cons cc b' ho', if_pos]
      refine ⟨?_, rfl⟩
      rw [binOf, hcomp, hb', hbin]
      rfl
    rw [injectedHeaders_eq]
    show ((opener cc b' [o']).map _).toList = _
    rw [hopen]
    show [headerFor _ s b' o'.kind.headerLen] = _
    rw [hlen, headerFor, headerFor, hlow]
    rfl

/-- **No message with an object has headers that identify their bins.** -/
theorem headersIdentify_iff (m : WellFormed) (s : Scan) : HeadersIdentify m s ↔ m.objs = [] := by
  constructor
  · intro h
    cases hobjs : m.objs.reverse with
    | nil => exact List.reverse_eq_nil_iff.mp hobjs
    | cons o past =>
      -- The bin of the last object is given its words.
      obtain ⟨b, hb⟩ : ∃ b : U64, b.toNat = binOf m.currentCounter past o :=
        exists_toNat_eq_lastBin m.currentCounter (o :: past)
      have hwords : assigned m.currentCounter b m.objs.reverse ≠ [] := by
        rw [hobjs, assigned, if_pos hb.symm]
        exact List.append_ne_nil_of_right_ne_nil _ (List.cons_ne_nil _ _)
      obtain ⟨hdr, hid⟩ := h b hwords
      have honce := hid.once
      rw [injectedHeaders_eq] at honce
      cases hop : opener m.currentCounter b m.objs.reverse with
      | none => exact absurd (hop ▸ honce) (by simp)
      | some x =>
        have hhdr : headerFor m s b x.kind.headerLen = hdr := by simpa [hop] using honce
        obtain ⟨m', b', hne, hsame⟩ := exists_same_header m s b (isHit_of_opener hop)
        exact absurd (hid.unique m' b' (hhdr ▸ hsame)).2 hne
  · intro h b hb
    rw [h] at hb
    exact absurd rfl hb

/-- A sync of bin 65, and nothing else: its header is two words, and neither holds the bin. -/
def syncOfBin65 : WellFormed := .sample [.syncAt 66560#32]

theorem not_headersIdentify_syncOfBin65 : ¬ HeadersIdentify syncOfBin65 Scan.new := by
  intro h
  obtain ⟨hdr, hid⟩ := h 65#64 (by decide)
  have honce : injectedHeaders syncOfBin65.toInputs Scan.new 65#64 = [[0#32, 0x40FF0000#32]] := by
    decide
  obtain rfl : [0#32, 0x40FF0000#32] = hdr := by simpa using honce.symm.trans hid.once
  exact absurd hid.lower (by decide)

end HkRbu
