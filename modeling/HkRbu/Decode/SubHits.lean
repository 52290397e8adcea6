import HkRbu.Data.Codec
import HkRbu.Decode.Reads

/-!
# The sub-hits of a built hit

How many sub-hits an `IDODHit` has is held twice: as the size of its vector, which `SetNumSubHits`
takes from its whole argument, and as the five-bit field, which `GetWords` and the decoder go by.
The two agree for arguments up to 31 and for those whose lower five bits reach the cap of 15 as
well. The decoder looks at the Ped bit first: a hit that has it is two words long to it, with or
without sub-hits. So a stream of hits is walked from hit to hit exactly if each of its hits has a
fitting argument, and no Ped bit or no sub-hits (`lengthsKept_iff`). The accessor `GetSubHits`
starts one word too late, and is right only for hits that have no sub-hits (`subHitsExact_iff`).
-/

namespace HkRbu

/-- The decoder is at the words of the hit and takes them for a hit. -/
structure Scan.AtHit (s : Scan) (h : IDODHit) : Prop where
  kind : s.kind = .hit
  words : s.hitAt.data = h.words

theorem Scan.AtHit.step {s : Scan} {h : IDODHit} (hs : s.AtHit h) (inp : Inputs) :
    (s.step inp).currentWord = s.currentWord + h.getWords := by
  obtain ⟨-, hstep, -⟩ | ⟨hk, -, -⟩ := s.step_cases inp
  · rw [hstep]
    exact congrArg (s.currentWord + HitWords.getWords ·) hs.words
  · exact absurd hs.kind hk

/-! ## Where rounds begin -/

namespace Scan

/-- A round of the loop that is started in `s` begins at word `i`. -/
def Begins (inp : Inputs) (s : Scan) (i : Nat) : Prop :=
  ∃ t, Loop.Head (more inp) (step inp) s t ∧ t.currentWord = i

theorem begins_iff {inp : Inputs} {s : Scan} (hmore : more inp s = true) (i : Nat) :
    Begins inp s i ↔ i = s.currentWord ∨ Begins inp (s.step inp) i := by
  simp only [Begins, Loop.head_iff hmore, or_and_right, exists_or, exists_eq_left]
  rw [eq_comm]

theorem begins_currentWord {inp : Inputs} {s : Scan} (hmore : more inp s = true) :
    Begins inp s s.currentWord :=
  ⟨s, ⟨0, rfl, hmore⟩, rfl⟩

theorem not_begins {inp : Inputs} {s : Scan} (hend : more inp s = false) (i : Nat) :
    ¬ Begins inp s i :=
  fun ⟨t, ht, _⟩ => Loop.not_head hend t ht

theorem le_of_begins {inp : Inputs} {s : Scan} {i : Nat} (h : Begins inp s i) :
    s.currentWord ≤ i := by
  obtain ⟨t, ⟨fuel, hrun, -⟩, rfl⟩ := h
  rw [← hrun]
  refine Loop.run_invariant (P := fun t : Scan => s.currentWord ≤ t.currentWord) ?_
    (Nat.le_refl _) fuel
  intro t ht _
  exact Nat.le_trans ht (Nat.le_of_lt (t.currentWord_lt_step inp))

/-- The rounds begin at `s` and then at the words of `tail` if and only if those after the first
    round begin at the words of `tail`. -/
theorem begins_iff_cons {inp : Inputs} {s : Scan} {tail : List Nat} (hmore : more inp s = true)
    (hlater : ∀ i ∈ tail, s.currentWord < i) :
    (∀ i, Begins inp s i ↔ i ∈ s.currentWord :: tail) ↔
      ∀ i, Begins inp (s.step inp) i ↔ i ∈ tail := by
  have hstep : s.currentWord < (s.step inp).currentWord := s.currentWord_lt_step inp
  refine forall_congr' fun i => ?_
  rw [begins_iff hmore, List.mem_cons]
  constructor
  · intro hi
    constructor
    · intro hbegins
      have hle := le_of_begins hbegins
      exact (hi.mp (Or.inr hbegins)).resolve_left (by omega)
    · intro hmem
      have hlt := hlater i hmem
      exact (hi.mpr (Or.inr hmem)).resolve_left (by omega)
  · intro hi
    rw [hi]

end Scan

/-! ## Built hits -/

namespace IDODHit

/-- The last argument of `SetNumSubHits`; 0 if it was not called, the count of a new hit. -/
def lastNumSubHits (calls : List Setter) : Nat :=
  (Layout.lastWrite (calls.map Setter.field) .numSubHits).getD 0

theorem Constructed.length {h : IDODHit} (hc : Constructed h) : h.getData.length = 2 := by
  cases hc with
  | default => rfl
  | time r₀ r₁ coarse fine =>
    exact (length_setWord _ _ _).trans (length_apply _ (.numSubHits 0))

theorem Constructed.numSubHits {h : IDODHit} (hc : Constructed h) :
    hitLayout.read h.words .numSubHits = 0 := by
  cases hc with
  | default => rfl
  | time r₀ r₁ coarse fine =>
    rw [newAt, words_setType, hitLayout.read_write_of_ne _ _ (by simp)]
    exact (congrArg (hitLayout.read · .numSubHits) (words_apply _ (.numSubHits 0))).trans
      (hitLayout.read_write_self _ .numSubHits 0)

/-- The vector has as many sub-hit words as the last argument says, up to 15. -/
theorem Constructed.length_build {h : IDODHit} (hc : Constructed h) (calls : List Setter) :
    (h.build calls).getData.length = 2 + min (lastNumSubHits calls) 15 := by
  rw [getData, IDODHit.length_build, lastNumSubHits]
  cases Layout.lastWrite (calls.map Setter.field) .numSubHits with
  | none => exact hc.length
  | some v => rfl

theorem Constructed.getNumSubHits_build {h : IDODHit} (hc : Constructed h) (calls : List Setter) :
    (h.build calls).getNumSubHits.toNat = lastNumSubHits calls % 32 := by
  refine ((h.build calls).get_eq_read .numSubHits).trans ?_
  rw [words_build, Layout.read_writes, lastNumSubHits]
  cases Layout.lastWrite (calls.map Setter.field) .numSubHits with
  | none => exact hc.numSubHits
  | some v => rfl

/-- `GetWords` goes by the lower five bits of the last argument. -/
theorem Constructed.getWords_build {h : IDODHit} (hc : Constructed h) (calls : List Setter) :
    (h.build calls).getWords = 2 + min (lastNumSubHits calls % 32) 15 := by
  rw [getWords, HitWords.getWords_eq]
  exact congrArg (2 + min · 15) (hc.getNumSubHits_build calls)

/-! ## The length -/

/-- A hit as a sender makes it: a constructor, then any calls of the public setters. -/
structure Built where
  base : IDODHit
  calls : List Setter
  constructed : Constructed base

namespace Built

/-- The hit after all calls. -/
def hit (h : Built) : IDODHit := h.base.build h.calls

/-- The last argument of `SetPed`; the bit the constructor left if it was not called. -/
def lastPed (h : Built) : Nat :=
  (Layout.lastWrite (h.calls.map Setter.field) .ped).getD (hitLayout.read h.base.words .ped)

/-- The sub-hit words the decoder skips at the words of the hit: none if it takes them for a
    pedestal. -/
def skipped (h : Built) : Nat := subHits (h.hit.words 0) (h.hit.words 1)

/-- The words of a stream of hits: their full vectors, one after the other. -/
def stream (hits : List Built) : List U32 := hits.flatMap fun h => h.hit.getData

/-- The indices of the first words of the hits in their stream, which begins at index `pos`. -/
def firstWords : Nat → List Built → List Nat
  | _, [] => []
  | pos, h :: hits => pos :: firstWords (pos + h.hit.getData.length) hits

end Built

/-- The vectors are as long as the hits say, and the decoder walks their stream from hit to hit: its
    rounds begin at the first words of the hits and nowhere else, whatever else it is given. -/
structure LengthsKept (hits : List Built) : Prop where
  size : ∀ h ∈ hits, h.hit.getData.length = h.hit.getWords
  walked : ∀ (inp : Inputs) (beyond : Nat → U8),
    inp.data = Buffer.memcpy (Built.stream hits) beyond → ∀ (s : Scan) (i : Nat),
      (s.start inp).Begins inp i ↔ i ∈ Built.firstWords 0 hits

/-! ### What the decoder makes of a built hit -/

theorem lastWrite_ped_lt {calls : List Setter} {v : Nat}
    (h : Layout.lastWrite (calls.map Setter.field) .ped = some v) : v < 2 := by
  induction calls with
  | nil => exact absurd h (by simp)
  | cons c calls ih =>
    rw [List.map_cons, Layout.lastWrite] at h
    cases hl : Layout.lastWrite (calls.map Setter.field) .ped with
    | some w =>
      rw [hl] at h ih
      exact ih h
    | none =>
      rw [hl] at h
      cases c with
      | ped in_ =>
        obtain rfl := Option.some.inj h
        exact Bool.toNat_lt in_
      | _ => exact absurd h (by simp [Setter.field])

namespace Built

theorem read_ped (h : Built) : hitLayout.read h.hit.words .ped = h.lastPed := by
  rw [hit, words_build, Layout.read_writes, lastPed]
  cases hl : Layout.lastWrite (h.calls.map Setter.field) .ped with
  | none => rfl
  | some v => exact Nat.mod_eq_of_lt (lastWrite_ped_lt hl)

/-- **The decoder skips the sub-hits of a built hit by its count**, unless its Ped bit is set. -/
theorem skipped_eq (h : Built) :
    h.skipped = if h.lastPed = 0 then min (lastNumSubHits h.calls % 32) 15 else 0 := by
  have htype : h.hit.words 0 >>> 30 = 0b11#32 :=
    BitField.ushiftRight_of_toNat_extractLsb' 30 2 (by simp) (read_type_build h.constructed h.calls)
  have hcount : (h.hit.words 1 >>> 27).toNat = lastNumSubHits h.calls % 32 := by
    rw [BitField.ushiftRight_eq_extractLsb' 27 5 (h.hit.words 1) (by simp),
      BitVec.toNat_setWidth_of_le (by simp), ← h.constructed.getNumSubHits_build h.calls]
    exact (h.hit.get_eq_read .numSubHits).symm
  have hped : (h.hit.words 1 >>> 25) &&& 0b1#32 = 0#32 ↔ h.lastPed = 0 := by
    have hbit : ((h.hit.words 1).getLsbD 25).toNat = h.lastPed :=
      (BitField.toNat_extractLsb'_one 25 (h.hit.words 1)).symm.trans h.read_ped
    have hmask : ((h.hit.words 1 >>> 25) &&& 0b1#32 != 0#32) = (h.hit.words 1).getLsbD 25 :=
      BitField.ushiftRight_and_one_bne_zero 25 (h.hit.words 1) (by simp)
    rw [← bne_eq_false_iff_eq, hmask, ← hbit]
    cases (h.hit.words 1).getLsbD 25 <;> simp
  rw [skipped, subHits, hcount]
  simp only [htype, hped, true_and]

theorem length_getData (h : Built) :
    h.hit.getData.length = 2 + min (lastNumSubHits h.calls) 15 :=
  h.constructed.length_build h.calls

/-- The decoder never skips more than the vector has. -/
theorem skipped_le (h : Built) : 2 + h.skipped ≤ h.hit.getData.length := by
  have hskipped := h.skipped_eq
  have hlength := h.length_getData
  split_ifs at hskipped <;> omega

end Built

/-! ### The walk -/

section Walk

variable {inp : Inputs} {hits : List Built} {pre after : List U32} {beyond : Nat → U8} {s : Scan}

theorem le_of_mem_firstWords {pos i : Nat} (h : i ∈ Built.firstWords pos hits) : pos ≤ i := by
  induction hits generalizing pos with
  | nil => exact absurd h List.not_mem_nil
  | cons x hits ih =>
    rcases List.mem_cons.mp h with rfl | h
    · exact Nat.le_refl _
    · exact Nat.le_trans (Nat.le_add_right _ _) (ih h)

/-- A round that begins at the first word of a built hit goes on behind the words it skips. -/
theorem Built.step (h : Built) (hwords : s.words = inp.data)
    (hdata : inp.data = Buffer.memcpy (pre ++ h.hit.getData ++ after) beyond)
    (hat : s.currentWord = pre.length) :
    (s.step inp).currentWord = pre.length + 2 + h.skipped := by
  obtain ⟨h₀, h₁⟩ := Scan.at_of_words hwords
  have hword : ∀ i : Fin 2, inp.data.wordAt (pre.length + i) = h.hit.words i := by
    intro i
    have hi : (i : Nat) < h.hit.getData.length := Nat.lt_of_lt_of_le i.isLt h.hit.two_le
    rw [hdata]
    exact (Buffer.pointer_memcpy hi).trans (h.hit.getElem_getData i hi)
  rw [s.step_currentWord, h₀, h₁, hat]
  exact congrArg₂ (fun w₀ w₁ => pre.length + 2 + subHits w₀ w₁) (hword 0) (hword 1)

/-- **The walk of a stream of hits**, from the word the decoder is at: its rounds begin at the first
    words of the hits if and only if it skips all of each hit. -/
theorem begins_iff_mem_firstWords (hwords : s.words = inp.data)
    (hdata : inp.data = Buffer.memcpy (pre ++ Built.stream hits) beyond)
    (hat : s.currentWord = pre.length) :
    (∀ i, s.Begins inp i ↔ i ∈ Built.firstWords pre.length hits) ↔
      ∀ h ∈ hits, 2 + h.skipped = h.hit.getData.length := by
  have hsize : inp.data.size / 4 = pre.length + (Built.stream hits).length := by
    rw [hdata, ← Buffer.length_words, Buffer.words_memcpy, List.length_append]
  induction hits generalizing pre s with
  | nil =>
    have hend : Scan.more inp s = false := by
      rw [Scan.not_more_iff, hsize, hat]
      exact Nat.le_refl _
    exact iff_of_true (fun i => iff_of_false (Scan.not_begins hend i) List.not_mem_nil)
      fun _ hh => absurd hh List.not_mem_nil
  | cons h hits ih =>
    rw [Built.stream, List.flatMap_cons, ← Built.stream] at hdata hsize
    rw [List.length_append] at hsize
    rw [← List.append_assoc] at hdata
    have htwo : 2 ≤ h.hit.getData.length := h.hit.two_le
    have hmore : Scan.more inp s = true := by
      rw [Scan.more_iff, hsize, hat]
      omega
    have hstep := h.step hwords hdata hat
    have hwords' : (s.step inp).words = inp.data := (s.step_replay inp).1.trans hwords
    have hsize' : inp.data.size / 4 =
        (pre ++ h.hit.getData).length + (Built.stream hits).length := by
      rw [List.length_append]
      omega
    have hrest : 2 + h.skipped = h.hit.getData.length →
        ((∀ i, (s.step inp).Begins inp i ↔
            i ∈ Built.firstWords (pre.length + h.hit.getData.length) hits) ↔
          ∀ x ∈ hits, 2 + x.skipped = x.hit.getData.length) := by
      intro hgood
      have hat' : (s.step inp).currentWord = (pre ++ h.hit.getData).length := by
        rw [hstep, List.length_append, ← hgood, Nat.add_assoc]
      have hih := ih hwords' hdata hat' hsize'
      rwa [List.length_append] at hih
    have hlater : ∀ i ∈ Built.firstWords (pre.length + h.hit.getData.length) hits,
        s.currentWord < i := by
      intro i hmem
      have hle := le_of_mem_firstWords hmem
      omega
    have hcons := Scan.begins_iff_cons hmore hlater
    rw [hat] at hcons
    rw [Built.firstWords, hcons, List.forall_mem_cons]
    constructor
    · intro hall
      -- Else the decoder goes on inside the hit.
      have hgood : 2 + h.skipped = h.hit.getData.length := by
        by_contra hne
        have hle := h.skipped_le
        have hmore' : Scan.more inp (s.step inp) = true := by
          rw [Scan.more_iff, hsize, hstep]
          omega
        have hmem := (hall _).mp (Scan.begins_currentWord hmore')
        have hbehind := le_of_mem_firstWords hmem
        omega
      exact ⟨hgood, (hrest hgood).mp hall⟩
    · rintro ⟨hgood, hgoods⟩
      exact (hrest hgood).mpr hgoods

/-- The walk of a whole message. -/
theorem walked_iff (hdata : inp.data = Buffer.memcpy (Built.stream hits) beyond) (s : Scan) :
    (∀ i, (s.start inp).Begins inp i ↔ i ∈ Built.firstWords 0 hits) ↔
      ∀ h ∈ hits, 2 + h.skipped = h.hit.getData.length := by
  have hdata' : inp.data = Buffer.memcpy ([] ++ Built.stream hits) beyond := hdata
  have hat : (s.start inp).currentWord = ([] : List U32).length := rfl
  exact begins_iff_mem_firstWords rfl hdata' hat

/-- One message and one job are enough to tell that no hit of the stream misleads the decoder. -/
theorem LengthsKept.skipped (h : LengthsKept hits) :
    ∀ x ∈ hits, 2 + x.skipped = x.hit.getData.length := by
  let inp : Inputs :=
    ⟨⟨[], fun _ => 0⟩, Buffer.memcpy (Built.stream hits) fun _ => 0, 0, fun _ => default⟩
  have hdata : inp.data = Buffer.memcpy (Built.stream hits) fun _ => 0 := rfl
  exact (walked_iff hdata .new).mp (h.walked inp _ hdata .new)

end Walk

/-- **The lengths of built hits** are kept if and only if, for each of them, the last argument of
    `SetNumSubHits` fits its five bits or its lower five bits are at least 15, and the Ped bit is
    clear or there are no sub-hits. -/
theorem lengthsKept_iff (hits : List Built) :
    LengthsKept hits ↔
      ∀ h ∈ hits, (lastNumSubHits h.calls ≤ 31 ∨ 15 ≤ lastNumSubHits h.calls % 32) ∧
        (h.lastPed = 0 ∨ lastNumSubHits h.calls = 0) := by
  constructor
  · intro hkept h hh
    have hsize := hkept.size h hh
    have hwords := h.constructed.getWords_build h.calls
    have hlength := h.length_getData
    have hwalk := hkept.skipped h hh
    rw [h.skipped_eq] at hwalk
    rw [Built.hit] at *
    split_ifs at hwalk <;> omega
  · intro hfits
    refine ⟨?_, ?_⟩
    · intro h hh
      have hwords := h.constructed.getWords_build h.calls
      have hlength := h.length_getData
      have hfit := hfits h hh
      rw [Built.hit] at *
      omega
    · intro inp beyond hdata s
      refine (walked_iff hdata s).mpr fun h hh => ?_
      have hlength := h.length_getData
      have hfit := hfits h hh
      rw [h.skipped_eq]
      split_ifs <;> omega

/-- 17 words, of which the field says 2. -/
def thirtyTwo : Built := ⟨new, [.numSubHits 32], .default⟩

/-- A hit with seven sub-hits and the Ped bit, as `test.cpp` sets them. -/
def withPed : Built := ⟨new, [.numSubHits 7, .ped true], .default⟩

/-- The vector of the one is longer than it says; the decoder takes the other for a pedestal, and
    its first sub-hit for the next object. -/
theorem not_lengthsKept : ¬ LengthsKept [thirtyTwo] ∧ ¬ LengthsKept [withPed] := by
  constructor
  · intro h
    exact absurd (h.size thirtyTwo List.mem_cons_self) (by decide)
  · intro h
    exact absurd (h.skipped withPed List.mem_cons_self) (by decide)

/-! ## The accessor -/

/-- `GetSubHits` points at the words after the two hit words, which are the ones the decoder skips;
    it is null for a hit with none. -/
structure SubHitsExact (h : IDODHit) : Prop where
  points : 0 < h.getWords - 2 → h.getSubHits = .ok (some 2)
  held : h.getData.length = 2 + (h.getWords - 2)
  skipped : ∀ (inp : Inputs) (s : Scan), s.AtHit h →
    (s.step inp).currentWord = s.currentWord + 2 + (h.getWords - 2)
  null : h.getNumSubHits = 0 → h.getSubHits = .ok none

theorem lastNumSubHits_le {calls : List Setter} {n : Nat}
    (hargs : ∀ in_, .numSubHits in_ ∈ calls → in_.toNat ≤ n) : lastNumSubHits calls ≤ n := by
  induction calls with
  | nil => exact Nat.zero_le n
  | cons c calls ih =>
    have hrest := ih fun in_ hin => hargs in_ (List.mem_cons_of_mem c hin)
    rw [lastNumSubHits, List.map_cons, Layout.lastWrite]
    rw [lastNumSubHits] at hrest
    cases hl : Layout.lastWrite (calls.map Setter.field) .numSubHits with
    | some v =>
      rw [hl] at hrest
      exact hrest
    | none =>
      cases c with
      | numSubHits in_ => exact hargs in_ List.mem_cons_self
      | _ => exact Nat.zero_le n

/-- What the accessor does: it throws for one sub-hit, and points at the second for more. -/
theorem getSubHits_build {h : IDODHit} (hc : Constructed h) {calls : List Setter}
    (hargs : ∀ in_, .numSubHits in_ ∈ calls → in_.toNat ≤ 31) :
    (h.build calls).getSubHits =
      match lastNumSubHits calls with
      | 0 => .ok none
      | 1 => .error .outOfRange
      | _ => .ok (some 3) := by
  have hle := lastNumSubHits_le hargs
  have hlength : (h.build calls).data.length = _ := hc.length_build calls
  have hnum := hc.getNumSubHits_build calls
  rw [Nat.mod_eq_of_lt (by omega)] at hnum
  rw [getSubHits, dataAt, hlength]
  cases hlast : lastNumSubHits calls with
  | zero =>
    have hnone : (h.build calls).getNumSubHits.toNat = (0#8).toNat := hnum.trans hlast
    exact if_pos (BitVec.eq_of_toNat_eq hnone)
  | succ n =>
    have hsome : (h.build calls).getNumSubHits ≠ 0 := by
      intro hzero
      rw [hzero, hlast] at hnum
      exact absurd hnum (by simp)
    rw [if_neg hsome]
    -- One sub-hit makes a vector of three words, and the index checked is 3.
    cases n with
    | zero => rfl
    | succ n =>
      rw [if_pos (by omega)]
      rfl

/-- **The accessor is exact** if and only if the hit was left with no sub-hits. -/
theorem subHitsExact_iff {h : IDODHit} (hc : Constructed h) {calls : List Setter}
    (hargs : ∀ in_, .numSubHits in_ ∈ calls → in_.toNat ≤ 31) :
    (h.build calls).SubHitsExact ↔ lastNumSubHits calls = 0 := by
  have hle := lastNumSubHits_le hargs
  have hlength := hc.length_build calls
  have hwords := hc.getWords_build calls
  have hget := getSubHits_build hc hargs
  constructor
  · intro hexact
    by_contra hne
    -- With sub-hits the accessor would have to point at word 2, and it never does.
    have hpoints := hexact.points (by omega)
    rw [hget] at hpoints
    split at hpoints
    · exact hne ‹_›
    · exact absurd hpoints (by simp)
    · exact absurd hpoints (by simp)
  · intro hzero
    rw [hzero] at hget hlength hwords
    refine ⟨?_, by omega, ?_, fun _ => hget⟩
    · intro hpos
      omega
    · intro inp s hs
      rw [hs.step inp]
      omega

theorem subHitsExact_new :
    (new.build [.numSubHits 3, .numSubHits 0]).SubHitsExact ↔
      lastNumSubHits [.numSubHits 3, .numSubHits 0] = 0 := by
  refine subHitsExact_iff .default ?_
  intro in_ hin
  rcases List.mem_pair.mp hin with h | h
  · cases h
    decide
  · cases h
    decide

/-- With one sub-hit the accessor throws. -/
theorem not_subHitsExact_one : ¬ (new.build [.numSubHits 1]).SubHitsExact := by
  intro h
  exact absurd (h.points (by decide)) (by decide)

end IDODHit
end HkRbu
