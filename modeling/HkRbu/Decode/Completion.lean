import HkRbu.Decode.Reads
import HkRbu.Decode.RawReference

/-!
# Any message is scanned as a well-formed one

The words of a message are complete objects and, at the end, perhaps one that is cut short; the scan
then takes the rest of that object from the memory behind the part. So every message is scanned as
the well-formed one that has a few words of that memory more (`scanned_completed`), and what is
proved of well-formed messages holds of all messages, of these words. The objects are those the
words begin with, and no others (`words_eq_iff`).
-/

namespace HkRbu

/-! ## One object -/

theorem type_of_ne {w : U32} (h₃ : w >>> 30 ≠ 0b11#32) (h₂ : w >>> 30 ≠ 0b10#32)
    (h₀ : w >>> 30 ≠ 0b00#32) : w >>> 30 = 0b01#32 := by
  have hlt : (w >>> 30).toNat < 4 := by
    rw [BitField.ushiftRight_eq_extractLsb' 30 2 w (by simp), BitVec.toNat_setWidth_of_le (by simp)]
    exact BitVec.isLt _
  have hne : ∀ {v : U32}, w >>> 30 ≠ v → (w >>> 30).toNat ≠ v.toNat := fun h he =>
    h (BitVec.eq_of_toNat_eq he)
  apply BitVec.eq_of_toNat_eq
  have hne₃ := hne h₃
  have hne₂ := hne h₂
  have hne₀ := hne h₀
  simp only [BitVec.toNat_ofNat] at hne₃ hne₂ hne₀ ⊢
  omega

/-- The complete object at a word pointer. -/
def Obj.read (w : Nat → U32) : Obj :=
  if hit : w 0 >>> 30 = 0b11#32 then
    if notPed : (w 1 >>> 25) &&& 0b1#32 = 0#32 then
      .hit (w 0) (w 1) ((List.range' 2 (min ((w 1).extractLsb' 27 5).toNat 15)).map w) hit notPed
        (by rw [List.length_map, List.length_range'])
    else .ped (w 0) (w 1) hit notPed
  else if sync : w 0 >>> 30 = 0b10#32 then .sync (w 0) (w 1) sync
  else if error : w 0 >>> 30 = 0b00#32 then .error (w 0) (w 1) error
  else .special (w 0) (w 1) (type_of_ne hit sync error)

theorem toNat_numSubHits (w : U32) : (w >>> 27).toNat = (w.extractLsb' 27 5).toNat := by
  rw [BitField.ushiftRight_eq_extractLsb' 27 5 w (by simp), BitVec.toNat_setWidth_of_le (by simp)]

namespace Obj

theorem words_read (w : Nat → U32) :
    (read w).words = (List.range' 0 (2 + subHits (w 0) (w 1))).map w := by
  have hrange : ∀ n, (List.range' 0 (2 + n)).map w =
      w 0 :: w 1 :: (List.range' 2 n).map w := by
    intro n
    rw [Nat.add_comm]
    rfl
  rw [hrange, subHits, toNat_numSubHits]
  by_cases hit : w 0 >>> 30 = 0b11#32
  · by_cases notPed : (w 1 >>> 25) &&& 0b1#32 = 0#32
    · rw [if_pos ⟨hit, notPed⟩, read, dif_pos hit, dif_pos notPed]
      rfl
    · rw [if_neg fun h => notPed h.2, read, dif_pos hit, dif_neg notPed]
      rfl
  · rw [if_neg fun h => hit h.1, read, dif_neg hit]
    split_ifs <;> rfl

theorem length_read (w : Nat → U32) : (read w).words.length = 2 + subHits (w 0) (w 1) := by
  rw [words_read, List.length_map, List.length_range']

/-- **An object is read where its words are.** -/
theorem read_of_words {w : Nat → U32} {o : Obj}
    (h : (List.range' 0 o.words.length).map w = o.words) : read w = o := by
  rw [length_words, Nat.add_comm, words] at h
  obtain ⟨h₀, hrest⟩ := List.cons.inj h
  obtain ⟨h₁, hsubs⟩ := List.cons.inj hrest
  unfold read
  cases o with
  | hit w₀ w₁ subs type notPed len =>
    obtain rfl : w 0 = w₀ := h₀
    obtain rfl : w 1 = w₁ := h₁
    obtain rfl : (List.range' 2 (min ((w 1).extractLsb' 27 5).toNat 15)).map w = subs := by
      rw [← len]
      exact hsubs
    rw [dif_pos type, dif_pos notPed]
  | ped w₀ w₁ type isPed =>
    obtain rfl : w 0 = w₀ := h₀
    obtain rfl : w 1 = w₁ := h₁
    rw [dif_pos type, dif_neg isPed]
  | sync w₀ w₁ type =>
    obtain rfl : w 0 = w₀ := h₀
    obtain rfl : w 1 = w₁ := h₁
    rw [dif_neg (by rw [type]; decide), dif_pos type]
  | error w₀ w₁ type =>
    obtain rfl : w 0 = w₀ := h₀
    obtain rfl : w 1 = w₁ := h₁
    rw [dif_neg (by rw [type]; decide), dif_neg (by rw [type]; decide), dif_pos type]
  | special w₀ w₁ type =>
    obtain rfl : w 0 = w₀ := h₀
    obtain rfl : w 1 = w₁ := h₁
    rw [dif_neg (by rw [type]; decide), dif_neg (by rw [type]; decide),
      dif_neg (by rw [type]; decide)]

/-- The words of an object tell its kind and where it ends. -/
theorem eq_of_words {o o' : Obj} (h : o.words = o'.words) : o = o' := by
  have hpointer : ∀ ws : List U32, (List.range' 0 ws.length).map (fun i => ws.getD i 0) = ws := by
    intro ws
    apply List.ext_getElem
    · simp
    · intro i hi hi'
      simp [hi']
  have ho := read_of_words (hpointer o.words)
  rw [h] at ho
  exact ho.symm.trans (read_of_words (hpointer o'.words))

end Obj

/-! ## The objects of a message -/

namespace Buffer

/-- The same memory, of which `n` bytes are the part. -/
def resize (b : Buffer) (n : Nat) : Buffer :=
  ⟨(List.range n).map b.byteAt, fun i => b.byteAt (n + i)⟩

theorem byteAt_resize (b : Buffer) (n i : Nat) : (b.resize n).byteAt i = b.byteAt i := by
  unfold byteAt
  by_cases hi : i < n
  · simp [resize, hi, byteAt]
  · simp [resize, hi, byteAt, Nat.add_sub_cancel' (Nat.le_of_not_lt hi)]

theorem wordAt_resize (b : Buffer) (n i : Nat) : (b.resize n).wordAt i = b.wordAt i := by
  simp only [wordAt, byteAt_resize]

theorem slice_resize (b : Buffer) (n start len : Nat) :
    (b.resize n).slice start len = b.slice start len :=
  List.map_congr_left fun i _ => b.wordAt_resize n i

theorem size_resize (b : Buffer) (n : Nat) : (b.resize n).size = n := by
  rw [size, resize, List.length_map, List.length_range]

/-- The objects from word `i` on that begin in the part, the last one completed. -/
def objsFrom (b : Buffer) : Nat → Nat → List Obj
  | 0, _ => []
  | fuel + 1, i =>
    if i < b.size / 4 then
      Obj.read (b.pointer i) :: b.objsFrom fuel (i + (Obj.read (b.pointer i)).words.length)
    else []

/-- The objects that begin in a buffer, as the lengths of the scan cut them off one after the other;
    the last may reach into the memory behind it. -/
def objs (b : Buffer) : List Obj := b.objsFrom (b.size / 4) 0

theorem map_pointer (b : Buffer) (i n : Nat) :
    (List.range' 0 n).map (b.pointer i) = b.slice i n := by
  rw [slice, ← Nat.add_zero i, ← List.map_add_range', List.map_map]
  rfl

theorem words_objsFrom (b : Buffer) (fuel i : Nat) :
    (b.objsFrom fuel i).flatMap Obj.words = b.slice i (WellFormed.size (b.objsFrom fuel i)) := by
  induction fuel generalizing i with
  | zero => rfl
  | succ fuel ih =>
    rw [objsFrom]
    split_ifs with hi
    · rw [List.flatMap_cons, ih, WellFormed.size_cons, Nat.add_comm (WellFormed.size _),
        ← slice_append, Obj.length_read, Obj.words_read, map_pointer]
    · rfl

/-- Every object begins inside the part. -/
theorem begins_inside (b : Buffer) {fuel i : Nat} {before rest : List Obj} {o : Obj}
    (h : b.objsFrom fuel i = before ++ o :: rest) : i + WellFormed.size before < b.size / 4 := by
  induction fuel generalizing i before with
  | zero => exact absurd h (by simp [objsFrom])
  | succ fuel ih =>
    rw [objsFrom] at h
    split_ifs at h with hi
    · cases before with
      | nil => exact hi
      | cons o' before =>
        obtain ⟨rfl, hrest⟩ := List.cons.inj h
        have hlt := ih hrest
        rw [WellFormed.size_cons]
        omega
    · exact absurd h (by simp)

/-- With fuel for the words that are left, the objects reach the end of the part. -/
theorem le_size_objsFrom (b : Buffer) {fuel i : Nat} (h : b.size / 4 ≤ i + fuel) :
    b.size / 4 ≤ i + WellFormed.size (b.objsFrom fuel i) := by
  induction fuel generalizing i with
  | zero => exact h
  | succ fuel ih =>
    rw [objsFrom]
    split_ifs with hi
    · have hnext := ih (i := i + (Obj.read (b.pointer i)).words.length)
        (by rw [Obj.length_read]; omega)
      rw [WellFormed.size_cons]
      omega
    · exact Nat.le_trans (Nat.le_of_not_lt hi) (Nat.le_add_right _ _)

theorem le_size_objs (b : Buffer) : b.size / 4 ≤ WellFormed.size b.objs := by
  have hreach := b.le_size_objsFrom (i := 0) (Nat.le_of_eq (Nat.zero_add _).symm)
  rwa [Nat.zero_add] at hreach

end Buffer

/-- The message with its last object completed from the memory behind the part. -/
def Inputs.completed (inp : Inputs) : WellFormed where
  header := inp.header
  data := inp.data.resize (4 * WellFormed.size inp.data.objs)
  currentCounter := inp.currentCounter
  uninit := inp.uninit
  objs := inp.data.objs
  words_eq := by
    rw [Buffer.words, Buffer.size_resize, Nat.mul_div_cancel_left _ (by simp), Buffer.slice_resize,
      Buffer.objs, ← Buffer.words_objsFrom]

theorem Inputs.size_completed (inp : Inputs) :
    inp.completed.data.size / 4 = WellFormed.size inp.data.objs :=
  inp.completed.size_data

/-! ## Its scan -/

namespace Scan

variable (inp : Inputs)

/-- The scan `t` of the completed message is where the scan `s` of the message is. -/
structure Tracks (s t : Scan) : Prop where
  words : s.words = inp.data
  eq : t = { s with words := inp.completed.data }
  left : ∃ fuel, inp.data.size / 4 ≤ s.currentWord + fuel ∧
    s.currentWord + WellFormed.size (inp.data.objsFrom fuel s.currentWord) =
      WellFormed.size inp.data.objs

variable {inp} {s t : Scan}

theorem Tracks.more (h : Tracks inp s t) :
    Scan.more inp s = Scan.more inp.completed.toInputs t := by
  obtain ⟨fuel, hfuel, hleft⟩ := h.left
  have ht : t.currentWord = s.currentWord := congrArg (·.currentWord) h.eq
  rw [Bool.eq_iff_iff, more_iff, more_iff, inp.size_completed, ht]
  cases fuel with
  | zero =>
    have hzero : WellFormed.size (inp.data.objsFrom 0 s.currentWord) = 0 := rfl
    omega
  | succ fuel =>
    rw [Buffer.objsFrom] at hleft
    split_ifs at hleft with hi
    · rw [WellFormed.size_cons, Obj.length_read] at hleft
      omega
    · have hzero : WellFormed.size [] = 0 := rfl
      omega

/-- A round on the message and the same round on the completed one. -/
theorem Tracks.step (h : Tracks inp s t) (hmore : Scan.more inp s = true) :
    Tracks inp (s.step inp) (t.step inp.completed.toInputs) := by
  obtain ⟨fuel, hfuel, hleft⟩ := h.left
  have hlt := more_iff.mp hmore
  have hwords : (s.step inp).words = inp.data := (s.step_replay inp).1.trans h.words
  refine ⟨hwords, ?_, ?_⟩
  · have hcongr := @step_congr inp s inp.completed.data fun a _ _ k _ _ => by
      rw [h.words]
      exact inp.data.byteAt_resize _ k
    rw [h.eq, ← hcongr]
    rfl
  · cases fuel with
    | zero => omega
    | succ fuel =>
      rw [Buffer.objsFrom, if_pos hlt, WellFormed.size_cons] at hleft
      have hword : (s.step inp).currentWord =
          s.currentWord + (Obj.read (inp.data.pointer s.currentWord)).words.length := by
        rw [step_currentWord, Obj.length_read, at_, at_, h.words, Nat.add_assoc]
        rfl
      rw [hword]
      refine ⟨fuel, ?_, ?_⟩
      · rw [Obj.length_read]
        omega
      · omega

theorem tracks_loop (inp : Inputs) (s : Scan) :
    Tracks inp (s.loop inp) (s.loop inp.completed.toInputs) := by
  have hstart : Tracks inp (s.start inp) (s.start inp.completed.toInputs) :=
    ⟨rfl, rfl, inp.data.size / 4, Nat.le_add_left _ _, Nat.zero_add _⟩
  have hrun := Loop.run_related (fun _ _ h => h.more) (fun _ _ h hmore => h.step hmore) hstart
    (WellFormed.size inp.data.objs)
  have hfuel : Loop.run (more inp) (step inp) (WellFormed.size inp.data.objs) (s.start inp) =
      s.loop inp := by
    refine Loop.run_of_le (fun s => inp.data.size / 4 - s.currentWord) ?_ (Nat.sub_le _ _)
      inp.data.le_size_objs
    intro t hmore
    have hlt := more_iff.mp hmore
    have hstep := t.currentWord_lt_step inp
    omega
  rw [hfuel] at hrun
  rw [loop, loop, inp.size_completed]
  exact hrun

/-- The scan of a message is the scan of the completed message. -/
theorem run_completed (s : Scan) (inp : Inputs) :
    s.run inp.completed.toInputs = { s.run inp with words := inp.completed.data } := by
  have htracks := tracks_loop inp s
  have hslice : ∀ start len, inp.completed.data.slice start len =
      (s.loop inp).words.slice start len := by
    intro start len
    rw [htracks.words]
    exact inp.data.slice_resize _ start len
  rw [run, htracks.eq, finish, run, finish, insertSegment, insertSegment]
  simp only [hslice]

end Scan

/-- **Every message is scanned as a well-formed one.** The objects of the message begin inside its
    data part and reach its end, and the memory that completes the last one is what lies behind the
    part: the scan of the completed message is that of the message, up to where the part ends. -/
theorem scanned_completed (inp : Inputs) (s : Scan) :
    (∀ i, inp.completed.data.byteAt i = inp.data.byteAt i) ∧
    (∀ before o rest, inp.completed.objs = before ++ o :: rest →
      WellFormed.size before < inp.data.size / 4) ∧
    inp.data.size / 4 ≤ WellFormed.size inp.completed.objs ∧
    s.run inp.completed.toInputs = { s.run inp with words := inp.completed.data } := by
  refine ⟨inp.data.byteAt_resize _, ?_, inp.data.le_size_objs, s.run_completed inp⟩
  intro before o rest h
  have hlt := inp.data.begins_inside h
  rwa [Nat.zero_add] at hlt

theorem Buffer.objsFrom_eq (b : Buffer) {fuel i : Nat} {objs : List Obj}
    (h : b.slice i (b.size / 4 - i) = objs.flatMap Obj.words) (hfuel : b.size / 4 ≤ i + fuel) :
    b.objsFrom fuel i = objs := by
  have hlength := congrArg List.length h
  rw [length_slice] at hlength
  induction objs generalizing fuel i with
  | nil =>
    have hi : ¬ i < b.size / 4 := by
      rw [List.flatMap_nil, List.length_nil] at hlength
      omega
    cases fuel with
    | zero => rfl
    | succ fuel => exact if_neg hi
  | cons o objs ih =>
    rw [List.flatMap_cons, List.length_append] at hlength
    have htwo : 2 ≤ o.words.length := by
      rw [Obj.length_words]
      exact Nat.le_add_right 2 _
    obtain ⟨fuel, rfl⟩ : ∃ fuel', fuel = fuel' + 1 := ⟨fuel - 1, by omega⟩
    have hsplit : b.size / 4 - i = o.words.length + (b.size / 4 - (i + o.words.length)) := by
      omega
    rw [hsplit, ← slice_append, List.flatMap_cons] at h
    obtain ⟨hwords, hrest⟩ := List.append_inj h (b.length_slice _ _)
    have hread : Obj.read (b.pointer i) = o := by
      refine Obj.read_of_words ?_
      rw [map_pointer]
      exact hwords
    rw [objsFrom, if_pos (by omega), hread]
    have hlength' := congrArg List.length hrest
    rw [length_slice] at hlength'
    exact congrArg (o :: ·) (ih hrest (by omega) hlength')

namespace Buffer

/-- The words of whole objects are cut off as these objects. -/
theorem objs_of_words {b : Buffer} {objs : List Obj} (h : b.words = objs.flatMap Obj.words) :
    b.objs = objs ∧ WellFormed.size b.objs = b.size / 4 := by
  have hobjs : b.objs = objs := b.objsFrom_eq h (Nat.le_add_left _ _)
  rw [hobjs, WellFormed.size, ← h, length_words]
  exact ⟨rfl, rfl⟩

/-- If the objects that are cut off end with the buffer, its words are theirs. -/
theorem words_of_size {b : Buffer} (hsize : WellFormed.size b.objs = b.size / 4) :
    b.words = b.objs.flatMap Obj.words := by
  rw [words, ← hsize, objs, words_objsFrom]

end Buffer

/-- **A stream of objects can be read in one way**: the words of a part are those of complete
    objects if and only if the objects that begin in it end with it, and then they are these. -/
theorem words_eq_iff (b : Buffer) (objs : List Obj) :
    b.words = objs.flatMap Obj.words ↔ objs = b.objs ∧ WellFormed.size b.objs = b.size / 4 := by
  constructor
  · intro h
    obtain ⟨hobjs, hsize⟩ := Buffer.objs_of_words h
    exact ⟨hobjs.symm, hsize⟩
  · rintro ⟨rfl, hsize⟩
    exact Buffer.words_of_size hsize

end HkRbu
