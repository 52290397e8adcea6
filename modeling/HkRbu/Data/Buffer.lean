import HkRbu.Lib.BitField

/-!
# Message parts as memory

A part of a ZeroMQ message is read by the decoder through `reinterpret_cast<uint32_t*>(data())`,
so a part is modelled as what that pointer sees: the bytes of the part, and whatever bytes lie
in memory after it. Reads past the end of the part are therefore *possible* in the model, as
they are in the code, and give an arbitrary value. The machine is little-endian, as
`ProcessDataIDOD` assumes.
-/

namespace HkRbu

abbrev U8 := BitVec 8
abbrev U16 := BitVec 16
abbrev U32 := BitVec 32
abbrev U64 := BitVec 64

instance neZero_two : NeZero 2 := ⟨Nat.succ_ne_zero 1⟩
instance neZero_three : NeZero 3 := ⟨Nat.succ_ne_zero 2⟩

/-- The memory at the `data()` of a received part. -/
structure Buffer where
  bytes : List U8
  /-- The bytes that follow the part in memory. -/
  beyond : Nat → U8

namespace Buffer

/-- `message_t::size()`. -/
def size (b : Buffer) : Nat := b.bytes.length

def byteAt (b : Buffer) (i : Nat) : U8 :=
  if h : i < b.bytes.length then b.bytes[i] else b.beyond (i - b.bytes.length)

/-- `reinterpret_cast<uint32_t*>(data())[i]`. -/
def wordAt (b : Buffer) (i : Nat) : U32 :=
  b.byteAt (4 * i + 3) ++ b.byteAt (4 * i + 2) ++ b.byteAt (4 * i + 1) ++ b.byteAt (4 * i)

/-- The pointer `&words[start]`, as it is indexed. -/
def pointer (b : Buffer) (start : Nat) (i : Nat) : U32 := b.wordAt (start + i)

/-- The words of `[&words[start], &words[start] + len)`. -/
def slice (b : Buffer) (start len : Nat) : List U32 := (List.range' start len).map b.wordAt

/-- The complete words of the part, `size() / 4` of them. -/
def words (b : Buffer) : List U32 := b.slice 0 (b.size / 4)

@[simp] theorem length_slice (b : Buffer) (start len : Nat) : (b.slice start len).length = len := by
  simp [slice]

@[simp] theorem slice_zero (b : Buffer) (start : Nat) : b.slice start 0 = [] := rfl

theorem slice_one (b : Buffer) (start : Nat) : b.slice start 1 = [b.wordAt start] := rfl

theorem slice_succ_succ (b : Buffer) (start n : Nat) :
    b.slice start (n + 2) = b.wordAt start :: b.wordAt (start + 1) :: b.slice (start + 2) n := rfl

theorem drop_slice (b : Buffer) (start len k : Nat) :
    (b.slice start len).drop k = b.slice (start + k) (len - k) := by
  rw [slice, slice, ← List.map_drop, List.drop_range', Nat.mul_one]

theorem slice_append (b : Buffer) (start m n : Nat) :
    b.slice start m ++ b.slice (start + m) n = b.slice start (m + n) := by
  rw [slice, slice, slice, ← List.map_append]
  exact congrArg _ (by simp)

theorem slice_extend (b : Buffer) {start mid : Nat} (h : start ≤ mid) (n : Nat) :
    b.slice start (mid + n - start) = b.slice start (mid - start) ++ b.slice mid n := by
  rw [show mid + n - start = mid - start + n by omega, ← slice_append,
    show start + (mid - start) = mid by omega]

@[simp] theorem length_words (b : Buffer) : b.words.length = b.size / 4 := by
  simp [words]

theorem wordAt_eq_getElem (b : Buffer) {i : Nat} (h : i < b.words.length) :
    b.wordAt i = b.words[i] := by
  simp [words, slice]

theorem slice_of_words_eq {b : Buffer} {before ws after : List U32}
    (h : b.words = before ++ ws ++ after) : b.slice before.length ws.length = ws := by
  refine List.ext_getElem (by simp) ?_
  intro i _ hi
  have hlt : before.length + i < b.words.length := by
    rw [h]
    simp only [List.length_append]
    omega
  have hread := b.wordAt_eq_getElem hlt
  have hget : b.words[before.length + i] = ws[i] := by
    simp [h, hi]
  simp [slice, hread, hget]

/-! ## Writing words into a part

The senders fill a part with `memcpy` from a word array; the receiver reads the same words. -/

/-- The bytes of a word in memory, the lowest first. -/
def wordBytes (w : U32) : List U8 :=
  [w.extractLsb' 0 8, w.extractLsb' 8 8, w.extractLsb' 16 8, w.extractLsb' 24 8]

/-- `std::memcpy(msg.data(), ws.data(), ws.size() * sizeof(uint32_t))` into a message of that
    size, with `beyond` behind it. -/
def memcpy (ws : List U32) (beyond : Nat → U8) : Buffer := ⟨ws.flatMap wordBytes, beyond⟩

theorem wordBytes_append (w : U32) :
    (w.extractLsb' 24 8 ++ w.extractLsb' 16 8 ++ w.extractLsb' 8 8 ++ w.extractLsb' 0 8 : U32) =
      w := by
  apply BitVec.eq_of_getLsbD_eq
  intro i hi
  simp only [BitVec.getLsbD_append, BitVec.getLsbD_extractLsb']
  by_cases h8 : i < 8
  · simp [h8]
  by_cases h16 : i < 16
  · simp [h8, show i - 8 < 8 by omega, show 8 + (i - 8) = i by omega]
  by_cases h24 : i < 24
  · simp [h8, show ¬ i - 8 < 8 by omega, show i - 8 - 8 < 8 by omega,
      show 16 + (i - 8 - 8) = i by omega]
  · simp [h8, show ¬ i - 8 < 8 by omega, show ¬ i - 8 - 8 < 8 by omega,
      show i - 8 - 8 - 8 < 8 by omega, show 24 + (i - 8 - 8 - 8) = i by omega]

theorem length_memcpy_bytes (ws : List U32) (beyond : Nat → U8) :
    (memcpy ws beyond).bytes.length = 4 * ws.length := by
  induction ws with
  | nil => rfl
  | cons w ws ih =>
    simp only [memcpy, List.flatMap_cons, List.length_append, List.length_cons] at ih ⊢
    rw [ih]
    simp [wordBytes]
    omega

theorem byteAt_memcpy_cons_add (w : U32) (ws : List U32) (beyond : Nat → U8) (i : Nat) :
    (memcpy (w :: ws) beyond).byteAt (i + 4) = (memcpy ws beyond).byteAt i := by
  have hb : (memcpy (w :: ws) beyond).bytes = wordBytes w ++ (memcpy ws beyond).bytes := rfl
  have hl : (wordBytes w).length = 4 := rfl
  simp only [byteAt, hb, List.length_append, hl]
  by_cases h : i < (memcpy ws beyond).bytes.length
  · rw [dif_pos (by omega), dif_pos h, List.getElem_append_right (by omega)]
    simp [hl]
  · rw [dif_neg (by omega), dif_neg h, Nat.add_comm i 4, Nat.add_sub_add_left]
    rfl

theorem wordAt_memcpy {ws : List U32} {beyond : Nat → U8} {i : Nat} (h : i < ws.length) :
    (memcpy ws beyond).wordAt i = ws[i] := by
  induction ws generalizing i with
  | nil => exact absurd h (by simp)
  | cons w ws ih =>
    cases i with
    | zero => exact wordBytes_append w
    | succ i =>
      have hi : i < ws.length := by simpa using h
      have hstep : (memcpy (w :: ws) beyond).wordAt (i + 1) = (memcpy ws beyond).wordAt i := by
        simp only [wordAt]
        rw [show 4 * (i + 1) + 3 = 4 * i + 3 + 4 by omega,
          show 4 * (i + 1) + 2 = 4 * i + 2 + 4 by omega,
          show 4 * (i + 1) + 1 = 4 * i + 1 + 4 by omega, show 4 * (i + 1) = 4 * i + 4 by omega]
        simp only [byteAt_memcpy_cons_add]
      rw [hstep, ih hi]
      rfl

theorem pointer_memcpy {before ws after : List U32} {beyond : Nat → U8} {i : Nat}
    (h : i < ws.length) :
    (memcpy (before ++ ws ++ after) beyond).pointer before.length i = ws[i] := by
  have hlt : before.length + i < (before ++ ws ++ after).length := by
    simp only [List.length_append]
    omega
  rw [pointer, wordAt_memcpy hlt, List.getElem_append_left (by simpa using h),
    List.getElem_append_right (by omega)]
  simp

/-- **What was copied in is what is read out.** -/
@[simp] theorem words_memcpy (ws : List U32) (beyond : Nat → U8) :
    (memcpy ws beyond).words = ws := by
  have hn : (memcpy ws beyond).size / 4 = ws.length := by
    rw [size, length_memcpy_bytes]
    omega
  refine List.ext_getElem (by rw [length_words, hn]) ?_
  intro i hi hi'
  rw [← wordAt_eq_getElem _ hi, wordAt_memcpy hi']

end Buffer
end HkRbu
