import HkRbu.Decode.Header
import HkRbu.Decode.Raw

/-!
# The raw words of a message

What `collections` holds for a bin after the scan, said without a loop: the header of the object
that opened the bin, the words of the objects assigned to it, and, in the bin of the last object,
the one word past the end of the part.
-/

namespace HkRbu

/-- The raw words a message has for the bin `b`, in a job whose `header[0]` is 0. -/
def rawReference (m : WellFormed) (b : U64) : List U32 :=
  (opener m.currentCounter b m.objs.reverse).elim []
      (fun o => headerFor m .new b o.kind.headerLen) ++
    (assigned m.currentCounter b m.objs.reverse ++
      if b.toNat = lastBin m.currentCounter m.objs.reverse then [m.data.wordAt (m.data.size / 4)]
      else [])

theorem heldHeaders_eq_flatten (inp : Inputs) (s : Scan) (b : U64) :
    heldHeaders b (s.log inp) = (injectedHeaders inp s b).flatten := by
  rw [heldHeaders, injectedHeaders]
  induction s.log inp with
  | nil => rfl
  | cons i log ih =>
    rw [List.flatMap_cons, ih, List.filterMap_cons]
    cases i with
    | header b' ws =>
      by_cases hb : b' = b
      · simp [Insert.headerAt, Insert.headerOf, hb]
      · simp [Insert.headerAt, Insert.headerOf, hb]
    | segment | tpuHit => rfl

/-- **The scan stores the raw reference**, bin by bin. -/
theorem get_run_collections_eq (m : WellFormed) {s : Scan} (hheader : s.header 0 = 0) (b : U64) :
    IndexMap.get (s.run m.toInputs).collections b = rawReference m b := by
  have hnew : ∀ n, headerFor m s b n = headerFor m .new b n := by
    intro n
    rw [headerFor, headerFor, hheader]
    rfl
  rw [get_run_collections, heldHeaders_eq_flatten, injectedHeaders_eq,
    ← storedWords_eq_heldSegments, storedWords_eq, rawReference]
  cases opener m.currentCounter b m.objs.reverse with
  | none => rfl
  | some o => simp [hnew]

end HkRbu
