import HkRbu.Decode.Run
import HkRbu.Upload.Process

/-!
# Recycled jobs

Jobs go back to a pool with all they hold and are handed out again. `ProcessDataIDOD` resets by
hand what it uses; the two things it does not set before it reads them are `header[0]`, which no
function ever writes, and the memory the reduced hits are constructed in, of which the constructor
leaves nothing. So what a job has been through makes no difference (`processDataIDOD_recycled`).
-/

namespace HkRbu

/-! ## What a job has been through -/

/-- A use of a job: a whole run of `ProcessDataIDOD`, or one that is abandoned after `rounds` rounds
    of the scan and passed to `ProcessDataFailIDOD`. -/
inductive Use where
  | completed (pool : TimeSlicePool) (inp : Inputs) (dm : DataModel)
  | abandoned (inp : Inputs) (dm : DataModel) (rounds : Nat)

/-- The job in the middle of `ProcessDataIDOD`. -/
def scanRounds (inp : Inputs) (dm : DataModel) (job : DataReceiverJobArgs) (rounds : Nat) : Scan :=
  Loop.run (Scan.more inp) (Scan.step inp) rounds
    (Scan.start inp { job with pmtIdMap := dm.pmtIdMap })

/-- The job a use leaves behind. -/
def Use.leave (job : DataReceiverJobArgs) : Use → DataReceiverJobArgs
  | completed pool inp dm => (processDataIDOD pool inp dm job).2
  -- `ProcessDataFailIDOD` returns the message vector (`System.returnMessages`) and writes no
  -- other variable of the job, so it leaves the scan where it stopped.
  | abandoned inp dm rounds => (scanRounds inp dm job rounds).toDataReceiverJobArgs

/-- The job after a history of uses, the first one first. -/
def leftBy (uses : List Use) : DataReceiverJobArgs := uses.foldl Use.leave .new

/-! ## `header[0]` stays zero -/

namespace Scan

theorem start_header₀ (inp : Inputs) (s : Scan) : (s.start inp).header 0 = s.header 0 := rfl

theorem step_header₀ (inp : Inputs) (s : Scan) : (s.step inp).header 0 = s.header 0 := by
  obtain ⟨-, hs, -⟩ | ⟨-, hs, -⟩ := s.step_cases inp
  · rw [hs]
    rfl
  · rw [hs, fileObject_eq, ← s.arrive_header inp]
    exact header_ite_stampHeader _ _ (by decide)

theorem rounds_header₀ (inp : Inputs) (s : Scan) (rounds : Nat) :
    (Loop.run (more inp) (step inp) rounds (s.start inp)).header 0 = s.header 0 :=
  Loop.run_invariant (P := fun t : Scan => t.header 0 = s.header 0)
    (fun t h _ => (t.step_header₀ inp).trans h) (s.start_header₀ inp) rounds

end Scan

theorem Use.leave_header₀ (job : DataReceiverJobArgs) (u : Use) :
    (u.leave job).header 0 = job.header 0 := by
  cases u with
  | completed pool inp dm => exact Scan.rounds_header₀ inp _ _
  | abandoned inp dm rounds => exact Scan.rounds_header₀ inp _ rounds

theorem leftBy_header₀ (uses : List Use) : (leftBy uses).header 0 = 0 := by
  induction uses using List.reverseRecOn with
  | nil => rfl
  | append_singleton uses u ih =>
    rw [leftBy, List.foldl_append]
    exact (u.leave_header₀ (leftBy uses)).trans ih

/-! ## What the scan depends on -/

namespace Scan

/-- The top of the function forgets the job, up to `header[0]`. -/
theorem start_eq_start (inp : Inputs) {s s' : Scan} (hheader : s.header 0 = s'.header 0)
    (hids : s.pmtIdMap = s'.pmtIdMap) : s.start inp = s'.start inp := by
  -- `readHeader` sets the words 1 and 2 of the header and leaves word 0 alone.
  have hall : (s.start inp).header = (s'.start inp).header := by
    funext i
    obtain rfl | rfl | rfl : i = 0 ∨ i = 1 ∨ i = 2 := by omega
    · exact hheader
    · rfl
    · rfl
  have hs : s.start inp =
      { s'.start inp with header := (s.start inp).header, pmtIdMap := s.pmtIdMap } := rfl
  rw [hs, hall, hids]
  rfl

theorem step_uninit (header data : Buffer) (currentCounter : U64) (uninit uninit' : Nat → TPUHit) :
    step ⟨header, data, currentCounter, uninit⟩ = step ⟨header, data, currentCounter, uninit'⟩ := by
  funext s
  have hhit : s.reducedHit ⟨header, data, currentCounter, uninit⟩ =
      s.reducedHit ⟨header, data, currentCounter, uninit'⟩ :=
    TPUHit.new_eq_new _ _ _ _ _ _ _ _
  unfold step
  cases s.kind with
  | hit =>
    show s.hitBranch _ = s.hitBranch _
    rw [hitBranch, hhit]
    rfl
  | ped | sync | error | special => rfl

theorem run_congr (header data : Buffer) (currentCounter : U64) (uninit uninit' : Nat → TPUHit)
    {s s' : Scan} (hheader : s.header 0 = s'.header 0) (hids : s.pmtIdMap = s'.pmtIdMap) :
    s.run ⟨header, data, currentCounter, uninit⟩ =
      s'.run ⟨header, data, currentCounter, uninit'⟩ := by
  rw [run, loop, step_uninit header data currentCounter uninit uninit',
    start_eq_start _ hheader hids]
  rfl

end Scan

/-- **A recycled job behaves like a fresh one**, whatever it has been through: on a message of any
    parts, in any data model, and whatever memory its reduced hits are constructed in. -/
theorem processDataIDOD_recycled (uses : List Use) (pool : TimeSlicePool) (header data : Buffer)
    (currentCounter : U64) (uninit uninit' : Nat → TPUHit) (dm : DataModel) :
    (processDataIDOD pool ⟨header, data, currentCounter, uninit⟩ dm (leftBy uses)).1 =
      (processDataIDOD pool ⟨header, data, currentCounter, uninit'⟩ dm .new).1 := by
  have hrun : Scan.run ⟨header, data, currentCounter, uninit⟩
        { leftBy uses with pmtIdMap := dm.pmtIdMap } =
      Scan.run ⟨header, data, currentCounter, uninit'⟩
        { DataReceiverJobArgs.new with pmtIdMap := dm.pmtIdMap } :=
    Scan.run_congr header data currentCounter uninit uninit' (leftBy_header₀ uses) rfl
  rw [processDataIDOD, hrun]
  rfl

end HkRbu
