import HkRbu.Data.Buffer
import HkRbu.Lib.Pool
import HkRbu.Lib.Runs

/-!
# The receivers, the job queue and the workers

The part of `DataReceiver` that moves messages and jobs around: the body of `Thread`, what the job
functions do with the message vector at their ends, `Finalise` and the two destructors. Vectors of
messages are numbered, so that a pointer is a number and two holders of one vector can be told from
two vectors; a pointer to a pool is the receiver that owns it.

The framework is not part of the repository. `Pool::GetNew` hands out an object of the free list or
a fresh one, `Pool::Add` puts an object on the free list; a worker takes a queued job, runs it once
and gives the job to its `out_pool`; `KillThread` stops the receiver's thread. A `recv` either
delivers a part or fails; a successful `send` leaves the message empty, a failed one leaves it
unchanged.
-/

namespace HkRbu

/-- A `std::vector<zmq::message_t>*` that is not null. -/
abbrev VecId := Nat

/-- `zmq::message_t`: the part and its `more()`. -/
structure Message where
  data : Buffer
  more : Bool

/-- A message that has been default-constructed, or sent. -/
def Message.empty : Message := ⟨⟨[], fun _ => 0⟩, false⟩

/-- The services, which also name their pair of job functions. -/
inductive Service where
  | idod | mpmt
  deriving DecidableEq, Repr

variable {ι : Type}

/-- The pointers of `DataReceiverJob_args`; the pools are those of a receiver. -/
structure JobPointers (ι : Type) where
  mData : Bool
  messages : Option VecId
  messagePool : Option ι

/-- `new DataReceiverJob_args`. -/
def JobPointers.new : JobPointers ι := ⟨false, none, none⟩

/-- The members of a `Job` that the tool uses. -/
structure Job (ι : Type) where
  data : Option (JobPointers ι)
  outPool : Option ι
  func : Option Service
  failFunc : Option Service

/-- `Job("DataReceive")`. -/
def Job.new : Job ι := ⟨none, none, none, none⟩

/-- `DataReceiver_args`, with what its socket has sent (a part, and whether more follow), whether
    its thread runs and whether it has been deleted. -/
structure ReceiverArgs (ι : Type) where
  messages : Option VecId
  tmpJob : Option (Job ι)
  tmpData : Option (JobPointers ι)
  jobPool : List (Job ι)
  messagePool : List VecId
  reply : List U8
  sent : List (List U8 × Bool)
  up : Bool
  deleted : Bool

/-- `DataReceiver_args::DataReceiver_args()`: the reply is four bytes, and its thread is started. -/
def ReceiverArgs.new : ReceiverArgs ι where
  messages := none
  tmpJob := none
  tmpData := none
  jobPool := []
  messagePool := []
  reply := List.replicate 4 0
  sent := []
  up := true
  deleted := false

/-- The receivers, the queue, the jobs the workers are running, and the vectors. Vectors from
    `nextVec` on have not been made yet. -/
structure System (ι : Type) where
  receivers : ι → ReceiverArgs ι
  jobQueue : List (Job ι)
  running : List (Job ι)
  vectors : VecId → List Message
  nextVec : VecId

/-- After `CreateThreads`. -/
def System.start : System ι where
  receivers _ := .new
  jobQueue := []
  running := []
  vectors _ := []
  nextVec := 0

/-- What an iteration of `Thread` meets: whether input is ready, which objects the pools hand out,
    what the calls of `recv` give (after the last one they fail), and whether the sends succeed. -/
structure Iteration where
  ready : Bool
  vecPick : Option Nat
  recvs : List (Option Message)
  sendIdentity : Bool
  sendReply : Bool
  jobPick : Option Nat

/-- The iteration for a message of three parts, when every `recv` and every `send` succeeds. -/
def Iteration.ofParts (identity header data : Buffer) (vecPick jobPick : Option Nat) :
    Iteration where
  ready := true
  vecPick := vecPick
  recvs := [some ⟨identity, true⟩, some ⟨header, true⟩, some ⟨data, false⟩]
  sendIdentity := true
  sendReply := true
  jobPick := jobPick

/-- Receiving into `messages->back()` while there is more. After a failed `recv` the message is
    still empty, and `more()` false. -/
def receive : List Message → List (Option Message) → List Message × Bool
  | vec, some m :: recvs => if m.more then receive (vec ++ [m]) recvs else (vec ++ [m], true)
  | vec, _ => (vec ++ [Message.empty], false)

/-- `memcpy(reply.data(), messages->at(1).data(), reply.size())`. -/
def copyReply (reply : List U8) (header : Buffer) : List U8 :=
  (List.range reply.length).map header.byteAt

/-- The two sends of the reply: the identity, and then the reply. -/
def ReceiverArgs.sendReply (a : ReceiverArgs ι) (identity header : Buffer) (it : Iteration) :
    ReceiverArgs ι :=
  let a := { a with reply := copyReply a.reply header }
  if it.sendIdentity then
    let a := { a with sent := a.sent ++ [(identity.bytes, true)] }
    if it.sendReply then { a with sent := a.sent ++ [(a.reply, false)], reply := [] } else a
  else a

/-- The job filled in for the vector `v`; a pointer already set is kept. -/
def Job.fill (service : Service) (i : ι) (v : VecId) (job : Job ι) : Job ι :=
  let data := job.data.getD .new
  let data := { data with messages := some v }
  let data := if data.mData then data else { data with mData := true }
  let data := if data.messagePool.isNone then { data with messagePool := some i } else data
  let job := { job with data := some data }
  let job := if job.outPool.isNone then { job with outPool := some i } else job
  { job with func := some service, failFunc := some service }

/-- What can happen: an iteration of a receiver's thread, a worker taking the `k`-th queued job or
    finishing the `k`-th running one, and the two steps of `Finalise` on each receiver. -/
inductive Label (ι : Type) where
  | thread (i : ι) (it : Iteration)
  | take (k : Nat)
  | finish (k : Nat) (ok : Bool)
  | kill (i : ι)
  | delete (i : ι)

namespace System

variable [DecidableEq ι] (service : ι → Service)

/-- The vector `v` exists, which is new if no vector has its number. -/
def made (S : System ι) (v : VecId) : System ι :=
  { S with nextVec := if v = S.nextVec then S.nextVec + 1 else S.nextVec }

/-- `messages->clear(); message_pool.Add(messages); messages = 0;` in `Thread`. -/
def drop (S : System ι) (i : ι) (a : ReceiverArgs ι) (v : VecId) : System ι :=
  let a := { a with messagePool := v :: a.messagePool, messages := none }
  { S with
    receivers := Function.update S.receivers i a
    vectors := Function.update S.vectors v [] }

/-- The job for the vector `v`, and its way into the queue. The `messages` of the arguments are
    left as they are. -/
def enqueue (S : System ι) (i : ι) (a : ReceiverArgs ι) (v : VecId) (parts : List Message)
    (jobPick : Option Nat) : System ι :=
  let (job, jobPool) := Pool.getNew jobPick .new a.jobPool
  let a := { a with jobPool := jobPool, tmpJob := none, tmpData := none }
  { S with
    receivers := Function.update S.receivers i a
    vectors := Function.update S.vectors v parts
    jobQueue := S.jobQueue ++ [job.fill (service i) i v] }

/-- `Thread`, from the vector taken on: receiving, the reply, and the job. -/
def deliver (S : System ι) (i : ι) (a : ReceiverArgs ι) (v : VecId) (it : Iteration) : System ι :=
  let (parts, returnCheck) := receive (S.vectors v) it.recvs
  if parts.length ≠ 3 ∨ returnCheck = false then S.drop i a v
  else
    let a := a.sendReply (parts.getD 0 .empty).data (parts.getD 1 .empty).data it
    if it.sendIdentity = false ∨ it.sendReply = false then S.drop i a v
    -- the identity has been sent
    else S.enqueue service i a v (parts.set 0 .empty) it.jobPick

/-- `DataReceiver::Thread`, from the poll on. -/
def thread (S : System ι) (i : ι) (it : Iteration) : System ι :=
  if it.ready then
    let a := S.receivers i
    let (v, messagePool) := Pool.getNew it.vecPick S.nextVec a.messagePool
    (S.made v).deliver service i { a with messagePool := messagePool, messages := some v } v it
  else S

/-- The end of `ProcessDataIDOD`, and `ProcessDataFailIDOD`: the vector goes back to its pool. -/
def returnMessages (S : System ι) (data : JobPointers ι) : System ι × JobPointers ι :=
  match data.messages, data.messagePool with
  | some v, some i =>
    let a := { S.receivers i with messagePool := v :: (S.receivers i).messagePool }
    ({ S with
        receivers := Function.update S.receivers i a
        vectors := Function.update S.vectors v [] }, { data with messages := none })
  | _, _ => (S, data)

/-- A worker runs a job: `func`, and `fail_func` if that failed. The MPMT functions do nothing. -/
def runJob (S : System ι) (job : Job ι) (ok : Bool) : System ι × Job ι :=
  match if ok then job.func else job.failFunc, job.data with
  | some .idod, some data =>
    let (S, data) := S.returnMessages data
    (S, { job with data := some data })
  | _, _ => (S, job)

/-- The job goes back to its `out_pool`. -/
def recycle (S : System ι) (job : Job ι) : System ι :=
  match job.outPool with
  | some i =>
    let a := { S.receivers i with jobPool := job :: (S.receivers i).jobPool }
    { S with receivers := Function.update S.receivers i a }
  | none => S

/-- The job is run and recycled. -/
def finishJob (S : System ι) (job : Job ι) (ok : Bool) : System ι :=
  let (S, job) := S.runJob job ok
  S.recycle job

/-- `DataReceiverJob_args::~DataReceiverJob_args`. -/
def destroyData (S : System ι) (data : JobPointers ι) : System ι :=
  match data.messages, data.messagePool with
  | some v, some i =>
    let a := { S.receivers i with messagePool := v :: (S.receivers i).messagePool }
    { S with receivers := Function.update S.receivers i a }
  | _, _ => S

/-- The body of `DataReceiver_args::~DataReceiver_args`. -/
def destroy (S : System ι) (i : ι) : System ι :=
  let a := S.receivers i
  let a := { a with jobPool := a.tmpJob.toList ++ a.jobPool }
  let S := { S with receivers := Function.update S.receivers i a }
  let S := a.tmpData.elim S S.destroyData
  let a := S.receivers i
  let a := { a with messagePool := a.messages.toList ++ a.messagePool, deleted := true }
  { S with receivers := Function.update S.receivers i a }

/-- One step; a step that is not possible leaves the state alone. -/
def step (S : System ι) : Label ι → System ι
  | .thread i it => if (S.receivers i).up then S.thread service i it else S
  | .take k =>
    match S.jobQueue[k]? with
    | some job => { S with jobQueue := S.jobQueue.eraseIdx k, running := job :: S.running }
    | none => S
  | .finish k ok =>
    match S.running[k]? with
    | some job => { S with running := S.running.eraseIdx k }.finishJob job ok
    | none => S
  | .kill i =>
    let a := { S.receivers i with up := false }
    { S with receivers := Function.update S.receivers i a }
  | .delete i => if (S.receivers i).up ∨ (S.receivers i).deleted then S else S.destroy i

end System
end HkRbu
