import RadosGateway.Base.Bytes
import RadosGateway.Base.Pieces
import RadosGateway.Base.Run
import RadosGateway.Base.SortedMap

/-!
# Asynchronous reads of an object

`iterate` cuts a range of an object into reads. One thread issues them, takes what has been read
from `read_list` and passes it to the client; each complete read is followed by a callback on some
other thread, which moves what can be delivered to `read_list`. -/

namespace RadosGateway.GetObjData

open Text Pieces

/-- A read that `iterate_obj` asks `get_obj_iterate_cb` for. -/
structure Request where
  ofs : Nat
  len : Nat
  isHead : Bool
  deriving DecidableEq

def Request.piece (q : Request) : Nat × Nat := (q.ofs, q.len)

/-- A call of `iterate`: the adjacent reads of a range, the object and what of its head was read
before. Who asks for a part of that asks the head object. -/
structure Job where
  ofs : Nat
  requests : List Request
  body : Nat → UInt8
  data : Bytes
  window : Nat
  adjacent : Chain ofs (requests.map Request.piece)
  data_eq : data = span body 0 data.length
  head : ∀ q ∈ requests, q.ofs < data.length → q.isHead = true

def Job.range (job : Job) : Bytes := span job.body job.ofs (total (job.requests.map Request.piece))

/-- `AioCompletion`: whether the read is under way or complete, and then its return value. -/
inductive Completion
  | created
  | inFlight
  | complete (r : Int)
  deriving DecidableEq

/-- Where the callback of a read is: not called, before its test of `cancelled`, before `data_lock`,
between the two assignments of `set_cancelled`, at its end. -/
inductive Callback
  | idle
  | called
  | entering
  | failing (r : Int)
  | finished
  deriving DecidableEq

structure Aio where
  ofs : Nat
  len : Nat
  completion : Completion
  callback : Callback
  deriving DecidableEq

/-- Where `flush_read_list` was called from, and what is still to be done there. -/
inductive Caller
  | issue (rest : List Request)
  | wait (done : Bool)
  deriving DecidableEq

inductive Issuer
  | request (rest : List Request)
  | direct (ofs len : Nat) (rest : List Request)
  | throttle (ofs len : Nat) (rest : List Request)
  | check (ofs len : Nat) (rest : List Request)
  | addIo (ofs len : Nat) (rest : List Request)
  | operate (ofs : Nat) (rest : List Request)
  | flush (caller : Caller)
  | handle (l : List Bytes) (r : Int) (caller : Caller)
  | waitNext
  | waiting (curOfs : Nat)
  | returned (r : Int)
  deriving DecidableEq

/-- `get_obj_data`, the threads, and what was passed to the client. -/
structure State where
  ioMap : List (Nat × Bytes)
  completionMap : List (Nat × Unit)
  aioData : List Aio
  cancelled : Bool
  errCode : Int
  count : Int
  readList : List Bytes
  issuer : Issuer
  delivered : Bytes
  deriving DecidableEq

def init (job : Job) : State where
  ioMap := []
  completionMap := []
  aioData := []
  cancelled := false
  errCode := 0
  count := 0
  readList := []
  issuer := .request job.requests
  delivered := []

def shouldWait (max cur c : Int) : Bool :=
  max ≠ 0 && ((c ≤ max && max < cur + c) || (max ≤ c && max < cur))

def State.find (s : State) (ofs : Nat) : Option Aio := s.aioData.find? fun a => a.ofs = ofs

def State.update (s : State) (ofs : Nat) (f : Aio → Aio) : State :=
  { s with aioData := s.aioData.map fun a => if a.ofs = ofs then f a else a }

def State.setCallback (s : State) (ofs : Nat) (c : Callback) : State :=
  s.update ofs fun a => { a with callback := c }

def State.setCompletion (s : State) (ofs : Nat) (c : Completion) : State :=
  s.update ofs fun a => { a with completion := c }

def addIo (s : State) (ofs len : Nat) : State :=
  { s with
    ioMap := SortedMap.insert ofs [] s.ioMap,
    completionMap := SortedMap.insert ofs () s.completionMap,
    aioData := s.aioData ++ [⟨ofs, len, .created, .idle⟩] }

def cancelIo (s : State) (ofs : Nat) : State :=
  { s with
    completionMap := s.completionMap.filter (·.1 ≠ ofs),
    ioMap := s.ioMap.filter (·.1 ≠ ofs) }

def setCancelled (s : State) (r : Int) : State :=
  { s with
    cancelled := true,
    errCode := r }

/-- The next step of the thread. Calls of other code are answered: of `append_atomic_test`,
`aio_operate` and the client's `handle_data`. -/
def issue (job : Job) (s : State) (answer : Int) : Option State :=
  match s.issuer with
  | .request [] => some { s with issuer := .waitNext }
  | .request (q :: rest) =>
    if q.isHead then
      if answer < 0 then some { s with issuer := .returned answer }
      else if q.ofs < job.data.length then some { s with issuer := .direct q.ofs q.len rest }
      else some { s with issuer := .throttle q.ofs q.len rest }
    else some { s with issuer := .throttle q.ofs q.len rest }
  | .direct ofs len rest =>
    let chunkLen := min (job.data.length - ofs) len
    let s := { s with delivered := s.delivered ++ (job.data.drop ofs).take chunkLen }
    if answer < 0 then some { s with issuer := .returned answer }
    else if len - chunkLen = 0 then some { s with issuer := .request rest }
    else some { s with issuer := .throttle (ofs + chunkLen) (len - chunkLen) rest }
  | .throttle ofs len rest =>
    if shouldWait job.window s.count len then none
    else
      some { s with
        count := s.count + len,
        issuer := .check ofs len rest }
  | .check ofs len rest =>
    if s.cancelled then
      if s.errCode < 0 then some { s with issuer := .returned s.errCode }
      else some { s with issuer := .request rest }
    else some { s with issuer := .addIo ofs len rest }
  | .addIo ofs len rest => some { addIo s ofs len with issuer := .operate ofs rest }
  | .operate ofs rest =>
    if answer < 0 then some { cancelIo (setCancelled s answer) ofs with issuer := .returned answer }
    else some { s.setCompletion ofs .inFlight with issuer := .flush (.issue rest) }
  | .flush caller =>
    some { s with
      readList := [],
      issuer := .handle s.readList 0 caller }
  | .handle [] r caller =>
    match caller with
    | .issue rest => some { s with issuer := .request rest }
    | .wait done => some { s with issuer := if done then .returned r else .waitNext }
  | .handle (bl :: l) _ caller =>
    let s := { s with delivered := s.delivered ++ bl }
    if answer < 0 then some { setCancelled s answer with issuer := .returned answer }
    else some { s with issuer := .handle l answer caller }
  | .waitNext =>
    match s.completionMap with
    | [] => some { s with issuer := .flush (.wait true) }
    | (curOfs, _) :: _ => some { s with issuer := .waiting curOfs }
  | .waiting curOfs =>
    match s.find curOfs with
    | some ⟨_, _, .complete r, .finished⟩ =>
      let completionMap := s.completionMap.filter (·.1 ≠ curOfs)
      some { s with
        completionMap := completionMap,
        issuer := if r < 0 then .returned r else .flush (.wait completionMap.isEmpty) }
    | _ => none
  | .returned _ => none

/-- A read that was issued is complete. Assumption (full reads): it ends with an error, or with all
the bytes it was to read, so that a short read of an object that was cut in the meantime is none of
these steps. -/
def complete (job : Job) (s : State) (ofs : Nat) (r : Int) : Option State :=
  match s.find ofs with
  | some ⟨_, len, .inFlight, _⟩ =>
    if r < 0 then some (s.setCompletion ofs (.complete r))
    else if r = len then
      some { s.setCompletion ofs (.complete r) with
        ioMap := s.ioMap.map fun e => if e.1 = ofs then (e.1, e.2 ++ span job.body ofs len) else e }
    else none
  | _ => none

/-- The loop of `get_complete_ios`, over the completions and, in step, `io_map`: the error it ends
with, what it has taken, and what is left of `io_map`. -/
def takeComplete (find : Nat → Option Aio) :
    List (Nat × Unit) → List (Nat × Bytes) → Option Int × List Bytes × List (Nat × Bytes)
  | [], io => (none, [], io)
  | (ofs, _) :: completions, io =>
    match find ofs, io with
    | some ⟨_, _, .complete r, _⟩, (_, bl) :: io' =>
      if r < 0 then (some r, [], io)
      else
        let rest := takeComplete find completions io'
        (rest.1, bl :: rest.2.1, rest.2.2)
    | _, _ => (none, [], io)

def Completion.returnValue : Completion → Int
  | .complete r => r
  | _ => 0

/-- An error of the read itself is returned before anything is taken; then nothing else is done. -/
def getCompleteIos (s : State) (ofs : Nat) : Option Int × List Bytes × List (Nat × Bytes) :=
  match s.ioMap, s.find ofs with
  | (first, _) :: _, some a =>
    if first ≠ ofs ∨ a.completion.returnValue < 0 then (none, [], s.ioMap)
    else takeComplete s.find (s.completionMap.dropWhile (·.1 ≠ ofs)) s.ioMap
  | _, _ => (none, [], s.ioMap)

/-- The next step of `get_obj_aio_completion_cb`. What was taken before an error is dropped. -/
def stepCallback (s : State) (a : Aio) : Option State :=
  match a.callback with
  | .idle =>
    match a.completion with
    | .complete r =>
      if r < 0 then
        some { s.setCallback a.ofs (.failing r) with
          count := s.count - a.len,
          cancelled := true }
      else some { s.setCallback a.ofs .called with count := s.count - a.len }
    | _ => none
  | .called => some (s.setCallback a.ofs (if s.cancelled then .finished else .entering))
  | .entering =>
    match getCompleteIos s a.ofs with
    | (some r, _, io) =>
      some { s.setCallback a.ofs (.failing r) with
        ioMap := io,
        cancelled := true }
    | (none, bls, io) =>
      some { s.setCallback a.ofs .finished with
        ioMap := io,
        readList := s.readList ++ bls }
  | .failing r => some { s.setCallback a.ofs .finished with errCode := r }
  | .finished => none

def callback (s : State) (ofs : Nat) : Option State := (s.find ofs).bind (stepCallback s)

inductive Label
  | issue (answer : Int)
  | complete (ofs : Nat) (r : Int)
  | callback (ofs : Nat)
  deriving DecidableEq

def Label.Succeeds : Label → Prop
  | .issue answer => 0 ≤ answer
  | .complete _ r => 0 ≤ r
  | .callback _ => True

instance (i : Label) : Decidable i.Succeeds := by
  cases i <;> unfold Label.Succeeds <;> infer_instance

def step (job : Job) (s : State) : Label → Option State
  | .issue answer => issue job s answer
  | .complete ofs r => complete job s ofs r
  | .callback ofs => callback s ofs

end RadosGateway.GetObjData
