import RadosGateway.Base.Codec
import RadosGateway.Base.Run

/-!
# The queue of control messages

`listen_loop` puts the message of each connection into the next free slot of an array; `main_loop`
empties the array, slot by slot. Both hold a mutex for that. Whether there is a free slot is tested
without it, before the connection is accepted.
-/

namespace RadosGateway.Cgw

open Text Codec

def msgQueueSize : Nat := 10

def cgwMsgSize : Nat := 128

structure Slot where
  msgId : Nat
  param : Bytes
  sockFd : Nat
  deriving DecidableEq, Inhabited

/-- What a client sends over its connection: 1 to 132 bytes. -/
structure Message where
  sockFd : Nat
  bytes : Bytes
  pos : 0 < bytes.length
  le : bytes.length ≤ cgwMsgSize + 4
  deriving DecidableEq

/-- Where `listen_loop` is: before the test of `msg_update`, behind it, with a message before the
mutex, and holding the mutex with the message stored. -/
inductive Listener
  | checking
  | accepting
  | received (num comFd : Nat)
  | stored
  deriving DecidableEq

/-- Where `main_loop` is: before the mutex, at the test of its inner loop, behind the call of the
handler. -/
inductive MainLoop
  | trying
  | looping (count : Nat)
  | handled (count : Nat)
  deriving DecidableEq

/-- The shared variables, the two threads, and what has happened so far: the copies into slots, with
their sizes, the messages that were read, and the calls of the handler. -/
structure State where
  msg : List Slot
  msgUpdate : Int
  msgMutex : Bool
  buffer : Bytes
  listener : Listener
  main : MainLoop
  copies : List (Nat × Nat)
  arrived : List Message
  calls : List Slot
  deriving DecidableEq

/-- Global variables are zero; what is in the buffer of the thread is not known. -/
def init (buffer : Bytes) : State where
  msg := List.replicate msgQueueSize ⟨0, List.replicate cgwMsgSize 0, 0⟩
  msgUpdate := 0
  msgMutex := false
  buffer := buffer
  listener := .checking
  main := .trying
  copies := []
  arrived := []
  calls := []

inductive Label
  | check
  | receive (m : Message)
  | receiveNothing
  | store
  | unlock
  | trylock
  | turn
  | next
  deriving DecidableEq

/-- The slot with the message of the buffer. The size of the copy is `num - sizeof(int)` in
`size_t`; no more than the slot is shown here of one that is larger. -/
def fill (buffer : Bytes) (num comFd : Nat) (slot : Slot) : Slot :=
  let size := toU64 ((num : Int) - 4)
  { msgId := fromLe (buffer.take 4),
    param := ((buffer.drop 4).take size ++ slot.param.drop size).take cgwMsgSize,
    sockFd := comFd }

def putMsg (s : State) (num comFd : Nat) : State :=
  let index := s.msgUpdate.toNat
  { s with
    msgMutex := true,
    msgUpdate := s.msgUpdate + 1,
    msg := s.msg.modify index (fill s.buffer num comFd),
    copies := s.copies ++ [(index, toU64 ((num : Int) - 4))],
    listener := .stored }

def step (s : State) : Label → Option State
  | .check =>
    if s.listener = .checking then
      if (msgQueueSize : Int) - 1 < s.msgUpdate then some s
      else some { s with listener := .accepting }
    else none
  | .receive m =>
    if s.listener = .accepting then
      some { s with
        buffer := m.bytes ++ s.buffer.drop m.bytes.length,
        listener := .received m.bytes.length m.sockFd,
        arrived := s.arrived ++ [m] }
    else none
  | .receiveNothing => if s.listener = .accepting then some { s with listener := .checking }
    else none
  | .store =>
    match s.listener with
    | .received num comFd => if s.msgMutex then none else some (putMsg s num comFd)
    | _ => none
  | .unlock =>
    if s.listener = .stored then
      some { s with
        msgMutex := false,
        listener := .checking }
    else none
  | .trylock =>
    if s.main = .trying then
      if s.msgMutex then some s
      else
        some { s with
          msgMutex := true,
          main := .looping 0 }
    else none
  | .turn =>
    match s.main with
    | .looping count =>
      if 0 < s.msgUpdate then
        some { s with
          calls := s.calls ++ [s.msg.getD count default],
          main := .handled count }
      else
        some { s with
          msgMutex := false,
          main := .trying }
    | _ => none
  | .next =>
    match s.main with
    | .handled count =>
      some { s with
        msgUpdate := s.msgUpdate - 1,
        main := .looping (count + 1) }
    | _ => none

inductive Operation
  | getpawd
  | setvol
  | getvol
  | delvol
  deriving DecidableEq

/-- `cgw_msg_handler`: the operation it calls, with the text, and the connection, which it closes at
the end. -/
def cgwMsgHandler (slot : Slot) : Option Operation × Bytes × Nat :=
  let operation :=
    match slot.msgId with
    | 1 => some .getpawd
    | 2 => some .setvol
    | 3 => some .getvol
    | 4 => some .delvol
    | _ => none
  (operation, cstr slot.param, slot.sockFd)

end RadosGateway.Cgw
