import HelinKern.Descriptors
import HelinKern.Fifo

/-! The commands of the message queues: `msg_command` of `src/ipc/msg.c`. -/

namespace HelinKern
open CountedRing

structure UserMsgObj where
  key : Int
  buffer : Option (Nat → BitVec 8)
  reqSize : Int

def UserMsgObj.bytes (obj : UserMsgObj) : List (BitVec 8) := obj.buffer.elim [] fun data => elements data obj.reqSize.toNat

/-- The descriptors of the processes, the object behind each node that is of the file system `msgFs`, and the field `data`
    of each object. -/
structure MsgQueues where
  table : Nat → FdTable
  node : Nat → Option Nat
  data : Nat → QueueSize

structure MsgCall where
  caller : Nat
  cmd : Int
  obj : UserMsgObj

namespace MsgQueues

/-- The object that a key leads to; none if the descriptor is NULL or of another file system. -/
def target (s : MsgQueues) (caller : Nat) (key : Int) : Option Nat :=
  if key < 0 then none else ((s.table caller).fds key.toNat).bind fun fd => s.node fd.node

def put (s : MsgQueues) (o : Nat) (q : QueueSize) : MsgQueues := { s with data := Function.update s.data o q }

/-- `msg_command`, with what it leaves in the buffer. The results of `queueSize_enqueue` and `queueSize_dequeue` are not
    used. -/
def msgCommand (s : MsgQueues) (c : MsgCall) : Int × UserMsgObj × MsgQueues :=
  match s.target c.caller c.obj.key with
  | none => (-1, c.obj, s)
  | some o =>
    if c.cmd ≠ 99 ∧ (c.obj.reqSize ≤ 0 ∨ c.obj.buffer.isNone) then (-1, c.obj, s)
    else if c.cmd = 1 then
      let (_, q) := (s.data o).enqueue c.obj.buffer c.obj.reqSize.toNat
      (0, c.obj, s.put o q)
    else if c.cmd = 2 then
      let (_, buffer, q) := (s.data o).dequeue c.obj.buffer c.obj.reqSize.toNat
      (0, { c.obj with buffer }, s.put o q)
    else (-1, c.obj, s)

end MsgQueues

/-- The queues, with the bytes that each object was sent and those that were received from it, as far as the results of
    the commands say. -/
structure MsgRun where
  queues : MsgQueues
  sent : Nat → List (BitVec 8)
  received : Nat → List (BitVec 8)

namespace MsgRun

def start (s : MsgQueues) : MsgRun := ⟨s, fun o => (s.data o).toList, fun _ => []⟩

def exec (s : MsgRun) (c : MsgCall) : MsgRun :=
  let (ret, obj, queues) := s.queues.msgCommand c
  let target := s.queues.target c.caller c.obj.key
  { queues
    sent o := s.sent o ++ if target = some o ∧ ret = 0 ∧ c.cmd = 1 then c.obj.bytes else []
    received o := s.received o ++ if target = some o ∧ ret = 0 ∧ c.cmd = 2 then obj.bytes else [] }

end MsgRun
end HelinKern
