import HelinKern.Fifo
import HelinKern.Lib.Lts

/-! UNIX sockets: `src/dev/socket.c` and `src/socket/unix.c`. Memory that was freed keeps its last contents until it is
    handed out again, and whoever still has a pointer to it reads and writes it. -/

namespace HelinKern
open Function

structure Socket where
  discon : Bool
  conn : Option Nat
  acceptQueue : Option (List Nat)
  sended : Option QueueSize
  owner : Int
  flags : Nat

namespace Socket

/-- A socket after `memset` and `unix_create`; `buffer` is what `kmalloc` found where the ring will be. -/
def create (owner : Int) (flags : Nat) (buffer : Nat → BitVec 8) : Socket where
  discon := false
  conn := none
  acceptQueue := none
  sended := some (QueueSize.create buffer (500 * 1024))
  owner := owner
  flags := flags

def nonBlock (x : Socket) : Bool := x.flags &&& 16384 = 16384

end Socket

/-- The sockets by their address, with those that are allocated; `bound` are the sockets that nodes of `unix_bind` lead
    to, and `nanoXS` that of the first such node. -/
structure Sockets where
  sock : Nat → Socket
  live : Nat → Bool
  bound : List Nat
  nanoXS : Option Nat

namespace Sockets

def start (sock : Nat → Socket) : Sockets := ⟨sock, fun _ => false, [], none⟩

def modify (k : Sockets) (s : Nat) (f : Socket → Socket) : Sockets :=
  { k with sock := update k.sock s (f (k.sock s)) }

def alloc (k : Sockets) (a : Nat) (x : Socket) : Sockets :=
  { k with sock := update k.sock a x, live := update k.live a true }

def free (k : Sockets) (s : Nat) : Sockets := { k with live := update k.live s false }

/-- `unix_bind`; `taken` says that the name exists, `created` that `vfs_createFile` made the node. -/
def unixBind (k : Sockets) (s : Nat) (taken created : Bool) : Int × Sockets :=
  if taken then (-1, k)
  else if !created then (-1, k)
  else (0, { k with bound := s :: k.bound, nanoXS := k.nanoXS <|> some s })

def unixListen (k : Sockets) (s : Nat) : Int × Sockets := (0, k.modify s fun x => { x with acceptQueue := some [] })

/-- `unix_connect`; `found` is the socket of the node that `vfs_finddir` found under the name. A caller that blocks
    returns when `conn` is set, and does nothing more. -/
def unixConnect (k : Sockets) (s : Nat) (name : String) (found : Option Nat) : Int × Sockets :=
  if name = "" then (-1, k)
  else if (k.sock s).conn ≠ none then (-1, k)
  else
    match found <|> k.nanoXS with
    | none => (-1, k)
    | some so =>
      match (k.sock so).acceptQueue with
      | none => (-1, k)
      | some clients => (0, k.modify so fun x => { x with acceptQueue := some (clients ++ [s]) })

/-- `unix_accept`, up to the new descriptor; `a` is the address of the new socket. `none` if the call waits, or follows
    the NULL pointer of a socket that does not listen. -/
def unixAccept (k : Sockets) (s a : Nat) (buffer : Nat → BitVec 8) : Option Sockets :=
  match (k.sock s).acceptQueue with
  | none => none
  | some [] => if (k.sock s).nonBlock then some k else none
  | some (other :: clients) =>
    let k := k.modify s fun x => { x with acceptQueue := some clients }
    let k := k.alloc a { Socket.create (k.sock s).owner 0 buffer with conn := some other }
    some (k.modify other fun x => { x with conn := some a })

/-- `unix_destroy`. The pointer to the queue of clients, which is emptied and freed, stays. -/
def unixDestroy (k : Sockets) (s : Nat) : Sockets :=
  k.modify s fun x => { x with acceptQueue := x.acceptQueue.map fun _ => [], conn := none, sended := none }

def socketDestroy (k : Sockets) (s : Nat) : Sockets :=
  let k := k.unixDestroy s
  let k := if (k.sock s).conn.isSome then k.modify s fun x => { x with conn := none, discon := true } else k
  k.free s

def setSended (k : Sockets) (s : Nat) (q : QueueSize) : Sockets := k.modify s fun x => { x with sended := some q }

def unixSend (k : Sockets) (s : Nat) (buf : Nat → BitVec 8) (len : Nat) : Option (Int × Sockets) :=
  if len = 0 then some (-1, k)
  else
    match (k.sock s).sended with
    | none => if (k.sock s).nonBlock then some (0, k) else none
    | some q =>
      if 0 < q.getFree then
        let (b, q) := q.enqueue (some buf) (min q.getFree len)
        some (wrapInt b, k.setSended s q)
      else if (k.sock s).nonBlock then some (0, k)
      else none

/-- `unix_recv`, with what it leaves in the buffer; `none` if it waits for bytes. -/
def unixRecv (k : Sockets) (s : Nat) (buf : Nat → BitVec 8) (len : Nat) : Option (Int × (Nat → BitVec 8) × Sockets) :=
  if (k.sock s).discon then some (0, buf, k)
  else
    match (k.sock s).conn with
    | none => some (-1, buf, k)
    | some c =>
      match (k.sock c).sended with
      | none => some (-1, buf, k)
      | some q =>
        if 0 < q.size then
          let (readed, data, q) := q.dequeue (some buf) (min q.size len)
          some (wrapInt readed, data.getD buf, k.setSended c q)
        else if (k.sock s).nonBlock then some (0, buf, k)
        else none

inductive Op
  | socket (a : Nat) (owner : Int) (flags : Nat) (buffer : Nat → BitVec 8)
  | bind (s : Nat) (taken created : Bool)
  | listen (s : Nat)
  | connect (s : Nat) (name : String) (found : Option Nat)
  | accept (s a : Nat) (buffer : Nat → BitVec 8)
  | destroy (s : Nat)

/-- Calls are made on sockets that are alive, new sockets take memory that is not, and only nodes that were bound are
    found. -/
def exec (k : Sockets) : Op → Option Sockets
  | .socket a owner flags buffer => if k.live a then none else some (k.alloc a (.create owner flags buffer))
  | .bind s taken created => if k.live s then some (k.unixBind s taken created).2 else none
  | .listen s => if k.live s then some (k.unixListen s).2 else none
  | .connect s name found =>
    if k.live s ∧ ∀ so ∈ found, so ∈ k.bound then some (k.unixConnect s name found).2 else none
  | .accept s a buffer => if k.live s ∧ ¬k.live a then k.unixAccept s a buffer else none
  | .destroy s => if k.live s then some (k.socketDestroy s) else none

end Sockets

structure SocketRun where
  sockets : Sockets
  accepted : Nat → List (BitVec 8)
  received : Nat → List (BitVec 8)

namespace SocketRun
open CountedRing

inductive Op
  | send (s : Nat) (buf : Nat → BitVec 8) (len : Nat)
  | recv (s : Nat) (buf : Nat → BitVec 8) (len : Nat)

def Op.socket : Op → Nat
  | .send s _ _ => s
  | .recv s _ _ => s

def exec (r : SocketRun) : Op → Option SocketRun
  | .send s buf len =>
    if len = 0 then none
    else
      (r.sockets.unixSend s buf len).map fun (n, sockets) =>
        { r with sockets, accepted := update r.accepted s (r.accepted s ++ elements buf n.toNat) }
  | .recv s buf len =>
    if len = 0 then none
    else
      (r.sockets.unixRecv s buf len).map fun (n, buf, sockets) =>
        { r with sockets, received := update r.received s (r.received s ++ elements buf n.toNat) }

def Step (a b : Nat) (r : SocketRun) (op : Op) (t : SocketRun) : Prop :=
  (op.socket = a ∨ op.socket = b) ∧ r.exec op = some t

end SocketRun
end HelinKern
