import HelinKern.Fifo
import HelinKern.Lib.Lts
import HelinKern.Lib.Slots

/-! Shared memory: `src/ipc/shm.c`. An object stands for one allocation, so that an address is not handed out twice; an
    object that was freed keeps its last contents. A function that follows a NULL pointer ends with `none`. -/

namespace HelinKern
open Slots Function

/-- `struct shm_obj`, with the pid of its owner. The queue of the pages is the list of their addresses. -/
structure ShmObj where
  owner : Nat
  id : Int
  key : Int
  size : Int
  pageQueue : Option (List Nat)
  atCnt : Int
  destroyed : Bool
  deriving DecidableEq, Repr

/-- What happens to pages and objects: the page `p` of `o` is passed to `alloc_freePage` while its object counts `atCnt`
    attaches; a field of `o` is read, after the object was freed or not. -/
inductive ShmEvent
  | freePage (o p : Nat) (atCnt : Int)
  | read (o : Nat) (freed : Bool)
  deriving DecidableEq, Repr

/-- `shm_id`, `shmQueue` and the objects; the objects that open descriptors lead to, once for each node; what happened
    so far, the last event first; and what `shm_create` returned, with the object it was returned for. -/
structure Shm where
  shmId : Int
  queue : List Nat
  obj : Nat → ShmObj
  status : Nat → MemStatus
  nodes : List Nat
  log : List ShmEvent
  returned : List (Int × Nat)

namespace Shm

def init (obj : Nat → ShmObj) : Shm := ⟨0, [], obj, fun _ => .unused, [], [], []⟩

def modify (k : Shm) (o : Nat) (f : ShmObj → ShmObj) : Shm := { k with obj := update k.obj o (f (k.obj o)) }

def kfree (k : Shm) (o : Nat) : Shm := { k with status := update k.status o .freed }

def touch (k : Shm) (o : Nat) : Shm := { k with log := .read o (k.status o = .freed) :: k.log }

def walk (k : Shm) (p : ShmObj → Bool) : List Nat → Option Nat × Shm
  | [] => (none, k)
  | o :: os => if p (k.obj o) then (some o, k.touch o) else (k.touch o).walk p os

def find (k : Shm) (id : Int) : Option Nat × Shm := k.walk (fun b => b.id = id) k.queue

def findByKey (k : Shm) (key : Int) : Option Nat × Shm := k.walk (fun b => b.key = key) k.queue

/-- What the three ways to end an object have in common: its pages are freed, `pageQueue` is emptied and freed, and the
    object leaves `shmQueue`. -/
def release (k : Shm) (o : Nat) : Option Shm :=
  (k.obj o).pageQueue.map fun pages =>
    let k := { k with log := (pages.map fun p => ShmEvent.freePage o p (k.obj o).atCnt).reverse ++ k.log }
    let k := k.modify o fun x => { x with pageQueue := some [] }
    { k with queue := k.queue.erase o }

def shmFsClose (k : Shm) (current o : Nat) : Option Shm :=
  let k := k.touch o
  if (k.obj o).destroyed then some k
  else if current = (k.obj o).owner then (k.release o).map fun k => k.kfree o
  else some k

/-- The end of `shm_create`, from the label `createNode`; `opened` says whether `thread_openFor` found room. If not, it
    closes the node. -/
def createNode (k : Shm) (caller o : Nat) (opened : Bool) : Option (Int × Shm) :=
  (if opened then some { k with nodes := o :: k.nodes } else k.shmFsClose caller o).map fun k =>
    let k := k.touch o
    ((k.obj o).id, { k with returned := ((k.obj o).id, o) :: k.returned })

def newObj (k : Shm) (caller : Nat) (key size : Int) (pages : List Nat) : ShmObj where
  owner := caller
  id := k.shmId
  key := key
  size := size
  pageQueue := if 0 < size then some pages else none
  atCnt := 0
  destroyed := false

def shmCreate (k : Shm) (caller : Nat) (key size flags : Int) (a : Nat) (pages : List Nat) (opened : Bool) :
    Option (Int × Shm) :=
  if flags = 0 then
    match k.findByKey key with
    | (none, k) => some (-1, k)
    | (some o, k) => k.createNode caller o opened
  else
    let k := { k with
      obj := update k.obj a (k.newObj caller key size pages)
      status := update k.status a .alive
      shmId := if key = 0 then wrapInt (k.shmId + 1) else k.shmId
      queue := k.queue ++ [a] }
    k.createNode caller a opened

/-- `shm_command` with 2; `where_` is the hole that `arch_mmu_query` found. The result has the pages that are mapped, each
    with its address. -/
def shmat (k : Shm) (id : Int) (where_ : Nat) : Option (Int × List (Nat × Nat) × Shm) :=
  match k.find id with
  | (none, k) => some (-1, [], k)
  | (some o, k) =>
    (k.obj o).pageQueue.map fun pages =>
      (where_, pages.mapIdx fun i p => ((where_ + 4096 * i) % 4294967296, p),
        k.modify o fun x => { x with atCnt := x.atCnt + 1 })

/-- `shm_command` with 3, for an address that `arch_mmu_getPhysical` maps to `phys`. -/
def shmdt (k : Shm) (phys : Nat) : Option (Int × Shm) :=
  match k.walk (fun b => b.pageQueue.any fun pages => pages.head? = some phys) k.queue with
  | (none, k) => some (-1, k)
  | (some o, k) =>
    let k := k.modify o fun x => { x with atCnt := x.atCnt - 1 }
    if (k.obj o).atCnt ≤ 0 then
      (k.release o).map fun k => (0, (k.modify o fun x => { x with destroyed := true }).kfree o)
    else some (0, k)

def destroy (k : Shm) (id : Int) : Option (Int × Shm) :=
  match k.find id with
  | (none, k) => some (-1, k)
  | (some o, k) =>
    if (k.obj o).atCnt ≤ 0 then (k.release o).map fun k => (0, k.modify o fun x => { x with destroyed := true })
    else some (0, k)

/-- A process that exits closes its descriptors one after another. -/
inductive Op
  | create (caller : Nat) (key size flags : Int) (a : Nat) (pages : List Nat) (opened : Bool)
  | attach (id : Int) (where_ : Nat)
  | detach (phys : Nat)
  | destroy (id : Int)
  | close (current o : Nat)

/-- A new object is a new allocation with as many different pages as the source asks for; a node is closed once. -/
def exec (k : Shm) : Op → Option Shm
  | .create caller key size flags a pages opened =>
    if flags = 0 ∨ (k.status a = .unused ∧ (0 < size → pages.Nodup ∧ (pages.length : Int) = size / 4096 + 1)) then
      (k.shmCreate caller key size flags a pages opened).map Prod.snd
    else none
  | .attach id where_ => (k.shmat id where_).map fun r => r.2.2
  | .detach phys => (k.shmdt phys).map Prod.snd
  | .destroy id => (k.destroy id).map Prod.snd
  | .close current o =>
    if o ∈ k.nodes then { k with nodes := k.nodes.erase o }.shmFsClose current o else none

end Shm
end HelinKern
