import HelinKern.Lib.Dll

/-! The queues of `include/lib/queue.h`. The nodes lie in a heap of their own; a pointer that is NULL or leads to no
    node cannot be followed, which ends a function with `none`. -/

namespace HelinKern

inductive NodeEvent
  | alloc (a : Nat)
  | free (a : Nat)
  deriving DecidableEq, Repr

/-- `node` are the nodes by their address, `log` what happened to their memory, the last event first. -/
structure Queue (α : Type) where
  size : Nat
  head : Option Nat
  tail : Option Nat
  node : Dll.Heap α
  log : List NodeEvent

namespace Queue
variable {α : Type}

def new : Queue α := ⟨0, none, none, fun _ => none, []⟩

def deref (q : Queue α) (p : Option Nat) : Option (Nat × Dll.Cell α) := p.bind fun a => (q.node a).map fun x => (a, x)

def setNode (q : Queue α) (a : Nat) (x : Dll.Cell α) : Queue α := { q with node := Function.update q.node a (some x) }

def setNext (q : Queue α) (p next : Option Nat) : Option (Queue α) :=
  (q.deref p).map fun (a, x) => q.setNode a { x with next }

def setPrev (q : Queue α) (p prev : Option Nat) : Option (Queue α) :=
  (q.deref p).map fun (a, x) => q.setNode a { x with prev }

def kfree (q : Queue α) (a : Nat) : Queue α :=
  { q with node := Function.update q.node a none, log := .free a :: q.log }

/-- `a` is the address that `kmalloc` returned. -/
def enqueue (q : Queue α) (a : Nat) (v : α) : Option (Queue α) := do
  let q := { q.setNode a ⟨v, none, none⟩ with log := .alloc a :: q.log }
  if q.size = 0 then return { q with head := some a, tail := some a, size := q.size + 1 }
  else
    let q ← q.setPrev (some a) q.tail
    let q ← q.setNext q.tail (some a)
    return { q with tail := some a, size := q.size + 1 }

/-- The value is `none` if the queue is empty. -/
def dequeue (q : Queue α) : Option (Option α × Queue α) := do
  if q.size = 0 then return (none, q)
  else
    let q := { q with size := q.size - 1 }
    let (a, x) ← q.deref q.head
    let q := { q with head := x.next }
    let q ← if q.head.isSome then q.setPrev q.head none else some q
    let q := if q.tail = some a then { q with tail := none } else q
    return (some x.value, q.kfree a)

def find [DecidableEq α] (q : Queue α) (v : α) : (fuel : Nat) → (p : Option Nat) → Option (Option (Nat × Dll.Cell α))
  | _, none => some none
  | 0, some _ => none
  | fuel + 1, some a => do
    let (_, x) ← q.deref (some a)
    if x.value = v then return some (a, x) else find q v fuel x.next

def unlink (q : Queue α) (a : Nat) (x : Dll.Cell α) : Option (Queue α) :=
  if x.prev = none then q.dequeue.map Prod.snd
  else if x.next = none then do
    let (_, t) ← q.deref q.tail
    let q := { q with size := q.size - 1, tail := t.prev }
    let q ← q.setNext q.tail none
    return q.kfree a
  else do
    let q := { q with size := q.size - 1 }
    let q ← q.setNext x.prev x.next
    let q ← q.setPrev x.next x.prev
    return q.kfree a

def remove [DecidableEq α] (q : Queue α) (v : α) : Option (Queue α) :=
  if q.size = 0 then some q
  else
    (q.find v q.size q.head).bind fun found =>
      match found with
      | none => some q
      | some (a, x) => q.unlink a x

inductive Op (α : Type)
  | enqueue (a : Nat) (v : α)
  | dequeue
  | remove (v : α)

def exec [DecidableEq α] (q : Queue α) : Op α → Option (Queue α)
  | .enqueue a v => q.enqueue a v
  | .dequeue => q.dequeue.map Prod.snd
  | .remove v => q.remove v

def Enabled (q : Queue α) : Op α → Prop
  | .enqueue a _ => q.node a = none
  | _ => True

def Step [DecidableEq α] (q : Queue α) (op : Op α) (q' : Queue α) : Prop := q.Enabled op ∧ q.exec op = some q'

/-- What the calls mean for the list of values. -/
def Op.apply [DecidableEq α] (l : List α) : Op α → List α
  | .enqueue _ v => l ++ [v]
  | .dequeue => l.tail
  | .remove v => l.erase v

end Queue
end HelinKern
