import HelinKern.Lib.RingBuffer

/-! The ring of handles of `src/thread.c`, `filo_t`. `0` is NULL. A loop that does not come to its end is `none`. -/

namespace HelinKern
open Function

structure Filo (α : Type) where
  head : Nat
  tail : Nat
  size : Nat
  data : Nat → α

namespace Filo
variable {α : Type}

def new (data : Nat → α) (max : Nat) : Filo α := ⟨0, 0, max, data⟩

def read [Zero α] (q : Filo α) : α × Filo α :=
  if q.tail = q.head then (0, q)
  else (q.data q.tail, { q with data := update q.data q.tail 0, tail := (q.tail + 1) % q.size })

def write (q : Filo α) (handle : α) : Int × Filo α :=
  if (q.head + 1) % q.size = q.tail then (-1, q)
  else (0, { q with data := update q.data q.head handle, head := (q.head + 1) % q.size })

def search [DecidableEq α] (q : Filo α) (handle : α) : (fuel currentIndex : Nat) → Option (Option Nat)
  | 0, _ => none
  | fuel + 1, currentIndex =>
    if currentIndex = q.head then some none
    else if q.data currentIndex = handle then some (some currentIndex)
    else q.search handle fuel ((currentIndex + 1) % q.size)

def shift (q : Filo α) : (fuel currentIndex : Nat) → (Nat → α) → Option (Nat → α)
  | 0, _, _ => none
  | fuel + 1, currentIndex, data =>
    if currentIndex = q.head then some data
    else
      let nextIndex := (currentIndex + 1) % q.size
      q.shift fuel nextIndex (update data currentIndex (data nextIndex))

def remove [Zero α] [DecidableEq α] (q : Filo α) (handle : α) : Option (Int × Filo α) := do
  match ← q.search handle q.size q.tail with
  | none => return (-1, q)
  | some currentIndex =>
    let data ← q.shift q.size currentIndex (update q.data currentIndex 0)
    return (0, { q with data, head := if q.head ≠ 0 then q.head - 1 else q.size - 1 })

inductive Op (α : Type)
  | write (handle : α)
  | read
  | remove (handle : α)

inductive Reply (α : Type)
  | code (n : Int)
  | handle (handle : α)
  | hang
  deriving DecidableEq

def step [Zero α] [DecidableEq α] (q : Filo α) : Op α → Reply α × Filo α
  | .write handle => (.code (q.write handle).1, (q.write handle).2)
  | .read => (.handle q.read.1, q.read.2)
  | .remove handle =>
    match q.remove handle with
    | none => (.hang, q)
    | some (code, q) => (.code code, q)

def listStep [Zero α] [DecidableEq α] (size : Nat) (l : List α) : Op α → Reply α × List α
  | .write handle => if l.length = size - 1 then (.code (-1), l) else (.code 0, l ++ [handle])
  | .read =>
    match l with
    | [] => (.handle 0, [])
    | handle :: l => (.handle handle, l)
  | .remove handle => if handle ∈ l then (.code 0, l.erase handle) else (.code (-1), l)

/-- The ring whose slots are all in use, also those that hold NULL. -/
def ring (q : Filo α) : RingBuffer α := ⟨q.head, q.tail, q.size, fun i => some (q.data i)⟩

def toList (q : Filo α) : List α := q.ring.toList

end Filo
end HelinKern
