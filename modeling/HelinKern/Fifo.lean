import HelinKern.Lib.CountedRing

/-! The byte queues of `src/lib/fifosize.c`. The counters are `uint32_t`; they stay at most `capacity`, so that
    nothing wraps. -/

namespace HelinKern

def failed : Nat := 0xFFFFFFFF

def wrapInt (x : Int) : Int := x.bmod 4294967296

/-- `mapped` says whether `arch_mmu_getPhysical(buffer)` is not NULL. -/
structure QueueSize extends CountedRing (BitVec 8) where
  mapped : Bool

namespace QueueSize

def create (buffer : Nat → BitVec 8) (capacity : Nat) : QueueSize where
  buffer := buffer
  capacity := capacity
  size := 0
  front := 0
  rear := 0
  mapped := true

def clear (q : QueueSize) : QueueSize := { q with size := 0, front := 0, rear := 0 }

def isEmpty (q : QueueSize) : Bool := q.size = 0

def getFree (q : QueueSize) : Nat := q.capacity - q.size

def enqueue (q : QueueSize) (data : Option (Nat → BitVec 8)) (n : Nat) : Nat × QueueSize :=
  match data with
  | none => (failed, q)
  | some data =>
    if n = 0 then (failed, q)
    else if q.getFree < n then (failed, q)
    else if !q.mapped then (n, q)
    else (n, { q with toCountedRing := q.pushAll data n })

def dequeue (q : QueueSize) (data : Option (Nat → BitVec 8)) (n : Nat) : Nat × Option (Nat → BitVec 8) × QueueSize :=
  match data with
  | none => (failed, none, q)
  | some data =>
    if 0 < n ∧ n ≤ q.size then
      let (data, ring) := q.popAll data n
      (n, some data, { q with toCountedRing := ring })
    else (failed, some data, q)

inductive Op
  | enqueue (data : Option (Nat → BitVec 8)) (n : Nat)
  | dequeue (data : Option (Nat → BitVec 8)) (n : Nat)
  | clear

def exec (q : QueueSize) : Op → QueueSize
  | .enqueue data n => (q.enqueue data n).2
  | .dequeue data n => (q.dequeue data n).2.2
  | .clear => q.clear

/-- What the calls mean for the list of bytes in the queue. -/
def Op.apply (capacity : Nat) (l : List (BitVec 8)) : Op → List (BitVec 8)
  | .enqueue (some data) n => if l.length + n ≤ capacity then l ++ CountedRing.elements data n else l
  | .enqueue none _ => l
  | .dequeue (some _) n => if n ≤ l.length then l.drop n else l
  | .dequeue none _ => l
  | .clear => []

end QueueSize
end HelinKern
