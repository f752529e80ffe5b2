import HelinKern.Lib.Word
import HelinKern.Lib.Lts

/-! Mutexes of the C library: `pthread_mutex_init`, `pthread_mutex_lock` and `pthread_mutex_unlock` of
    `userland/newlib/helin/syscalls.c`, on the memory of the process, and threads that call them.

A `pthread_mutex_t` is one word. `pthread_mutex_init` puts the address of a new `SoftwareMutex` there, while the other
two take the word itself for the first one of a `SoftwareMutex`. -/

namespace HelinKern
namespace Pthread
open Word Function

inductive Errno
  | EINVAL
  | EDEADLK
  deriving DecidableEq, Repr

def pthreadMutexInitializer : Nat := 0xFFFFFFFF

def type (m : Memory) (mtx : Nat) : Nat := read m mtx

def val (m : Memory) (mtx : Nat) : Nat := read m (mtx + 4)

def locked (m : Memory) (mtx : Nat) : Nat := read m (mtx + 12)

def setVal (m : Memory) (mtx v : Nat) : Memory := write m (mtx + 4) v

def setOwner (m : Memory) (mtx v : Nat) : Memory := write m (mtx + 8) v

def setLocked (m : Memory) (mtx v : Nat) : Memory := write m (mtx + 12) v

/-! ### The calls

`-1` with an error number is an error. -/

def pthreadMutexInit (m : Memory) (mutex mtx : Nat) : Except Errno Memory :=
  if mutex = 0 then .error .EINVAL
  else
    let m := fun x => if mtx ≤ x ∧ x < mtx + 16 then 0 else m x
    let m := if read m mutex ≠ 0 then write m mtx (read m mutex) else m
    .ok (write m mutex mtx)

/-- How a call of `pthread_mutex_lock` stands: it returned 0, it failed, or it is in the loop. -/
inductive Attempt
  | returned (m : Memory)
  | failed (errno : Errno)
  | waiting

def pthreadMutexLock (m : Memory) (mutex self : Nat) : Attempt :=
  if mutex = 0 then .failed .EINVAL
  else if type m mutex = 0 ∨ type m mutex = pthreadMutexInitializer then
    -- a mutex that is free is left as it is
    if locked m mutex ≠ 0 then .waiting else .returned (setOwner m mutex self)
  else if type m mutex = 2 then
    if locked m mutex ≠ 0 then .failed .EDEADLK else .returned (setOwner (setLocked m mutex 1) mutex self)
  else if type m mutex = 4 then .returned (setOwner (setVal m mutex (val m mutex + 1)) mutex self)
  else .returned (setOwner m mutex self)

/-- The loop of `pthread_mutex_lock` and what comes behind it; `none` if `locked` is still set. -/
def lockLoop (m : Memory) (mutex self : Nat) : Option Memory :=
  if locked m mutex ≠ 0 then none else some (setOwner (setLocked m mutex 1) mutex self)

/-- `pthread_mutex_unlock`; for the type 2 a call of another thread than the owner differs in what it returns only. -/
def pthreadMutexUnlock (m : Memory) (mutex : Nat) : Except Errno Memory :=
  if mutex = 0 then .error .EINVAL
  else if type m mutex = 0 ∨ type m mutex = pthreadMutexInitializer then .ok (setLocked m mutex 0)
  else .ok m

section Threads
variable {T : Type} [DecidableEq T]

/-- The memory, the threads that are in the loop, and for each thread the number of its locks that returned 0 and have
    no unlock yet. -/
structure Threads (T : Type) where
  mem : Memory
  waiting : T → Bool
  held : T → Nat

inductive Op (T : Type)
  | lock (t : T)
  | wake (t : T)
  | unlock (t : T)
  deriving DecidableEq, Repr

namespace Threads

def start (m : Memory) : Threads T := ⟨m, fun _ => false, fun _ => 0⟩

def acquire (s : Threads T) (t : T) (m : Memory) : Threads T :=
  { mem := m, waiting := update s.waiting t false, held := update s.held t (s.held t + 1) }

/-- One call on the mutex; `wake` ends the loop of a call. `pid` is `pthread_self`. -/
def exec (pid : T → Nat) (mutex : Nat) (s : Threads T) : Op T → Option (Threads T)
  | .lock t =>
    if s.waiting t then none
    else
      match pthreadMutexLock s.mem mutex (pid t) with
      | .returned m => some (s.acquire t m)
      | .failed _ => some s
      | .waiting => some { s with waiting := update s.waiting t true }
  | .wake t => if s.waiting t then (lockLoop s.mem mutex (pid t)).map (s.acquire t) else none
  | .unlock t =>
    if s.waiting t then none
    else
      match pthreadMutexUnlock s.mem mutex with
      | .ok m => some { s with mem := m, held := update s.held t (s.held t - 1) }
      | .error _ => some s

end Threads
end Threads

end Pthread
end HelinKern
