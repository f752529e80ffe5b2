import HelinKern.Pipe

/-! The user a process runs as: `sys_setuid`, the calls of `src/syscall.c` that are reserved to the user 0, and what
    `thread_create` of `src/thread.c` gives to a new process. The system calls on signals take any number and write to
    `signal_handlers` without looking below the array, where `uid` and `gid` lie; what they write outside the caller's own
    `process_t` is not part of the model. The caller is a process of the task list. -/

namespace HelinKern
open Function

structure Account where
  uid : Int
  gid : Int
  deriving DecidableEq, Repr

namespace Account

def threadCreate : (runningTask : Option Account) → Account
  | none => ⟨0, 0⟩
  | some a => ⟨a.uid, a.gid⟩

def uidOffset : Int := 352

def gidOffset : Int := 356

def signalHandlersOffset : Int := 372

def signalSize : Int := 24

inductive SignalField
  | handler | blocked | exited | flags
  deriving DecidableEq, Repr

def SignalField.offset : SignalField → Int
  | .handler => 0
  | .blocked => 4
  | .exited => 8
  | .flags => 12

/-- Where the field of `signal_handlers[signum]` lies, counted from the start of the `process_t`. -/
def signalOffset (signum : Int) (field : SignalField) : Int :=
  (signalHandlersOffset + signalSize * signum + field.offset) % 4294967296

def store (a : Account) (offset v : Int) : Account :=
  if offset = uidOffset then { a with uid := v } else if offset = gidOffset then { a with gid := v } else a

def sysSignal (a : Account) (signum handler : Int) : Account :=
  if 32 ≤ signum ∨ handler = 0 then a else a.store (signalOffset signum .handler) handler

/-- `sys_sigaction`, with the fields `sa_handler` and `sa_flags` of its argument. -/
def sysSigaction (a : Account) (sig : Int) (act : Option (Int × Int)) : Account :=
  match act with
  | none => a
  | some (handler, flags) =>
    if 32 ≤ sig then a
    else (a.store (signalOffset sig .handler) handler).store (signalOffset sig .flags) flags

def sysSigexit (a : Account) (signum : Int) : Account :=
  (a.store (signalOffset signum .blocked) 0).store (signalOffset signum .exited) 1

end Account

inductive ReservedCall
  | reboot
  | mount
  | settime (clock : Int)
  deriving DecidableEq, Repr

/-- The error a reserved call returns before it has passed its check, or `none` if it goes on. -/
def ReservedCall.refusal (a : Account) : ReservedCall → Option Int
  | .reboot => if a.uid ≠ 0 then some eACCES else none
  | .mount => if a.uid ≠ 0 then some (-eACCES) else none
  | .settime clock => if clock ≠ 0 then some 22 else if a.uid ≠ 0 then some 13 else none

structure Users where
  proc : Nat → Option Account
  family : List Nat

namespace Users

def start (pid : Nat) (a : Account) (others : Nat → Option Account) : Users :=
  ⟨update others pid (some a), [pid]⟩

inductive Op
  | setuid (pid : Nat) (uid : Int)
  | setgid (pid : Nat) (gid : Int)
  | fork (pid child : Nat)
  | clone (pid child : Nat)
  | exec (pid : Nat)
  | signal (pid : Nat) (signum handler : Int)
  | sigaction (pid : Nat) (sig : Int) (act : Option (Int × Int))
  | sigexit (pid : Nat) (signum : Int)
  | reserved (pid : Nat) (call : ReservedCall)
  | exit (pid : Nat)

def set (s : Users) (pid : Nat) (a : Account) : Users := { s with proc := update s.proc pid (some a) }

def create (s : Users) (pid child : Nat) (a : Account) : Users where
  proc := update s.proc child (some (.threadCreate (some a)))
  family := if pid ∈ s.family then child :: s.family else s.family

/-- `sys_exec` keeps the structure of its caller. A reboot that is not refused ends the run. -/
def exec (s : Users) : Op → Option Users
  | .setuid pid uid => (s.proc pid).map fun a => s.set pid { a with uid }
  | .setgid pid gid => (s.proc pid).map fun a => s.set pid { a with gid }
  | .fork pid child | .clone pid child =>
    if s.proc child = none then (s.proc pid).map fun a => s.create pid child a else none
  | .exec pid => (s.proc pid).map fun _ => s
  | .signal pid signum handler => (s.proc pid).map fun a => s.set pid (a.sysSignal signum handler)
  | .sigaction pid sig act => (s.proc pid).map fun a => s.set pid (a.sysSigaction sig act)
  | .sigexit pid signum => (s.proc pid).map fun a => s.set pid (a.sysSigexit signum)
  | .reserved pid call => (s.proc pid).bind fun a => if call = .reboot ∧ call.refusal a = none then none else some s
  | .exit pid => (s.proc pid).map fun _ =>
    ⟨update s.proc pid none, s.family.filter fun q => q ≠ pid⟩

end Users
end HelinKern
