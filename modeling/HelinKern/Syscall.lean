import HelinKern.Thread

/-! The system calls of `src/syscall.c` that act on processes and signals. The caller is the process
    `thread_getThread(thread_getCurrent())`. -/

namespace HelinKern
namespace Kernel
open Function

def eSRCH : Int := 3

def eINVAL : Int := 22

def caller (k : Kernel) : Nat := (k.threadGetThread k.threadGetCurrent).getD idle

def sysExit (k : Kernel) (exitCode : Int) : Except Fault Kernel := k.threadKillThread k.caller exitCode true

def wake (k : Kernel) (prc : Nat) : Except Fault Kernel :=
  if (k.proc prc).state ≠ .running ∧ (k.proc prc).state ≠ .creating then
    (k.modify prc fun p => { p with state := .running }).pushPrc prc
  else .ok k

/-- Of the default actions `sys_kill` takes only that of signal 1. -/
def defaultAction (k : Kernel) (prc : Nat) (sig : Int) : Except Fault Kernel :=
  if sig = 1 ∧ ((k.proc prc).signalHandlers 1).handler = 0 then k.threadKillThread prc (-sig) true else .ok k

/-- A signal that is not fatal by itself is queued. Signals are compared as `int` but queued as
    `uintptr_t`. -/
def sendSignal (k : Kernel) (prc : Nat) (sig : Int) : Except Fault Kernel := do
  let k ← (k.enqueueSignal prc (sig % 4294967296).toNat).wake prc
  let k ← k.defaultAction prc sig
  return k.threadForceSwitch

def sysKill (k : Kernel) (pid sig : Int) : Except Fault (Int × Kernel) :=
  if sig = 9 ∨ sig = 0 then
    match k.threadGetThread pid with
    | none => .ok (-eSRCH, k)
    | some prc =>
      if ¬(k.proc prc).userProcess ∨ (k.proc prc).died ∨ (k.proc prc).state = .zombie then .ok (-eSRCH, k)
      else do return (0, ← k.threadKillThread prc (-9) true)
  else if 32 ≤ sig then .ok (-eINVAL, k)
  else
    match k.threadGetThread pid with
    | none => .ok (-eSRCH, k)
    | some prc =>
      if (k.proc prc).died ∨ (k.proc prc).state = .zombie then .ok (-eSRCH, k)
      else do return (0, ← k.sendSignal prc sig)

def sysSignal (k : Kernel) (signal handler : Nat) : Kernel :=
  if nsignals ≤ signal ∨ handler = 0 then k
  else k.modify k.caller fun p =>
    { p with signalHandlers := update p.signalHandlers signal { p.signalHandlers signal with handler } }

def sysSigaction (k : Kernel) (sig : Nat) (act : Option Nat) : Int × Kernel :=
  if nsignals ≤ sig then (eINVAL, k)
  else
    match act with
    | none => (eINVAL, k)
    | some handler => (0, k.modify k.caller fun p =>
        { p with signalHandlers := update p.signalHandlers sig { p.signalHandlers sig with handler } })

/-- `sys_sigexit`: with signals pending one is taken from the queue and put back only if it is the one
    whose handler ends. -/
def sysSigexit (k : Kernel) (signum : Nat) : Kernel :=
  let c := k.caller
  let k := k.modify c fun p =>
    { p with signalHandlers := update p.signalHandlers signum { p.signalHandlers signum with blocked := false } }
  let exited := fun p : Process =>
    { p with signalHandlers := update p.signalHandlers signum { p.signalHandlers signum with exited := true } }
  match (k.proc c).signalQueue with
  | [] => k.modify c exited
  | n :: rest =>
    let k := k.modify c fun p => { p with signalQueue := rest }
    let k := if n = signum then k.modify c fun p => { p with signalQueue := p.signalQueue ++ [n] } else k.modify c exited
    k.threadForceSwitch

def sysNice (k : Kernel) (prio : Int) : Kernel := k.modify k.caller fun p => { p with priority := prio }

/-- A thread shares the address space of its creator. -/
def sysClone (k : Kernel) : Except Fault (Nat × Kernel) := do
  let c := k.caller
  let (pid, k) ← k.threadCreate true
  return (pid, k.modify pid fun p => { p with aspace := (k.proc c).aspace, type := .thread, state := .running })

/-! ### `sys_waitpid` -/

/-- The start of `sys_waitpid(pid, ..)` for `pid > 0`: the child whose end the call will wait for, or
    `none` if it returns `0` at once. -/
def waitpidChild (k : Kernel) (parent : Nat) (pid : Int) : Option Nat :=
  match k.threadGetThread pid with
  | none => none
  | some child => if (k.proc child).parent = some parent then some child else none

def reap (k : Kernel) (parent child : Nat) : Int × Kernel :=
  ((k.proc child).exitCode,
    { k.modify parent fun p => { p with childQueue := p.childQueue.erase child } with freed := child :: k.freed })

/-- One turn of the loop in which `sys_waitpid` waits for `child`; `none` is another turn. -/
def waitpidPoll (k : Kernel) (parent child : Nat) : Option (Int × Kernel) :=
  if (k.proc child).started ∧ (k.proc child).died ∧ (k.proc child).state = .zombie then some (k.reap parent child)
  else none

/-- `sys_waitpid(pid, &status, ..)` for `pid > 0`, called in the state `k`. If it has to wait, `now` is the
    state in which it looks at the child again, and `none` is one more turn of its loop. The result is what
    the call returns, what it stores in `status`, and the state it leaves. -/
def sysWaitpid (k now : Kernel) (pid : Nat) : Option (Nat × Option Int × Kernel) :=
  match k.waitpidChild k.caller pid with
  | none => some (0, none, k)
  | some child => (now.waitpidPoll k.caller child).map fun (status, k') => (pid, some status, k')

/-- One turn of the loop for `pid < 0`: the first dead child of the queue, with its pid. -/
def waitpidAny (k : Kernel) (parent : Nat) : Option (Nat × Int × Kernel) :=
  ((k.proc parent).childQueue.find? fun c => (k.proc c).died ∨ (k.proc c).state = .zombie).map fun c =>
    (c, k.reap parent c)

/-! ### Calls as steps -/

/-- The calls that change processes, each made with interrupts off. The scheduler's carries where it
    ended, a `waitpid` the child it found. -/
inductive Call
  | create (isUser : Bool)
  | schedule (r : Scheduled)
  | kill (prc : Nat) (code : Int) (reschedule : Bool)
  | sysKill (pid sig : Int)
  | nice (prio : Int)
  | sigexit (signum : Nat)
  | clone
  | waitpid (child : Nat)

/-- `thread_killThread` gets what `thread_getThread` returned: a process of the task list, or the idle
    one. A `sys_waitpid` ends for a child the caller is the parent of, or for the first dead one. -/
inductive Step : Kernel → Call → Kernel → Prop
  | create {k k' : Kernel} {isUser : Bool} {pid : Nat} (h : k.threadCreate isUser = .ok (pid, k')) :
      Step k (.create isUser) k'
  | schedule {k k' : Kernel} {r : Scheduled} (h : k.threadSchedule = .ok (k', r)) : Step k (.schedule r) k'
  | kill {k k' : Kernel} {prc : Nat} {code : Int} {reschedule : Bool} (hprc : prc ∈ k.taskList ∨ prc = idle)
      (h : k.threadKillThread prc code reschedule = .ok k') : Step k (.kill prc code reschedule) k'
  | sysKill {k k' : Kernel} {pid sig res : Int} (h : k.sysKill pid sig = .ok (res, k')) : Step k (.sysKill pid sig) k'
  | nice {k : Kernel} {prio : Int} : Step k (.nice prio) (k.sysNice prio)
  | sigexit {k : Kernel} {signum : Nat} (h : signum < nsignals) : Step k (.sigexit signum) (k.sysSigexit signum)
  | clone {k k' : Kernel} {pid : Nat} (h : k.sysClone = .ok (pid, k')) : Step k .clone k'
  | waitpid {k k' : Kernel} {child : Nat} {status : Int} (hchild : (k.proc child).parent = some k.caller)
      (h : k.waitpidPoll k.caller child = some (status, k')) : Step k (.waitpid child) k'
  | waitpidAny {k k' : Kernel} {child : Nat} {status : Int} (h : k.waitpidAny k.caller = some (child, status, k')) :
      Step k (.waitpid child) k'

/-- One call as a function of the state; `none` if it cannot be made, fails, or goes another way than its
    label says. -/
def exec (k : Kernel) : Call → Option Kernel
  | .create isUser => (k.threadCreate isUser).toOption.map Prod.snd
  | .schedule r => (k.threadSchedule.toOption.filter fun out => out.2 = r).map Prod.fst
  | .kill prc code reschedule =>
    if prc ∈ k.taskList ∨ prc = idle then (k.threadKillThread prc code reschedule).toOption else none
  | .sysKill pid sig => (k.sysKill pid sig).toOption.map Prod.snd
  | .nice prio => some (k.sysNice prio)
  | .sigexit signum => if signum < nsignals then some (k.sysSigexit signum) else none
  | .clone => k.sysClone.toOption.map Prod.snd
  | .waitpid child =>
    if (k.proc child).parent = some k.caller then (k.waitpidPoll k.caller child).map Prod.snd else none

inductive SignalCall
  | kill (pid sig : Int)
  | signal (signum handler : Nat)
  | sigaction (sig : Nat) (act : Option Nat)
  | schedule
  | sigexit (signum : Nat)
  deriving DecidableEq

def execSignal (k : Kernel) : SignalCall → Option Kernel
  | .kill pid sig => (k.sysKill pid sig).toOption.map Prod.snd
  | .signal signum handler => some (k.sysSignal signum handler)
  | .sigaction sig act => some (k.sysSigaction sig act).2
  | .schedule => k.threadSchedule.toOption.map Prod.fst
  | .sigexit signum => if signum < nsignals then some (k.sysSigexit signum) else none

end Kernel
end HelinKern
