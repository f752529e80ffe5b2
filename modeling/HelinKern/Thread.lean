import HelinKern.Lib.RingBuffer

/-! Processes and the scheduler of `src/thread.c`.

A `process_t` is known by its pid: pids are handed out once, so the structures of the model are never
mixed up, and a structure that was freed keeps its last fields (`freed` lists these pids). `queue_t` is a
list, `filo_t` the ring buffer it is. Interrupts are off inside these functions; the `arch_reschedule`
they end with is a later step. What a process does with files, stacks, the FPU and its CPU state is not
part of the model. -/

namespace HelinKern

def idle : Nat := 0

def kernPageDirectory : Nat := 0x00001000

def processQuota : Nat := 10

def nsignals : Nat := 32

inductive Status
  | idle | running | sleep | waiting | zombie | waitpid | creating
  deriving DecidableEq, Repr

def Status.unschedulable : Status → Bool
  | .zombie | .waitpid | .creating => true
  | _ => false

inductive Substate
  | none | fork | exec
  deriving DecidableEq, Repr

inductive ProcessType
  | process | thread
  deriving DecidableEq, Repr

structure ProcessSignal where
  handler : Nat
  blocked : Bool
  exited : Bool
  deriving DecidableEq, Repr

/-- A handler of `0` stands for the default action. -/
def ProcessSignal.default : ProcessSignal := ⟨0, false, false⟩

structure Process where
  state : Status
  substate : Substate
  exitCode : Int
  type : ProcessType
  parent : Option Nat
  childQueue : List Nat
  quota : Nat
  died : Bool
  started : Bool
  aspace : Option Nat
  priority : Int
  userProcess : Bool
  signalHandlers : Nat → ProcessSignal
  signalQueue : List Nat

def Process.new (parent : Option Nat) (isUser : Bool) : Process where
  state := .running
  substate := .none
  exitCode := 0
  type := .process
  parent := parent
  childQueue := []
  quota := 10
  died := false
  started := false
  aspace := some kernPageDirectory
  priority := 1
  userProcess := isUser
  signalHandlers _ := .default
  signalQueue := []

def Process.block (p : Process) (num : Nat) : Process :=
  { p with signalHandlers := Function.update p.signalHandlers num { p.signalHandlers num with blocked := true } }

/-- What ends the kernel, or leaves what the code says it does. -/
inductive Fault
  -- `PANIC("Init died!")`
  | initDied
  -- `PANIC("Corrupted priority ID")`
  | corruptPriority
  -- `PANIC("Process structure has been rewritten by something!")`
  | noAspace
  -- a pointer that is NULL, or an array index outside the array, is used
  | nullDeref
  | badIndex
  -- a loop with interrupts off does not end
  | hang
  deriving DecidableEq, Repr

/-- Of `priority[6]` only the entries 0 and 1 exist. `sent` are the signals that were put into the queue of
    a process, `delivered` the calls of `arch_processSignal`, the last one first. -/
structure Kernel where
  proc : Nat → Process
  taskList : List Nat
  priority0 : RingBuffer Nat
  priority1 : RingBuffer Nat
  runningTask : Option Nat
  freePid : Nat
  freed : List Nat
  sent : List (Nat × Nat)
  delivered : List (Nat × Nat)

namespace Kernel

def modify (k : Kernel) (p : Nat) (f : Process → Process) : Kernel :=
  { k with proc := Function.update k.proc p (f (k.proc p)) }

def enqueueSignal (k : Kernel) (p num : Nat) : Kernel :=
  { k.modify p fun q => { q with signalQueue := q.signalQueue ++ [num] } with sent := (p, num) :: k.sent }

/-! ### Run queue -/

/-- Every process goes to `priority[1]`, whatever its own priority is; a full queue is ignored. -/
def pushPrc (k : Kernel) (p : Nat) : Except Fault Kernel :=
  if 6 ≤ (k.proc p).priority then .error .corruptPriority
  else .ok { k with priority1 := k.priority1.write p }

def popPrc (k : Kernel) : Option Nat × Kernel :=
  let (p, priority1) := k.priority1.read
  (p, { k with priority1 })

def removePrc (k : Kernel) (p : Nat) : Except Fault Kernel :=
  match (k.proc p).priority with
  | 0 => .ok { k with priority0 := k.priority0.remove p }
  | 1 => .ok { k with priority1 := k.priority1.remove p }
  | 2 | 3 | 4 | 5 => .error .nullDeref
  | _ => .error .badIndex

/-! ### Processes -/

def enqueueChild (k : Kernel) (pid : Nat) : Kernel :=
  match k.runningTask with
  | none => k
  | some r =>
    if r ≠ idle ∧ (k.proc r).state = .running then k.modify r fun p => { p with childQueue := p.childQueue ++ [pid] }
    else k

def threadCreate (k : Kernel) (isUser : Bool) : Except Fault (Nat × Kernel) := do
  let pid := k.freePid
  let k ← { (k.modify pid fun _ => .new k.runningTask isUser).enqueueChild pid with
    freePid := pid + 1, taskList := k.taskList ++ [pid] }.pushPrc pid
  return (pid, k)

def empty : Kernel where
  proc _ :=
    { state := .idle, substate := .none, exitCode := 0, type := .process, parent := none, childQueue := []
      quota := 0, died := false, started := false, aspace := none, priority := 0, userProcess := false
      signalHandlers := fun _ => .default, signalQueue := [] }
  taskList := []
  priority0 := .new 1000
  priority1 := .new 1000
  runningTask := none
  freePid := 0
  freed := []
  sent := []
  delivered := []

/-- `thread_init`: the idle process stays in the run queue, but leaves the task list. -/
def threadInit : Except Fault Kernel := do
  let (th, k) ← empty.threadCreate false
  let k := { k with taskList := k.taskList.tail }
  return { k.modify th fun p => { p with state := .idle } with runningTask := some th }

def threadGetCurrent (k : Kernel) : Nat := k.runningTask.getD 0

/-- `debug.h` defines `DEBUG`, so that a pid without a process in the task list gives the idle process. -/
def threadGetThread (k : Kernel) (pid : Int) : Option Nat :=
  if pid < 0 ∨ k.freePid < pid then none
  else if pid.toNat ∈ k.taskList then some pid.toNat
  else some idle

/-- `thread_forceSwitch`; the loop it ends in only waits for the timer. -/
def threadForceSwitch (k : Kernel) : Kernel :=
  match k.runningTask with
  | none => k
  | some r => k.modify r fun p => { p with quota := processQuota + 1 }

/-! ### Death of a process -/

/-- Dead children are appended to the child queue of the first process of the task list. -/
def reparentZombies (k : Kernel) : List Nat → Except Fault Kernel
  | [] => .ok k
  | c :: cs =>
    if (k.proc c).died ∨ (k.proc c).state = .zombie then
      match k.taskList with
      | [] => .error .nullDeref
      | init :: _ => (k.modify init fun p => { p with childQueue := p.childQueue ++ [c] }).reparentZombies cs
    else k.reparentZombies cs

def orphanZombies (k : Kernel) : List Nat → Kernel
  | [] => k
  | c :: cs =>
    if (k.proc c).state = .zombie then (k.modify c fun p => { p with parent := none }).orphanZombies cs
    else k.orphanZombies cs

def destroysAll (k : Kernel) (prc : Nat) : Bool :=
  (k.proc prc).substate = .exec ∨
    (k.proc prc).parent = none ∧ (k.proc prc).childQueue.all fun c => (k.proc c).state = .zombie

def yieldAfterKill (k : Kernel) (prc : Nat) : Kernel :=
  match k.runningTask with
  | none => k
  | some r =>
    if r = prc then { k with runningTask := some idle }.modify idle fun p => { p with quota := processQuota + 1 }
    else k.modify r fun p => { p with quota := processQuota + 1 }

def clearQueues (k : Kernel) (prc : Nat) (children : List Nat) : Kernel :=
  ((k.modify prc fun p => { p with signalQueue := [] }).orphanZombies children).modify prc fun p =>
    { p with childQueue := [] }

/-- A thread's structure is freed at once, a process stays until it is waited for. -/
def freeThread (k : Kernel) (prc : Nat) : Kernel :=
  if (k.proc prc).type = .thread then { k with freed := prc :: k.freed, taskList := k.taskList.erase prc } else k

def notifyParent (k : Kernel) : Option Nat → Kernel
  | none => k
  | some par => k.enqueueSignal par 20

def bury (k : Kernel) (prc : Nat) (children : List Nat) (parent : Option Nat) (reschedule : Bool) : Kernel :=
  let k := (k.clearQueues prc children).freeThread prc
  (if reschedule then k.yieldAfterKill prc else k).notifyParent parent

/-- `exit_code`, a C `int`: a positive code is shifted by 8 bits, any other is negated. -/
def exitCodeOf (code : Int) : Int := (if code > 0 then code * 256 else -code).bmod 4294967296

def threadKillThread (k : Kernel) (prc : Nat) (code : Int) (reschedule : Bool) : Except Fault Kernel :=
  if prc = 1 then .error .initDied
  else do
    let children := (k.proc prc).childQueue
    let parent := (k.proc prc).parent
    let exitCode := exitCodeOf code
    let k ← (k.modify prc fun p => { p with exitCode, died := true, state := .zombie }).removePrc prc
    let k ← { k with taskList := k.taskList.erase prc }.reparentZombies children
    return k.bury prc children parent reschedule

/-! ### `thread_schedule` -/

/-- Where a call of `thread_schedule` ends: it returns to the interrupted task, or passes a process to
    `arch_switchContext`. -/
inductive Scheduled
  | returned
  | switched (p : Nat)
  deriving DecidableEq, Repr

/-- `actualSwitch`; `x86_switchContext` stores the process in `runningTask`. -/
def actualSwitch (k : Kernel) (p : Nat) : Kernel × Scheduled := ({ k with runningTask := some p }, .switched p)

/-- `processSignals`: one signal is taken from the queue. `again` is the jump back to `switchTask`. -/
def processSignals (again : Kernel → Nat → Except Fault (Kernel × Scheduled)) (k : Kernel) (p : Nat) :
    Except Fault (Kernel × Scheduled) :=
  match (k.proc p).signalQueue with
  | [] => .ok (k.actualSwitch p)
  | num :: rest =>
    let k := k.modify p fun q => { q with signalQueue := rest }
    let handler := (k.proc p).signalHandlers num
    if nsignals ≤ num then .ok (k.actualSwitch p)
    else if handler.handler = 0 then
      if num = 20 then .ok (k.actualSwitch p)
      else do
        let par := (k.proc p).parent
        let k ← k.threadKillThread p (-num) false
        match par with
        | none => .error .nullDeref
        | some par => if k.threadGetThread par = none then again k p else again k par
    else if (k.proc p).userProcess then
      if handler.blocked then
        .ok ((k.modify p fun q => { q with signalQueue := q.signalQueue ++ [num] }).actualSwitch p)
      else
        .ok ({ k.modify p (·.block num) with delivered := (p, num) :: k.delivered }.actualSwitch p)
    else .ok (k.actualSwitch p)

/-- A thread whose parent died is killed, and the idle process runs in its place. -/
def killOrphanThread (k : Kernel) (p : Nat) : Except Fault (Kernel × Nat) :=
  if (k.proc p).type = .thread then
    match (k.proc p).parent with
    | none => .error .nullDeref
    | some par =>
      if (k.proc par).died then do
        let k ← k.threadKillThread p 0 true
        return (k, idle)
      else .ok (k, p)
  else .ok (k, p)

/-- `switchTask`. Each jump back to it goes to a parent, which has a smaller pid. -/
def switchTask : Nat → Kernel → Nat → Except Fault (Kernel × Scheduled)
  | 0, _, _ => .error .hang
  | fuel + 1, k, p =>
    if (k.proc p).aspace = none then .error .noAspace
    else do
      let (k, p) ← (k.modify p fun q => { q with quota := 0, started := true }).killOrphanThread p
      let k ← k.pushPrc p
      processSignals (switchTask fuel) k p

/-- `selectTask`: dead processes are dropped, processes that do not run are put back. A whole round
    without a process that runs repeats forever. -/
def selectTask : Nat → Kernel → Except Fault (Option Nat × Kernel)
  | 0, _ => .error .hang
  | fuel + 1, k =>
    match k.popPrc with
    | (none, k) => .ok (none, k)
    | (some p, k) =>
      if (k.proc p).died then selectTask fuel k
      else if (k.proc p).state = .running ∨ (k.proc p).state = .sleep then .ok (some p, k)
      else do selectTask fuel (← k.pushPrc p)

def queued (k : Kernel) : Nat := (k.priority1.head + k.priority1.size - k.priority1.tail) % k.priority1.size

def switchToPopped (k : Kernel) (p : Nat) : Except Fault (Kernel × Scheduled) :=
  switchTask (k.freePid + 1) k (if (k.proc p).state.unschedulable then idle else p)

/-- The next process of the run queue. One that is being created, is idle or dead is dropped. -/
def pickTask (k : Kernel) : Except Fault (Option Nat × Kernel) :=
  match k.popPrc with
  | (none, k) => .ok (none, k)
  | (some p, k) =>
    if (k.proc p).state = .creating ∨ (k.proc p).state = .idle ∨ (k.proc p).state = .zombie ∨ (k.proc p).died then
      k.selectTask (k.queued + 1)
    else .ok (some p, k)

def scheduleNext (k : Kernel) : Except Fault (Kernel × Scheduled) := do
  match ← k.pickTask with
  | (none, k) => .ok (k, .returned)
  | (some p, k) => k.switchToPopped p

def threadSchedule (k : Kernel) : Except Fault (Kernel × Scheduled) :=
  match k.runningTask with
  | none => k.scheduleNext
  | some r =>
    if (k.proc r).quota < processQuota ∧ ¬(k.proc r).died then
      if (k.proc r).signalQueue ≠ [] then processSignals (switchTask (k.freePid + 1)) k r
      else .ok (k.modify r fun p => { p with quota := p.quota + 1 }, .returned)
    else k.scheduleNext

end Kernel

end HelinKern
