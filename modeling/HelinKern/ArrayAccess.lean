import HelinKern.Descriptors
import HelinKern.Syscall

/-! Which elements of `fds`, `signal_handlers` and `limitList` the system calls of `src/syscall.c` and `msg_command` of
    `src/ipc/msg.c` touch for the numbers they are given. A call is followed up to where it has the element; what it then
    does with the descriptor or the handler is not part of the model, except that it touches elements again. -/

namespace HelinKern

inductive ArrayEvent
  | readFd (i : Int)
  | writeFd (i : Int)
  | readHandler (i : Int)
  | writeHandler (i : Int)
  | readLimit (i : Int)
  | queueSignal (sig : Int)
  deriving DecidableEq, Repr

inductive Reply
  | code (r : Int)
  | void
  | goesOn
  deriving DecidableEq, Repr

structure CallTrace where
  events : List ArrayEvent
  reply : Reply
  deriving DecidableEq, Repr

def limits : Nat := 7

structure KillTarget where
  userProcess : Bool
  dead : Bool
  deriving DecidableEq, Repr

/-- What the calls read: `fds[i]` of the caller, also outside of the array, its `next_fd`, and the processes by their pid. -/
structure ArrayState where
  fds : Int → Option FileDescriptor
  nextFd : Nat
  target : Int → Option KillTarget

namespace ArrayState

def checkedFd (s : ArrayState) (fd : Int) (found : FileDescriptor → CallTrace) : CallTrace :=
  if fd < 0 ∨ 200 ≤ fd then ⟨[], .code (-eBADF)⟩
  else
    match s.fds fd with
    | none => ⟨[.readFd fd], .code (-eBADF)⟩
    | some d => ⟨.readFd fd :: (found d).events, (found d).reply⟩

def uncheckedFd (s : ArrayState) (fd : Int) (found : FileDescriptor → CallTrace) : CallTrace :=
  match s.fds fd with
  | none => ⟨[.readFd fd], .code (-eBADF)⟩
  | some d => ⟨.readFd fd :: (found d).events, (found d).reply⟩

def sysRead (s : ArrayState) (fd : Int) : CallTrace := s.checkedFd fd fun _ => ⟨[], .goesOn⟩

def sysWrite (s : ArrayState) (fd : Int) : CallTrace := s.checkedFd fd fun _ => ⟨[], .goesOn⟩

def sysSeek (s : ArrayState) (fd : Int) : CallTrace := s.checkedFd fd fun _ => ⟨[], .goesOn⟩

/-- `sys_close`; `accessable` is what the checks of the node's file system gave. -/
def sysClose (s : ArrayState) (fd : Int) (accessable : Bool) : CallTrace :=
  s.checkedFd fd fun _ => if accessable then ⟨[.writeFd fd], .code 0⟩ else ⟨[], .code (-eBADF)⟩

def sysTell (fd : Int) : CallTrace := if fd < 0 ∨ 200 ≤ fd then ⟨[], .code (-eBADF)⟩ else ⟨[.readFd fd], .goesOn⟩

def sysFstat (s : ArrayState) (fd : Int) : CallTrace := s.uncheckedFd fd fun _ => ⟨[], .goesOn⟩

def sysListen (s : ArrayState) (sockfd : Int) : CallTrace := s.uncheckedFd sockfd fun _ => ⟨[], .goesOn⟩

def sysConnect (s : ArrayState) (sockfd : Int) : CallTrace := s.uncheckedFd sockfd fun _ => ⟨[], .goesOn⟩

def sysSend (s : ArrayState) (sockfd : Int) : CallTrace := s.uncheckedFd sockfd fun _ => ⟨[], .goesOn⟩

def sysRecv (s : ArrayState) (sockfd : Int) : CallTrace := s.uncheckedFd sockfd fun _ => ⟨[], .goesOn⟩

def openFor (s : ArrayState) : CallTrace :=
  if FdTable.openLimit < s.nextFd + 1 then ⟨[], .code (-eNFILE)⟩ else ⟨[.writeFd s.nextFd], .code s.nextFd⟩

/-- `sys_accept`; with a client in the queue of the socket, `unix_accept` opens a descriptor for the new one. -/
def sysAccept (s : ArrayState) (sockfd : Int) (client : Bool) : CallTrace :=
  s.uncheckedFd sockfd fun _ => if client then s.openFor else ⟨[], .goesOn⟩

def sysReady (fd : Int) : CallTrace := ⟨[.readFd fd], .goesOn⟩

def sysReadlinkat (s : ArrayState) (dirfd : Int) : CallTrace :=
  if dirfd = -2 then ⟨[], .goesOn⟩ else s.uncheckedFd dirfd fun _ => ⟨[], .goesOn⟩

def msgCommand (s : ArrayState) (key : Int) : CallTrace :=
  if key < 0 then ⟨[], .code (-1)⟩
  else
    match s.fds key with
    | none => ⟨[.readFd key], .code (-1)⟩
    | some _ => ⟨[.readFd key], .goesOn⟩

/-- The loop of `sys_dup`: the slots it looks at, and the one it takes. -/
def dupLoop (s : ArrayState) : (n i : Nat) → List ArrayEvent × Nat
  | 0, i => ([], i)
  | n + 1, i =>
    if (s.fds i).isNone then ([.readFd i], i)
    else
      let (events, id) := s.dupLoop n (i + 1)
      (.readFd i :: events, id)

def sysDup (s : ArrayState) (oldfd newfd dupfd : Int) : CallTrace :=
  if s.fds oldfd = none ∧ dupfd ≠ 1 then ⟨[.readFd oldfd], .code (-eBADF)⟩
  else if 200 ≤ newfd then ⟨[.readFd oldfd], .code (-24)⟩
  else if dupfd = 2 then ⟨[.readFd oldfd, .writeFd newfd], .code newfd⟩
  else
    let (events, id) := s.dupLoop s.nextFd 0
    ⟨.readFd oldfd :: events ++ [.writeFd id], .code id⟩

def sysSignal (signum handler : Int) : CallTrace :=
  if 32 ≤ signum ∨ handler = 0 then ⟨[], .void⟩ else ⟨[.readHandler signum, .writeHandler signum], .void⟩

def sysSigaction (sig : Int) (act : Bool) : CallTrace :=
  if 32 ≤ sig then ⟨[], .code Kernel.eINVAL⟩
  else if act = false then ⟨[], .code Kernel.eINVAL⟩
  else ⟨[.readHandler sig, .writeHandler sig], .code 0⟩

def sysSigexit (signum : Int) : CallTrace := ⟨[.writeHandler signum], .goesOn⟩

def sysKill (s : ArrayState) (pid sig : Int) : CallTrace :=
  if sig = 9 ∨ sig = 0 then
    match s.target pid with
    | none => ⟨[], .code (-Kernel.eSRCH)⟩
    | some t => if t.userProcess = false ∨ t.dead = true then ⟨[], .code (-Kernel.eSRCH)⟩ else ⟨[], .code 0⟩
  else if 32 ≤ sig then ⟨[], .code (-Kernel.eINVAL)⟩
  else
    match s.target pid with
    | none => ⟨[], .code (-Kernel.eSRCH)⟩
    | some t => if t.dead then ⟨[], .code (-Kernel.eSRCH)⟩ else ⟨[.queueSignal sig, .readHandler sig], .code 0⟩

def sysGetrlimit (id : Int) : CallTrace := if 6 < id then ⟨[], .code 14⟩ else ⟨[.readLimit id], .code 0⟩

inductive Call
  | read (fd : Int)
  | write (fd : Int)
  | close (fd : Int) (accessable : Bool)
  | seek (fd : Int)
  | tell (fd : Int)
  | dup (oldfd newfd dupfd : Int)
  | fstat (fd : Int)
  | listen (sockfd : Int)
  | accept (sockfd : Int) (client : Bool)
  | connect (sockfd : Int)
  | send (sockfd : Int)
  | recv (sockfd : Int)
  | ready (fd : Int)
  | readlinkat (dirfd : Int)
  | msgCommand (key : Int)
  | signal (signum handler : Int)
  | sigaction (sig : Int) (act : Bool)
  | sigexit (signum : Int)
  | kill (pid sig : Int)
  | getrlimit (id : Int)
  deriving DecidableEq, Repr

def trace (s : ArrayState) : Call → CallTrace
  | .read fd => s.sysRead fd
  | .write fd => s.sysWrite fd
  | .close fd accessable => s.sysClose fd accessable
  | .seek fd => s.sysSeek fd
  | .tell fd => sysTell fd
  | .dup oldfd newfd dupfd => s.sysDup oldfd newfd dupfd
  | .fstat fd => s.sysFstat fd
  | .listen sockfd => s.sysListen sockfd
  | .accept sockfd client => s.sysAccept sockfd client
  | .connect sockfd => s.sysConnect sockfd
  | .send sockfd => s.sysSend sockfd
  | .recv sockfd => s.sysRecv sockfd
  | .ready fd => sysReady fd
  | .readlinkat dirfd => s.sysReadlinkat dirfd
  | .msgCommand key => s.msgCommand key
  | .signal signum handler => sysSignal signum handler
  | .sigaction sig act => sysSigaction sig act
  | .sigexit signum => sysSigexit signum
  | .kill pid sig => s.sysKill pid sig
  | .getrlimit id => sysGetrlimit id

end ArrayState
end HelinKern
