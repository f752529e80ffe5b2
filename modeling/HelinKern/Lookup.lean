import HelinKern.Lib.Lts
import HelinKern.Lib.Tokens
import Mathlib.Logic.Function.Iterate

/-! Path lookups: `strtok` of `src/lib/string.c`, `vfs_find` of `src/vfs.c` and the scan of `sys_openat` in `src/syscall.c`.

Strings are the bytes before the terminating NUL. The scan position `oldword` is one global pointer for all processes; it
stands for the text it points to, which nobody else writes. The `kfree` of `oldword` never meets the start of an allocated
chunk other than the copy `strtok` made. Directories do not change while the lookups run, and every lookup is the call of a
process. -/

namespace HelinKern

abbrev Text := List (BitVec 8)

def slash : BitVec 8 := 0x2f

def dot : BitVec 8 := 0x2e

structure Tree where
  finddir : Nat → Text → Option Nat
  prev : Nat → Option Nat

namespace Tree

def vfsFinddir (tree : Tree) (node : Option Nat) (name : Text) : Option Nat := node.bind fun n => tree.finddir n name

end Tree

/-- `strtok(s, "/")`: the token and the text `oldword` points to afterwards. Without a text there is no memory to read. -/
def strtok (oldword s : Option Text) : Option (Option Text × Text) :=
  (s.or oldword).map fun text =>
    match Tokens.next slash text with
    | none => (none, [])
    | some (word, rest) => (some word, rest)

/-- A call of `vfs_find` with the root and the working directory of its process, or the scan of `sys_openat` from the node
    of a descriptor. -/
inductive LookupCall
  | find (root workDir : Option Nat) (path : Text)
  | openat (node : Nat) (path : Text)
  deriving DecidableEq, Repr

def LookupCall.path : LookupCall → Text
  | .find _ _ path => path
  | .openat _ path => path

/-- A lookup between two calls of `strtok`: `begun` after the first one, `done` when it has returned `node`. `visited` are
    the names it passed to `finddir`. -/
structure Lookup where
  path : Text
  begun : Bool
  visited : List Text
  node : Option Nat
  done : Bool
  deriving DecidableEq, Repr

namespace Lookup

def scan (start : Option Nat) (path : Text) : Lookup := ⟨path, false, [], start, false⟩

def returned (node : Option Nat) (path : Text) : Lookup := ⟨path, false, [], node, true⟩

def enter (tree : Tree) : LookupCall → Lookup
  | .find root workDir path =>
    if path.head? = some slash then scan root path
    else match workDir with
      | none => returned none path
      | some w =>
        if path = [dot, dot] then returned (tree.prev w) path
        else if path = [dot] then returned (some w) path
        else scan (some w) path
  | .openat node path => scan (some node) path

def pass (tree : Tree) (t : Text) (l : Lookup) : Lookup :=
  let node := tree.vfsFinddir l.node t
  { l with begun := true, visited := l.visited ++ [t], node := node, done := node.isNone }

def stop (l : Lookup) : Lookup := { l with begun := true, done := true }

def step (tree : Tree) (oldword : Option Text) (l : Lookup) : Option (Text × Lookup) :=
  (strtok oldword (if l.begun then none else some l.path)).map fun
    | (none, rest) => (rest, l.stop)
    | (some t, rest) => (rest, l.pass tree t)

def advance (tree : Tree) (s : Option Text × Lookup) : Option Text × Lookup :=
  if s.2.done then s
  else match s.2.step tree s.1 with
    | none => s
    | some (rest, l) => (some rest, l)

/-- The lookup after a run alone. Every step reads a byte of the path, until the last two. -/
def alone (tree : Tree) (call : LookupCall) : Lookup :=
  ((advance tree)^[call.path.length + 2] (none, enter tree call)).2

end Lookup

structure Lookups where
  oldword : Option Text
  lookups : Nat → Option (LookupCall × Lookup)

namespace Lookups

def boot : Lookups := ⟨none, fun _ => none⟩

def set (s : Lookups) (pid : Nat) (call : LookupCall) (l : Lookup) : Lookups :=
  { s with lookups := Function.update s.lookups pid (some (call, l)) }

inductive Op
  | enter (pid : Nat) (call : LookupCall)
  | step (pid : Nat)
  deriving DecidableEq, Repr

def idle (s : Lookups) (pid : Nat) : Bool :=
  match s.lookups pid with
  | none => true
  | some (_, l) => l.done

def exec (tree : Tree) (s : Lookups) : Op → Option Lookups
  | .enter pid call => if s.idle pid then some (s.set pid call (.enter tree call)) else none
  | .step pid => (s.lookups pid).bind fun (call, l) =>
    if l.done then none
    else (l.step tree s.oldword).map fun (rest, l) => { s.set pid call l with oldword := some rest }

end Lookups
end HelinKern
