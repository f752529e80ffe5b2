import Mathlib.Data.BitVec

/-! The temporary blocks of `sys_open` and `sys_exec` of `src/syscall.c`: the calls of `kmalloc` and `kfree` on every way
    through them. What the other functions answer is given with the call. `kmalloc(0)` makes no block. -/

namespace HelinKern
open List

inductive Temp
  | pathCopy
  | secondCopy
  | buff
  | hdr
  | envKernel
  | env (i : Nat)
  | argvKernel
  | arg (i : Nat)
  deriving DecidableEq, Repr

inductive HeapCall
  | kmalloc (b : Temp)
  | kfree (b : Temp)

/-- The blocks left after the calls; `none` if a block is freed that is not there. -/
def HeapCall.run : List HeapCall → List Temp → Option (List Temp)
  | [], live => some live
  | .kmalloc b :: cs, live => run cs (b :: live)
  | .kfree b :: cs, live => if b ∈ live then run cs (live.erase b) else none

structure OpenCall where
  pathLen : Nat
  flags : BitVec 32
  found : Bool
  sysCreat : Int

def OpenCall.creates (c : OpenCall) : Bool :=
  c.flags &&& 2 = 2 ∨ c.flags &&& 0x200 = 0x200 ∨ c.flags &&& 1 = 1

def sysOpenHeap (c : OpenCall) : List HeapCall :=
  if c.pathLen = 0 then []
  else
    [.kmalloc .pathCopy, .kfree .pathCopy] ++
      if c.found then []
      else if c.creates then
        if 0 < c.sysCreat then [.kfree .pathCopy] else [.kmalloc .secondCopy, .kfree .secondCopy]
      else []

/-- `caller` says that it is not NULL after the tests of its pid, and `argv` that the argument is not 0. -/
structure ExecCall where
  path : Bool
  found : Bool
  hasPerm : Bool
  caller : Bool
  header : Bool
  loaded : Bool
  environSize : Nat
  argc : Nat
  argv : Bool

namespace ExecCall

def envs (c : ExecCall) : List Temp := (range c.environSize).map .env

def args (c : ExecCall) : List Temp := (range c.argc).map .arg

def envArray (c : ExecCall) : List Temp := if c.environSize = 0 then [] else [.envKernel]

def argArray (c : ExecCall) : List Temp := if c.argc = 0 then [] else [.argvKernel]

def copies (c : ExecCall) : List Temp := c.envArray ++ c.envs ++ (c.argArray ++ c.args)

def freed (c : ExecCall) : List Temp := c.envs ++ c.args ++ (c.envArray ++ c.argArray)

end ExecCall

def sysExecHeap (c : ExecCall) : List HeapCall :=
  if !c.path then []
  else if !c.found then [.kmalloc .buff, .kfree .buff]
  else
    [.kmalloc .buff, .kfree .buff] ++
      if c.caller && !c.hasPerm then []
      else if !c.header then [.kmalloc .hdr, .kfree .buff, .kfree .hdr]
      else
        [.kmalloc .hdr, .kfree .hdr] ++ c.copies.map .kmalloc ++
          if !c.loaded then
            if c.caller then c.freed.map .kfree else []
          else
            .kfree .buff :: (if c.argv then c.args ++ c.argArray else []).map .kfree ++ (c.envs ++ c.envArray).map .kfree

end HelinKern
