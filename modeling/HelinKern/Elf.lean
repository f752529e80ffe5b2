import HelinKern.Mmu

/-! Executables: `elf_check_file`, `elf_get_end_in_memory` and `elf_load_file` of `src/elf.c`, up to the bytes that are
    written into the memory of the process. -/

namespace HelinKern
namespace Elf
open Word

structure File where
  data : List (BitVec 8)
  size_lt : data.length < 2147483648

namespace File

def count (f : File) (offset how : Nat) : Nat := min how (f.data.length - offset)

/-- `vfs_read` into a buffer: what lies behind the end of the file leaves the buffer as it is. -/
def vfsRead (f : File) (offset how : Nat) (buf : Memory) : Memory := fun x =>
  if x < f.count offset how then f.data.getD (offset + x) 0 else buf x

end File

def half (m : Memory) (a : Nat) : Nat := (m a).toNat + 256 * (m (a + 1)).toNat

def sizeofEhdr : Nat := 52

def eType (hdr : Memory) : Nat := half hdr 16

def eMachine (hdr : Memory) : Nat := half hdr 18

def ePhoff (hdr : Memory) : Nat := read hdr 28

def ePhentsize (hdr : Memory) : Nat := half hdr 42

def ePhnum (hdr : Memory) : Nat := half hdr 44

def elfCheckFile (hdr : Memory) : Bool := hdr 0 = 0x7F ∧ hdr 1 = 0x45 ∧ hdr 2 = 0x4C ∧ hdr 3 = 0x46

def archElfCheckHeader (hdr : Memory) : Bool := eMachine hdr = 3

def sizeofPhdr : Nat := 32

def pType (e : Memory) : Nat := read e 0

def pOffset (e : Memory) : Nat := read e 4

def pVaddr (e : Memory) : Nat := read e 8

def pFilesz (e : Memory) : Nat := read e 16

def pMemsz (e : Memory) : Nat := read e 20

def ptLoad : Nat := 1

/-- The contents of the buffer `p_entry` after each read of an entry, from the entry `pe` on with `n` entries left. -/
def entriesFrom (f : File) (hdr : Memory) : Nat → Nat → Memory → List Memory
  | 0, _, _ => []
  | n + 1, pe, buf =>
    let entry := f.vfsRead ((ePhoff hdr + pe * ePhentsize hdr) % wordSize) sizeofPhdr buf
    entry :: entriesFrom f hdr n (pe + 1) entry

def entries (f : File) (hdr buf : Memory) : List Memory := entriesFrom f hdr (ePhnum hdr) 0 buf

structure Buffers where
  hdr : Memory
  entry : Memory

def scanEntry (result : Nat) (entry : Memory) : Nat :=
  if pType entry = ptLoad then
    let vEnd := (pVaddr entry + pMemsz entry) % wordSize
    if result < vEnd then vEnd else result
  else result

def elfGetEndInMemory (f : File) (b : Buffers) : Nat :=
  let hdr := f.vfsRead 0 sizeofEhdr b.hdr
  if !elfCheckFile hdr then 0 else (entries f hdr b.entry).foldl scanEntry 0

/-- What a `PT_LOAD` entry writes: the data of the segment, then zeros. The counter of the zeros is an `int` that is
    compared as an unsigned word. -/
def segmentWrites (f : File) (entry : Memory) : List (Nat × BitVec 8) :=
  ((List.range (f.count (pOffset entry) (pFilesz entry))).map fun i =>
      ((pVaddr entry + i) % wordSize, f.data.getD (pOffset entry + i) 0)) ++
    (List.range' (pFilesz entry) (pMemsz entry - pFilesz entry)).map fun i => ((pVaddr entry + i) % wordSize, 0)

inductive Rejection
  | notElf
  | useInsmod
  | unknownType
  | wrongMachine
  | endIsZero
  deriving DecidableEq, Repr

/-- `elf_load_file` for a process that exists: the bytes it writes, in order. A read of a file never fails, and what it
    returns is not negative for a file of that size. -/
def elfLoadFile (f : File) (b : Buffers) : Except Rejection (List (Nat × BitVec 8)) :=
  let header := f.vfsRead 0 sizeofEhdr fun _ => 0
  if !elfCheckFile header then .error .notElf
  else if eType header = 1 then .error .useInsmod
  else if eType header ≠ 2 then .error .unknownType
  else if !archElfCheckHeader header then .error .wrongMachine
  else if elfGetEndInMemory f b = 0 then .error .endIsZero
  else
    .ok <| (entries f header fun _ => 0).flatMap fun entry =>
      if pType entry = ptLoad then segmentWrites f entry else []

end Elf
end HelinKern
