import HelinKern.Elf

/-! The ext2 driver `module/ext2/main.c`: the walks of `ext2_finddir` and `ext2_readdir` over the bytes of a directory, and
    `ext2_read_file` on a volume whose addresses are values of an `int`. -/

namespace HelinKern
namespace Ext2
open Word

/-! ### Directories -/

abbrev Name := List (BitVec 8)

def inodeOf (d : Memory) (p : Nat) : Nat := read d p

def recLen (d : Memory) (p : Nat) : Nat := Elf.half d (p + 4)

def nameLen (d : Memory) (p : Nat) : Nat := (d (p + 6)).toNat

/-- `filename`: `name_len` bytes and a 0, read as a string. -/
def filename (d : Memory) (p : Nat) : Name := ((List.range (nameLen d p)).map fun i => d (p + 8 + i)).takeWhile (· ≠ 0)

/-- The loop of both functions from the entry at `p` on, with `dsize` as it counts down; it ends at an entry that `stop`
    holds of. The entries looked at and the entry it ends at, or `none` for a loop that has not ended after `n` turns. -/
def walk (d : Memory) (stop : Nat → Nat → Bool) : Nat → Nat → Nat → Nat → List Nat × Option (Option Nat)
  | 0, _, _, _ => ([], none)
  | n + 1, i, p, dsize =>
    if dsize = 0 then ([], some none)
    else if stop i p then ([p], some (some p))
    else
      let (ps, r) := walk d stop n (i + 1) (p + recLen d p) ((dsize + (wordSize - recLen d p)) % wordSize)
      (p :: ps, r)

def ext2Finddir (d : Memory) (size : Nat) (name : Name) (n : Nat) : List Nat × Option (Option Nat) :=
  walk d (fun _ p => filename d p = name) n 0 0 size

def ext2Readdir (d : Memory) (size index : Nat) (n : Nat) : List Nat × Option (Option Nat) :=
  walk d (fun i _ => i = index) n 0 0 size

/-! ### Files -/

/-- The size of a block, and the memory from the buffer on after a block was read into it. -/
structure Disk where
  blocksize : Nat
  block : Nat → Memory

/-- What is at `mmap_base`, `mmap_head - mmap_base`, `size` and `offBlk`. -/
structure Reader where
  base : Memory
  head : Nat
  size : Nat
  offBlk : Nat

/-- A step of a loop; an error is `goto clean`, or `none` for `PANIC`. -/
abbrev Flow := Except (Option Reader) Reader

namespace Disk

/-- `memcpy(mmap_head, buf + start, len)`, and the steps to the next block. -/
def copy (hd : Disk) (s : Reader) (b start len : Nat) : Reader where
  base x := if s.head ≤ x ∧ x < s.head + len then hd.block b (start + (x - s.head)) else s.base x
  head := s.head + min s.size hd.blocksize
  size := s.size - min s.size hd.blocksize
  offBlk := s.offBlk + hd.blocksize

def skip (hd : Disk) (s : Reader) : Reader := { s with offBlk := s.offBlk + hd.blocksize }

/-- Behind the block with the offset the direct blocks are copied from the same offset on, and for the rest of the size. -/
def directBlock (hd : Disk) (offset : Nat) (s : Reader) (b : Nat) : Flow :=
  if s.size = 0 then throw (some s)
  else if offset ≠ 0 ∧ offset < s.offBlk then pure (hd.copy s b offset s.size)
  else if offset = 0 then pure (hd.copy s b 0 (min s.size hd.blocksize))
  else pure (hd.skip s)

def indirectBlock (hd : Disk) (offset : Nat) (s : Reader) (b : Nat) : Flow :=
  if offset ≠ 0 ∧ offset ≤ s.offBlk then
    let accurOff := s.offBlk - offset
    let accurOff := if hd.blocksize < accurOff then accurOff % hd.blocksize else accurOff
    pure (hd.copy s b accurOff (min s.size hd.blocksize))
  else if offset = 0 then pure (hd.copy s b 0 (min s.size hd.blocksize))
  else pure (hd.skip s)

def biIndirectBlock (hd : Disk) (offset : Nat) (s : Reader) (b : Nat) : Flow :=
  if s.size = 0 then throw (some s) else hd.indirectBlock offset s b

def triIndirectBlock (hd : Disk) (offset : Nat) (s : Reader) (b : Nat) : Flow :=
  if s.size = 0 then throw (some s)
  else if offset ≠ 0 ∧ offset ≤ s.offBlk then throw none
  else pure (hd.copy s b 0 (min s.size hd.blocksize))

/-- The block numbers in the block `b` up to the first 0; a block number of 0 is no block. -/
def pointers (hd : Disk) (b : Nat) : List Nat :=
  if b = 0 then [] else ((List.range (hd.blocksize / 4)).map fun i => read (hd.block b) (4 * i)).takeWhile (· ≠ 0)

def directBlocks (iBlock : Nat → Nat) : List Nat := ((List.range 12).map iBlock).takeWhile (· ≠ 0)

def indirectLoop (hd : Disk) (p offset : Nat) (s : Reader) : Flow :=
  if p ≠ 0 ∧ s.size = 0 then throw (some s) else (hd.pointers p).foldlM (hd.indirectBlock offset) s

def readLoops (hd : Disk) (iBlock : Nat → Nat) (offset : Nat) (s : Reader) : Flow := do
  let s ← (directBlocks iBlock).foldlM (hd.directBlock offset) s
  let s ← hd.indirectLoop (iBlock 12) offset s
  let s ← (hd.pointers (iBlock 13)).foldlM (fun s p => (hd.pointers p).foldlM (hd.biIndirectBlock offset) s) s
  (hd.pointers (iBlock 14)).foldlM (fun s p => (hd.pointers p).foldlM
    (fun s pp => (hd.pointers pp).foldlM (hd.triIndirectBlock offset) s) s) s

/-- `ext2_read_file`; `none` is a panic. -/
def ext2ReadFile (hd : Disk) (iBlock : Nat → Nat) (size : Nat) (base : Memory) (offset : Nat) : Option Memory :=
  match hd.readLoops iBlock offset ⟨base, 0, size, hd.blocksize⟩ with
  | .ok s => some s.base
  | .error s => s.map (·.base)

def ext2FsRead (hd : Disk) (iBlock : Nat → Nat) (offset size : Nat) (buff : Memory) : Option (Nat × Memory) :=
  (hd.ext2ReadFile iBlock size buff offset).map (size, ·)

end Disk

end Ext2
end HelinKern
