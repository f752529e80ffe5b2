import HelinKern.Frames
import HelinKern.Lib.Chunks
import HelinKern.Lib.Word

/-! The kernel heap of `src/mm/alloc.c` on i386. Every chunk starts with its header, a 32-bit word whose
    low 31 bits are the chunk's size and whose top bit says that it is used, so the headers lie in the
    memory that is handed out. The memory of the model is what the kernel's mapping shows: a page that
    `ksbrk_page` maps has whatever its frame holds. The page tables of the whole range exist since
    `kheap_init`, so that mapping a page takes no frame of its own. -/

namespace HelinKern
open Chunks (Chunk)
open Word (Memory)

def kernHeapBegin : Nat := 0x02000000

def kernHeapEnd : Nat := 0x40000000

def kmallocMinsize : Nat := 16

def headerSize : Nat := 4

def header (m : Memory) (a : Nat) : Chunk := ⟨Word.read m a % 2 ^ 31, 2 ^ 31 ≤ Word.read m a⟩

/-- `chunk->size = size`: a bit-field store keeps the other bits of the word. -/
def setSize (m : Memory) (a size : Nat) : Memory :=
  Word.write m a (size % 2 ^ 31 + if (header m a).used then 2 ^ 31 else 0)

def setUsed (m : Memory) (a : Nat) (used : Bool) : Memory :=
  Word.write m a ((header m a).size + if used then 2 ^ 31 else 0)

inductive HeapPanic
  -- `ksbrk_page` finds no frame
  | noFrame
  -- `kmalloc` meets a chunk of size zero
  | nullSize
  -- `kmalloc` walks past `m_kheap`
  | outOfLimit
  -- `kfree` meets a chunk of size zero
  | nullChunk
  -- a loop does not end
  | hang
  deriving DecidableEq, Repr

/-- `heap_used` is a C `int`, kept here as its 32 bits. -/
structure Heap where
  mem : Memory
  mKheap : Nat
  heapUsed : Nat
  kheapPages : Nat
  phys : Frames

namespace Heap

def sbrkPages : Nat → Heap → Except HeapPanic Heap
  | 0, h => .ok h
  | n + 1, h =>
    match h.phys.allocGetPage with
    | (none, _) => .error .noFrame
    | (some _, phys) => sbrkPages n { h with phys, mKheap := (h.mKheap + pageSize) % wordSize }

/-- `none` is the `(void *)-1` of a heap that would grow past its end. -/
def ksbrkPage (h : Heap) (n : Nat) : Except HeapPanic (Option Nat × Heap) :=
  if kernHeapEnd < (h.mKheap + n * pageSize) % wordSize then .ok (none, h)
  else do
    let chunk := h.mKheap
    let h ← h.sbrkPages n
    let mem := setUsed (setSize h.mem chunk (pageSize * n)) chunk false
    return (some chunk, { h with mem, kheapPages := (h.kheapPages + n) % wordSize })

/-- The search of `kmalloc`. The result of `ksbrk_page` is compared as `(size_t)(..) < 0`, which is
    never true, so the walk goes on at `m_kheap` whether the heap grew or not. -/
def findChunk : Nat → Heap → (chunk realsize : Nat) → Except HeapPanic (Nat × Heap)
  | 0, _, _, _ => .error .hang
  | fuel + 1, h, chunk, realsize =>
    let c := header h.mem chunk
    if c.used ∨ c.size < realsize then
      if c.size = 0 then .error .nullSize
      else
        let chunk := (chunk + c.size) % wordSize
        if chunk = h.mKheap then do
          let (_, h) ← h.ksbrkPage (realsize / pageSize + 2)
          findChunk fuel h chunk realsize
        else if h.mKheap < chunk then .error .outOfLimit
        else findChunk fuel h chunk realsize
    else .ok (chunk, h)

def realsize (size : Int) : Nat :=
  let realsize := ((headerSize + size) % wordSize).toNat
  if realsize < kmallocMinsize then kmallocMinsize else realsize

def takeChunk (h : Heap) (chunk realsize : Nat) : Heap :=
  let size := (header h.mem chunk).size
  let rest := (size + (wordSize - realsize)) % wordSize
  let mem :=
    if rest < kmallocMinsize then setUsed h.mem chunk true
    else
      let other := (chunk + realsize) % wordSize
      let mem := setUsed (setSize h.mem other rest) other false
      setUsed (setSize mem chunk realsize) chunk true
  { h with mem, heapUsed := (h.heapUsed + realsize) % wordSize }

/-- The walk visits at most one chunk a byte of the heap, and one more after it grew. -/
def kmalloc (h : Heap) (size : Int) : Except HeapPanic (Option Nat × Heap) :=
  if size = 0 then .ok (none, h)
  else do
    let (chunk, h) ← findChunk (h.mKheap - kernHeapBegin + 2) h kernHeapBegin (realsize size)
    return (some ((chunk + headerSize) % wordSize), h.takeChunk chunk (realsize size))

def mergeChunks : Nat → Memory → (mKheap chunk : Nat) → Except HeapPanic Memory
  | 0, _, _, _ => .error .hang
  | fuel + 1, m, mKheap, chunk =>
    let other := (chunk + (header m chunk).size) % wordSize
    if other ≠ 0 ∧ other < mKheap ∧ (header m other).used = false then
      if (header m other).size = 0 then .error .nullChunk
      else mergeChunks fuel (setSize m chunk ((header m chunk).size + (header m other).size)) mKheap chunk
    else .ok m

def kfree (h : Heap) (addr : Nat) : Except HeapPanic Heap :=
  if addr = wordSize - 1 then .ok h
  else
    let chunk := (addr + (wordSize - headerSize)) % wordSize
    if (header h.mem chunk).used = false then .ok h
    else do
      let mem := setUsed h.mem chunk false
      let heapUsed := (h.heapUsed + (wordSize - (header mem chunk).size)) % wordSize
      let mem ← mergeChunks (h.mKheap - kernHeapBegin + 1) mem h.mKheap chunk
      return { h with mem, heapUsed }

def allocGetUsedSize (h : Heap) : Int := (h.heapUsed : Int).bmod wordSize

def memcpy (m : Memory) (d s : Nat) : Nat → Memory
  | 0 => m
  | length + 1 => memcpy (Function.update m d (m s)) ((d + 1) % wordSize) ((s + 1) % wordSize) length

/-- `krealloc`: the length of the copy is the size in the old header, which is read after `kmalloc`. -/
def krealloc (h : Heap) (p : Nat) (size : Int) : Except HeapPanic (Option Nat × Heap) :=
  if p = 0 then h.kmalloc size
  else do
    match ← h.kmalloc size with
    | (none, h) => return (none, h)
    | (some newchunk, h) =>
      let old := header h.mem ((p + (wordSize - headerSize)) % wordSize)
      let h ← { h with mem := memcpy h.mem newchunk p old.size }.kfree p
      return (some newchunk, h)

def kheapInit (h : Heap) : Except HeapPanic Heap := do
  let (_, h) ← { h with mKheap := kernHeapBegin }.ksbrkPage 1
  return h

end Heap

end HelinKern
