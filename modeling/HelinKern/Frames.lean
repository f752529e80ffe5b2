import HelinKern.Lib.Bitmap

/-! Physical page frames: the bitmap allocator of `src/mm/alloc.c` on the 32-bit build. Addresses are
    `uintptr_t` values, so that sums are taken modulo 2^32. -/

namespace HelinKern

def pageSize : Nat := 4096

/-- `uintptr_t` arithmetic wraps around here. -/
def wordSize : Nat := 4294967296

def pageIndex4K (addr : Nat) : Nat := addr / 4096

def archGetMemStart (kernelEnd : Nat) : Nat := (kernelEnd + 4095) % wordSize / 4096 * 4096

/-- The static variables of `alloc.c` that the frame allocator reads. `physMap` are the bytes from
    `phys_map` on; the search looks at the first `total_pages / 8` of them only, but the macros write
    where they are told to. -/
structure Frames where
  physMap : Nat → BitVec 8
  totalPages : Nat
  allocStart : Nat
  usedPhysMem : Nat
  mapped : Bool
  pagesUsedBeforeMapping : Nat
  notMappedPageIndx : Nat

namespace Frames

/-- `alloc_init`, once it accepts the memory size: `high_mem == 0` returns at the first check and
    leaves the statics as they were. -/
def allocInit (s : Frames) (kernelEnd highMem : Nat) : Frames :=
  if highMem = 0 then s
  else
    let allocStart := archGetMemStart kernelEnd
    let totalPages := highMem / 4096
    { s with
      allocStart, totalPages
      notMappedPageIndx := pageIndex4K ((allocStart + totalPages * 8) % wordSize) + 10 }

def findPage (s : Frames) : Option Nat :=
  (List.range (s.totalPages / 8)).findSome? fun byte =>
    if s.physMap byte ≠ 0xFF#8 then (Bitmap.firstClear (s.physMap byte)).map (8 * byte + ·) else none

def allocGetPage (s : Frames) : Option Nat × Frames :=
  if !s.mapped then
    let s := { s with
      pagesUsedBeforeMapping := s.pagesUsedBeforeMapping + 1
      usedPhysMem := (s.usedPhysMem + 4096) % wordSize }
    (some ((s.notMappedPageIndx + s.pagesUsedBeforeMapping) * pageSize % wordSize), s)
  else
    match s.findPage with
    | none => (none, s)
    | some page =>
      (some ((s.allocStart + page * pageSize) % wordSize),
        { s with physMap := Bitmap.setBit s.physMap page, usedPhysMem := (s.usedPhysMem + 4096) % wordSize })

def allocFreePage (s : Frames) (addr : Nat) : Frames :=
  let addr := (addr + (wordSize - s.allocStart)) % wordSize
  { s with
    physMap := Bitmap.clearBit s.physMap (addr / pageSize)
    usedPhysMem := (s.usedPhysMem + (wordSize - 4096)) % wordSize }

def allocGetBitmapSize (s : Frames) : Nat := s.totalPages * 2

/-- The frames `alloc_mapItself` marks from `whereStart` on. `i >= total_pages` compares unsigned and
    ends the loop. -/
def bootMarks (s : Frames) : List Nat :=
  let whereStart := (s.notMappedPageIndx + (wordSize - pageIndex4K s.allocStart)) % wordSize
  ((List.range (s.pagesUsedBeforeMapping + 2)).map fun i => (whereStart + i) % wordSize).takeWhile (· < s.totalPages)

/-- `alloc_mapItself`: clears the map, marks the frames under the map itself, then those handed out
    before it existed. Mapping the map's own pages touches no static of this file. -/
def allocMapItself (s : Frames) : Frames :=
  let cleared := fun byte => if byte < s.totalPages / 8 then 0#8 else s.physMap byte
  let own := (List.range (pageIndex4K s.allocGetBitmapSize + 10)).foldl Bitmap.setBit cleared
  { s with physMap := s.bootMarks.foldl Bitmap.setBit own, mapped := true }

/-- The indices `alloc_reserve` marks. Both ends become C `int`s relative to `allocStart`, `>> 12` rounds down, and the
    macro takes an index as an unsigned word. -/
def reserveMarks (s : Frames) (start stop : Int) : List Nat :=
  let first := (start - s.allocStart).bmod wordSize / 4096
  let last := (stop - s.allocStart).bmod wordSize / 4096
  (List.range (last - first).toNat).map fun (k : Nat) => ((first + k) % wordSize).toNat

def allocReserve (s : Frames) (start stop : Int) : Frames :=
  if !s.mapped then s else { s with physMap := (s.reserveMarks start stop).foldl Bitmap.setBit s.physMap }

/-- The loop of `alloc_getPages` over the bits of a byte, on `page` and `fndPgs`; an error is the `goto done`. -/
def scanBits (s : Frames) (pgnum : Int) (byte : Nat) (found : Nat × Nat) : Except (Nat × Nat) (Nat × Nat) :=
  (List.range 8).foldlM (fun (found : Nat × Nat) bit =>
    if s.physMap byte &&& 1#8 <<< bit = 0#8 then
      if pgnum ≤ found.2 + 1 then .error (8 * byte + bit, found.2 + 1) else .ok (8 * byte + bit, found.2 + 1)
    else .ok (0, 0)) found

/-- `page` and `fndPgs` at the label `done`. A full byte is passed over with both as they are. -/
def scanPages (s : Frames) (pgnum : Int) : Nat × Nat :=
  match (List.range (s.totalPages / 8)).foldlM (fun found byte =>
    if s.physMap byte ≠ 0xFF#8 then s.scanBits pgnum byte found else .ok found) (wordSize - 1, 0) with
  | .ok found => found
  | .error found => found

def allocGetPages (s : Frames) (pgnum : Int) : Option Nat × Frames :=
  if !s.mapped then (none, s)
  else
    let (page, fndPgs) := s.scanPages pgnum
    if pgnum ≤ fndPgs then
      -- `p < page + pgnum` compares unsigned words
      let marks := List.range' page (((page + pgnum) % wordSize).toNat - page)
      (some ((s.allocStart + page * 4096) % wordSize),
        { s with
          physMap := marks.foldl Bitmap.setBit s.physMap
          usedPhysMem := (s.usedPhysMem + 4096 * marks.length) % wordSize })
    else (none, s)

end Frames

end HelinKern
