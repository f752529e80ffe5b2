import Mathlib.Data.List.Basic

/-! Reading and writing files of the temporary file system, `src/fs/tmpfs.c`. Offsets and lengths are `uint64_t`; buffers
    are memory around the pointer that is passed. A copy from or to a place that is not there ends with `none`. -/

namespace HelinKern

structure BlockInfo where
  id : Nat
  data : Nat → BitVec 8

structure TmpFile where
  size : Nat
  dataQueue : List BlockInfo

namespace TmpFile

def blockSize : Nat := 4096

def creat : TmpFile := ⟨0, []⟩

def getBlockPtr (f : TmpFile) (blockID : Nat) : Option (Nat → BitVec 8) :=
  (f.dataQueue.find? fun b => b.id = blockID).map BlockInfo.data

def getOrCreateBlock (f : TmpFile) (blockID : Nat) : Option TmpFile :=
  if (f.getBlockPtr blockID).isSome then some f
  else if blockID = 0 then some { f with dataQueue := [⟨blockID, fun _ => 0⟩] }
  else if f.dataQueue.isEmpty then none
  else some { f with dataQueue := f.dataQueue ++ [⟨blockID, fun _ => 0⟩] }

def copyOut (block : Option (Nat → BitVec 8)) (i n : Nat) (pos : Int) (buff : Int → BitVec 8) :
    Option (Int → BitVec 8) :=
  if n = 0 then some buff
  else if blockSize < i + n then none
  else block.map fun data => fun j => if pos ≤ j ∧ j < pos + n then data (i + (j - pos).toNat) else buff j

/-- `n` bytes from the place `pos` of the buffer to the place `i` of a block, which is created if it is not there. -/
def copyIn (f : TmpFile) (blockID i n : Nat) (pos : Int) (buff : Int → BitVec 8) : Option TmpFile :=
  if blockSize < i + n then none
  else
    (f.getOrCreateBlock blockID).map fun f =>
      { f with dataQueue := f.dataQueue.modify (f.dataQueue.findIdx fun b => b.id = blockID) fun b =>
          { b with data := fun j => if i ≤ j ∧ j < i + n then buff (pos + (j - i : Nat)) else b.data j } }

def place (offset written : Nat) : Int := ((blockSize * written : Nat) : Int) - ((offset % blockSize : Nat) : Int)

def read (f : TmpFile) (offset size : Nat) (buff : Int → BitVec 8) : Option (Nat × (Int → BitVec 8)) := do
  let endptr := (offset + size) % 18446744073709551616
  let endptr :=
    if f.size < endptr then if 0 < offset ∧ f.size < offset then offset - f.size else f.size else endptr
  let startBlock := offset / blockSize
  let last := endptr / blockSize
  let operSize :=
    if f.size < offset then endptr else (endptr + (18446744073709551616 - offset)) % 18446744073709551616
  let remOff := endptr - last * blockSize
  if startBlock = last then
    let buff ← copyOut (f.getBlockPtr startBlock) (offset % blockSize) operSize 0 buff
    return (operSize, buff)
  else
    let buff ← (List.range (last - startBlock)).foldlM
      (fun buff written =>
        if written = 0 then
          copyOut (f.getBlockPtr startBlock) (offset % blockSize) (blockSize - offset % blockSize) 0 buff
        else copyOut (f.getBlockPtr (startBlock + written)) 0 blockSize (place offset written) buff) buff
    let buff ← if remOff = 0 then some buff
      else copyOut (f.getBlockPtr last) 0 remOff (place offset (last - startBlock)) buff
    return (operSize, buff)

def write (f : TmpFile) (offset size : Nat) (ptr : Int → BitVec 8) : Option (Nat × TmpFile) := do
  let endptr := (offset + size) % 18446744073709551616
  let f := if f.size < endptr then { f with size := endptr } else f
  let startBlock := offset / blockSize
  let last := endptr / blockSize
  let operSize := (endptr + (18446744073709551616 - offset)) % 18446744073709551616
  let remOff := endptr - last * blockSize
  if startBlock = last then
    let f ← f.copyIn startBlock (offset % blockSize) operSize 0 ptr
    return (operSize, f)
  else
    let f ← (List.range (last - startBlock)).foldlM
      (fun f written =>
        if written = 0 then f.copyIn startBlock (offset % blockSize) (blockSize - offset % blockSize) 0 ptr
        else f.copyIn (startBlock + written) 0 blockSize (place offset written) ptr) f
    let f ← if remOff = 0 then some f else f.copyIn last 0 remOff (place offset (last - startBlock)) ptr
    return (size, f)

structure Write where
  offset : Nat
  size : Nat
  ptr : Int → BitVec 8

def bytes (ptr : Int → BitVec 8) (n : Nat) : List (BitVec 8) := (List.range n).map fun i : Nat => ptr (i : Int)

/-- What a write means for a flat array of bytes. -/
def Write.splice (l : List (BitVec 8)) (w : Write) : List (BitVec 8) :=
  l.take w.offset ++ bytes w.ptr w.size ++ l.drop (w.offset + w.size)

/-- A write begins inside the array or at its end, and the array stays below 2^31 bytes. -/
def Write.Fits (l : List (BitVec 8)) (w : Write) : Prop :=
  w.offset ≤ l.length ∧ 0 < w.size ∧ w.offset + w.size < 2147483648

/-- Each write fits the array that those before it made. -/
def FitsAll : List (BitVec 8) → List Write → Prop
  | _, [] => True
  | l, w :: ws => w.Fits l ∧ FitsAll (w.splice l) ws

def writeAll (f : TmpFile) (ws : List Write) : Option TmpFile :=
  ws.foldlM (fun f w => (f.write w.offset w.size w.ptr).map Prod.snd) f

end TmpFile
end HelinKern
