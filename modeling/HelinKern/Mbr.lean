import Mathlib.Data.Int.Init

/-! Partition devices: `mbr_registerDevice` and the four entry points of `module/mbr/main.c`, down to the request that
    the driver of the disk gets through `src/vfs.c` and `src/dev.c`. -/

namespace HelinKern
namespace Mbr

structure Harddrive where
  hasReadBlock : Bool
  hasWriteBlock : Bool
  hasRead : Bool
  hasWrite : Bool
  readOnly : Bool
  deriving DecidableEq, Repr

structure MbrDev where
  harddrive : Harddrive
  lbaStart : BitVec 32
  sectors : BitVec 32
  deriving DecidableEq, Repr

inductive Request
  | readBlock (blockNo how : BitVec 32)
  | writeBlock (blockNo how : BitVec 32)
  | read (offset how : BitVec 64)
  | write (offset how : BitVec 64)
  deriving DecidableEq, Repr

/-! ### Through the device file system to the driver

What a function returns without asking the driver is an error here, else the answer of the driver is returned. -/

def vfsReadBlock (d : Harddrive) (blockN how : BitVec 32) : Except Bool Request :=
  if d.hasReadBlock then .ok (.readBlock blockN how) else .error false

def vfsWriteBlock (d : Harddrive) (blockN how : BitVec 32) : Except Bool Request :=
  if d.hasWriteBlock then .ok (.writeBlock blockN how) else .error false

def vfsRead (d : Harddrive) (offset how : BitVec 64) : Except Int Request :=
  if d.hasRead then .ok (.read offset how) else .error 0

/-- `vfs_write`, which is the only one of the four to look at `mount_flags`. -/
def vfsWrite (d : Harddrive) (offset how : BitVec 64) : Except Int Request :=
  if d.readOnly then .error (-2)
  else if d.hasWrite then .ok (.write offset how)
  else .error 0

def mbrDevReadBlock (device : Option MbrDev) (blockNo how : BitVec 32) : Except Bool Request :=
  match device with
  | none => .error false
  | some dev =>
    if dev.lbaStart = 0 then .error false
    else vfsReadBlock dev.harddrive (dev.lbaStart + blockNo) how

def mbrDevWriteBlock (device : Option MbrDev) (blockNo how : BitVec 32) : Except Bool Request :=
  match device with
  | none => .error false
  | some dev => vfsWriteBlock dev.harddrive (dev.lbaStart + blockNo) how

/-- `mbr_dev_read`: `lba_start*512` is a product of `int`s, extended when the offset is added. -/
def mbrDevRead (device : Option MbrDev) (offset how : BitVec 64) : Except Int Request :=
  match device with
  | none => .error 0
  | some dev => vfsRead dev.harddrive ((dev.lbaStart * 512).signExtend 64 + offset) how

/-- `mbr_dev_write`: the product is stored in a `uint64_t`, but taken as an `int` as well. -/
def mbrDevWrite (device : Option MbrDev) (offset how : BitVec 64) : Except Int Request :=
  match device with
  | none => .error 0
  | some dev => vfsWrite dev.harddrive ((dev.lbaStart * 512).signExtend 64 + offset) how

/-- The request to the disk that a request to the partition device ends in; `none` if it is refused. -/
def translate (device : Option MbrDev) : Request → Option Request
  | .readBlock blockNo how => (mbrDevReadBlock device blockNo how).toOption
  | .writeBlock blockNo how => (mbrDevWriteBlock device blockNo how).toOption
  | .read offset how => (mbrDevRead device offset how).toOption
  | .write offset how => (mbrDevWrite device offset how).toOption

end Mbr
end HelinKern
