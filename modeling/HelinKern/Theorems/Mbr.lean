import HelinKern.Mbr

/-! Which requests to a partition device stay in the partition. -/

namespace HelinKern
namespace Mbr

variable {r : Request} {drive : Harddrive} {lbaStart : BitVec 32}

namespace Request

def first : Request → Int
  | .readBlock blockNo _ | .writeBlock blockNo _ => 512 * blockNo.toInt
  | .read offset _ | .write offset _ => offset.toNat

def length : Request → Int
  | .readBlock _ how | .writeBlock _ how => how.toInt
  | .read _ how | .write _ how => how.toNat

/-- The disk has no function for the request, or the request is one of the two that are checked. -/
def Refused (drive : Harddrive) (lbaStart : BitVec 32) : Request → Prop
  | .readBlock _ _ => lbaStart = 0 ∨ drive.hasReadBlock = false
  | .writeBlock _ _ => drive.hasWriteBlock = false
  | .read _ _ => drive.hasRead = false
  | .write _ _ => drive.readOnly = true ∨ drive.hasWrite = false

/-- The place in the partition, in bytes, at which a request ends up: the block number, less 2^32 for each time the
    sum with `lba_start` leaves the range of `int`; the offset, less 2^32 for each time `512 * lba_start` leaves it, on a
    disk whose addresses are taken modulo 2^64. -/
def position (lbaStart : Int) : Request → Int
  | .readBlock blockNo _ | .writeBlock blockNo _ =>
    512 * (blockNo.toInt - 4294967296 * ((lbaStart + blockNo.toInt + 2147483648) / 4294967296))
  | .read offset _ | .write offset _ =>
    (512 * lbaStart + offset.toNat - 4294967296 * ((512 * lbaStart + 2147483648) / 4294967296)) % 18446744073709551616 -
      512 * lbaStart

def Inside (lbaStart sectors : Int) (r : Request) : Prop :=
  r.length ≤ 0 ∨ 0 ≤ r.position lbaStart ∧ r.position lbaStart + r.length ≤ 512 * sectors

end Request

/-- A disk whose byte reads agree with its block reads and give back what was written. -/
structure Disk (σ : Type) where
  block : σ → Int → List (BitVec 8)
  bytes : σ → Nat → Nat → List (BitVec 8)
  put : σ → Nat → List (BitVec 8) → σ
  agrees : ∀ s k, 0 ≤ k → k < 2147483648 → bytes s (512 * k).toNat 512 = block s k
  kept : ∀ s o data, bytes (put s o data) o data.length = data

variable {σ : Type}

def Disk.read (disk : Disk σ) (dev : Option MbrDev) (s : σ) (r : Request) : Option (List (BitVec 8)) :=
  match translate dev r with
  | some (.readBlock blockNo _) => some (disk.block s blockNo.toInt)
  | some (.read offset how) => some (disk.bytes s offset.toNat how.toNat)
  | _ => none

def Disk.write (disk : Disk σ) (dev : Option MbrDev) (s : σ) (offset : BitVec 64) (data : List (BitVec 8)) : Option σ :=
  match translate dev (.write offset (.ofNat 64 data.length)) with
  | some (.write offset _) => some (disk.put s offset.toNat data)
  | _ => none

end Mbr
end HelinKern
