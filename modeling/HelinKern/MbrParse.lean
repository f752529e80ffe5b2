import Mathlib.Init

/-! What `mbr_parttab_scan` of `module/mbr/main.c` registers for a disk. -/

namespace HelinKern
namespace MbrParse

structure Partition where
  type : BitVec 8
  lbaFirstSector : BitVec 32
  sectorCount : BitVec 32

structure MbrRecord where
  partitions : Vector Partition 4
  signature : BitVec 8 × BitVec 8

structure GPTHeader where
  signature : BitVec 64
  partitionEntryLBA : BitVec 64
  numberOfPartitionEntries : BitVec 32
  sizeOfPartitionEntry : BitVec 32

structure GPTPartitionEntry where
  partitionTypeGUID : Vector (BitVec 8) 16
  startingLBA : BitVec 64
  endingLBA : BitVec 64

/-- What is read from the disk: the record of a sector, `none` if `vfs_readBlock` fails, the header at byte 512, the entry at a
    byte. `unread` is what the memory for the record of a sector holds before, `behind` what there is in place of an entry that
    the array has no room for. -/
structure Harddrive where
  readBlock : BitVec 32 → Option MbrRecord
  unread : BitVec 32 → MbrRecord
  header : GPTHeader
  entryAt : BitVec 64 → GPTPartitionEntry
  behind : Nat → GPTPartitionEntry

/-- A call of `mbr_registerDevice`, with the type of the partition. -/
structure Registered where
  type : BitVec 8
  lbaStart : BitVec 32
  sectors : BitVec 64
  deriving DecidableEq

/-- `array[i]` of `parseGPT`: `start` and `size` are `int`s, and there is no room for an array of negative size. -/
def Harddrive.array (hard : Harddrive) (i : Nat) : GPTPartitionEntry :=
  let start := (512 * hard.header.partitionEntryLBA).setWidth 32
  let size := 128 * hard.header.numberOfPartitionEntries
  if (128 * i + 128 : Int) ≤ size.toInt then hard.entryAt (start.signExtend 64 + .ofNat 64 (128 * i)) else hard.behind i

def parseGPT (hard : Harddrive) : List Registered :=
  if hard.header.signature = 0x5452415020494645 then
    let array := (List.range hard.header.numberOfPartitionEntries.toNat).map hard.array
    (array.takeWhile fun e => e.partitionTypeGUID[0] ≠ 0).map fun e =>
      ⟨0xEE, e.startingLBA.setWidth 32, e.endingLBA - e.startingLBA⟩
  else []

def isExtended (type : BitVec 8) : Bool := type = 0x5 || type = 0xf

def Partition.registered (p : Partition) (extPartSector : BitVec 32) : Registered :=
  ⟨p.type, p.lbaFirstSector + extPartSector, p.sectorCount.setWidth 64⟩

/-- The loop body of `mbr_parseMbr`; `parse` stands for the call for the record of a sector. -/
def parsePartition (hard : Harddrive) (parse : BitVec 32 → Option (List Registered)) (extPartSector : BitVec 32)
    (p : Partition) : Option (List Registered) :=
  if p.sectorCount = 0 then some []
  else if p.type = 0xEE then some (parseGPT hard)
  else if isExtended p.type then (parse (p.lbaFirstSector + extPartSector)).map (p.registered extPartSector :: ·)
  else some [p.registered extPartSector]

/-- The record that is parsed: whether the read succeeds is not tested. -/
def Harddrive.sector (hard : Harddrive) (s : BitVec 32) : MbrRecord := (hard.readBlock s).getD (hard.unread s)

/-- `mbr_parseMbr`; `none` if the calls nest deeper than `depth`. -/
def mbrParseMbr (hard : Harddrive) : Nat → BitVec 32 → MbrRecord → Option (List Registered)
  | 0, _, _ => none
  | depth + 1, extPartSector, mbr =>
    if mbr.signature = (0x55, 0xAA) then
      (mbr.partitions.toList.mapM (parsePartition hard (fun lba => mbrParseMbr hard depth lba (hard.sector lba))
        extPartSector)).map List.flatten
    else some []

/-- `m_mbr`, which is cleared before it is read. -/
def Harddrive.mbr (hard : Harddrive) : MbrRecord := (hard.readBlock 0).getD ⟨.replicate 4 ⟨0, 0, 0⟩, (0xAB, 0)⟩

def mbrParttabScan (hard : Harddrive) (depth : Nat) : Option (List Registered) := mbrParseMbr hard depth 0 hard.mbr

end MbrParse
end HelinKern
