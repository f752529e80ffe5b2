import HelinKern.Elf

/-! The FAT32 driver `module/fat32/main.c` on a device with sectors of 512 bytes and clusters of 8 sectors: the cache of
    the FAT, `fat_nextCluster`, `fat_allocateCluster`, `fat_getOrCreateCluster`, `fat_read` and `fat_write`.

Reads and writes of blocks succeed, except that the search for a free cluster ends behind the last sector. Cluster
numbers are `uint32_t` values, and what is computed from them is what the code computes as long as they have no more than
the 28 bits a FAT32 entry has. When the device is full, `fat_write` goes on with the cluster `-1`, whose entry is behind
the end of every device; what happens from there on is not modelled. -/

namespace HelinKern
namespace Fat
open Word

/-! ### The volume -/

structure Bpb where
  reservedSectorCount : Nat
  tableCount : Nat
  tableSize32 : Nat
  sectors : Nat
  deriving DecidableEq, Repr

def Bpb.firstDataBlock (b : Bpb) : Nat := b.reservedSectorCount + b.tableCount * b.tableSize32

structure FatFile where
  dentry : Memory
  dirCluster : Nat
  dirOffset : Nat
  size : Nat

namespace FatFile

def firstClusterHigh (f : FatFile) : Nat := Elf.half f.dentry 20

def firstClusterLow (f : FatFile) : Nat := Elf.half f.dentry 26

def firstCluster (f : FatFile) : Nat := 65536 * f.firstClusterHigh + f.firstClusterLow

def setFirstClusterLow (f : FatFile) (n : Nat) : FatFile :=
  { f with dentry := fun x => if x = 26 then BitVec.ofNat 8 n else if x = 27 then BitVec.ofNat 8 (n / 256) else f.dentry x }

def setSize (f : FatFile) (n : Nat) : FatFile := { f with size := n, dentry := write f.dentry 28 n }

end FatFile

structure Image where
  bpb : Bpb
  disk : Memory
  files : Nat → FatFile

structure Volume extends Image where
  fat : Memory
  fatSector : Nat

def endMark : Nat := 0xFFFFFFF8

def int32 (n : Nat) : Int := (n : Int).bmod 4294967296

def intDiff (m n : Nat) : Int := ((m : Int) - n).bmod 4294967296

namespace Volume

def vfsReadBlock (v : Volume) (sector : Nat) : Memory := fun x => v.disk (512 * sector + x)

def vfsWriteBlock (v : Volume) (sector : Nat) (buf : Memory) : Volume :=
  { v with disk := fun a => if 512 * sector ≤ a ∧ a < 512 * sector + 4096 then buf (a - 512 * sector) else v.disk a }

def clusterToLba (v : Volume) (cluster : Nat) : Nat :=
  ((cluster + (wordSize - 2)) * 8 + v.bpb.firstDataBlock) % wordSize

def fatReadCluster (v : Volume) (cluster : Nat) : Memory := v.vfsReadBlock (v.clusterToLba cluster)

def fatWriteCluster (v : Volume) (cluster : Nat) (buf : Memory) : Volume := v.vfsWriteBlock (v.clusterToLba cluster) buf

def modifyCluster (v : Volume) (cluster lo hi : Nat) (src : Nat → BitVec 8) : Volume :=
  v.fatWriteCluster cluster fun x => if lo ≤ x ∧ x < hi then src x else v.fatReadCluster cluster x

/-! ### The FAT -/

/-- The test of the cache: the part in memory is 8 sectors long, but the sector behind it counts as well. -/
def cacheMiss (v : Volume) (fatSector : Nat) : Bool := v.fatSector + 8 < fatSector ∨ fatSector < v.fatSector

def loadFat (v : Volume) (fatSector : Nat) : Volume := { v with fat := v.vfsReadBlock fatSector, fatSector }

def fatWord (v : Volume) (indx : Nat) : Nat := read v.fat (4 * indx)

def setFatWord (v : Volume) (indx value : Nat) : Volume := { v with fat := write v.fat (4 * indx) value }

def fatNextCluster (v : Volume) (currentCluster : Nat) : Nat × Volume :=
  let fatIndex := currentCluster * 4 % wordSize
  let fatSector := fatIndex / 512 + v.bpb.reservedSectorCount
  let v :=
    if v.cacheMiss fatSector then v.loadFat ((fatIndex - fatIndex % 4096) / 512 + v.bpb.reservedSectorCount) else v
  (v.fatWord (fatIndex / 4 % 1024), v)

def findFree (v : Volume) : Nat → Option Nat
  | 0 => none
  | n + 1 => if v.fatWord (1024 - (n + 1)) = 0 then some (1024 - (n + 1)) else v.findFree n

/-- The search of `fat_allocateCluster` from the entry `clstr` in memory on; `retClstr` is the cluster it belongs to. When
    nothing is found the next 8 sectors are read, without a change of `fat_sector`. `none` is a read behind the device. -/
def searchFree : Nat → Nat → Nat → Nat → Volume → Option Nat × Volume
  | 0, _, _, _, v => (none, v)
  | n + 1, fatSector, clstr, retClstr, v =>
    match v.findFree (1024 - clstr) with
    | some i =>
      let v := v.setFatWord i endMark
      (some (retClstr + (i - clstr)),
        v.vfsWriteBlock (fatSector - fatSector % 8 + v.bpb.reservedSectorCount) v.fat)
    | none =>
      let fatSector := fatSector + 8
      if v.bpb.sectors < fatSector + v.bpb.reservedSectorCount + 8 then (none, v)
      else
        searchFree n fatSector 0 (retClstr + (1024 - clstr))
          { v with fat := v.vfsReadBlock (fatSector + v.bpb.reservedSectorCount) }

def fatAllocateCluster (v : Volume) (currentCluster : Nat) (update : Bool) : Nat × Volume :=
  let fatIndex := currentCluster * 4 % wordSize
  let fatSector := fatIndex / 512 + v.bpb.reservedSectorCount
  let oldFatsector := v.fatSector
  -- the index is aligned to 1024 bytes here, not to the size of a cluster
  let (fatSector, v) :=
    if v.cacheMiss fatSector then
      let fatSector := (fatIndex - fatIndex % 1024) / 512 + v.bpb.reservedSectorCount
      (fatSector, v.loadFat fatSector)
    else (fatSector, v)
  let indx := fatIndex / 4 % 1024
  match searchFree v.bpb.sectors (fatSector - v.bpb.reservedSectorCount) (indx + 1) (currentCluster + 1) v with
  | (none, v) => (endMark, v)
  | (some found, v) =>
    let v := { v with fat := v.vfsReadBlock oldFatsector }
    if update then
      let v := v.setFatWord indx found
      (found, v.vfsWriteBlock oldFatsector v.fat)
    else (found, v)

def fatGetOrCreateCluster (v : Volume) (currentCluster : Nat) : Nat × Volume :=
  let (next, v) := v.fatNextCluster currentCluster
  if 0xffffff ≤ next ∨ next = 0 then
    let (next, v) := v.fatAllocateCluster currentCluster true
    if next = endMark then (0xFFFFFFFF, v) else (next, v)
  else (next, v)

/-- The loop of `fat_read` with `n` turns left: what is returned from inside it, the cluster behind the last one, and the
    bytes copied. -/
def readLoop (offset : Nat) : Nat → Nat → Nat → Volume → Option Int × Nat × List (BitVec 8) × Volume
  | 0, _, dataCluster, v => (none, dataCluster, [], v)
  | n + 1, written, dataCluster, v =>
    let lo := if written = 0 then offset % 4096 else 0
    let bytes := (List.range' lo (4096 - lo)).map (v.fatReadCluster dataCluster)
    let (next, v) := v.fatNextCluster dataCluster
    if written ≠ 0 ∧ next = endMark then (some (4096 * written), next, bytes, v)
    else
      let (ret, dataCluster, rest, v) := readLoop offset n (written + 1) next v
      (ret, dataCluster, bytes ++ rest, v)

/-- `fullSize`, the end of the part to read; `offset + size` is a `uint64_t` in the comparison and an `int` after it. -/
def readEnd (fileSize offset size : Nat) : Nat :=
  if fileSize < (offset + size) % 18446744073709551616 then fileSize else (offset + size) % wordSize

/-- The clusters of `fat_read`, from `startClusterID` to `endClusterID`, of which `endSize` bytes are read. -/
def readClusters (v : Volume) (startClusterID endClusterID offset endSize : Nat) (operSize : Int) :
    Int × List (BitVec 8) × Volume :=
  if startClusterID = endClusterID then
    if operSize < 0 then (-1, [], v)
    else (operSize, (List.range' (offset % 4096) operSize.toNat).map (v.fatReadCluster startClusterID), v)
  else
    match readLoop offset (int32 endClusterID - int32 startClusterID).toNat 0 startClusterID v with
    | (some ret, _, bytes, v) => (ret, bytes, v)
    | (none, dataCluster, bytes, v) =>
      if 0 < endSize then (operSize, bytes ++ (List.range' 0 endSize).map (v.fatReadCluster dataCluster), v)
      else (operSize, bytes, v)

/-- The test of `fat_read` for an offset behind the first cluster: whether the chain seems to end with the cluster
    `startClusterID`. -/
def readsBehindEnd (v : Volume) (first startClusterID : Nat) : Bool × Volume :=
  if int32 first < int32 startClusterID then
    let (next, v) := v.fatNextCluster startClusterID
    (next = endMark, v)
  else (false, v)

def fatRead (v : Volume) (f offset size : Nat) : Int × List (BitVec 8) × Volume :=
  let file := v.files f
  let first := file.firstCluster
  let startClusterID := (first + offset / 4096) % wordSize
  let fullSize := readEnd file.size offset size
  let test := v.readsBehindEnd first startClusterID
  -- the message names the next cluster once more
  if test.1 then (-1, [], (test.2.fatNextCluster ((startClusterID + 1) % wordSize)).2)
  else
    test.2.readClusters startClusterID ((first + fullSize / 4096) % wordSize) offset (fullSize % 4096)
      (intDiff fullSize offset)

def setFile (v : Volume) (f : Nat) (file : FatFile) : Volume := { v with files := Function.update v.files f file }

/-- A file without a first cluster gets one; only the lower half of its number is stored. -/
def ensureFirstCluster (v : Volume) (f : Nat) : Volume :=
  if (v.files f).firstClusterLow = 0 then
    let (cluster, v) := v.fatAllocateCluster 4 false
    v.setFile f ((v.files f).setFirstClusterLow cluster)
  else v

def updateEntry (v : Volume) (f fullSize : Nat) : Volume :=
  let file := (v.files f).setSize fullSize
  (v.setFile f file).modifyCluster file.dirCluster file.dirOffset (file.dirOffset + 32) fun x =>
    file.dentry (x - file.dirOffset)

def writeLoop (off : Nat) (data : List (BitVec 8)) : Nat → Nat → Nat → Volume → Nat × Volume
  | 0, _, fileCluster, v => (fileCluster, v)
  | n + 1, blocksWrite, fileCluster, v =>
    let lo := if blocksWrite = 0 then off % 4096 else 0
    let v := v.modifyCluster fileCluster lo 4096 fun x => data.getD (4096 * blocksWrite + x - off % 4096) 0
    let (fileCluster, v) := v.fatGetOrCreateCluster fileCluster
    writeLoop off data n (blocksWrite + 1) fileCluster v

def writeData (v : Volume) (clstr off : Nat) (data : List (BitVec 8)) : Int × Volume :=
  let startClusterID := (clstr + off / 4096) % wordSize
  let fullSize := (off + data.length) % wordSize
  let endCluster := (clstr + fullSize / 4096) % wordSize
  let endSize := fullSize % 4096
  let sizeWrite := (fullSize + (wordSize - off)) % wordSize
  if startClusterID = endCluster then
    (sizeWrite, v.modifyCluster startClusterID (off % 4096) (off % 4096 + sizeWrite) fun x => data.getD (x - off % 4096) 0)
  else
    let turns := endCluster - startClusterID
    let (fileCluster, v) := writeLoop off data turns 0 startClusterID v
    if 0 < endSize then
      (sizeWrite, v.modifyCluster fileCluster 0 endSize fun x => data.getD (4096 * turns + x - off % 4096) 0)
    else (sizeWrite, v)

/-- An offset behind the first cluster makes sure that the chain goes on; otherwise nothing is looked up, for which the
    number 1 stands. -/
def createBehind (v : Volume) (clstr startClusterID : Nat) : Nat × Volume :=
  if clstr < startClusterID then v.fatGetOrCreateCluster startClusterID else (1, v)

def writeFrom (v : Volume) (f off : Nat) (data : List (BitVec 8)) : Int × Volume :=
  let clstr := (v.files f).firstCluster
  let startClusterID := (clstr + off / 4096) % wordSize
  let fullSize := (off + data.length) % wordSize
  let v := if ((v.files f).size : Int) < int32 fullSize then v.updateEntry f fullSize else v
  let created := v.createBehind clstr startClusterID
  if created.1 = 0 then (-1, created.2) else created.2.writeData clstr off data

def fatWrite (v : Volume) (f offset : Nat) (data : List (BitVec 8)) : Int × Volume :=
  (v.ensureFirstCluster f).writeFrom f (offset % wordSize) data

inductive Op
  | read (f offset size : Nat)
  | write (f offset : Nat) (data : List (BitVec 8))

abbrev Reply := Int × List (BitVec 8)

def step (v : Volume) : Op → Reply × Volume
  | .read f offset size =>
    let result := v.fatRead f offset size
    ((result.1, result.2.1), result.2.2)
  | .write f offset data =>
    let result := v.fatWrite f offset data
    ((result.1, []), result.2)

end Volume
end Fat
end HelinKern
