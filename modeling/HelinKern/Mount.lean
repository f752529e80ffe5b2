import HelinKern.Cpio
import HelinKern.Lib.Dll
import HelinKern.Lib.Word

/-! Mounting: `vfs_mount` and `vfs_putIntoMnt` of `src/vfs.c`, `sys_mount` and `sys_umount` of `src/syscall.c`, and the mount
    hooks of the file systems.

A node, a mount list element and a piece of private data are known by their addresses; `fresh` is the next address that is
handed out, and memory that was freed is not handed out again. The caller is a process of the superuser, the lookups of the
device and of the mount point are given with the call, and both are nodes that exist. `none` stands for an access through
NULL, to a list element that was freed, or for a division by zero. -/

namespace HelinKern
open Function

inductive FileSystem
  | rootfs | devfs | tmpfs | cpio | iso9660 | ext2 | vfat
  deriving DecidableEq, Repr

structure MountPoint where
  fs : Option FileSystem
  origFs : Option FileSystem
  priv : Option Nat
  flags : Nat
  mountFlags : Nat
  device : Option Nat
  inode : Nat
  size : Nat
  deriving DecidableEq, Repr

def MountPoint.zero : MountPoint := ⟨none, none, none, 0, 0, none, 0, 0⟩

structure MountEntry where
  device : Option Nat
  target : Nat
  devicePath : Option Text
  targetPath : Text
  fs : FileSystem
  priv : Option Nat
  deriving DecidableEq, Repr

structure Disk extends Device where
  self : Nat
  readBlock : Nat → Nat → Option (Nat → BitVec 8)

/-- `workDir` is the working directory of the caller. -/
structure Vfs where
  nodes : Nat → MountPoint
  mnt : Dll.Heap MountEntry
  vfsmntlst : Option Nat
  fsRoot : Option Nat
  workDir : Option Nat
  fresh : Nat

namespace Vfs

variable (s : Vfs)

def setNode (n : Nat) (f : MountPoint → MountPoint) : Vfs := { s with nodes := update s.nodes n (f (s.nodes n)) }

def attach (n : Nat) (f : MountPoint → MountPoint) : Vfs :=
  { s.setNode n fun p => { f p with priv := some s.fresh } with fresh := s.fresh + 1 }

/-! ### Mount hooks -/

def rootfsMount (mp : Nat) : Bool × Vfs := (true, s.setNode mp fun p => { p with flags := vfsDirectory, fs := some .rootfs })

def devfsMount (dev : Option Disk) (mp : Nat) : Bool × Vfs :=
  if dev.isNone then (false, s) else (true, s.setNode mp fun p => { p with fs := some .devfs, priv := none })

def tmpfsMount (mp : Nat) : Bool × Vfs := (true, s.attach mp fun p => { p with fs := some .tmpfs })

/-- `cpio_mount`, which sets the node and the working directory before it looks at the device. -/
def cpioMount (dev : Option Disk) (mp : Nat) : Option (Bool × Vfs) :=
  dev.bind fun d =>
    let root := s.nodes mp
    (CpioTree.cpioMount d.toDevice ⟨[], 0, 0, root.flags, 0, root.mountFlags, 0, none⟩).map fun r =>
      let top := r.2.nodes 0
      (r.1, { s.attach mp fun p => { p with fs := some .cpio, flags := top.flags, mountFlags := top.mountFlags } with
        workDir := if d.size = 0 then some mp else s.workDir })

def iso9660Ident : List (BitVec 8) := [0x43, 0x44, 0x30, 0x30, 0x31]

def iso9660Mount (dev : Option Disk) (mp : Nat) : Bool × Vfs :=
  match dev.bind fun d => d.readBlock 0x10 2048 with
  | none => (false, s)
  | some desc =>
    if desc 0 ≠ 1 then (false, s)
    else if ((List.range 5).map fun i => desc (1 + i)) ≠ iso9660Ident then (false, s)
    else (true, s.attach mp fun p =>
      { p with fs := some .iso9660, mountFlags := vfsMountRo, device := dev.map fun d => d.self,
               inode := Word.read desc 158, size := Word.read desc 166 })

def fatMount (dev : Option Disk) (mp : Nat) : Bool × Vfs :=
  match dev.bind fun d => d.readBlock 0 90 with
  | none => (false, s)
  | some bpb =>
    if bpb 66 ≠ 0x28 ∧ bpb 66 ≠ 0x29 then (false, s)
    else (true, s.attach mp fun p => { p with fs := some .vfat })

end Vfs

namespace Device

def checkExt2 (dev : Device) : Bool := dev.half (1024 + 56) = 0xef53

def groups (count perGroup : Nat) : Nat := count / perGroup + if count % perGroup = 0 then 0 else 1

/-- `ext2_is_directory` of the root inode 2, with the values `readInfo` takes from the super block. The mode is read at the
    inode's place in the table of its group. -/
def ext2RootIsDirectory (dev : Device) : Option Bool :=
  let inodesCount := Word.read dev.byte 1024
  let blocksCount := Word.read dev.byte (1024 + 4)
  let blocksize := 1024 <<< Word.read dev.byte (1024 + 24)
  let blocksPerGroup := Word.read dev.byte (1024 + 32)
  let inodesPerGroup := Word.read dev.byte (1024 + 40)
  let inodeSize := dev.half (1024 + 88)
  if blocksPerGroup = 0 ∨ inodesPerGroup = 0 ∨ blocksCount = 0 ∨ 2147483648 ≤ blocksize then none
  else
    let blockGroups := groups blocksCount blocksPerGroup
    let perGroup := inodesCount / blockGroups
    let group := 1 / inodesPerGroup
    if perGroup = 0 ∨ max blockGroups (groups inodesCount inodesPerGroup) ≤ group then none
    else
      let table := Word.read dev.byte ((if blocksize = 1024 then 2048 else blocksize) + 32 * group + 8)
      let place := 1 % perGroup * inodeSize
      if inodeSize < 2 ∨ blocksize < place % blocksize + 2 then none
      else
        let block := (table + place / blocksize) * blocksize % 4294967296
        let pos := if block < 2147483648 then block else block + 18446744069414584320
        some (dev.half (pos + place % blocksize) &&& 0x4000 ≠ 0)

end Device

namespace Vfs

variable (s : Vfs)

def ext2Mount (dev : Option Disk) (mp : Nat) : Option (Bool × Vfs) :=
  match dev with
  | none => some (false, s)
  | some d =>
    if ¬d.checkExt2 then some (false, s)
    else d.ext2RootIsDirectory.map fun
      | false => (false, s)
      | true => (true, s.attach mp fun p => { p with fs := some .ext2 })

def hook (fs : FileSystem) (dev : Option Disk) (mp : Nat) : Option (Bool × Vfs) :=
  match fs with
  | .rootfs => some (s.rootfsMount mp)
  | .devfs => some (s.devfsMount dev mp)
  | .tmpfs => some (s.tmpfsMount mp)
  | .cpio => s.cpioMount dev mp
  | .iso9660 => some (s.iso9660Mount dev mp)
  | .ext2 => s.ext2Mount dev mp
  | .vfat => some (s.fatMount dev mp)

/-! ### The mount list -/

def lastMnt (mnt : Dll.Heap MountEntry) : Nat → Nat → Option Nat
  | 0, _ => none
  | fuel + 1, a => (mnt a).bind fun el => match el.next with
    | none => some a
    | some b => lastMnt mnt fuel b

def vfsPutIntoMnt (dev : Option Disk) (target : Nat) (fs : FileSystem) (targetPath : Text) : Option Vfs :=
  let el : MountEntry := ⟨dev.map fun d => d.self, target, none, targetPath, fs, (s.nodes target).priv⟩
  match s.vfsmntlst with
  | none => some { s with
      mnt := update s.mnt s.fresh (some ⟨el, none, none⟩), vfsmntlst := some s.fresh, fresh := s.fresh + 1 }
  | some head => (lastMnt s.mnt s.fresh head).bind fun last => (s.mnt last).map fun c =>
      { s with
        mnt := update (update s.mnt last (some { c with next := some s.fresh })) s.fresh
          (some ⟨el, some last, none⟩)
        fresh := s.fresh + 1 }

def rootPath : Text := [slash]

/-- What is left of a path in its buffer after `vfs_find`: `strtok` has put a NUL behind the first word. -/
def foundPath (path : Text) : Text :=
  match Tokens.next slash path with
  | none => path
  | some (word, _) => path.takeWhile (· = slash) ++ word

def withRoot : Nat × Vfs :=
  match s.fsRoot with
  | some root => (root, s)
  | none => (s.fresh, { s.setNode s.fresh fun _ => .zero with fsRoot := some s.fresh, fresh := s.fresh + 1 })

def vfsMount (fs : Option FileSystem) (dev : Option Disk) (mountPoint : Option Text) (found : Option Nat) :
    Option (Bool × Vfs) :=
  match fs, mountPoint with
  | none, _ | _, none => some (false, s)
  | some fs, some path =>
    if path.head? ≠ some slash then some (false, s)
    else if path = rootPath then
      let (root, s) := s.withRoot
      (s.hook fs dev root).bind fun
        | (false, s) => some (false, s)
        | (true, s) => (s.vfsPutIntoMnt dev root fs rootPath).map fun s => (true, s)
    else match found with
      | none => some (false, s)
      | some mp =>
        if (s.nodes mp).flags &&& 0x7 ≠ vfsDirectory then some (false, s)
        else
          let origFs := (s.nodes mp).fs
          (s.hook fs dev mp).bind fun
            | (false, s) => some (false, s)
            | (true, s) =>
              ((s.setNode mp fun p => { p with origFs := origFs }).vfsPutIntoMnt dev mp fs (foundPath path)).map fun s => (true, s)

/-! ### The system calls -/

/-- `sys_mount` after its checks: the result of `vfs_mount`, and after a success the path of the device in the last element. -/
def sysMount (fs : FileSystem) (dev : Disk) (devPath path : Text) (found : Option Nat) : Option (Bool × Vfs) :=
  (s.vfsMount (some fs) (some dev) (some path) found).bind fun
    | (false, s) => some (false, s)
    | (true, s) => s.vfsmntlst.bind fun head => (lastMnt s.mnt s.fresh head).bind fun last => (s.mnt last).map fun c =>
      (true, { s with
        mnt := update s.mnt last (some { c with value := { c.value with devicePath := some devPath } }) })

def findMnt (mnt : Dll.Heap MountEntry) (path : Text) : Nat → Option Nat → Option (Option Nat)
  | _, none => some none
  | 0, some _ => none
  | fuel + 1, some a => (mnt a).bind fun el =>
    if el.value.targetPath = path then some (some a) else findMnt mnt path fuel el.next

/-- `mnt->prev->next = mnt->next`; the store through a NULL `prev` changes no element. -/
def unlinkMnt (mnt : Dll.Heap MountEntry) (el : Dll.Cell MountEntry) : Option (Dll.Heap MountEntry) :=
  match el.prev with
  | none => some mnt
  | some p => (mnt p).map fun c => update mnt p (some { c with next := el.next })

/-- `sys_umount`; no file system has an `umount` hook. -/
def sysUmount (mountpoint : Text) : Option (Bool × Vfs) :=
  (findMnt s.mnt mountpoint s.fresh s.vfsmntlst).bind fun
    | none => some (false, s)
    | some a => (s.mnt a).bind fun el => (unlinkMnt s.mnt el).map fun mnt =>
      (true, { s.setNode el.value.target fun p => { p with priv := el.value.priv } with mnt := update mnt a none })

end Vfs

structure MountRecord where
  path : Text
  target : Nat
  fs : FileSystem
  fsBefore : Option FileSystem
  privBefore : Option Nat
  deriving DecidableEq, Repr

/-- A run of mounts and unmounts: `base` are the paths and nodes of the mounts before the run, `records` the mounts of the run
    that were not undone. -/
structure MountRun where
  vfs : Vfs
  base : List (Text × Nat)
  records : List MountRecord

namespace MountRun

inductive Op
  | mount (fs : FileSystem) (dev : Disk) (devPath path : Text) (found : Option Nat)
  | umount (path : Text)

def current (s : MountRun) : List (Text × Nat) := s.base ++ s.records.map fun r => (r.path, r.target)

def mountAt (s : MountRun) (fs : FileSystem) (dev : Disk) (devPath path : Text) (found : Option Nat) (n : Nat) : Option MountRun :=
  if ∃ m ∈ s.current, m.1 = path ∨ m.2 = n then none
  else (s.vfs.sysMount fs dev devPath path found).bind fun
    | (false, _) => none
    | (true, vfs) => some { s with
        vfs, records := s.records ++ [⟨path, n, fs, (s.vfs.nodes n).fs, (s.vfs.nodes n).priv⟩] }

/-- Successful calls: mounts on mount points that are not in use, and unmounts of mounts of the run. -/
def exec (s : MountRun) : Op → Option MountRun
  | .mount fs dev devPath path found =>
    (if path = Vfs.rootPath then s.vfs.fsRoot else found).bind fun n => s.mountAt fs dev devPath path found n
  | .umount path =>
    if ∃ r ∈ s.records, r.path = path then
      (s.vfs.sysUmount path).bind fun
        | (false, _) => none
        | (true, vfs) => some { s with vfs, records := s.records.filter fun r => r.path ≠ path }
    else none

end MountRun
end HelinKern
