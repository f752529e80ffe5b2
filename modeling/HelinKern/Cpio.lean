import HelinKern.Lookup
import Mathlib.Data.BitVec

/-! The initial file system of `src/fs/cpio.c` on i386, and the archives it is mounted from.

A node and the `struct cpio` in its `priv_data` are allocated together and have one address, a number; the mount point and
its structure are the number 0. The calling process exists, and its working directory is the mount point while the archive
is read. `none` stands for what the C code gives no meaning to, such as a NULL pointer that is followed, a name that is not
terminated inside its buffer or an `int` that overflows. The heap ends below `KERN_HEAP_END`. -/

namespace HelinKern
open Function

/-- A device as `vfs_read` sees it; what lies beyond its size is whatever the buffer held. -/
structure Device where
  size : Int
  byte : Nat → BitVec 8

namespace Device

def bytes (dev : Device) (a n : Nat) : List (BitVec 8) := (List.range n).map fun i => dev.byte (a + i)

def half (dev : Device) (a : Nat) : Nat := (dev.byte a).toNat + 256 * (dev.byte (a + 1)).toNat

end Device

def cpioMagic : Nat := 0x71c7

def cIsdir : Nat := 0x4000

def vfsDirectory : Nat := 0x02

def vfsMountRo : Nat := 0x14

def trailerName : Text := [0x54, 0x52, 0x41, 0x49, 0x4c, 0x45, 0x52, 0x21, 0x21, 0x21]

def hdrSize : Nat := 26

structure CpioHdr where
  magic : Nat
  mode : Nat
  mtime0 : Nat
  mtime1 : Nat
  namesize : Nat
  filesize0 : Nat
  filesize1 : Nat
  deriving DecidableEq, Repr

def CpioHdr.read (dev : Device) (offset : Nat) : CpioHdr where
  magic := dev.half offset
  mode := dev.half (offset + 6)
  mtime0 := dev.half (offset + 16)
  mtime1 := dev.half (offset + 18)
  namesize := dev.half (offset + 20)
  filesize0 := dev.half (offset + 22)
  filesize1 := dev.half (offset + 24)

def CpioHdr.size (hdr : CpioHdr) : Option Nat :=
  let size := hdr.filesize0 * 0x10000 + hdr.filesize1
  if size < 2147483648 then some size else none

def CpioHdr.length (hdr : CpioHdr) (size : Nat) : Nat := hdrSize + (hdr.namesize + 1) / 2 * 2 + (size + 1) / 2 * 2

def cstr (raw : List (BitVec 8)) : Option Text := if 0 ∈ raw then some (raw.takeWhile fun c => c ≠ 0) else none

structure CpioNode where
  name : Text
  size : Nat
  mask : Nat
  flags : Nat
  inode : Nat
  mountFlags : Nat
  time : Nat
  prev : Option Nat
  deriving DecidableEq, Repr

structure Cpio where
  root : Option Nat
  node : Option Nat
  data : Nat
  dirSize : Nat
  child : Option Nat
  deriving DecidableEq, Repr

structure CpioTree where
  nodes : Nat → CpioNode
  infos : Nat → Cpio
  count : Nat

namespace CpioTree

variable (tree : CpioTree)

def setNode (k : Nat) (f : CpioNode → CpioNode) : CpioTree :=
  { tree with nodes := update tree.nodes k (f (tree.nodes k)) }

def setInfo (k : Nat) (f : Cpio → Cpio) : CpioTree :=
  { tree with infos := update tree.infos k (f (tree.infos k)) }

def start (mountpoint : CpioNode) : CpioTree where
  nodes _ := mountpoint
  infos _ := ⟨none, none, 0, 0, none⟩
  count := 1

def newNode (name : Text) (hdr : CpioHdr) (size data : Nat) : CpioTree where
  nodes := update tree.nodes tree.count
    { name, size, mask := hdr.mode, flags := if hdr.mode &&& cIsdir = cIsdir then vfsDirectory else 0,
      inode := tree.count - 1, mountFlags := vfsMountRo, time := hdr.mtime0 <<< 16 ||| hdr.mtime1, prev := none }
  infos := update tree.infos tree.count ⟨none, some tree.count, data, 0, none⟩
  count := tree.count + 1

def lastInfo : Nat → Nat → Nat
  | 0, k => k
  | fuel + 1, k => match (tree.infos k).child with
    | none => k
    | some child => lastInfo fuel child

def newChildNode (parent child : Nat) : CpioTree :=
  if (tree.nodes parent).flags ≠ vfsDirectory then tree
  else
    let last := tree.lastInfo tree.count parent
    (((tree.setInfo last fun p => { p with child := some child }).setInfo child fun p => { p with root := some parent }).setNode
      child fun n => { n with prev := some parent }).setInfo parent fun p => { p with dirSize := p.dirSize + 1 }

def findFrom (name : Text) : Nat → Option Nat → Option (Option Nat)
  | _, none => some none
  | 0, some _ => none
  | fuel + 1, some p => match (tree.infos p).node with
    | none => if (tree.infos p).child = none then none else findFrom name fuel (tree.infos p).child
    | some node => if (tree.nodes node).name = name then some (some node) else findFrom name fuel (tree.infos p).child

def cpioFinddir (di : Nat) (name : Text) : Option (Option Nat) := tree.findFrom name tree.count (some di)

/-- `cpio_finddir` component by component, as in `vfs_find_impl`. -/
def resolve : Nat → List Text → Option (Option Nat)
  | node, [] => some (some node)
  | node, c :: path => (tree.cpioFinddir node c).bind fun
    | none => some none
    | some node => resolve node path

def find (dir : Text) : Option (Option Nat) :=
  if dir.head? = some slash ∨ dir = [dot, dot] then none
  else if dir = [dot] then some (some 0)
  else tree.resolve 0 (Tokens.tokens slash dir)

/-- The turn of the loop of `cpio_mount` for a path that is neither `.` nor the trailer: the path is cut at its last slash,
    and the new node goes below the node of the directory. -/
def mountEntry (hdr : CpioHdr) (size offset : Nat) (raw : List (BitVec 8)) : Option CpioTree :=
  let dir := (Tokens.splitLast slash raw).map fun parts => parts.1.takeWhile fun c => c ≠ 0
  let name := ((Tokens.splitLast slash raw).map Prod.snd).getD raw
  (cstr name).bind fun name =>
    let data := offset + hdrSize + hdr.namesize + hdr.namesize % 2
    let found := match dir with
      | none => some (some 0)
      | some dir => tree.find dir
    found.join.map fun parent =>
      ((tree.newNode name hdr size data).setNode parent fun n => { n with flags := vfsDirectory }).newChildNode parent tree.count

def mountLoop (dev : Device) : Nat → Nat → CpioTree → Option (Bool × CpioTree)
  | 0, _, _ => none
  | fuel + 1, offset, tree =>
    if dev.size ≤ offset then some (true, tree)
    else
      let hdr := CpioHdr.read dev offset
      if hdr.magic ≠ cpioMagic then some (false, tree)
      else hdr.size.bind fun size =>
        if 1024 < hdr.namesize ∨ 2147483648 ≤ offset + hdr.length size then none
        else
          let raw := dev.bytes (offset + hdrSize) hdr.namesize
          (cstr raw).bind fun path =>
            if path = [dot] then mountLoop dev fuel (offset + hdr.length size) tree
            else if path = trailerName then some (true, tree)
            else (tree.mountEntry hdr size offset raw).bind fun tree => mountLoop dev fuel (offset + hdr.length size) tree

def cpioMount (dev : Device) (mountpoint : CpioNode) : Option (Bool × CpioTree) :=
  if dev.size = 0 then some (false, start mountpoint)
  else (mountLoop dev (dev.size.toNat + 1) 0 (start mountpoint)).map fun
    | (false, tree) => (false, tree)
    | (true, tree) => (true, tree.setNode 0 fun n => { n with mountFlags := vfsMountRo })

/-- `cpio_read`: what it returns, and what it puts into the buffer. The comparison is made with a 32-bit offset. -/
def cpioRead (dev : Device) (node offset how : Nat) : Nat × List (BitVec 8) :=
  let size := (tree.nodes node).size
  if size ≤ offset % 4294967296 then (0, [])
  else
    let how :=
      if size ≤ (offset + how) % 18446744073709551616 then (size + 18446744073709551616 - offset) % 18446744073709551616
      else how
    (how, dev.bytes (((tree.infos node).data + offset) % 18446744073709551616) how)

end CpioTree

/-- An entry of an archive; the path of the root itself is empty. -/
structure CpioEntry where
  path : List Text
  dev : BitVec 16
  ino : BitVec 16
  mode : BitVec 16
  uid : BitVec 16
  gid : BitVec 16
  nlink : BitVec 16
  rdev : BitVec 16
  mtime0 : BitVec 16
  mtime1 : BitVec 16
  data : List (BitVec 8)
  deriving DecidableEq, Repr

namespace CpioEntry

def name (e : CpioEntry) : Text := if e.path = [] then [dot] else Tokens.join slash e.path

def isDir (e : CpioEntry) : Bool := e.mode.toNat &&& cIsdir = cIsdir

def le16 (n : Nat) : List (BitVec 8) := [BitVec.ofNat 8 n, BitVec.ofNat 8 (n / 256)]

def pad (bytes : List (BitVec 8)) : List (BitVec 8) := bytes ++ List.replicate (bytes.length % 2) 0

def header (e : CpioEntry) (name : Text) : List Nat :=
  [cpioMagic, e.dev.toNat, e.ino.toNat, e.mode.toNat, e.uid.toNat, e.gid.toNat, e.nlink.toNat, e.rdev.toNat, e.mtime0.toNat,
    e.mtime1.toNat, name.length + 1, e.data.length / 65536, e.data.length % 65536]

def encode (e : CpioEntry) (name : Text) : List (BitVec 8) :=
  (e.header name).flatMap le16 ++ (pad (name ++ [0]) ++ pad e.data)

def slice (e : CpioEntry) (offset how : Nat) : Nat × List (BitVec 8) :=
  (((e.data.drop offset).take how).length, (e.data.drop offset).take how)

end CpioEntry

def IsComponent (c : Text) : Prop := c ≠ [] ∧ slash ∉ c ∧ 0 ∉ c ∧ c ≠ [dot] ∧ c ≠ [dot, dot]

instance (c : Text) : Decidable (IsComponent c) := inferInstanceAs (Decidable (_ ∧ _))

def encodeArchive (entries : List CpioEntry) (trailer : CpioEntry) (rest : List (BitVec 8)) : List (BitVec 8) :=
  (entries.flatMap fun e => e.encode e.name) ++ (trailer.encode trailerName ++ rest)

/-- A well-formed archive: the paths are distinct, and every directory stands before what it contains. -/
structure CpioArchive where
  entries : List CpioEntry
  trailer : CpioEntry
  rest : List (BitVec 8)
  components : ∀ e ∈ entries, ∀ c ∈ e.path, IsComponent c
  distinct : (entries.map fun e => e.path).Nodup
  parents : ∀ k, ∀ h : k < entries.length, 2 ≤ (entries.get ⟨k, h⟩).path.length →
    ∃ d ∈ entries.take k, d.isDir = true ∧ d.path = (entries.get ⟨k, h⟩).path.dropLast
  noTrailer : ∀ e ∈ entries, e.path ≠ [trailerName]
  short : ∀ e ∈ entries, e.name.length < 1024
  total : (encodeArchive entries trailer rest).length < 2147483648

namespace CpioArchive

variable (a : CpioArchive)

def encode : List (BitVec 8) := encodeArchive a.entries a.trailer a.rest

def device (garbage : Nat → BitVec 8) : Device where
  size := a.encode.length
  byte i := (a.encode[i]?).getD (garbage i)

def named : List CpioEntry := a.entries.filter fun e => e.path ≠ []

def node (path : List Text) : Option Nat := (a.named.findIdx? fun e => e.path = path).map fun k => k + 1

end CpioArchive
end HelinKern
