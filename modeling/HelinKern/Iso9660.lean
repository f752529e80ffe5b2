import HelinKern.Lib.Word

/-! ISO 9660 images: `module/iso9660/main.c`. -/

namespace HelinKern
namespace Iso9660
open Function

/-! ### The cache of `iso9660_finddir` -/

structure IsoNode (ν : Type) where
  name : ν
  inode : BitVec 32
  size : BitVec 32
  flags : BitVec 32
  deriving DecidableEq, Repr

/-- The caches of the directories and the variable `cacheNode` of the file, which nothing sets. A cache is the chain of its
    nodes with their addresses; a node has no name until one is copied there. -/
structure Caches (δ ν : Type) where
  cacheNode : Option (Option (IsoNode ν))
  chain : δ → List (Nat × Option (IsoNode ν))
  next : Nat

namespace Caches

variable {δ ν : Type} [DecidableEq δ] [DecidableEq ν]

def start : Caches δ ν := ⟨none, fun _ => [], 0⟩

/-- `kmalloc` and, if there is one, the copy of the node. -/
def push (s : Caches δ ν) (dir : δ) (node : Option (IsoNode ν)) : Caches δ ν :=
  { s with chain := update s.chain dir (s.chain dir ++ [(s.next, node)]), next := s.next + 1 }

/-- The loop over the chain; `none` if a name that is NULL is compared. -/
def scan (fName : ν) : List (Nat × Option (IsoNode ν)) → Option (Option Nat)
  | [] => some none
  | (_, none) :: _ => none
  | (a, some node) :: chain => if node.name = fName then some (some a) else scan fName chain

/-- `none` where the C code has no meaning. -/
def iso9660Finddir (finddirReal : δ → ν → Option (IsoNode ν)) (s : Caches δ ν) (dir : δ) (fName : ν) :
    Option (Option Nat × Caches δ ν) :=
  if s.chain dir = [] then
    some ((finddirReal dir fName).map fun _ => s.next, s.push dir (finddirReal dir fName))
  else
    match s.cacheNode with
    | none => none
    -- the jump to `searchInISO` skips the lookup
    | some none => none
    | some (some _) =>
      (scan fName (s.chain dir)).map fun
        | some a => (some a, s)
        | none => match finddirReal dir fName with
          | none => (none, s)
          | some node => (some s.next, s.push dir (some node))

end Caches

/-! ### Directories -/

/-- A C string, without the NUL behind it. -/
abbrev Name := List (BitVec 8)

/-- The extent of a directory, which fills whole sectors, and the number of its first one. -/
structure Directory where
  bytes : Word.Memory
  size : Nat
  inode : BitVec 32
  nonempty : 0 < size
  aligned : size % 2048 = 0

def strncmp : Name → Name → Nat → Int
  | _, _, 0 => 0
  | s₁, s₂, n + 1 =>
    if s₁.headD 0 ≠ s₂.headD 0 then (s₁.headD 0).toInt - (s₂.headD 0).toInt
    else if s₁.headD 0 = 0 then 0
    else strncmp s₁.tail s₂.tail n

def tolower (c : BitVec 8) : BitVec 8 := if 65 ≤ c ∧ c ≤ 90 then c + 32 else c

namespace Directory

variable (d : Directory)

def length (p : Nat) : Nat := (d.bytes p).toNat
def extentStart (p : Nat) : BitVec 32 := .ofNat 32 (Word.read d.bytes (p + 2))
def dataSize (p : Nat) : BitVec 32 := .ofNat 32 (Word.read d.bytes (p + 10))
def flags (p : Nat) : BitVec 8 := d.bytes (p + 25)
def nameLen (p : Nat) : Nat := (d.bytes (p + 32)).toNat
def rawName (p : Nat) : Name := (List.range (d.nameLen p)).map fun i => d.bytes (p + 33 + i)

/-- The records that the loops of both functions come to from `p` on. Where the length is 0 they go on with the next byte. -/
def records : Nat → Nat → List Nat
  | 0, _ => []
  | n + 1, p =>
    let retry offset := if d.size ≤ offset then [] else records n offset
    if d.length p = 0 then if p < d.size then retry (p + 1) else [] else p :: retry (p + d.length p)

/-- The records that are not skipped. Each turn gets ahead by a byte or more. -/
def entries : List Nat :=
  (d.records (d.size + 1) 0).filter fun p => d.flags p &&& 1 = 0 ∧ d.extentStart p ≠ d.inode

/-- The name that both functions make of that in a record, and how many bytes of it `iso9660_finddir_real` compares. `none` is
    an access outside of the array `name`. -/
def formatName (p : Nat) : Option (Name × Nat) :=
  let raw := d.rawName p
  let len := d.nameLen p
  if 128 ≤ len then none
  else if (raw.takeWhile (· ≠ 0)).contains 46 then
    if len < 3 then none
    else
      -- the bytes that are set to NUL cut the name
      let cut := raw.take (if raw[len - 3]? = some 46 then len - 3 else len - 2)
      some ((cut.takeWhile (· ≠ 0)).map tolower, len - 2)
  else some ((raw.takeWhile (· ≠ 0)).map tolower, len)

/-- The name and the number that the call stores, or nothing behind the last entry. -/
def iso9660Readdir (index : Nat) : Option (Option (Name × BitVec 32)) :=
  match d.entries[index]? with
  | none => some none
  | some p => (d.formatName p).map fun name => some (name.1, d.extentStart p)

def node (p : Nat) (name : Name) : IsoNode Name :=
  ⟨name, d.extentStart p, d.dataSize p, if d.flags p &&& 2 = 2 then 2 else 0⟩

def findIn (fName : Name) : List Nat → Option (Option (IsoNode Name))
  | [] => some none
  | p :: ps => (d.formatName p).bind fun (name, cmplen) =>
    if strncmp name fName cmplen = 0 then some (some (d.node p name)) else findIn fName ps

def iso9660FinddirReal (fName : Name) : Option (Option (IsoNode Name)) := d.findIn fName d.entries

end Directory
end Iso9660
end HelinKern
