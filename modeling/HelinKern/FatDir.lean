import HelinKern.Fat

/-! `fat_creat` of the FAT32 driver `module/fat32/main.c`, in the cluster of a directory, which has `n` entries of 32 bytes. -/

namespace HelinKern
namespace Fat
open Word List

abbrev Name := List (BitVec 8)

def toupper (chr : BitVec 8) : BitVec 8 := if 0x61 ≤ chr ∧ chr ≤ 0x7A then chr - 0x20 else chr

/-- `fat_convName`, into a field of spaces. -/
def fatConvName (name : Name) : Name := ((name.take 8).map toupper).rightpad 11 0x20

def chkSum (name : Name) : BitVec 8 := name.foldl (fun sum c => sum.rotateRight 1 + c) 0

/-- What `fat_creat` stores for the characters `is` of the long name. -/
def longName (name : Name) (is : List Nat) : Name :=
  is.flatMap fun i =>
    let unit : BitVec 16 :=
      if name.length < i ∨ 11 ≤ i ∨ 5 ≤ i ∧ name.length ≤ 5 then 0xFFFF else (name.getD i 0).signExtend 16
    [unit.setWidth 8, (unit >>> 8).setWidth 8]

def longEntry (name : Name) : Name :=
  0x41 :: longName name (range 5) ++ [0x0F, 0, chkSum (fatConvName name)] ++ longName name (range' 5 6) ++ [0, 0] ++
    longName name [11, 12]

/-- The short entry; a directory has a cluster. -/
def shortEntry (name : Name) (cluster : Option Nat) : Name :=
  let half (n : Nat) : Name := [BitVec.ofNat 8 n, BitVec.ofNat 8 (n / 256)]
  fatConvName name ++ (if cluster.isSome then 0x30 else 0x20) :: replicate 8 0 ++ half (cluster.getD 0 / 65536) ++
    replicate 4 0 ++ half (cluster.getD 0) ++ replicate 4 0

def isFree (d : Memory) (p : Nat) : Bool := d (32 * p) = 0 ∨ d (32 * p) = 0xE5

def firstFree (n : Nat) (d : Memory) : Option Nat := (range n).find? (isFree d)

def putEntry (d : Memory) (p : Nat) (entry : Name) : Memory :=
  fun a => if 32 * p ≤ a ∧ a < 32 * p + 32 then entry.getD (a - 32 * p) 0 else d a

/-- `fat_creat` up to its call of `fat_finddir`. Only the entry for the long name is looked for. -/
def fatCreat (n : Nat) (d : Memory) (name : Name) (cluster : Option Nat) : Option Memory :=
  (firstFree n d).map fun p => putEntry (putEntry d p (longEntry name)) (p + 1) (shortEntry name cluster)

end Fat
end HelinKern
