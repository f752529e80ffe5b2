import HelinKern.Lib.Dll

/-! The cyclic lists of `src/lib/clist.c`. The entries lie in a heap of their own; a pointer that is NULL or leads to no
    entry cannot be followed, which ends a function with `none`. What `kmalloc` returns is an argument. -/

namespace HelinKern

def sizeofClistHead : Nat := 12

/-- `clist_definition_t`, and the entries by their address. The value of an entry is its `data`. -/
structure Clist where
  slotSize : Nat
  head : Option Nat
  entry : Dll.Heap (Option Nat)

namespace Clist

def new (slotSize : Nat) : Clist := ⟨slotSize, none, fun _ => none⟩

def deref (c : Clist) (p : Option Nat) : Option (Dll.Cell (Option Nat)) := p.bind c.entry

def setEntry (c : Clist) (a : Nat) (x : Option (Dll.Cell (Option Nat))) : Clist :=
  { c with entry := Function.update c.entry a x }

def setNext (c : Clist) (p next : Option Nat) : Option Clist :=
  p.bind fun a => (c.entry a).map fun _ => { c with entry := Dll.setNext c.entry a next }

def setPrev (c : Clist) (p prev : Option Nat) : Option Clist :=
  p.bind fun a => (c.entry a).map fun _ => { c with entry := Dll.setPrev c.entry a prev }

def insertFirst (c : Clist) (entry : Nat) : Option Clist := do
  let c ← c.setNext (some entry) (some entry)
  let c ← c.setPrev (some entry) (some entry)
  return { c with head := some entry }

def link (c : Clist) (entry : Nat) (prev next : Option Nat) : Option Clist := do
  let c ← c.setPrev (some entry) prev
  let c ← c.setNext (some entry) next
  let c ← if prev ≠ none then c.setNext prev (some entry) else some c
  if next ≠ none then c.setPrev next (some entry) else some c

/-- The calls of `kmalloc` return `addr` for the slot, which is NULL if its size is 0, and `entry`. -/
def clistInsertEntryAfter (c : Clist) (pos addr : Option Nat) (entry : Nat) : Option (Nat × Clist) := do
  let c := c.setEntry entry (some ⟨addr, none, none⟩)
  if c.head = none then return (entry, ← c.insertFirst entry)
  else
    let x ← c.deref pos
    return (entry, ← c.link entry pos x.next)

/-- The entry is the slot itself, at the address `addr`. In a smaller slot its fields would not fit. -/
def clistInsertEntryBefore (c : Clist) (pos : Option Nat) (addr : Nat) : Option (Nat × Clist) := do
  if c.slotSize < sizeofClistHead then none
  else
    -- the other two fields are set below, before they are read
    let c := c.setEntry addr (some ⟨some addr, none, none⟩)
    if c.head = none then return (addr, ← c.insertFirst addr)
    else
      let x ← c.deref pos
      return (addr, ← c.link addr x.prev pos)

def moveHead (c : Clist) (entry : Nat) : Option Clist :=
  if c.head = some entry then
    (c.entry entry).map fun x => { c with head := if x.next ≠ some entry then x.next else none }
  else some c

def clistDeleteEntry (c : Clist) (entry : Nat) : Option Clist := do
  let x ← c.entry entry
  let c ← c.setNext x.prev x.next
  let c ← c.setPrev x.next x.prev
  let c ← c.moveHead entry
  return c.setEntry entry none

/-! ### Searches

They return the entries they looked at, in this order, and the one they found. A search that takes more than `fuel`
turns does not end. -/

/-- The loop that `clist_find`, `clist_for_each` and `clist_size` share; it returns when `stop` says so. -/
def turn (c : Clist) (stop : Nat → Bool) : (fuel : Nat) → (current : Option Nat) → Option (List Nat × Option Nat)
  | _, none => some ([], none)
  | 0, some _ => none
  | fuel + 1, some a =>
    if stop a then some ([a], some a)
    else do
      let x ← c.entry a
      if x.next = c.head then return ([a], none)
      else
        let (seen, found) ← turn c stop fuel x.next
        return (a :: seen, found)

def clistFind (c : Clist) (fuel : Nat) (detector : Nat → Bool) : Option (List Nat × Option Nat) :=
  c.turn detector fuel c.head

def clistForEach (c : Clist) (fuel : Nat) : Option (List Nat) := (c.turn (fun _ => false) fuel c.head).map Prod.fst

def clistSize (c : Clist) (fuel : Nat) : Option Nat :=
  (c.turn (fun _ => false) fuel c.head).map fun r => r.1.length

def turnFrom (c : Clist) (pos : Nat) (detector : Nat → Bool) :
    (fuel : Nat) → (current : Option Nat) → Option (List Nat × Option Nat)
  | _, none => some ([], none)
  | 0, some _ => none
  | fuel + 1, some a =>
    if a = pos then some ([a], if detector a then some a else none)
    else if detector a then some ([a], some a)
    else do
      let x ← c.entry a
      let (seen, found) ← turnFrom c pos detector fuel x.next
      return (a :: seen, found)

def clistFindNext (c : Clist) (fuel : Nat) (pos : Nat) (detector : Nat → Bool) : Option (List Nat × Option Nat) := do
  let x ← c.entry pos
  c.turnFrom pos detector fuel x.next

inductive Call
  | insertAfter (pos addr : Option Nat) (entry : Nat)
  | insertBefore (pos : Option Nat) (addr : Nat)
  | delete (entry : Nat)

def exec (c : Clist) : Call → Option Clist
  | .insertAfter pos addr entry => (c.clistInsertEntryAfter pos addr entry).map Prod.snd
  | .insertBefore pos addr => (c.clistInsertEntryBefore pos addr).map Prod.snd
  | .delete entry => c.clistDeleteEntry entry

/-- What the calls mean for the entries, with their `data` and the head first. A new entry is at an address that no
    other one has, and a slot that is to hold an entry is large enough. -/
inductive Listed (slotSize : Nat) : List (Nat × Option Nat) → Call → List (Nat × Option Nat) → Prop
  | firstAfter (pos addr : Option Nat) (e : Nat) : Listed slotSize [] (.insertAfter pos addr e) [(e, addr)]
  | firstBefore (pos : Option Nat) (e : Nat) (hslot : sizeofClistHead ≤ slotSize) :
      Listed slotSize [] (.insertBefore pos e) [(e, some e)]
  | after (l₁ : List (Nat × Option Nat)) {l₂ : List (Nat × Option Nat)} {pos e : Nat} {v : Option Nat} (addr : Option Nat)
      (he : e ∉ (l₁ ++ (pos, v) :: l₂).map Prod.fst) :
      Listed slotSize (l₁ ++ (pos, v) :: l₂) (.insertAfter (some pos) addr e) (l₁ ++ (pos, v) :: (e, addr) :: l₂)
  | before {l₁ l₂ : List (Nat × Option Nat)} {pos e : Nat} {v : Option Nat} (hslot : sizeofClistHead ≤ slotSize)
      (hl₁ : l₁ ≠ []) (he : e ∉ (l₁ ++ (pos, v) :: l₂).map Prod.fst) :
      Listed slotSize (l₁ ++ (pos, v) :: l₂) (.insertBefore (some pos) e) (l₁ ++ (e, some e) :: (pos, v) :: l₂)
  -- what comes before the head is the end of the list
  | beforeHead {l : List (Nat × Option Nat)} {pos e : Nat} {v : Option Nat} (hslot : sizeofClistHead ≤ slotSize)
      (he : e ∉ ((pos, v) :: l).map Prod.fst) :
      Listed slotSize ((pos, v) :: l) (.insertBefore (some pos) e) ((pos, v) :: l ++ [(e, some e)])
  | delete (l₁ l₂ : List (Nat × Option Nat)) (e : Nat) (v : Option Nat) :
      Listed slotSize (l₁ ++ (e, v) :: l₂) (.delete e) (l₁ ++ l₂)

end Clist
end HelinKern
