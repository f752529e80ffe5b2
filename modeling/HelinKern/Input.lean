import Mathlib.Data.BitVec
import Mathlib.Logic.Function.Basic

/-! Input: `mouse_intr` of `src/dev/ps2mouse.c` and `keyboard_read` of `src/dev/keyboard.c`. -/

namespace HelinKern
namespace Input

abbrev Packet := BitVec 8 × BitVec 8 × BitVec 8

/-- `mouse_cycle`, `mouse_byte` and `data_queue`. -/
structure Mouse where
  cycle : Nat
  byte : Packet
  queue : List Packet

def Overflow (p : Packet) : Prop := p.1 &&& 0x80 ≠ 0 ∨ p.1 &&& 0x40 ≠ 0

instance (p : Packet) : Decidable (Overflow p) := inferInstanceAs (Decidable (_ ∨ _))

/-- One byte of the mouse. The distances `x` and `y` that are computed for a packet are not used. -/
def mouseIntr (s : Mouse) (b : BitVec 8) : Mouse :=
  match s.cycle with
  | 0 => { s with byte := (b, s.byte.2), cycle := if b &&& 8 = 0 then 0 else 1 }
  | 1 => { s with byte := (s.byte.1, b, s.byte.2.2), cycle := 2 }
  | 2 =>
    let byte := (s.byte.1, s.byte.2.1, b)
    if Overflow byte then { s with byte } else ⟨0, byte, s.queue ++ [byte]⟩
  | _ => s

/-- The buffer of a reader, its `int i`, and the indexes that were written. -/
structure Line where
  buff : Int → BitVec 8
  i : Int
  written : List Int

def Line.put (s : Line) (c : BitVec 8) : Line :=
  { s with buff := Function.update s.buff s.i c, written := s.i :: s.written }

def Line.move (s : Line) (n : Int) : Line := { s with i := (s.i + n).bmod 4294967296 }

abbrev Keys := List (BitVec 8)

def Printable (c : BitVec 8) : Prop := 8 ≤ c.toInt ∧ c.toInt ≤ 0x7e

instance (c : BitVec 8) : Decidable (Printable c) := inferInstanceAs (Decidable (_ ∧ _))

/-- The loop of `keyboard_read` on the keys that come: what it returns, and whether after a `\n`; nothing while it waits for
    a key. The limit is a `uint64_t`. -/
def readLoop (how : Nat) : Keys → Line → Option (Int × Bool) × Line
  | keys, s =>
    if s.i % 18446744073709551616 < how - 1 then
      match keys with
      | [] => (none, s)
      | c :: keys =>
        let s := if Printable c then (s.put c).move 1 else s
        if c = 10 then (some (s.i, true), s.put 0)
        else readLoop how keys (if c = 8 ∧ 0 < s.i then (s.move (-2)).put 0 else s)
    else (some (s.i, false), s)

end Input
end HelinKern
