import Mathlib.Data.BitVec

/-! Little-endian 32-bit words in a byte memory. -/

namespace Word

abbrev Memory := Nat → BitVec 8

def read (m : Memory) (a : Nat) : Nat :=
  (m a).toNat + 256 * (m (a + 1)).toNat + 65536 * (m (a + 2)).toNat + 16777216 * (m (a + 3)).toNat

def write (m : Memory) (a w : Nat) : Memory := fun x =>
  if x = a then BitVec.ofNat 8 w
  else if x = a + 1 then BitVec.ofNat 8 (w / 256)
  else if x = a + 2 then BitVec.ofNat 8 (w / 65536)
  else if x = a + 3 then BitVec.ofNat 8 (w / 16777216)
  else m x

variable {m m' : Memory} {a w x s : Nat}

theorem read_congr (h : ∀ x, a ≤ x → x < a + 4 → m' x = m x) : read m' a = read m a := by
  unfold read
  rw [h a (by omega) (by omega), h (a + 1) (by omega) (by omega), h (a + 2) (by omega) (by omega),
    h (a + 3) (by omega) (by omega)]

theorem write_of_outside (h : x < a ∨ a + 4 ≤ x) : write m a w x = m x := by
  unfold write
  rw [if_neg (by omega), if_neg (by omega), if_neg (by omega), if_neg (by omega)]

theorem write_congr (h : m x = m' x) : write m a w x = write m' a w x := by
  unfold write
  rw [h]

theorem read_write_self (m : Memory) (a w : Nat) : read (write m a w) a = w % 4294967296 := by
  unfold read write
  simp
  omega

theorem read_write_of_outside {b : Nat} (h : b + 4 ≤ a ∨ a + 4 ≤ b) : read (write m a w) b = read m b :=
  read_congr fun _ _ _ => write_of_outside (by omega)

theorem eq_of_read_eq (h : read m' a = read m a) (hlo : a ≤ x) (hhi : x < a + 4) :
    m' x = m x := by
  unfold read at h
  obtain rfl | rfl | rfl | rfl : x = a ∨ x = a + 1 ∨ x = a + 2 ∨ x = a + 3 := by omega
  all_goals
    apply BitVec.eq_of_toNat_eq
    omega

theorem read_shift (h : ∀ x, a ≤ x → x < a + 4 → m' x = m (s + x)) :
    read m' a = read m (s + a) := by
  unfold read
  rw [h a (by omega) (by omega), h (a + 1) (by omega) (by omega), h (a + 2) (by omega) (by omega),
    h (a + 3) (by omega) (by omega)]
  rfl

theorem write_shift (h : m' x = m (s + x)) :
    write m' a w x = write m (s + a) w (s + x) := by
  unfold write
  rw [h]
  simp only [Nat.add_assoc, Nat.add_left_cancel_iff]

theorem read_lt (m : Memory) (a : Nat) : read m a < 4294967296 := by
  unfold read
  omega

end Word
