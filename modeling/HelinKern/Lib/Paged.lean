import HelinKern.Lib.Word

/-! A byte memory cut into pages of 4096 bytes, each of them 1024 little-endian words. -/

namespace Paged
open Word

def word (m : Memory) (p j : Nat) : Nat := read m (4096 * p + 4 * j)

def setWord (m : Memory) (p j w : Nat) : Memory := write m (4096 * p + 4 * j) w

def fill (m : Memory) (p : Nat) (g : Nat → Nat) : Memory := fun a =>
  if a / 4096 = p then BitVec.ofNat 8 (g (a % 4096 / 4) / 256 ^ (a % 4)) else m a

def copy (m : Memory) (src dst : Nat) : Memory := fun a =>
  if a / 4096 = dst then m (4096 * src + a % 4096) else m a

theorem word_lt (m : Memory) (p j : Nat) : word m p j < 4294967296 := read_lt m _

variable {m m' : Memory} {g : Nat → Nat} {p j p' j' w a src dst : Nat}

theorem word_congr (hj : j < 1024) (h : ∀ a, a / 4096 = p → m' a = m a) :
    word m' p j = word m p j :=
  read_congr fun a _ _ => h a (by omega)

theorem word_setWord_self (m : Memory) (p j w : Nat) : word (setWord m p j w) p j = w % 4294967296 :=
  read_write_self m _ w

theorem word_setWord_of_ne (hj : j < 1024) (hj' : j' < 1024) (h : ¬(p' = p ∧ j' = j)) :
    word (setWord m p j w) p' j' = word m p' j' :=
  read_write_of_outside (by omega)

theorem setWord_of_ne (hj : j < 1024) (h : a / 4096 ≠ p) : setWord m p j w a = m a :=
  write_of_outside (by omega)

theorem setWord_apply (m : Memory) (w a : Nat) (hj : j < 1024) :
    setWord m p j w a = if a / 4096 = p ∧ a % 4096 / 4 = j then BitVec.ofNat 8 (w / 256 ^ (a % 4)) else m a := by
  by_cases ha : a / 4096 = p ∧ a % 4096 / 4 = j
  · rw [if_pos ha]
    unfold setWord write
    obtain h | h | h | h : a % 4 = 0 ∨ a % 4 = 1 ∨ a % 4 = 2 ∨ a % 4 = 3 := by omega
    · rw [if_pos (by omega), h, Nat.pow_zero, Nat.div_one]
    · rw [if_neg (by omega), if_pos (by omega), h, Nat.pow_one]
    · rw [if_neg (by omega), if_neg (by omega), if_pos (by omega), h, show 65536 = 256 ^ 2 from rfl]
    · rw [if_neg (by omega), if_neg (by omega), if_neg (by omega), if_pos (by omega), h, show 16777216 = 256 ^ 3 from rfl]
  · rw [if_neg ha]
    exact write_of_outside (by omega)

theorem setWord_comm (m : Memory) {w' : Nat} (hj : j < 1024) (hj' : j' < 1024) (h : ¬(p' = p ∧ j' = j)) :
    setWord (setWord m p j w) p' j' w' = setWord (setWord m p' j' w') p j w := by
  funext a
  unfold setWord
  by_cases ha : a < 4096 * p + 4 * j ∨ 4096 * p + 4 * j + 4 ≤ a
  · rw [write_of_outside ha, write_congr (write_of_outside ha)]
  · have ha' : a < 4096 * p' + 4 * j' ∨ 4096 * p' + 4 * j' + 4 ≤ a := by omega
    rw [write_of_outside ha', write_congr (write_of_outside ha')]

theorem fill_of_ne (h : a / 4096 ≠ p) : fill m p g a = m a := if_neg h

theorem fill_congr {g' : Nat → Nat} (h : a / 4096 ≠ p → m' a = m a) (hg : ∀ j < 1024, g' j = g j) :
    fill m' p g' a = fill m p g a := by
  unfold fill
  split
  · rw [hg _ (by omega)]
  · exact h (by assumption)

theorem fill_byte {k : Nat} (hj : j < 1024) (hk : k < 4) :
    fill m p g (4096 * p + 4 * j + k) = BitVec.ofNat 8 (g j / 256 ^ k) := by
  unfold fill
  rw [if_pos (by omega), show (4096 * p + 4 * j + k) % 4096 / 4 = j by omega,
    show (4096 * p + 4 * j + k) % 4 = k by omega]

theorem word_fill_self (hj : j < 1024) : word (fill m p g) p j = g j % 4294967296 := by
  unfold word Word.read
  rw [fill_byte hj (by decide), fill_byte hj (by decide), fill_byte hj (by decide)]
  have h0 : fill m p g (4096 * p + 4 * j) = BitVec.ofNat 8 (g j / 256 ^ 0) := fill_byte hj (k := 0) (by decide)
  rw [h0]
  simp only [BitVec.toNat_ofNat]
  omega

theorem word_fill_of_ne (hj : j < 1024) (h : p' ≠ p) : word (fill m p g) p' j = word m p' j :=
  word_congr hj fun a ha => fill_of_ne (by omega)

theorem copy_of_ne (h : a / 4096 ≠ dst) : copy m src dst a = m a := if_neg h

theorem copy_congr (h : if a / 4096 = dst then m' (4096 * src + a % 4096) = m (4096 * src + a % 4096) else m' a = m a) :
    copy m' src dst a = copy m src dst a := by
  unfold copy
  split at h
  · rw [if_pos (by assumption), if_pos (by assumption), h]
  · rw [if_neg (by assumption), if_neg (by assumption), h]

theorem copy_self {o : Nat} (ho : o < 4096) : copy m src dst (4096 * dst + o) = m (4096 * src + o) := by
  unfold copy
  rw [if_pos (by omega), show (4096 * dst + o) % 4096 = o by omega]

end Paged
