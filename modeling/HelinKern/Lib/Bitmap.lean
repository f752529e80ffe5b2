import Mathlib.Data.List.Basic

/-! Bitmaps stored in bytes: bit `i` is bit `i % 8` of byte `i / 8`. -/

namespace Bitmap
open Function List

abbrev Bytes := Nat → BitVec 8

def bitAt (m : Bytes) (i : Nat) : Bool := (m (i / 8)).getLsbD (i % 8)

def setBit (m : Bytes) (i : Nat) : Bytes := update m (i / 8) (m (i / 8) ||| 1#8 <<< (i % 8))

def clearBit (m : Bytes) (i : Nat) : Bytes := update m (i / 8) (m (i / 8) &&& ~~~(1#8 <<< (i % 8)))

def firstClear (b : BitVec 8) : Option Nat := (List.range 8).find? fun bit => b &&& 1#8 <<< bit == 0#8

def count (m : Bytes) (n : Nat) : Nat := (List.range n).countP (bitAt m)

theorem getLsbD_one_shift (k j : Nat) (hk : k < 8) : (1#8 <<< k).getLsbD j = decide (j = k) := by
  by_cases hj : j = k
  · subst hj
    simp [hk]
  by_cases hlt : j < k
  · simp [hlt, hj]
  · have : j - k ≠ 0 := by omega
    simp [hj, this]

@[simp] theorem bitAt_setBit (m : Bytes) (i j : Nat) : bitAt (setBit m i) j = (decide (j = i) || bitAt m j) := by
  unfold bitAt setBit
  by_cases hb : j / 8 = i / 8
  · rw [hb, update_self, BitVec.getLsbD_or, getLsbD_one_shift _ _ (Nat.mod_lt _ (by decide)), Bool.or_comm]
    congr 1
    exact decide_eq_decide.mpr (by omega)
  · rw [update_of_ne hb]
    have : j ≠ i := fun h => hb (by rw [h])
    simp [this]

@[simp] theorem bitAt_clearBit (m : Bytes) (i j : Nat) : bitAt (clearBit m i) j = (!decide (j = i) && bitAt m j) := by
  unfold bitAt clearBit
  by_cases hb : j / 8 = i / 8
  · have hj : j % 8 < 8 := Nat.mod_lt _ (by decide)
    rw [hb, update_self, BitVec.getLsbD_and, BitVec.getLsbD_not,
      getLsbD_one_shift _ _ (Nat.mod_lt _ (by decide)), Bool.and_comm]
    have : decide (j % 8 = i % 8) = decide (j = i) := decide_eq_decide.mpr (by omega)
    simp [hj, this]
  · rw [update_of_ne hb]
    have : j ≠ i := fun h => hb (by rw [h])
    simp [this]

theorem bitAt_foldl_setBit (is : List Nat) (m : Bytes) (j : Nat) :
    bitAt (is.foldl setBit m) j = (decide (j ∈ is) || bitAt m j) := by
  induction is generalizing m with
  | nil => simp
  | cons i is ih =>
    rw [foldl_cons, ih, bitAt_setBit, ← Bool.or_assoc]
    congr 1
    rw [Bool.or_comm, ← Bool.decide_or]
    exact decide_eq_decide.mpr mem_cons.symm

variable {b : BitVec 8} {m m' : Bytes} {k n i : Nat}

theorem ext_bits (h : ∀ i, bitAt m i = bitAt m' i) : m = m' := by
  funext b
  apply BitVec.eq_of_getLsbD_eq
  intro k hk
  have := h (8 * b + k)
  unfold bitAt at this
  rwa [show (8 * b + k) / 8 = b by omega, show (8 * b + k) % 8 = k by omega] at this

theorem testBit_mask (b : BitVec 8) (k : Nat) (hk : k < 8) : (b &&& 1#8 <<< k == 0#8) = !b.getLsbD k := by
  cases hb : b.getLsbD k
  · simp only [Bool.not_false, beq_iff_eq]
    apply BitVec.eq_of_getLsbD_eq
    intro j _
    rw [BitVec.getLsbD_and, getLsbD_one_shift _ _ hk, BitVec.getLsbD_zero]
    by_cases hj : j = k
    · rw [hj, hb, Bool.false_and]
    · simp [hj]
  · simp only [Bool.not_true, beq_eq_false_iff_ne]
    intro h0
    have := congrArg (BitVec.getLsbD · k) h0
    simp [getLsbD_one_shift _ _ hk, hb] at this

theorem firstClear_eq_some (h : firstClear b = some k) : k < 8 ∧ b.getLsbD k = false := by
  have hk : k < 8 := mem_range.mp (mem_of_find?_eq_some h)
  have hp := find?_some h
  rw [testBit_mask b k hk] at hp
  exact ⟨hk, by simpa using hp⟩

theorem firstClear_eq_none (h : firstClear b = none) : ∀ k < 8, b.getLsbD k := by
  intro k hk
  have hp := find?_eq_none.mp h k (mem_range.mpr hk)
  rw [testBit_mask b k hk] at hp
  simpa using hp

theorem firstClear_le {j : Nat} (h : firstClear b = some k) (hj : j < 8) (hclear : b.getLsbD j = false) : k ≤ j := by
  refine Nat.le_of_not_lt fun hlt => ?_
  have hset := (find?_range_eq_some.mp h).2.2 j hlt
  rw [testBit_mask b j hj, hclear] at hset
  cases hset

theorem eq_allOnes_iff (b : BitVec 8) : b = 0xFF#8 ↔ ∀ k < 8, b.getLsbD k := by
  constructor
  · rintro rfl k hk
    have : ∀ k < 8, (0xFF#8).getLsbD k := by decide
    exact this k hk
  · intro h
    apply BitVec.eq_of_getLsbD_eq
    intro k hk
    have : ∀ k < 8, (0xFF#8).getLsbD k := by decide
    rw [h k hk, this k hk]

theorem count_eq_of_bits (h : ∀ i < n, bitAt m i = bitAt m' i) : count m n = count m' n := by
  apply countP_congr
  intro i hi
  rw [h i (mem_range.mp hi)]

theorem count_setBit (hi : i < n) (hc : bitAt m i = false) : count (setBit m i) n = count m n + 1 := by
  induction n with
  | zero => omega
  | succ n ih =>
    unfold count at ih ⊢
    rw [range_succ, countP_append, countP_append, countP_singleton, countP_singleton]
    by_cases h : i = n
    · subst h
      have hsame : (List.range i).countP (bitAt (setBit m i)) = (List.range i).countP (bitAt m) :=
        count_eq_of_bits fun j hj => by simp [Nat.ne_of_lt hj]
      simp [hsame, hc]
    · rw [ih (by omega)]
      have : n ≠ i := fun h' => h h'.symm
      simp only [bitAt_setBit, this, decide_false, Bool.false_or]
      omega

theorem setBit_clearBit (h : bitAt m i) : setBit (clearBit m i) i = m := by
  apply ext_bits
  intro j
  by_cases hj : j = i
  · simp [hj, h]
  · simp [hj]

theorem count_clearBit (hi : i < n) (hs : bitAt m i) : count (clearBit m i) n + 1 = count m n := by
  have h := count_setBit (m := clearBit m i) hi (by simp)
  rw [setBit_clearBit hs] at h
  exact h.symm

end Bitmap
