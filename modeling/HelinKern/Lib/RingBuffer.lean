import Mathlib.Data.List.Basic
import Mathlib.Data.Nat.ModEq
import Mathlib.Logic.Function.Basic

/-! Ring buffers with a head and a tail index, one slot of which stays empty, and the list they hold from
    the tail on. Removal from the middle shifts what follows. -/

structure RingBuffer (α : Type) where
  head : Nat
  tail : Nat
  size : Nat
  data : Nat → Option α

namespace RingBuffer
open Function List
variable {α : Type} {n i j fuel : Nat}

def new (size : Nat) : RingBuffer α := ⟨0, 0, size, fun _ => none⟩

def read (r : RingBuffer α) : Option α × RingBuffer α :=
  if r.tail = r.head then (none, r)
  else (r.data r.tail, { r with data := update r.data r.tail none, tail := (r.tail + 1) % r.size })

def write (r : RingBuffer α) (x : α) : RingBuffer α :=
  if (r.head + 1) % r.size = r.tail then r
  else { r with data := update r.data r.head (some x), head := (r.head + 1) % r.size }

def find [DecidableEq α] (r : RingBuffer α) (x : α) : (fuel i : Nat) → Option Nat
  | 0, _ => none
  | fuel + 1, i =>
    if i = r.head then none
    else if r.data i = some x then some i
    else find r x fuel ((i + 1) % r.size)

def shift (head size : Nat) : (fuel i : Nat) → (Nat → Option α) → Nat → Option α
  | 0, _, data => data
  | fuel + 1, i, data =>
    if i = head then data
    else shift head size fuel ((i + 1) % size) (update data i (data ((i + 1) % size)))

def remove [DecidableEq α] (r : RingBuffer α) (x : α) : RingBuffer α :=
  match r.find x r.size r.tail with
  | none => r
  | some i =>
    { r with
      data := shift r.head r.size r.size i (update r.data i none)
      head := if r.head ≠ 0 then r.head - 1 else r.size - 1 }

def toList (r : RingBuffer α) : List α :=
  (List.range ((r.head + r.size - r.tail) % r.size)).filterMap fun i => r.data ((r.tail + i) % r.size)

/-- `r` holds the elements of `l`, the oldest first. -/
structure Holds (r : RingBuffer α) (l : List α) : Prop where
  tail_lt : r.tail < r.size
  room : l.length < r.size
  head : r.head = (r.tail + l.length) % r.size
  slot : ∀ i (h : i < l.length), r.data ((r.tail + i) % r.size) = some l[i]

theorem write_size (r : RingBuffer α) (x : α) : (r.write x).size = r.size := by
  unfold write
  split <;> rfl

theorem remove_size [DecidableEq α] (r : RingBuffer α) (x : α) : (r.remove x).size = r.size := by
  unfold remove
  split <;> rfl

theorem slot_inj {t : Nat} (hi : i < n) (hj : j < n) : (t + i) % n = (t + j) % n ↔ i = j := by
  constructor
  · intro h
    have : i ≡ j [MOD n] := Nat.ModEq.add_left_cancel' t h
    exact Nat.ModEq.eq_of_lt_of_lt this hi hj
  · rintro rfl
    rfl

theorem slot_succ (t n i : Nat) : ((t + i) % n + 1) % n = (t + (i + 1)) % n := by
  rw [Nat.mod_add_mod, Nat.add_assoc]

namespace Holds
variable {r : RingBuffer α} {l : List α} {x : α}

theorem new {size : Nat} (h : 0 < size) : Holds (RingBuffer.new (α := α) size) [] where
  tail_lt := h
  room := h
  head := by simp [RingBuffer.new]
  slot _ h := by simp at h

theorem tail_eq_head_iff (h : Holds r l) : r.tail = r.head ↔ l = [] := by
  have htail : r.tail = (r.tail + 0) % r.size := by rw [Nat.add_zero, Nat.mod_eq_of_lt h.tail_lt]
  have hpos : 0 < r.size := Nat.lt_of_le_of_lt (Nat.zero_le _) h.tail_lt
  rw [h.head, ← length_eq_zero_iff]
  constructor
  · intro he
    exact ((slot_inj hpos h.room).mp (htail.symm.trans he)).symm
  · intro hl
    rw [hl]
    exact htail

theorem slot_eq_head_iff (h : Holds r l) (hi : i ≤ l.length) : (r.tail + i) % r.size = r.head ↔ i = l.length := by
  rw [h.head, slot_inj (Nat.lt_of_le_of_lt hi h.room) h.room]

theorem count_eq (h : Holds r l) : (r.head + r.size - r.tail) % r.size = l.length := by
  have htail := h.tail_lt
  have hroom := h.room
  rw [h.head]
  by_cases hw : r.tail + l.length < r.size
  · rw [Nat.mod_eq_of_lt hw, show r.tail + l.length + r.size - r.tail = l.length + r.size by omega,
      Nat.add_mod_right, Nat.mod_eq_of_lt hroom]
  · have hwrap : (r.tail + l.length) % r.size = r.tail + l.length - r.size := by
      rw [Nat.mod_eq_sub_mod (by omega), Nat.mod_eq_of_lt (by omega)]
    rw [hwrap, show r.tail + l.length - r.size + r.size - r.tail = l.length by omega, Nat.mod_eq_of_lt hroom]

theorem filterMap_getElem? (l : List α) : (List.range l.length).filterMap (fun i => l[i]?) = l := by
  induction l with
  | nil => rfl
  | cons x l ih =>
    rw [length_cons, range_succ_eq_map]
    simp [ih]

theorem toList_eq (h : Holds r l) : r.toList = l := by
  have hslots : ∀ i ∈ List.range l.length, r.data ((r.tail + i) % r.size) = l[i]? := by
    intro i hi
    rw [mem_range] at hi
    rw [h.slot i hi, getElem?_eq_getElem hi]
  unfold RingBuffer.toList
  rw [h.count_eq, filterMap_congr hslots, filterMap_getElem?]

theorem read_nil (h : Holds r []) : r.read = (none, r) := by
  unfold RingBuffer.read
  rw [if_pos (h.tail_eq_head_iff.mpr rfl)]

theorem first (h : Holds r (x :: l)) : r.data r.tail = some x := by
  have hslot := h.slot 0 (Nat.zero_lt_succ _)
  rwa [Nat.add_zero, Nat.mod_eq_of_lt h.tail_lt] at hslot

variable {data : Nat → Option α}

theorem drop_first (h : Holds r (x :: l)) (hdata : ∀ j, j ≠ r.tail → data j = r.data j) :
    Holds { r with data, tail := (r.tail + 1) % r.size } l := by
  have hpos : 0 < r.size := Nat.lt_of_le_of_lt (Nat.zero_le _) h.tail_lt
  have hroom : l.length + 1 < r.size := h.room
  refine ⟨Nat.mod_lt _ hpos, by simp only; omega, ?_, ?_⟩
  · simp only [Nat.mod_add_mod]
    rw [h.head, length_cons, Nat.add_assoc, Nat.add_comm 1]
  · intro i hi
    have hslot : ((r.tail + 1) % r.size + i) % r.size = (r.tail + (i + 1)) % r.size := by
      rw [Nat.mod_add_mod, Nat.add_assoc, Nat.add_comm 1]
    have hother : (r.tail + (i + 1)) % r.size ≠ r.tail := by
      intro he
      have := (slot_inj (by omega) hpos).mp
        (he.trans (by rw [Nat.add_zero, Nat.mod_eq_of_lt h.tail_lt] : r.tail = (r.tail + 0) % r.size))
      omega
    simp only
    rw [hslot, hdata _ hother]
    exact h.slot (i + 1) (Nat.succ_lt_succ hi)

theorem read_cons (h : Holds r (x :: l)) : ∃ r', r.read = (some x, r') ∧ Holds r' l := by
  have hne : ¬r.tail = r.head := fun he => cons_ne_nil _ _ (h.tail_eq_head_iff.mp he)
  refine ⟨_, by rw [RingBuffer.read, if_neg hne, h.first], ?_⟩
  exact h.drop_first fun j hj => update_of_ne hj ..

theorem head_succ (h : Holds r l) : (r.head + 1) % r.size = (r.tail + (l.length + 1)) % r.size := by
  rw [h.head, slot_succ]

theorem write_of_room (h : Holds r l) (hroom : l.length + 1 < r.size) : Holds (r.write x) (l ++ [x]) := by
  have hpos : 0 < r.size := Nat.lt_of_le_of_lt (Nat.zero_le _) h.tail_lt
  have hne : ¬(r.head + 1) % r.size = r.tail := by
    intro he
    have := (slot_inj hroom hpos).mp
      (h.head_succ.symm.trans (he.trans (by rw [Nat.add_zero, Nat.mod_eq_of_lt h.tail_lt])))
    omega
  unfold RingBuffer.write
  rw [if_neg hne]
  refine ⟨h.tail_lt, by simpa using hroom, by simpa using h.head_succ, ?_⟩
  intro i hi
  simp only [length_append, length_singleton] at hi
  simp only
  rw [h.head]
  by_cases hlast : i = l.length
  · subst hlast
    simp
  · have hi' : i < l.length := by omega
    rw [update_of_ne fun he => hlast ((slot_inj (by omega) h.room).mp he), h.slot i hi',
      getElem_append_left hi']

theorem write_of_full (h : Holds r l) (hfull : l.length + 1 = r.size) : r.write x = r := by
  unfold RingBuffer.write
  rw [if_pos]
  rw [h.head_succ, hfull, Nat.add_mod_right, Nat.mod_eq_of_lt h.tail_lt]

variable [DecidableEq α]

theorem write (h : Holds r l) : ∃ l', Holds (r.write x) l' ∧ ∀ y, y ≠ x → l'.count y = l.count y := by
  by_cases hroom : l.length + 1 < r.size
  · refine ⟨l ++ [x], h.write_of_room hroom, fun y hy => ?_⟩
    rw [count_append, count_singleton, if_neg (by simpa using hy.symm), Nat.add_zero]
  have hfull : l.length + 1 = r.size := by
    have := h.room
    omega
  exact ⟨l, (h.write_of_full hfull).symm ▸ h, fun _ _ => rfl⟩

theorem find_eq (h : Holds r l) (hi : i ≤ l.length) (hfuel : l.length - i < fuel) :
    r.find x fuel ((r.tail + i) % r.size) =
      if x ∈ l.drop i then some ((r.tail + (i + (l.drop i).idxOf x)) % r.size) else none := by
  induction fuel generalizing i with
  | zero => omega
  | succ fuel ih =>
    unfold find
    by_cases hend : i = l.length
    · subst hend
      rw [if_pos h.head.symm]
      simp
    have hlt : i < l.length := by omega
    rw [if_neg (mt (h.slot_eq_head_iff hi).mp hend), h.slot i hlt, drop_eq_getElem_cons hlt]
    by_cases hx : l[i] = x
    · rw [if_pos (by rw [hx])]
      simp [hx]
    have hx' : x ≠ l[i] := fun he => hx he.symm
    rw [if_neg (by simpa using hx), slot_succ, ih hlt (by omega)]
    simp only [mem_cons, hx', false_or, idxOf_cons_ne _ hx]
    rw [Nat.add_right_comm i 1]
    rfl

theorem shift_apply (h : Holds r l) (hi : i ≤ l.length) (hfuel : l.length - i < fuel) (hj : j < r.size) :
    shift r.head r.size fuel ((r.tail + i) % r.size) data ((r.tail + j) % r.size) =
      if i ≤ j ∧ j < l.length then data ((r.tail + (j + 1)) % r.size) else data ((r.tail + j) % r.size) := by
  induction fuel generalizing i data with
  | zero => omega
  | succ fuel ih =>
    have hroom := h.room
    unfold shift
    by_cases hend : i = l.length
    · rw [if_pos ((h.slot_eq_head_iff hi).mpr hend), if_neg (by omega)]
    have hlt : i < l.length := by omega
    rw [if_neg (mt (h.slot_eq_head_iff hi).mp hend), slot_succ, ih hlt (by omega)]
    by_cases hij : j = i
    · subst hij
      rw [if_neg (by omega), if_pos ⟨Nat.le_refl _, hlt⟩, update_self]
    rw [update_of_ne fun he => hij ((slot_inj hj (by omega)).mp he)]
    by_cases hlater : i + 1 ≤ j ∧ j < l.length
    · rw [if_pos hlater, if_pos ⟨by omega, hlater.2⟩,
        update_of_ne fun he => by have := (slot_inj (by omega) (by omega)).mp he; omega]
    · rw [if_neg hlater, if_neg (by omega)]

theorem pred_mod {a : Nat} (hn : 0 < n) : (if (a + 1) % n ≠ 0 then (a + 1) % n - 1 else n - 1) = a % n := by
  have hlt := Nat.mod_lt a hn
  rw [← Nat.mod_add_mod]
  by_cases h : a % n + 1 = n
  · rw [h, if_neg (by simp)]
    omega
  · rw [Nat.mod_eq_of_lt (by omega : a % n + 1 < n), if_pos (Nat.succ_ne_zero _), Nat.add_sub_cancel]

theorem find_tail (h : Holds r l) :
    r.find x r.size r.tail = if x ∈ l then some ((r.tail + l.idxOf x) % r.size) else none := by
  have hfind := h.find_eq (x := x) (Nat.zero_le l.length) h.room
  simpa [Nat.mod_eq_of_lt h.tail_lt] using hfind

theorem shift_erase (h : Holds r l) (hx : x ∈ l)
    (hdata : ∀ j, j ≠ (r.tail + l.idxOf x) % r.size → data j = r.data j) : Holds
      { r with
        data := shift r.head r.size r.size ((r.tail + l.idxOf x) % r.size) data
        head := if r.head ≠ 0 then r.head - 1 else r.size - 1 }
      (l.erase x) := by
  have hpos : 0 < r.size := Nat.lt_of_le_of_lt (Nat.zero_le _) h.tail_lt
  have hroom := h.room
  have hk : l.idxOf x < l.length := idxOf_lt_length_iff.mpr hx
  have hlen : (l.erase x).length = l.length - 1 := length_erase_of_mem hx
  refine ⟨h.tail_lt, by simp only [hlen]; omega, ?_, ?_⟩
  · simp only [hlen]
    rw [h.head, show r.tail + l.length = r.tail + (l.length - 1) + 1 by omega]
    exact pred_mod hpos
  · intro i hi
    simp only
    rw [h.shift_apply (Nat.le_of_lt hk) (by omega) (by omega)]
    simp only [erase_eq_eraseIdx_of_idxOf rfl, getElem_eraseIdx]
    by_cases hik : i < l.idxOf x
    · rw [if_neg (by omega), dif_pos hik,
        hdata _ fun he => by have := (slot_inj (by omega) (by omega)).mp he; omega]
      exact h.slot i (by omega)
    · rw [if_pos (by omega), dif_neg hik,
        hdata _ fun he => by have := (slot_inj (by omega) (by omega)).mp he; omega]
      exact h.slot (i + 1) (by omega)

theorem remove (h : Holds r l) : Holds (r.remove x) (l.erase x) := by
  unfold RingBuffer.remove
  rw [h.find_tail]
  by_cases hx : x ∈ l
  · rw [if_pos hx]
    exact h.shift_erase hx fun j hj => update_of_ne hj ..
  · rw [if_neg hx, erase_of_not_mem hx]
    exact h

end Holds

end RingBuffer
