import HelinKern.Lib.RingBuffer

/-! Ring buffers that count their elements, and the list such a ring holds from its front on. -/

structure CountedRing (α : Type) where
  buffer : Nat → α
  capacity : Nat
  size : Nat
  front : Nat
  rear : Nat

namespace CountedRing
open Function List
variable {α : Type}

def push (r : CountedRing α) (x : α) : CountedRing α :=
  { r with buffer := update r.buffer r.rear x, rear := (r.rear + 1) % r.capacity, size := r.size + 1 }

def pop (r : CountedRing α) : α × CountedRing α :=
  (r.buffer r.front, { r with front := (r.front + 1) % r.capacity, size := r.size - 1 })

/-- `r` holds the elements of `l`, the oldest first. -/
structure Holds (r : CountedRing α) (l : List α) : Prop where
  size : r.size = l.length
  room : l.length ≤ r.capacity
  front_lt : r.front < r.capacity
  rear : r.rear = (r.front + r.size) % r.capacity
  slot : ∀ i (h : i < l.length), r.buffer ((r.front + i) % r.capacity) = l[i]

namespace Holds
open RingBuffer
variable {r : CountedRing α} {l : List α} {x : α}

theorem rear_lt (h : Holds r l) : r.rear < r.capacity := by
  rw [h.rear]
  exact Nat.mod_lt _ (Nat.lt_of_le_of_lt (Nat.zero_le _) h.front_lt)

theorem push (h : Holds r l) (x : α) (hroom : l.length < r.capacity) : Holds (r.push x) (l ++ [x]) where
  size := by rw [length_append, ← h.size]; rfl
  room := by
    rw [length_append]
    exact hroom
  front_lt := h.front_lt
  rear := by
    show (r.rear + 1) % r.capacity = (r.front + (r.size + 1)) % r.capacity
    rw [h.rear, slot_succ]
  slot i hi := by
    show update r.buffer r.rear x ((r.front + i) % r.capacity) = _
    rw [length_append, length_singleton] at hi
    rw [h.rear, h.size]
    by_cases hl : i = l.length
    · subst hl
      simp
    · have hlt : i < l.length := by omega
      rw [update_of_ne, h.slot i hlt, getElem_append_left hlt]
      exact fun heq => hl ((slot_inj (by omega) hroom).mp heq)

theorem pop (h : Holds r (x :: l)) : r.pop.1 = x ∧ Holds r.pop.2 l := by
  have hroom := h.room
  have hsize := h.size
  rw [length_cons] at hroom hsize
  have hslot : ∀ i, ((r.front + 1) % r.capacity + i) % r.capacity = (r.front + (i + 1)) % r.capacity := by
    intro i
    rw [Nat.mod_add_mod, Nat.add_assoc, Nat.add_comm 1 i]
  constructor
  · have := h.slot 0 (by rw [length_cons]; omega)
    rwa [Nat.add_zero, Nat.mod_eq_of_lt h.front_lt] at this
  · refine ⟨?_, by show _ ≤ r.capacity; omega, Nat.mod_lt _ (by omega), ?_, ?_⟩
    · show r.size - 1 = l.length
      omega
    · show r.rear = ((r.front + 1) % r.capacity + (r.size - 1)) % r.capacity
      rw [h.rear, hslot, hsize, Nat.add_sub_cancel]
    · intro i hi
      show r.buffer (((r.front + 1) % r.capacity + i) % r.capacity) = l[i]
      rw [hslot, h.slot (i + 1) (by rw [length_cons]; omega)]
      rfl

end Holds

def elements (data : Nat → α) (n : Nat) : List α := (List.range n).map data

theorem elements_succ (data : Nat → α) (n : Nat) : elements data (n + 1) = elements data n ++ [data n] := by
  unfold elements
  rw [range_succ, map_append, map_singleton]

theorem length_elements (data : Nat → α) (n : Nat) : (elements data n).length = n := by
  unfold elements
  rw [length_map, length_range]

variable {n : Nat}

theorem getElem_elements {data : Nat → α} {i : Nat} (h : i < (elements data n).length) :
    (elements data n)[i] = data i := by
  simp [elements]

def toList (r : CountedRing α) : List α := elements (fun i => r.buffer ((r.front + i) % r.capacity)) r.size

theorem Holds.toList_eq {r : CountedRing α} {l : List α} (h : Holds r l) : r.toList = l := by
  refine ext_getElem ((length_elements ..).trans h.size) fun i hi hi' => ?_
  exact (getElem_elements hi).trans (h.slot i hi')

def pushAll (r : CountedRing α) (data : Nat → α) (n : Nat) : CountedRing α :=
  (List.range n).foldl (fun r i => r.push (data i)) r

def popAll (r : CountedRing α) (data : Nat → α) (n : Nat) : (Nat → α) × CountedRing α :=
  (List.range n).foldl (fun (data, r) i => (update data i r.pop.1, r.pop.2)) (data, r)

section
variable (r : CountedRing α) (data : Nat → α) (n)

theorem pushAll_succ : r.pushAll data (n + 1) = (r.pushAll data n).push (data n) := by
  unfold pushAll
  rw [range_succ, foldl_append, foldl_cons, foldl_nil]

theorem popAll_succ : r.popAll data (n + 1) =
      (update (r.popAll data n).1 n (r.popAll data n).2.pop.1, (r.popAll data n).2.pop.2) := by
  unfold popAll
  rw [range_succ, foldl_append, foldl_cons, foldl_nil]

theorem pushAll_capacity : (r.pushAll data n).capacity = r.capacity := by
  induction n with
  | zero => rfl
  | succ n ih =>
    rw [pushAll_succ]
    exact ih

theorem popAll_capacity : (r.popAll data n).2.capacity = r.capacity := by
  induction n with
  | zero => rfl
  | succ n ih =>
    rw [popAll_succ]
    exact ih

end

variable {r : CountedRing α} {l : List α}

theorem Holds.pushAll (h : Holds r l) (data : Nat → α) (hn : l.length + n ≤ r.capacity) :
    Holds (r.pushAll data n) (l ++ elements data n) := by
  induction n with
  | zero =>
    rw [show elements data 0 = [] from rfl, append_nil]
    exact h
  | succ n ih =>
    rw [pushAll_succ, elements_succ, ← append_assoc]
    refine (ih (by omega)).push _ ?_
    rw [length_append, length_elements, pushAll_capacity]
    omega

theorem Holds.popAll (h : Holds r l) (data : Nat → α) (hn : n ≤ l.length) :
    elements (r.popAll data n).1 n = l.take n ∧ (∀ i, n ≤ i → (r.popAll data n).1 i = data i) ∧
      Holds (r.popAll data n).2 (l.drop n) := by
  induction n with
  | zero => exact ⟨rfl, fun _ _ => rfl, h⟩
  | succ n ih =>
    obtain ⟨htaken, hrest, hholds⟩ := ih (by omega)
    rw [drop_eq_getElem_cons (by omega)] at hholds
    obtain ⟨hfirst, hholds⟩ := hholds.pop
    rw [popAll_succ]
    refine ⟨?_, ?_, hholds⟩
    · have hkept : elements (update (r.popAll data n).1 n (r.popAll data n).2.pop.1) n =
          elements (r.popAll data n).1 n := by
        refine map_congr_left fun i hi => update_of_ne ?_ _ _
        have := mem_range.mp hi
        omega
      rw [elements_succ, hkept, htaken]
      dsimp only
      rw [update_self, hfirst, take_succ_eq_append_getElem (by omega)]
    · intro i hi
      dsimp only
      rw [update_of_ne (by omega), hrest i (by omega)]

end CountedRing
