import HelinKern.Fifo

/-! The byte queue is a list of bytes, at most `capacity` of them, in every state its calls can bring it to. -/

namespace HelinKern

theorem wrapInt_natCast {n : Nat} (h : n < 2147483648) : wrapInt n = n := by
  unfold wrapInt
  rw [Int.bmod_eq_of_le] <;> omega

theorem wrapInt_lt (x : Int) : wrapInt x < 2147483648 := by
  unfold wrapInt
  have := Int.bmod_lt (x := x) (m := 4294967296) (by decide)
  omega

theorem le_wrapInt (x : Int) : -2147483648 ≤ wrapInt x := by
  unfold wrapInt
  have := Int.le_bmod (x := x) (m := 4294967296) (by decide)
  omega

namespace QueueSize
open CountedRing List

variable {q : QueueSize} {l : List (BitVec 8)} {data : Nat → BitVec 8} {n : Nat}

/-- The queue holds the bytes of `l`. -/
structure Refines (q : QueueSize) (l : List (BitVec 8)) : Prop where
  holds : q.Holds l
  mapped : q.mapped = true

theorem Refines.getFree (h : Refines q l) : q.getFree = q.capacity - l.length := by
  unfold QueueSize.getFree
  rw [h.holds.size]

theorem Refines.create (buffer : Nat → BitVec 8) {capacity : Nat} (h : 0 < capacity) :
    Refines (create buffer capacity) [] where
  holds := ⟨rfl, Nat.zero_le _, h, (Nat.zero_mod _).symm, fun _ hi => absurd hi (Nat.not_lt_zero _)⟩
  mapped := rfl

theorem Refines.clear (h : Refines q l) : Refines q.clear [] where
  holds := ⟨rfl, Nat.zero_le _, Nat.lt_of_le_of_lt (Nat.zero_le _) h.holds.front_lt, (Nat.zero_mod _).symm,
    fun _ hi => absurd hi (Nat.not_lt_zero _)⟩
  mapped := h.mapped

theorem enqueue_of_not_fits (h : n = 0 ∨ q.getFree < n) : q.enqueue (some data) n = (failed, q) := by
  unfold enqueue
  dsimp only
  rcases h with rfl | h
  · rfl
  · rw [if_pos h]
    split <;> rfl

theorem Refines.enqueue_eq (h : Refines q l) (hn : 0 < n) (hfree : n ≤ q.getFree) :
    q.enqueue (some data) n = (n, { q with toCountedRing := q.pushAll data n }) := by
  unfold enqueue
  dsimp only
  rw [if_neg (by omega), if_neg (by omega), h.mapped]
  rfl

theorem Refines.enqueue (h : Refines q l) (data : Nat → BitVec 8) (hn : 0 < n) (hfree : n ≤ q.getFree) :
    (q.enqueue (some data) n).1 = n ∧ Refines (q.enqueue (some data) n).2 (l ++ elements data n) ∧
      (q.enqueue (some data) n).2.capacity = q.capacity := by
  rw [h.enqueue_eq hn hfree]
  rw [h.getFree] at hfree
  exact ⟨rfl, ⟨h.holds.pushAll data (by omega), h.mapped⟩, pushAll_capacity ..⟩

theorem dequeue_of_not_fits (h : n = 0 ∨ q.size < n) : q.dequeue (some data) n = (failed, some data, q) := by
  unfold dequeue
  dsimp only
  rw [if_neg (by omega)]

theorem Refines.dequeue (h : Refines q l) (data : Nat → BitVec 8) (hn : 0 < n) (hsize : n ≤ q.size) :
    ∃ data' q', q.dequeue (some data) n = (n, some data', q') ∧ elements data' n = l.take n ∧
      (∀ i, n ≤ i → data' i = data i) ∧ Refines q' (l.drop n) ∧ q'.capacity = q.capacity := by
  obtain ⟨htaken, hrest, hholds⟩ := h.holds.popAll data (n := n) (by rw [← h.holds.size]; exact hsize)
  refine ⟨(q.popAll data n).1, { q with toCountedRing := (q.popAll data n).2 }, ?_, htaken, hrest, ⟨hholds, h.mapped⟩,
    popAll_capacity ..⟩
  unfold QueueSize.dequeue
  dsimp only
  rw [if_pos ⟨hn, hsize⟩]

/-- What was put into the queue is what was taken out of it and then what it holds. -/
def Carries (q : QueueSize) (accepted delivered : List (BitVec 8)) : Prop :=
  ∃ l, Refines q l ∧ accepted = delivered ++ l

variable {accepted delivered : List (BitVec 8)}

theorem Carries.initial (h : Carries q accepted delivered) : delivered <+: accepted := by
  obtain ⟨l, -, rfl⟩ := h
  exact prefix_append ..

theorem Carries.create (buffer : Nat → BitVec 8) {capacity : Nat} (h : 0 < capacity) :
    Carries (create buffer capacity) [] [] :=
  ⟨[], .create buffer h, rfl⟩

theorem Carries.enqueue (h : Carries q accepted delivered) (data : Nat → BitVec 8) (hn : 0 < n) (hfree : n ≤ q.getFree) :
    (q.enqueue (some data) n).1 = n ∧ Carries (q.enqueue (some data) n).2 (accepted ++ elements data n) delivered ∧
      (q.enqueue (some data) n).2.capacity = q.capacity := by
  obtain ⟨l, hrefines, rfl⟩ := h
  obtain ⟨hret, hafter, hcap⟩ := hrefines.enqueue data hn hfree
  exact ⟨hret, ⟨_, hafter, append_assoc ..⟩, hcap⟩

theorem Carries.dequeue (h : Carries q accepted delivered) (data : Nat → BitVec 8) (hn : 0 < n) (hsize : n ≤ q.size) :
    ∃ data' q', q.dequeue (some data) n = (n, some data', q') ∧
      elements data' n = (accepted.drop delivered.length).take n ∧
      Carries q' accepted (delivered ++ elements data' n) ∧ q'.capacity = q.capacity := by
  obtain ⟨l, hrefines, rfl⟩ := h
  obtain ⟨data', q', heq, htaken, -, hafter, hcap⟩ := hrefines.dequeue data hn hsize
  refine ⟨data', q', heq, ?_, ⟨_, hafter, ?_⟩, hcap⟩
  · rw [htaken, drop_left]
  · rw [htaken, append_assoc, take_append_drop]

theorem Refines.exec (h : Refines q l) (op : Op) :
    Refines (q.exec op) (op.apply q.capacity l) ∧ (q.exec op).capacity = q.capacity := by
  have hsize := h.holds.size
  have hfree := h.getFree
  match op with
  | .enqueue none n => exact ⟨h, rfl⟩
  | .dequeue none n => exact ⟨h, rfl⟩
  | .clear => exact ⟨h.clear, rfl⟩
  | .enqueue (some data) n =>
    unfold QueueSize.exec Op.apply
    dsimp only
    by_cases hn : 0 < n ∧ n ≤ q.getFree
    · obtain ⟨-, hrefines, hcap⟩ := h.enqueue data hn.1 hn.2
      rw [if_pos (by omega)]
      exact ⟨hrefines, hcap⟩
    rw [enqueue_of_not_fits (by omega)]
    split
    · obtain rfl : n = 0 := by omega
      rw [show elements data 0 = [] from rfl, append_nil]
      exact ⟨h, rfl⟩
    · exact ⟨h, rfl⟩
  | .dequeue (some data) n =>
    unfold QueueSize.exec Op.apply
    dsimp only
    by_cases hn : 0 < n ∧ n ≤ q.size
    · obtain ⟨data', q', heq, -, -, hrefines, hcap⟩ := h.dequeue data hn.1 hn.2
      rw [heq, if_pos (by omega)]
      exact ⟨hrefines, hcap⟩
    · rw [dequeue_of_not_fits (by omega)]
      split
      · obtain rfl : n = 0 := by omega
        exact ⟨h, rfl⟩
      · exact ⟨h, rfl⟩

theorem Refines.foldl (h : Refines q l) (ops : List Op) :
    Refines (ops.foldl QueueSize.exec q) (ops.foldl (Op.apply q.capacity) l) ∧
      (ops.foldl QueueSize.exec q).capacity = q.capacity := by
  induction ops generalizing q l with
  | nil => exact ⟨h, rfl⟩
  | cons op ops ih =>
    obtain ⟨hrefines, hcap⟩ := h.exec op
    have hrest := ih hrefines
    rw [hcap] at hrest
    exact hrest

/-- From `queueSize_create` on the queue is the list its calls make, and the next call does to both the same. -/
theorem queueSize_fifo (buffer : Nat → BitVec 8) {capacity : Nat} (hcap : 0 < capacity) (ops : List Op) :
    let q := ops.foldl QueueSize.exec (create buffer capacity)
    let l := ops.foldl (Op.apply capacity) []
    q.capacity = capacity ∧ l.length ≤ capacity ∧ q.size = l.length ∧ q.front < capacity ∧ q.rear < capacity ∧
      q.rear = (q.front + q.size) % capacity ∧ Refines q l ∧
      (∀ data n, 0 < n → n ≤ q.getFree →
        (q.enqueue (some data) n).1 = n ∧ Refines (q.enqueue (some data) n).2 (l ++ elements data n)) ∧
      (∀ data n, 0 < n → n ≤ q.size → ∃ data' q', q.dequeue (some data) n = (n, some data', q') ∧
        elements data' n = l.take n ∧ (∀ i, n ≤ i → data' i = data i) ∧ Refines q' (l.drop n)) ∧
      (∀ data n, data = none ∨ n = 0 ∨ q.getFree < n → q.enqueue data n = (failed, q)) ∧
      (∀ data n, data = none ∨ n = 0 ∨ q.size < n → q.dequeue data n = (failed, data, q)) ∧ Refines q.clear [] := by
  intro q l
  obtain ⟨hrefines, hsame⟩ : Refines q l ∧ q.capacity = capacity := (Refines.create buffer hcap).foldl ops
  have hholds := hrefines.holds
  have hroom := hholds.room
  have hfront := hholds.front_lt
  have hrear := hholds.rear_lt
  have hrear' := hholds.rear
  rw [hsame] at hroom hfront hrear hrear'
  refine ⟨hsame, hroom, hholds.size, hfront, hrear, hrear', hrefines, ?_, ?_, ?_, ?_, hrefines.clear⟩
  · intro data n hn hfree
    obtain ⟨hret, hafter, -⟩ := hrefines.enqueue data hn hfree
    exact ⟨hret, hafter⟩
  · intro data n hn hsize
    obtain ⟨data', q', heq, htaken, hrest, hafter, -⟩ := hrefines.dequeue data hn hsize
    exact ⟨data', q', heq, htaken, hrest, hafter⟩
  · rintro (_ | data) n h
    · rfl
    · exact enqueue_of_not_fits (h.resolve_left nofun)
  · rintro (_ | data) n h
    · rfl
    · exact dequeue_of_not_fits (h.resolve_left nofun)

/-- A ring of three bytes that wraps around in the middle of the second transfer. -/
theorem queueSize_fifo_wrap :
    let q := [Op.enqueue (some fun i => BitVec.ofNat 8 i) 2, .dequeue (some fun _ => 0) 1,
      .enqueue (some fun i => BitVec.ofNat 8 (7 + i)) 2].foldl QueueSize.exec (create (fun _ => 0) 3)
    q.front = 1 ∧ q.rear = 1 ∧ Refines q [1, 7, 8] :=
  ⟨rfl, rfl, (queueSize_fifo (fun _ => 0) (by decide) _).2.2.2.2.2.2.1⟩

end QueueSize
end HelinKern
