import HelinKern.Filo
import HelinKern.Lib.Mealy

/-! The ring of `filo_t` answers every sequence of calls as a list of at most `size - 1` handles does. -/

namespace HelinKern
namespace Filo
open Function Option
open RingBuffer (Holds slot_inj slot_succ)

variable {α : Type} {q : Filo α} {l : List α} {handle : α}

@[simp] theorem ring_head (q : Filo α) : q.ring.head = q.head := rfl

@[simp] theorem ring_tail (q : Filo α) : q.ring.tail = q.tail := rfl

@[simp] theorem ring_size (q : Filo α) : q.ring.size = q.size := rfl

@[simp] theorem ring_data (q : Filo α) (i : Nat) : q.ring.data i = some (q.data i) := rfl

structure Ok (size : Nat) (q : Filo α) : Prop where
  size : q.size = size
  holds : q.ring.Holds q.toList

variable {size : Nat}

theorem Ok.of_holds (hsize : q.size = size) (h : q.ring.Holds l) : Ok size q ∧ q.toList = l := by
  have hlist : q.toList = l := h.toList_eq
  exact ⟨⟨hsize, hlist.symm ▸ h⟩, hlist⟩

theorem Ok.new (data : Nat → α) (hsize : 0 < size) : Ok size (new data size) ∧ (new data size).toList = [] :=
  Ok.of_holds rfl ⟨hsize, hsize, (Nat.zero_mod _).symm, fun _ hi => absurd hi (Nat.not_lt_zero _)⟩

theorem read_size [Zero α] (q : Filo α) : q.read.2.size = q.size := by
  unfold read
  split <;> rfl

theorem write_size (q : Filo α) (handle : α) : (q.write handle).2.size = q.size := by
  unfold write
  split <;> rfl

theorem read_nil [Zero α] (h : q.ring.Holds []) : q.read = (0, q) := by
  exact if_pos (h.tail_eq_head_iff.mpr rfl)

theorem read_cons [Zero α] (h : q.ring.Holds (handle :: l)) : q.read.1 = handle ∧ q.read.2.ring.Holds l := by
  have hne : ¬q.tail = q.head := fun he => List.cons_ne_nil _ _ (h.tail_eq_head_iff.mp he)
  unfold read
  rw [if_neg hne]
  refine ⟨some.inj h.first, h.drop_first fun j hj => ?_⟩
  exact congrArg some (update_of_ne hj ..)

theorem full_iff (h : q.ring.Holds l) : (q.head + 1) % q.size = q.tail ↔ l.length = q.size - 1 := by
  have hroom : l.length < q.size := h.room
  have htail : q.tail < q.size := h.tail_lt
  have hnext : (q.head + 1) % q.size = (q.tail + (l.length + 1)) % q.size := h.head_succ
  rw [hnext]
  constructor
  · intro heq
    by_contra hne
    have hzero : (q.tail + (l.length + 1)) % q.size = (q.tail + 0) % q.size := by
      rw [heq, Nat.add_zero, Nat.mod_eq_of_lt htail]
    have := (slot_inj (by omega) (by omega)).mp hzero
    omega
  · intro hlen
    rw [hlen, show q.size - 1 + 1 = q.size by omega, Nat.add_mod_right, Nat.mod_eq_of_lt htail]

theorem write_of_full (h : q.ring.Holds l) (hfull : l.length = q.size - 1) : q.write handle = (-1, q) := by
  exact if_pos ((full_iff h).mpr hfull)

theorem write_of_room (h : q.ring.Holds l) (handle : α) (hroom : l.length ≠ q.size - 1) :
    (q.write handle).1 = 0 ∧ (q.write handle).2.ring.Holds (l ++ [handle]) := by
  have hlt : l.length < q.size := h.room
  have hne : ¬(q.head + 1) % q.size = q.tail := fun he => hroom ((full_iff h).mp he)
  have hholds := h.write_of_room (x := handle) (show l.length + 1 < q.size by omega)
  have hring : q.ring.write handle = (q.write handle).2.ring := by
    unfold RingBuffer.write write
    rw [ring_head, ring_size, ring_tail, if_neg hne, if_neg hne]
    congr 1
    funext i
    exact (apply_update (fun _ => some) q.data q.head handle i).symm
  rw [← hring]
  refine ⟨?_, hholds⟩
  unfold write
  rw [if_neg hne]

theorem shift_eq (h : q.ring.Holds l) {fuel i : Nat} (hi : i ≤ l.length) (hfuel : l.length - i < fuel) (data : Nat → α) :
    ∃ data', q.shift fuel ((q.tail + i) % q.size) data = some data' ∧
      RingBuffer.shift q.head q.size fuel ((q.tail + i) % q.size) (fun j => some (data j)) = fun j => some (data' j) := by
  induction fuel generalizing i data with
  | zero => omega
  | succ fuel ih =>
    have hhead : (q.tail + i) % q.size = q.head ↔ i = l.length := h.slot_eq_head_iff hi
    unfold shift RingBuffer.shift
    by_cases hend : i = l.length
    · rw [if_pos (hhead.mpr hend), if_pos (hhead.mpr hend)]
      exact ⟨data, rfl, rfl⟩
    rw [if_neg (mt hhead.mp hend), if_neg (mt hhead.mp hend), slot_succ]
    obtain ⟨data', hshift, hring⟩ := ih (i := i + 1) (by omega) (by omega)
      (update data ((q.tail + i) % q.size) (data ((q.tail + (i + 1)) % q.size)))
    refine ⟨data', hshift, ?_⟩
    rw [← hring]
    congr 1
    funext j
    exact (apply_update (fun _ => some) data _ _ j).symm

variable [DecidableEq α]

theorem search_eq (h : q.ring.Holds l) (handle : α) {fuel i : Nat} (hi : i ≤ l.length) (hfuel : l.length - i < fuel) :
    q.search handle fuel ((q.tail + i) % q.size) = some (q.ring.find handle fuel ((q.tail + i) % q.size)) := by
  induction fuel generalizing i with
  | zero => omega
  | succ fuel ih =>
    have hhead : (q.tail + i) % q.size = q.head ↔ i = l.length := h.slot_eq_head_iff hi
    unfold search RingBuffer.find
    rw [ring_head, ring_size, ring_data]
    by_cases hend : i = l.length
    · rw [if_pos (hhead.mpr hend), if_pos (hhead.mpr hend)]
    rw [if_neg (mt hhead.mp hend), if_neg (mt hhead.mp hend)]
    by_cases hhere : q.data ((q.tail + i) % q.size) = handle
    · rw [if_pos hhere, if_pos (congrArg some hhere)]
    · rw [if_neg hhere, if_neg fun hsome => hhere (some.inj hsome), slot_succ]
      exact ih (by omega) (by omega)

variable [Zero α]

theorem remove_of_not_mem (h : q.ring.Holds l) (habsent : handle ∉ l) : q.remove handle = some (-1, q) := by
  have hsearch := search_eq h handle (Nat.zero_le _) (show l.length - 0 < q.size from h.room)
  rw [Nat.add_zero, Nat.mod_eq_of_lt (show q.tail < q.size from h.tail_lt)] at hsearch
  have hfind : q.ring.find handle q.size q.tail = none := h.find_tail.trans (if_neg habsent)
  unfold remove
  rw [hsearch, hfind]
  rfl

theorem remove_of_mem (h : q.ring.Holds l) (hmem : handle ∈ l) :
    ∃ q', q.remove handle = some (0, q') ∧ q'.ring.Holds (l.erase handle) ∧ q'.size = q.size := by
  have hidx : l.idxOf handle < l.length := List.idxOf_lt_length_iff.mpr hmem
  have hroom : l.length < q.size := h.room
  have hsearch := search_eq h handle (Nat.zero_le _) (show l.length - 0 < q.size from h.room)
  rw [Nat.add_zero, Nat.mod_eq_of_lt (show q.tail < q.size from h.tail_lt)] at hsearch
  have hfind : q.ring.find handle q.size q.tail = some ((q.tail + l.idxOf handle) % q.size) :=
    h.find_tail.trans (if_pos hmem)
  obtain ⟨data', hshift, hring⟩ := shift_eq h (Nat.le_of_lt hidx) (show l.length - l.idxOf handle < q.size by omega)
    (update q.data ((q.tail + l.idxOf handle) % q.size) 0)
  refine ⟨{ q with data := data', head := if q.head ≠ 0 then q.head - 1 else q.size - 1 }, ?_, ?_, rfl⟩
  · unfold remove
    rw [hsearch, hfind]
    simp only [bind_eq_bind, bind_some, hshift]
    rfl
  · have hsame : ∀ j, j ≠ (q.tail + l.idxOf handle) % q.size →
        some (update q.data ((q.tail + l.idxOf handle) % q.size) 0 j) = q.ring.data j := by
      intro j hj
      rw [update_of_ne hj]
      rfl
    have herase := h.shift_erase hmem hsame
    exact (congrArg (fun data => Holds ⟨_, q.tail, q.size, data⟩ (l.erase handle)) hring).mp herase

theorem Ok.step (h : Ok size q) (op : Op α) : Ok size (q.step op).2 ∧ (q.step op).1 = (listStep size q.toList op).1 ∧
      (q.step op).2.toList = (listStep size q.toList op).2 := by
  obtain ⟨rfl, hholds⟩ := h
  generalize q.toList = l at hholds
  have hsame := Ok.of_holds rfl hholds
  cases op with
  | write handle =>
    unfold Filo.step listStep
    dsimp only
    by_cases hfull : l.length = q.size - 1
    · rw [write_of_full hholds hfull, if_pos hfull]
      exact ⟨hsame.1, rfl, hsame.2⟩
    obtain ⟨hcode, hafter⟩ := write_of_room hholds handle hfull
    obtain ⟨hok, hlist⟩ := Ok.of_holds (write_size q handle) hafter
    rw [if_neg hfull, hcode]
    exact ⟨hok, rfl, hlist⟩
  | read =>
    unfold Filo.step listStep
    cases l with
    | nil =>
      rw [read_nil hholds]
      exact ⟨hsame.1, rfl, hsame.2⟩
    | cons handle l =>
      obtain ⟨hhandle, hafter⟩ := read_cons hholds
      obtain ⟨hok, hlist⟩ := Ok.of_holds (read_size q) hafter
      rw [hhandle]
      exact ⟨hok, rfl, hlist⟩
  | remove handle =>
    unfold Filo.step listStep
    dsimp only
    by_cases hmem : handle ∈ l
    · obtain ⟨q', hremove, hafter, hsize⟩ := remove_of_mem hholds hmem
      obtain ⟨hok, hlist⟩ := Ok.of_holds hsize hafter
      rw [hremove, if_pos hmem]
      exact ⟨hok, rfl, hlist⟩
    · rw [remove_of_not_mem hholds hmem, if_neg hmem]
      exact ⟨hsame.1, rfl, hsame.2⟩

/-- Whatever calls are made, the ring answers them as a list of at most `size - 1` handles does, and holds that list. -/
theorem filo_refines (data : Nat → α) {size : Nat} (hsize : 2 ≤ size) (ops : List (Op α)) :
    (Mealy.run step (new data size) ops).1 = (Mealy.run (listStep size) [] ops).1 ∧
      (Mealy.run step (new data size) ops).2.toList = (Mealy.run (listStep size) [] ops).2 ∧
      (Mealy.run (listStep size) ([] : List α) ops).2.length ≤ size - 1 := by
  obtain ⟨hok, hnil⟩ := Ok.new data (show 0 < size by omega)
  obtain ⟨hend, hreplies, hlist⟩ := Mealy.run_refines (Ok size) toList (fun h _ => h.step _) hok
    (Mealy.meets_of_forall (fun _ _ => trivial) _ ops)
  rw [hnil] at hreplies hlist
  refine ⟨hreplies, hlist, ?_⟩
  have hroom := hend.holds.room
  rw [ring_size, hend.size, hlist] at hroom
  omega

/-- Three slots: the handles wrap around the end of the array, and one of them is taken out there. -/
theorem filo_refines_wrap : 2 ≤ 3 ∧
    (Mealy.run step (new (fun _ => 7) 3) [.write 1, .write 2, .write 3, .read, .write 3, .remove 2, .remove 2, .read, .read]).1 =
      [.code 0, .code 0, .code (-1), .handle 1, .code 0, .code 0, .code (-1), .handle 3, .handle 0] := by
  refine ⟨by decide, (filo_refines (fun _ => 7) (by decide) _).1.trans ?_⟩
  decide

end Filo
end HelinKern
