import HelinKern.Input

/-! What the driver of the mouse enqueues, and the lines that are read from the keyboard. -/

namespace HelinKern
namespace Input
open List Function

/-! ### The mouse -/

variable {s : Mouse} {p : Packet}

def bytes (p : Packet) : List (BitVec 8) := [p.1, p.2.1, p.2.2]

def decoded (packets : List Packet) (s : Mouse) : List Packet := ((packets.flatMap bytes).foldl mouseIntr s).queue

/-- After an overflow the driver takes every byte for the third one. -/
theorem queue_of_overflow (h : s.cycle = 2) (ho : Overflow s.byte) (l : List (BitVec 8)) : (l.foldl mouseIntr s).queue = s.queue := by
  induction l generalizing s with
  | nil => rfl
  | cons b l ih =>
    have hb : mouseIntr s b = { s with byte := (s.byte.1, s.byte.2.1, b) } := by
      simp only [mouseIntr, h]
      exact if_pos ho
    rw [foldl_cons, hb]
    exact ih h ho

theorem foldl_bytes (h : s.cycle = 0) (hp : p.1 &&& 8 ≠ 0) :
    (bytes p).foldl mouseIntr s = if Overflow p then ⟨2, p, s.queue⟩ else ⟨0, p, s.queue ++ [p]⟩ := by
  rw [bytes, foldl_cons, mouseIntr, h]
  simp only [hp, if_false]
  rfl

theorem decoded_cons (h : s.cycle = 0) (hp : p.1 &&& 8 ≠ 0) (packets : List Packet) :
    decoded (p :: packets) s = if Overflow p then s.queue else decoded packets ⟨0, p, s.queue ++ [p]⟩ := by
  unfold decoded
  rw [flatMap_cons, foldl_append, foldl_bytes h hp]
  split
  · rename_i ho
    exact queue_of_overflow rfl ho _
  · rfl

theorem decoded_iff (packets : List Packet) (hv : ∀ p ∈ packets, p.1 &&& 8 ≠ 0) (h : s.cycle = 0) :
    decoded packets s = s.queue ++ packets.filter (¬Overflow ·) ↔ packets.Pairwise fun p q => Overflow p → Overflow q := by
  induction packets generalizing s with
  | nil => simp [decoded]
  | cons p packets ih =>
    obtain ⟨hp, hv⟩ := forall_mem_cons.mp hv
    rw [decoded_cons h hp, pairwise_cons]
    by_cases ho : Overflow p
    · simp only [ho, if_true, not_true, decide_false, filter_cons, Bool.false_eq_true, if_false, forall_const]
      rw [self_eq_append_right, filter_eq_nil_iff]
      simp only [decide_not, Bool.not_eq_true', decide_eq_false_iff_not, not_not]
      exact ⟨fun hall => ⟨hall, pairwise_of_forall_mem_list fun _ _ q hq _ => hall q hq⟩, And.left⟩
    · simpa [ho, append_assoc] using ih hv (s := ⟨0, p, s.queue ++ [p]⟩) rfl

/-- The packets without overflow are enqueued exactly if none of them follows one with overflow. -/
theorem mouse_decodes_iff (byte : Packet) (packets : List Packet) (hv : ∀ p ∈ packets, p.1 &&& 8 ≠ 0) :
    decoded packets ⟨0, byte, []⟩ = packets.filter (¬Overflow ·) ↔ packets.Pairwise fun p q => Overflow p → Overflow q :=
  decoded_iff packets hv rfl

theorem mouse_decodes_two : decoded [(8, 1, 1), (9, 2, 2), (0x48, 3, 3)] ⟨0, (0, 0, 0), []⟩ = [(8, 1, 1), (9, 2, 2)] :=
  (mouse_decodes_iff _ [(8, 1, 1), (9, 2, 2), (0x48, 3, 3)] (by simp)).mpr (by simp [Overflow])

/-- The packet after an overflow is lost. -/
theorem packet_lost : decoded [(0x48, 1, 1), (8, 2, 2)] ⟨0, (0, 0, 0), []⟩ = [] := by decide

/-! ### The keyboard -/

variable {how : Nat} {t : Line} {text : Keys} {c : BitVec 8}

/-- Every index written lies in the buffer, and after a newline the buffer holds the line. -/
def Reads (how : Nat) (text : Keys) (r : Option (Int × Bool) × Line) : Prop :=
  (∀ k ∈ r.2.written, 0 ≤ k ∧ k < how) ∧
  ∀ n, r.1 = some (n, true) → n = text.length ∧ (∀ (k : Nat) c, text[k]? = some c → r.2.buff k = c) ∧ r.2.buff n = 0

/-- The buffer begins with the line. -/
structure Holds (how : Nat) (text : Keys) (s : Line) : Prop where
  i : s.i = text.length
  buff : ∀ (k : Nat) c, text[k]? = some c → s.buff k = c
  written : ∀ k ∈ s.written, 0 ≤ k ∧ k < how

theorem Holds.put (h : Holds how text t) (hl : text.length < how) (c : BitVec 8) : Holds how text (t.put c) := by
  refine ⟨h.i, fun k c' hk => ?_, forall_mem_cons.mpr ⟨by grind [h.i], h.written⟩⟩
  have hne : (k : Int) ≠ t.i := by grind [h.i]
  exact (update_of_ne hne ..).trans (h.buff k c' hk)

theorem Holds.move (h : Holds how text t) {n : Int} {text' : Keys} (hn : text'.length = text.length + n)
    (hl : text'.length < 2147483648) (hb : ∀ (k : Nat) c, text'[k]? = some c → t.buff k = c) : Holds how text' (t.move n) := by
  refine ⟨?_, hb, h.written⟩
  rw [Line.move, h.i, ← hn, Int.bmod_eq_of_le] <;> omega

theorem Holds.append (h : Holds how text t) (hl : text.length + 1 < how) (hm : how ≤ 2147483648) (c : BitVec 8) :
    Holds how (text ++ [c]) ((t.put c).move 1) := by
  have hput := h.put (by omega) c
  refine hput.move (by simp) (by simp; omega) fun k c' hk => ?_
  rw [getElem?_append] at hk
  split at hk
  · exact hput.buff k c' hk
  · have hlast : k = text.length ∧ c = c' := by grind
    rw [hlast.1, ← h.i, ← hlast.2]
    exact update_self ..

theorem Holds.erase (h : Holds how (text ++ [c]) t) (hl : text.length < how) (hm : how ≤ 2147483648) (hne : text ≠ []) :
    Holds how text.dropLast ((t.move (-2)).put 0) := by
  have hlen := length_pos_iff.mpr hne
  refine Holds.put (h.move (by simp; omega) (by simp; omega) fun k c' hk => h.buff k c' ?_) (by simp; omega) 0
  grind

end Input
end HelinKern
