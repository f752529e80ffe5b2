import HelinKern.Strtok
import Mathlib.Data.List.TakeWhile

/-! `strtok` gives back its copies as long as no string has a token. -/

namespace HelinKern
variable {st : Scanner} {delim : BitVec 8 → Bool} {text : Text}

namespace Scanner
open List

def Neutral (st : Scanner) : Prop := st.heap.wild = [] ∧ st.heap.live.length ≤ 1

/-- Between scans of delimiters the only block is the copy at `oldword`. -/
def OwnsCopy (st : Scanner) : Prop :=
  st.heap.wild = [] ∧ (st.oldword = none ∧ st.heap.live = [] ∨ ∃ b, st.oldword = some (some b, []) ∧ st.heap.live = [b])

theorem OwnsCopy.call (h : st.OwnsCopy) (hall : text.dropWhile delim = []) :
    (st.call delim text).1 = none ∧ (st.call delim text).2.OwnsCopy := by
  obtain ⟨hwild, ⟨hold, hlive⟩ | ⟨b, hold, hlive⟩⟩ := h
  · simp [Scanner.call, hall, hold, OwnsCopy, Ledger.alloc, hwild, hlive]
  · simp [Scanner.call, hall, hold, OwnsCopy, Ledger.alloc, Ledger.free, hwild, hlive]

theorem wild_scanRest {n : Nat} (hold : st.oldword = some (none, text)) (hn : text.length < n) :
    (scanRest delim n st).heap.wild ≠ [] := by
  induction n generalizing st text with
  | zero => omega
  | succ n ih =>
    unfold scanRest call
    rw [hold]
    by_cases hall : text.dropWhile delim = []
    · simp [hall, Ledger.free, Ledger.alloc]
    have hlen := (dropWhile_sublist delim (l := text)).length_le
    have hrest := (dropWhile_sublist (!delim ·) (l := text.dropWhile delim)).length_le
    have hpos := length_pos_of_ne_nil hall
    simp only [Option.map_some, Option.getD_some, hall, if_false]
    exact ih rfl (by rw [length_drop]; omega)

theorem OwnsCopy.scan (h : st.OwnsCopy) (s : (BitVec 8 → Bool) × Text) :
    ((st.scan s).Neutral ↔ s.2.all s.1) ∧ (s.2.all s.1 → (st.scan s).OwnsCopy) := by
  rw [all_eq_true, ← dropWhile_eq_nil_iff]
  by_cases hall : s.2.dropWhile s.1 = []
  · have hcall := h.call hall
    have hscan : st.scan s = (st.call s.1 s.2).2 := by
      unfold Scanner.scan
      rw [show st.call s.1 s.2 = (none, (st.call s.1 s.2).2) from Prod.ext hcall.1 rfl]
    rw [hscan]
    refine ⟨iff_of_true ⟨hcall.2.1, ?_⟩ hall, fun _ => hcall.2⟩
    obtain ⟨-, hlive⟩ | ⟨b, -, hlive⟩ := hcall.2.2 <;> simp [hlive]
  · have hlen := (dropWhile_sublist s.1 (l := s.2)).length_le
    have hrest := (dropWhile_sublist (!s.1 ·) (l := s.2.dropWhile s.1)).length_le
    have hpos := length_pos_of_ne_nil hall
    have hwild : (st.scan s).heap.wild ≠ [] := by
      simp only [Scanner.scan, Scanner.call, hall, if_false]
      exact wild_scanRest rfl (by rw [length_drop]; omega)
    exact ⟨iff_of_false (fun hneutral => hwild hneutral.1) hall, fun h => absurd h hall⟩

/-- Scans free only live copies, and leave one block at most, exactly if every string is made of delimiters. -/
theorem strtok_scans_neutral (scans : List ((BitVec 8 → Bool) × Text)) :
    Lts.Along (fun st s => some (scan st s)) (fun _ _ st => st.Neutral) start scans ↔ ∀ s ∈ scans, s.2.all s.1 = true := by
  have hstart : start.OwnsCopy := ⟨rfl, .inl ⟨rfl, rfl⟩⟩
  revert hstart
  generalize start = st
  intro hst
  induction scans generalizing st with
  | nil => simp [Lts.Along]
  | cons s scans ih =>
    rw [forall_mem_cons]
    refine ⟨fun h => ?_, fun ⟨hs, h⟩ t ht => ?_⟩
    · obtain ⟨hneutral, hrest⟩ := h _ rfl
      have hs := (hst.scan s).1.mp hneutral
      exact ⟨hs, (ih _ ((hst.scan s).2 hs)).mp hrest⟩
    · cases ht
      exact ⟨(hst.scan s).1.mpr hs, (ih _ ((hst.scan s).2 hs)).mpr h⟩

theorem token_frees_string : ¬ Lts.Along (fun st s => some (scan st s)) (fun _ _ st => st.Neutral) start [((· = slash), [0x61])] :=
  fun h => absurd (h _ rfl).1.1 (by decide)

end Scanner
end HelinKern
