import Mathlib.Data.List.Pairwise

/-! Chains of chunks. A header at the start of each chunk gives the chunk's size and hence the start of
    the next one, so that a list of chunks lays out an interval of addresses without gaps. The lemmas say
    what a chain knows about its parts, and how it changes when one chunk is replaced. -/

namespace Chunks
open List

structure Chunk where
  size : Nat
  used : Bool
  deriving DecidableEq, Repr

def total : List Chunk → Nat
  | [] => 0
  | c :: cs => c.size + total cs

def spans : Nat → List Chunk → List (Nat × Chunk)
  | _, [] => []
  | a, c :: cs => (a, c) :: spans (a + c.size) cs

/-- Walking the headers `hd` from `a` by the chunk sizes gives the chunks `cs`, none smaller than `lo`,
    and ends exactly at `e`. -/
structure Tiles (hd : Nat → Chunk) (lo a : Nat) (cs : List Chunk) (e : Nat) : Prop where
  heads : ∀ p ∈ spans a cs, hd p.1 = p.2
  min : ∀ c ∈ cs, lo ≤ c.size
  ends : a + total cs = e

@[simp] theorem total_nil : total [] = 0 := rfl

@[simp] theorem total_cons (c : Chunk) (cs : List Chunk) : total (c :: cs) = c.size + total cs := rfl

@[simp] theorem total_append (xs ys : List Chunk) : total (xs ++ ys) = total xs + total ys := by
  induction xs with
  | nil => simp
  | cons c xs ih => simp [ih, Nat.add_assoc]

@[simp] theorem spans_nil (a : Nat) : spans a [] = [] := rfl

@[simp] theorem spans_cons (a : Nat) (c : Chunk) (cs : List Chunk) :
    spans a (c :: cs) = (a, c) :: spans (a + c.size) cs := rfl

@[simp] theorem spans_append (a : Nat) (xs ys : List Chunk) :
    spans a (xs ++ ys) = spans a xs ++ spans (a + total xs) ys := by
  induction xs generalizing a with
  | nil => simp
  | cons c xs ih => simp [ih, Nat.add_assoc]

variable {a : Nat} {c : Chunk} {cs : List Chunk}

theorem mem_spans_iff {x : Nat} :
    (x, c) ∈ spans a cs ↔ ∃ xs ys, cs = xs ++ c :: ys ∧ x = a + total xs := by
  constructor
  · intro h
    induction cs generalizing a with
    | nil => simp at h
    | cons d cs ih =>
      rcases mem_cons.mp h with heq | h
      · cases heq
        exact ⟨[], cs, rfl, rfl⟩
      · obtain ⟨xs, ys, rfl, rfl⟩ := ih h
        exact ⟨d :: xs, ys, rfl, by simp [Nat.add_assoc]⟩
  · rintro ⟨xs, ys, rfl, rfl⟩
    simp

variable {p : Nat × Chunk}

theorem chunk_mem_of_spans (h : p ∈ spans a cs) : p.2 ∈ cs := by
  obtain ⟨xs, ys, rfl, -⟩ := mem_spans_iff.mp h
  simp

theorem bounds_of_spans (h : p ∈ spans a cs) :
    a ≤ p.1 ∧ p.1 + p.2.size ≤ a + total cs := by
  obtain ⟨xs, ys, rfl, hx⟩ := mem_spans_iff.mp h
  simp only [total_append, total_cons]
  omega

theorem pairwise_spans (a : Nat) (cs : List Chunk) :
    (spans a cs).Pairwise fun p q => p.1 + p.2.size ≤ q.1 := by
  induction cs generalizing a with
  | nil => simp
  | cons c cs ih =>
    rw [spans_cons, pairwise_cons]
    exact ⟨fun q hq => (bounds_of_spans hq).1, ih _⟩

theorem disjoint_of_spans {q : Nat × Chunk} (hp : p ∈ spans a cs) (hq : q ∈ spans a cs) (hne : p ≠ q) :
    p.1 + p.2.size ≤ q.1 ∨ q.1 + q.2.size ≤ p.1 := by
  have : Std.Symm fun p q : Nat × Chunk => p.1 + p.2.size ≤ q.1 ∨ q.1 + q.2.size ≤ p.1 := ⟨fun _ _ => Or.symm⟩
  have hor : (spans a cs).Pairwise fun p q => p.1 + p.2.size ≤ q.1 ∨ q.1 + q.2.size ≤ p.1 :=
    (pairwise_spans a cs).imp Or.inl
  exact hor.forall hp hq hne

namespace Tiles

variable {hd hd' : Nat → Chunk} {lo a m e : Nat} {cs xs ys : List Chunk}

theorem congr (h : Tiles hd lo a cs e) (heq : ∀ p ∈ spans a cs, hd' p.1 = hd p.1) : Tiles hd' lo a cs e where
  heads p hp := (heq p hp).trans (h.heads p hp)
  min := h.min
  ends := h.ends

theorem append (h : Tiles hd lo a xs m) (h' : Tiles hd lo m ys e) : Tiles hd lo a (xs ++ ys) e where
  heads p hp := by
    rw [spans_append, h.ends] at hp
    rcases mem_append.mp hp with hp | hp
    · exact h.heads p hp
    · exact h'.heads p hp
  min c hc := by
    rcases mem_append.mp hc with hc | hc
    · exact h.min c hc
    · exact h'.min c hc
  ends := by rw [total_append, ← h'.ends, ← h.ends, Nat.add_assoc]

theorem left (h : Tiles hd lo a (xs ++ ys) e) : Tiles hd lo a xs (a + total xs) where
  heads p hp := h.heads p (by rw [spans_append]; exact mem_append_left _ hp)
  min c hc := h.min c (mem_append_left _ hc)
  ends := rfl

theorem right (h : Tiles hd lo a (xs ++ ys) e) : Tiles hd lo (a + total xs) ys e where
  heads p hp := h.heads p (by rw [spans_append]; exact mem_append_right _ hp)
  min c hc := h.min c (mem_append_right _ hc)
  ends := by rw [Nat.add_assoc, ← total_append, h.ends]

theorem cons_iff :
    Tiles hd lo a (c :: cs) e ↔ hd a = c ∧ lo ≤ c.size ∧ Tiles hd lo (a + c.size) cs e := by
  constructor
  · intro h
    have tail : Tiles hd lo (a + total [c]) cs e := right (by simpa using h)
    exact ⟨h.heads (a, c) (by simp), h.min c (by simp), by simpa using tail⟩
  · rintro ⟨hc, hmin, h⟩
    have one : Tiles hd lo a [c] (a + c.size) := ⟨by simpa using hc, by simpa using hmin, by simp⟩
    exact one.append h

theorem lt_end (hlo : 0 < lo) (h : Tiles hd lo a (c :: cs) e) : a < e := by
  obtain ⟨-, hmin, htail⟩ := cons_iff.mp h
  have := htail.ends
  omega

theorem nil_iff : Tiles hd lo a [] e ↔ a = e :=
  ⟨fun h => h.ends, fun h => ⟨by simp, by simp, h⟩⟩

section
variable (h : Tiles hd lo a cs e)
include h

theorem le : a ≤ e := by
  have := h.ends
  omega

theorem next (hlt : a < e) : lo ≤ (hd a).size ∧ ∃ cs', Tiles hd lo (a + (hd a).size) cs' e := by
  cases cs with
  | nil =>
    have := nil_iff.mp h
    omega
  | cons c cs =>
    obtain ⟨rfl, hmin, htail⟩ := cons_iff.mp h
    exact ⟨hmin, cs, htail⟩

theorem bounds (hp : p ∈ spans a cs) : p.1 + p.2.size ≤ e ∧ lo ≤ p.2.size := by
  have hb := bounds_of_spans hp
  have := h.ends
  exact ⟨by omega, h.min _ (chunk_mem_of_spans hp)⟩

theorem unique (hlo : 0 < lo) {ds : List Chunk} (h' : Tiles hd lo a ds e) : ds = cs := by
  induction cs generalizing a ds with
  | nil =>
    cases ds with
    | nil => rfl
    | cons d ds =>
      have := h'.lt_end hlo
      have := nil_iff.mp h
      omega
  | cons c cs ih =>
    obtain ⟨hc, -, htail⟩ := cons_iff.mp h
    cases ds with
    | nil =>
      have := h.lt_end hlo
      have := nil_iff.mp h'
      omega
    | cons d ds =>
      obtain ⟨hd, -, htail'⟩ := cons_iff.mp h'
      obtain rfl : d = c := hd.symm.trans hc
      rw [ih htail htail']

theorem length_le (hlo : 0 < lo) : a + cs.length ≤ e := by
  induction cs generalizing a with
  | nil => exact h.le
  | cons c cs ih =>
    obtain ⟨-, hmin, htail⟩ := cons_iff.mp h
    have := ih htail
    rw [length_cons]
    omega

end

theorem replace {ys' zs : List Chunk} (h : Tiles hd lo a (xs ++ (ys ++ zs)) e)
    (hmid : Tiles hd' lo (a + total xs) ys' (a + total xs + total ys))
    (hbefore : ∀ p ∈ spans a xs, hd' p.1 = hd p.1)
    (hbehind : ∀ p ∈ spans (a + total xs + total ys) zs, hd' p.1 = hd p.1) : Tiles hd' lo a (xs ++ (ys' ++ zs)) e :=
  (h.left.congr hbefore).append (hmid.append (h.right.right.congr hbehind))

end Tiles

end Chunks
