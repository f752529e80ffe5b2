import Mathlib.Data.List.Range

/-! Counting loops: `for (i = a; i < a + n; i++)` as a fold. -/

namespace Loop
open List

variable {σ : Type} {f : σ → Nat → σ} {s : σ} {n : Nat}

/-- Two runs of a loop stay related if each turn keeps them related. -/
theorem foldl_range'_rel {s' : σ} (P : Nat → σ → σ → Prop) {a : Nat} (h0 : P a s s')
    (hstep : ∀ i s s', a ≤ i → i < a + n → P i s s' → P (i + 1) (f s i) (f s' i)) :
    P (a + n) ((range' a n).foldl f s) ((range' a n).foldl f s') := by
  induction n generalizing a s s' with
  | zero => exact h0
  | succ n ih =>
    rw [show a + (n + 1) = a + 1 + n by omega]
    exact ih (hstep a s s' (Nat.le_refl a) (by omega) h0) fun i s s' hlo hhi => hstep i s s' (by omega) (by omega)

theorem foldl_range_rel {s' : σ} (P : Nat → σ → σ → Prop) (h0 : P 0 s s')
    (hstep : ∀ i s s', i < n → P i s s' → P (i + 1) (f s i) (f s' i)) :
    P n ((range n).foldl f s) ((range n).foldl f s') := by
  have h := foldl_range'_rel (n := n) P h0 fun i s s' _ hi => hstep i s s' (by omega)
  rwa [Nat.zero_add, ← range_eq_range'] at h

section
variable (P : Nat → σ → Prop)
include P

/-- What holds before the loop for its first index and is carried from one index to the next holds at the end. -/
theorem foldl_range' {a : Nat} (h0 : P a s) (hstep : ∀ i s, a ≤ i → i < a + n → P i s → P (i + 1) (f s i)) :
    P (a + n) ((range' a n).foldl f s) :=
  @foldl_range'_rel σ f s n s (fun i s _ => P i s) a h0 fun i s _ => hstep i s

theorem foldl_range (h0 : P 0 s) (hstep : ∀ i s, i < n → P i s → P (i + 1) (f s i)) : P n ((range n).foldl f s) :=
  @foldl_range_rel σ f s n s (fun i s _ => P i s) h0 fun i s _ => hstep i s

/-- A loop whose body can fail does not, if each turn that starts well succeeds and ends well. -/
theorem foldlM_range {f : σ → Nat → Option σ} (h0 : P 0 s) (hstep : ∀ i s, i < n → P i s → ∃ t, f s i = some t ∧ P (i + 1) t) :
    ∃ t, (range n).foldlM f s = some t ∧ P n t := by
  induction n with
  | zero => exact ⟨s, rfl, h0⟩
  | succ n ih =>
    obtain ⟨t, ht, hP⟩ := ih fun i s hi => hstep i s (by omega)
    obtain ⟨u, hu, hP'⟩ := hstep n t (by omega) hP
    refine ⟨u, ?_, hP'⟩
    rw [range_succ, foldlM_append, ht]
    simpa using hu

/-- A loop that a turn may leave by a jump: it ends after its last turn, or as the turn with the jump leaves it. -/
theorem foldlM_range_jump {ε : Type} {f : σ → Nat → Except ε σ} (E : ε → Prop) (h0 : P 0 s)
    (hstep : ∀ i s, i < n → P i s → (∃ t, f s i = .ok t ∧ P (i + 1) t) ∨ ∃ e, f s i = .error e ∧ E e) :
    (∃ t, (range n).foldlM f s = .ok t ∧ P n t) ∨ ∃ e, (range n).foldlM f s = .error e ∧ E e := by
  induction n with
  | zero => exact .inl ⟨s, rfl, h0⟩
  | succ n ih =>
    rw [range_succ, foldlM_append]
    rcases ih fun i s hi => hstep i s (by omega) with ⟨t, ht, hP⟩ | ⟨e, he, hE⟩
    · rw [ht]
      rcases hstep n t (by omega) hP with ⟨u, hu, hP'⟩ | ⟨e, he, hE⟩
      · exact .inl ⟨u, by change f t n >>= pure = .ok u; rw [hu]; rfl, hP'⟩
      · exact .inr ⟨e, by change f t n >>= pure = .error e; rw [he]; rfl, hE⟩
    · rw [he]
      exact .inr ⟨e, rfl, hE⟩

end

theorem turn_of_foldlM {f : σ → Nat → Option σ} {t : σ} {i : Nat} (h : (range n).foldlM f s = some t) (hi : i < n) :
    ∃ u v, f u i = some v := by
  induction n generalizing t with
  | zero => cases hi
  | succ n ih =>
    rw [range_succ, foldlM_append] at h
    obtain ⟨u, hu, hlast⟩ := Option.bind_eq_some_iff.mp h
    rcases Nat.lt_succ_iff_lt_or_eq.mp hi with hi | rfl
    · exact ih hu hi
    · exact ⟨u, t, by simpa using hlast⟩

end Loop
