import Mathlib.Data.List.Basic
import Mathlib.Logic.Relation

/-! Runs of a labelled step relation, and the rules the proofs about a system taking step after step
    are instances of: what every step keeps, a run keeps. -/

namespace Lts
open List Option

variable {σ ι : Type} {step step' : σ → ι → σ → Prop} {s t u : σ} {is : List ι} {i : ι}

/-- `t` is reached from `s` by steps with the labels `is`, in this order. -/
inductive Run (step : σ → ι → σ → Prop) (s : σ) : List ι → σ → Prop
  | refl : Run step s [] s
  | snoc {is : List ι} {i : ι} {t u : σ} (h : Run step s is t) (hs : step t i u) : Run step s (is ++ [i]) u

namespace Run

/-- What holds at first and is kept by every step holds at the end of every run. -/
theorem invariant (inv : σ → Prop) (h0 : inv s) (hstep : ∀ {t i u}, inv t → step t i u → inv u)
    (h : Run step s is t) : inv t := by
  induction h with
  | refl => exact h0
  | snoc _ hs ih => exact hstep ih hs

theorem mono (hstep : ∀ {t i u}, step t i u → step' t i u) (h : Run step s is t) : Run step' s is t := by
  induction h with
  | refl => exact refl
  | snoc _ hs ih => exact snoc ih (hstep hs)

theorem single (hs : step s i t) : Run step s [i] t := by
  simpa using snoc refl hs

theorem trans {js : List ι} (h : Run step s is t) (h' : Run step t js u) : Run step s (is ++ js) u := by
  induction h' with
  | refl => simpa using h
  | snoc _ hs ih =>
    rw [← append_assoc]
    exact snoc ih hs

theorem filter {keep : ι → Bool} (R : σ → σ → Prop)
    (hkeep : ∀ {s i s' t}, R s t → keep i → step s i s' → ∃ t', step t i t' ∧ R s' t')
    (hdrop : ∀ {s i s' t}, R s t → keep i = false → step s i s' → R s' t) (h0 : R s u) (h : Run step s is t) :
    ∃ t', Run step u (is.filter keep) t' ∧ R t t' := by
  induction h with
  | refl => exact ⟨u, .refl, h0⟩
  | @snoc is i t v _ hs ih =>
    obtain ⟨t', hrun, hR⟩ := ih
    cases hi : keep i with
    | true =>
      obtain ⟨v', hs', hR'⟩ := hkeep hR hi hs
      refine ⟨v', ?_, hR'⟩
      rw [filter_append, filter_cons_of_pos hi]
      exact hrun.snoc hs'
    | false =>
      refine ⟨t', ?_, hdrop hR hi hs⟩
      rw [filter_append, filter_cons_of_neg (by simp [hi]), filter_nil, append_nil]
      exact hrun

/-- Steps that are functions, as long as each meets `ok`. -/
def execAll (exec : σ → ι → Option σ) (ok : σ → ι → σ → Bool) (s : σ) : List ι → Option σ
  | [] => some s
  | i :: is => (exec s i).bind fun t => if ok s i t then execAll exec ok t is else none

theorem of_execAll {exec : σ → ι → Option σ} {ok : σ → ι → σ → Bool} (hexec : ∀ {s i t}, exec s i = some t → step s i t)
    (h : execAll exec ok s is = some t) : Run (fun s i t => step s i t ∧ ok s i t) s is t := by
  induction is generalizing s with
  | nil =>
    cases h
    exact .refl
  | cons i is ih =>
    obtain ⟨u, hu, h⟩ := bind_eq_some_iff.mp h
    split at h
    next hok => exact (single ⟨hexec hu, hok⟩).trans (ih h)
    · cases h

/-- The evaluation of a run to a state that meets `p`. -/
theorem of_any {exec : σ → ι → Option σ} {ok : σ → ι → σ → Bool} {R : σ → ι → σ → Prop} {start : Option σ} {p : σ → Bool}
    (hexec : ∀ {s i t}, exec s i = some t → step s i t) (hok : ∀ {s i t}, step s i t ∧ ok s i t → R s i t)
    (h : (start.bind (execAll exec ok · is)).any p) : ∃ s t, start = some s ∧ Run R s is t ∧ p t := by
  obtain ⟨t, ht, hp⟩ := (any_eq_true _ _).mp h
  obtain ⟨s, hs, ht⟩ := bind_eq_some_iff.mp ht
  exact ⟨s, t, hs, (of_execAll hexec ht).mono hok, hp⟩

end Run

theorem invariant_of_reflTransGen {r : σ → σ → Prop} (inv : σ → Prop) (hstep : ∀ {s t}, inv s → r s t → inv t) (h0 : inv s)
    (h : Relation.ReflTransGen r s t) : inv t := by
  induction h with
  | refl => exact h0
  | tail _ hs ih => exact hstep ih hs

/-- Every step of the labels `is`, taken by the function `exec` one after another from `s`, meets `P`. A label that
    `exec` refuses ends the run. -/
def Along (exec : σ → ι → Option σ) (P : σ → ι → σ → Prop) : σ → List ι → Prop
  | _, [] => True
  | s, i :: is => ∀ t, exec s i = some t → P s i t ∧ Along exec P t is

variable {exec : σ → ι → Option σ}

theorem along_and {P Q : σ → ι → σ → Prop} (s : σ) (is : List ι) :
    Along exec (fun s i t => P s i t ∧ Q s i t) s is ↔ Along exec P s is ∧ Along exec Q s is := by
  induction is generalizing s with
  | nil => exact ⟨fun _ => ⟨trivial, trivial⟩, fun _ => trivial⟩
  | cons i is ih =>
    refine ⟨fun h => ⟨fun t ht => ?_, fun t ht => ?_⟩, fun h t ht => ?_⟩
    · exact ⟨(h t ht).1.1, ((ih t).mp (h t ht).2).1⟩
    · exact ⟨(h t ht).1.2, ((ih t).mp (h t ht).2).2⟩
    · exact ⟨⟨(h.1 t ht).1, (h.2 t ht).1⟩, (ih t).mpr ⟨(h.1 t ht).2, (h.2 t ht).2⟩⟩

theorem Along.mono {P Q : σ → ι → σ → Prop} (hPQ : ∀ {s i t}, exec s i = some t → P s i t → Q s i t)
    (h : Along exec P s is) : Along exec Q s is := by
  induction is generalizing s with
  | nil => trivial
  | cons i is ih => exact fun t ht => ⟨hPQ ht (h t ht).1, ih (h t ht).2⟩

theorem Along.of_invariant {P Q : σ → ι → σ → Prop} (inv : σ → Prop) (h0 : inv s)
    (hstep : ∀ {s i t}, inv s → exec s i = some t → Q s i t → P s i t ∧ inv t) (h : Along exec Q s is) : Along exec P s is := by
  induction is generalizing s with
  | nil => trivial
  | cons i is ih =>
    intro t ht
    obtain ⟨hP, hinv⟩ := hstep h0 ht (h t ht).1
    exact ⟨hP, ih hinv (h t ht).2⟩

theorem Along.last {ok : σ → ι → σ → Bool} {P : σ → ι → σ → Prop} (h : Along exec P s (is ++ [i]))
    (hexec : Run.execAll exec ok s is = some t) (hlast : exec t i = some u) : P t i u := by
  induction is generalizing s with
  | nil =>
    cases hexec
    exact (h u hlast).1
  | cons j is ih =>
    obtain ⟨v, hv, hexec⟩ := bind_eq_some_iff.mp hexec
    split at hexec
    · exact ih (h v hv).2 hexec
    · cases hexec

/-- Two properties of a step that agree wherever `inv` holds agree along every run, if the steps that have the second
    one keep `inv`. -/
theorem along_iff {P Q : σ → ι → σ → Prop} (inv : σ → Prop) (h0 : inv s)
    (hiff : ∀ {s i t}, inv s → exec s i = some t → (P s i t ↔ Q s i t))
    (hstep : ∀ {s i t}, inv s → exec s i = some t → Q s i t → inv t) (is : List ι) :
    Along exec P s is ↔ Along exec Q s is := by
  induction is generalizing s with
  | nil => exact Iff.rfl
  | cons i is ih =>
    refine forall_congr' fun t => forall_congr' fun ht => ?_
    rw [hiff h0 ht]
    exact and_congr_right fun hq => ih (hstep h0 ht hq)

end Lts
