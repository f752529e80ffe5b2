import Mathlib.Data.List.Basic

/-! Machines that answer each input with a reply, and when one of them answers as another does. -/

namespace Mealy

variable {σ τ ι ρ : Type} {step : σ → ι → ρ × σ} {spec : τ → ι → ρ × τ}

def run (step : σ → ι → ρ × σ) : σ → List ι → List ρ × σ
  | s, [] => ([], s)
  | s, i :: is =>
    let (reply, s) := step s i
    let (replies, s) := run step s is
    (reply :: replies, s)

def Meets (step : σ → ι → ρ × σ) (ok : σ → ι → Prop) : σ → List ι → Prop
  | _, [] => True
  | s, i :: is => ok s i ∧ Meets step ok (step s i).2 is

theorem meets_of_forall {ok : σ → ι → Prop} (h : ∀ s i, ok s i) (s : σ) (is : List ι) : Meets step ok s is := by
  induction is generalizing s with
  | nil => trivial
  | cons i is ih => exact ⟨h s i, ih _⟩

/-- If each input that meets `ok` is answered as by the machine `spec` on what `abs` sees of the state, and keeps the
    invariant, the same holds for every sequence of such inputs. -/
theorem run_refines {ok : σ → ι → Prop} (inv : σ → Prop) (abs : σ → τ)
    (hstep : ∀ {s i}, inv s → ok s i →
      inv (step s i).2 ∧ (step s i).1 = (spec (abs s) i).1 ∧ abs (step s i).2 = (spec (abs s) i).2)
    {s : σ} (h : inv s) {is : List ι} (hok : Meets step ok s is) :
    inv (run step s is).2 ∧ (run step s is).1 = (run spec (abs s) is).1 ∧
      abs (run step s is).2 = (run spec (abs s) is).2 := by
  induction is generalizing s with
  | nil => exact ⟨h, rfl, rfl⟩
  | cons i is ih =>
    obtain ⟨hinv, hreply, habs⟩ := hstep h hok.1
    obtain ⟨hend, hreplies, hfinal⟩ := ih hinv hok.2
    rw [habs] at hreplies hfinal
    refine ⟨hend, ?_, hfinal⟩
    simp only [run]
    rw [hreply, hreplies]

end Mealy
