import Mathlib.Data.List.Basic

/-! Words found one after another in a list of names: every search starts at the place the last one ended at. -/

namespace Spelling
open List Option
variable {α : Type} {names : List α} {i j k : Nat} {c : α} {p q : List α}

/-- The words `p` stand in `names` at places from `i` on that never go back, the last one at `k`. -/
def Spells (names : List α) : Nat → List α → Nat → Prop
  | i, [], k => k = i
  | i, c :: p, k => ∃ j, i ≤ j ∧ names[j]? = some c ∧ Spells names j p k

theorem Spells.lt_length (h : Spells names i p k) (hp : p ≠ []) : k < names.length := by
  induction p generalizing i with
  | nil => exact absurd rfl hp
  | cons c p ih =>
    obtain ⟨j, -, hc, h⟩ := h
    by_cases hnil : p = []
    · subst hnil
      exact h ▸ (List.getElem?_eq_some_iff.mp hc).1
    · exact ih h hnil

theorem Spells.append (h : Spells names i p j) (h' : Spells names j q k) : Spells names i (p ++ q) k := by
  induction p generalizing i with
  | nil => exact h ▸ h'
  | cons c p ih =>
    obtain ⟨j', hj', hc, h⟩ := h
    exact ⟨j', hj', hc, ih h⟩

theorem Spells.of_le (hle : i ≤ j) (h : Spells names j (c :: p) k) : Spells names i (c :: p) k := by
  obtain ⟨j', hj', hc, h⟩ := h
  exact ⟨j', Nat.le_trans hle hj', hc, h⟩

theorem Spells.append_names (h : Spells names i p k) (more : List α) : Spells (names ++ more) i p k := by
  induction p generalizing i with
  | nil => exact h
  | cons c p ih =>
    obtain ⟨j, hj, hc, h⟩ := h
    have hlt : j < names.length := (List.getElem?_eq_some_iff.mp hc).1
    exact ⟨j, hj, by rw [getElem?_append_left hlt, hc], ih h⟩

variable [DecidableEq α]

/-- The first place from `i` on with the name `c`. -/
def first (names : List α) (i : Nat) (c : α) : Option Nat := ((names.drop i).findIdx? fun d => d = c).map fun j => i + j

theorem first_of_length_le (h : names.length ≤ i) (c : α) : first names i c = none := by
  unfold first
  rw [drop_eq_nil_of_le h]
  rfl

theorem first_of_eq (h : names[i]? = some c) : first names i c = some i := by
  obtain ⟨hi, hc⟩ := List.getElem?_eq_some_iff.mp h
  unfold first
  rw [drop_eq_getElem_cons hi, findIdx?_cons, if_pos (by simpa using hc)]
  rfl

theorem first_of_ne {d : α} (h : names[i]? = some d) (hd : d ≠ c) : first names i c = first names (i + 1) c := by
  obtain ⟨hi, rfl⟩ := List.getElem?_eq_some_iff.mp h
  unfold first
  rw [drop_eq_getElem_cons hi, findIdx?_cons, if_neg (by simpa using hd), Option.map_map]
  congr 1
  funext j
  show i + (j + 1) = i + 1 + j
  omega

theorem first_eq_some (h : first names i c = some j) :
    i ≤ j ∧ names[j]? = some c ∧ ∀ k, i ≤ k → names[k]? = some c → j ≤ k := by
  obtain ⟨m, hm, rfl⟩ := map_eq_some_iff.mp h
  obtain ⟨hlt, hc, hbefore⟩ := findIdx?_eq_some_iff_getElem.mp hm
  rw [length_drop] at hlt
  refine ⟨Nat.le_add_right i m, ?_, fun k hk hkc => ?_⟩
  · rw [getElem?_eq_getElem (by omega)]
    simpa using hc
  · by_contra hlt'
    obtain ⟨hk', hkc⟩ := List.getElem?_eq_some_iff.mp hkc
    obtain ⟨d, rfl⟩ := Nat.exists_eq_add_of_le hk
    exact hbefore d (by omega) (by simpa using hkc)

theorem first_eq_none (h : first names i c = none) (hle : i ≤ j) : names[j]? ≠ some c := by
  intro hj
  have hnone := findIdx?_eq_none_iff.mp (map_eq_none_iff.mp h)
  obtain ⟨d, rfl⟩ := Nat.exists_eq_add_of_le hle
  rw [← getElem?_drop] at hj
  exact absurd (hnone c (mem_of_getElem? hj)) (by simp)

/-- Every word searched from the place of the last one on. -/
def walk (names : List α) : Nat → List α → Option Nat
  | i, [] => some i
  | i, c :: p => (first names i c).bind fun j => walk names j p

theorem walk_eq_some (h : walk names i p = some k) : Spells names i p k ∧ ∀ j, Spells names i p j → k ≤ j := by
  induction p generalizing i with
  | nil =>
    cases h
    exact ⟨rfl, fun j hj => Nat.le_of_eq hj.symm⟩
  | cons c p ih =>
    obtain ⟨j, hj, h⟩ := bind_eq_some_iff.mp h
    obtain ⟨hle, hc, hleast⟩ := first_eq_some hj
    obtain ⟨hspells, hmin⟩ := ih h
    refine ⟨⟨j, hle, hc, hspells⟩, ?_⟩
    rintro l ⟨j', hle', hc', hl⟩
    have hjj := hleast j' hle' hc'
    cases p with
    | nil => exact Nat.le_trans (hmin j rfl) (Nat.le_trans hjj (Nat.le_of_eq hl.symm))
    | cons d p => exact hmin l (hl.of_le hjj)

theorem walk_eq_none (h : walk names i p = none) (k : Nat) : ¬Spells names i p k := by
  induction p generalizing i with
  | nil => cases h
  | cons c p ih =>
    rintro ⟨j', hle', hc', hl⟩
    cases hj : first names i c with
    | none => exact first_eq_none hj hle' hc'
    | some j =>
      rw [walk, hj] at h
      have hjj := (first_eq_some hj).2.2 j' hle' hc'
      cases p with
      | nil => cases h
      | cons d p => exact ih h (hl.of_le hjj)

end Spelling
