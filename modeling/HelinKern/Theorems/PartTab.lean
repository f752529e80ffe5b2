import HelinKern.PartTab

/-! How many partition tables can be registered. -/

namespace HelinKern
namespace PartTab

variable {α : Type}

/-- All calls succeed and every table is searched once, in order, exactly if at most one table is registered. -/
theorem tables_searched_once (lays : List α) :
    (∃ tables, lays.foldlM partTabRegister partTabInit = some tables ∧ partTabTrigger tables = some lays) ↔
      lays.length ≤ 1 := by
  match lays with
  | [] => exact iff_of_true ⟨[none], rfl, rfl⟩ (Nat.zero_le 1)
  | [lay] => exact iff_of_true ⟨[some lay], rfl, rfl⟩ (Nat.le_refl 1)
  | first :: second :: rest =>
    refine iff_of_false ?_ (Nat.not_le.mpr (Nat.succ_lt_succ (Nat.succ_pos _)))
    rintro ⟨tables, h, -⟩
    -- behind the first table the loop finds no end
    have hsecond : partTabRegister [some first] second = none := rfl
    change (partTabRegister [some first] second).bind (rest.foldlM partTabRegister) = some tables at h
    rw [hsecond] at h
    cases h

/-- The second table that is registered makes the loop follow NULL. -/
theorem second_table_lost : ([1, 2] : List Nat).foldlM partTabRegister partTabInit = none := rfl

end PartTab
end HelinKern
