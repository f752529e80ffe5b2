import Mathlib.Logic.Basic

/-! A search along the naturals for `n` hits in a row. At each position `gate` may end the search, and `look` says whether the
    position is a hit; both may fail. -/

namespace Scan
open Option

def tally (c : Nat) (hit : Bool) : Nat := if hit then c + 1 else 0

section
variable (gate look : Nat → Option Bool) (n : Nat)

/-- The search over `k` positions from `p` on, with `c` hits right before `p`: the position where it ends, or the hits right
    before the position it has come to. -/
def scan : (k p c : Nat) → Option (Nat ⊕ Nat)
  | 0, _, c => some (.inr c)
  | k + 1, p, c =>
    match gate p with
    | none => none
    | some true => some (.inl p)
    | some false =>
      match look p with
      | none => none
      | some hit => if tally c hit = n then some (.inl p) else scan k (p + 1) (tally c hit)

/-- The `n` positions up to `q` are hits, and none of them is before `start`. -/
def RunAt (start q : Nat) : Prop := start + n ≤ q + 1 ∧ ∀ x, q < x + n → x ≤ q → look x = some true

/-- Before `p` nothing ends the search or fails. -/
structure Passes (start p : Nat) : Prop where
  gates : ∀ x, start ≤ x → x < p → gate x = some false
  looks : ∀ x, start ≤ x → x < p → look x ≠ none
  runs : ∀ x, start ≤ x → x < p → ¬RunAt look n start x

/-- The search from `start` on ends at `q`. -/
structure StopsAt (start q : Nat) : Prop where
  le : start ≤ q
  passes : Passes gate look n start q
  here : gate q = some true ∨ gate q = some false ∧ RunAt look n start q

/-- There are `c` hits right before `p`, and not `n`. -/
structure Counted (start p c : Nat) : Prop where
  lt : c < n
  le : start + c ≤ p
  hits : ∀ x, p ≤ x + c → x < p → look x = some true
  max : start + c = p ∨ ∃ x, p = x + c + 1 ∧ look x ≠ some true

end

variable {gate look : Nat → Option Bool} {n start k l p q c : Nat} {hit : Bool}

theorem scan_add (k l p c : Nat) :
    scan gate look n (k + l) p c =
      (scan gate look n k p c).bind fun
        | .inl q => some (.inl q)
        | .inr c => scan gate look n l (p + k) c := by
  induction k generalizing p c with
  | zero =>
    rw [Nat.zero_add]
    rfl
  | succ k ih =>
    rw [Nat.succ_add, scan, scan]
    cases gate p with
    | none => rfl
    | some ends =>
      cases ends with
      | true => rfl
      | false =>
        cases look p with
        | none => rfl
        | some hit =>
          dsimp only
          split
          · rfl
          · rw [ih, Nat.add_right_comm p 1 k]
            rfl

theorem Counted.runAt_iff (h : Counted look n start p c) : RunAt look n start p ↔ look p = some true ∧ c + 1 = n := by
  have hlt := h.lt
  have hle := h.le
  constructor
  · rintro ⟨hroom, hhits⟩
    refine ⟨hhits p (by omega) (Nat.le_refl p), ?_⟩
    rcases h.max with hstart | ⟨x, hx, hmiss⟩
    · omega
    · rcases Nat.lt_or_ge (c + 1) n with hmore | hdone
      · exact absurd (hhits x (by omega) (by omega)) hmiss
      · omega
  · rintro ⟨hhit, hcount⟩
    refine ⟨by omega, fun x hlo hhi => ?_⟩
    rcases Nat.lt_or_ge x p with hxp | hxp
    · exact h.hits x (by omega) hxp
    · obtain rfl : x = p := by omega
      exact hhit

theorem Counted.step (h : Counted look n start p c) (hlook : look p = some hit) (hne : tally c hit ≠ n) :
    Counted look n start (p + 1) (tally c hit) := by
  have hlt := h.lt
  have hle := h.le
  cases hit with
  | false =>
    rw [show tally c false = 0 from rfl] at hne ⊢
    exact ⟨by omega, by omega, fun x hlo hhi => by omega, .inr ⟨p, rfl, by rw [hlook]; nofun⟩⟩
  | true =>
    rw [show tally c true = c + 1 from rfl] at hne ⊢
    refine ⟨by omega, by omega, fun x hlo hhi => ?_, ?_⟩
    · rcases Nat.lt_or_ge x p with hxp | hxp
      · exact h.hits x (by omega) hxp
      · obtain rfl : x = p := by omega
        exact hlook
    · rcases h.max with hstart | ⟨x, hx, hmiss⟩
      · exact .inl (by omega)
      · exact .inr ⟨x, by omega, hmiss⟩

theorem Passes.step (h : Passes gate look n start p) (hgate : gate p = some false) (hlook : look p ≠ none)
    (hrun : ¬RunAt look n start p) : Passes gate look n start (p + 1) := by
  have hlast : ∀ x, x < p + 1 → x < p ∨ x = p := fun x hx => by omega
  refine ⟨fun x hlo hx => ?_, fun x hlo hx => ?_, fun x hlo hx => ?_⟩ <;> rcases hlast x hx with hxp | rfl
  · exact h.gates x hlo hxp
  · exact hgate
  · exact h.looks x hlo hxp
  · exact hlook
  · exact h.runs x hlo hxp
  · exact hrun

theorem scan_eq_inl_iff_of_counted (hn : 0 < n) (hle : start ≤ p) (hc : Counted look n start p c)
    (hpasses : Passes gate look n start p) :
    scan gate look n k p c = some (.inl q) ↔ p ≤ q ∧ q < p + k ∧ StopsAt gate look n start q := by
  induction k generalizing p c with
  | zero => exact ⟨nofun, fun h => by omega⟩
  | succ k ih =>
    -- a search that ends behind `p` has passed `p`
    have hbehind : ∀ {q}, p ≤ q → StopsAt gate look n start q →
        q = p ∨ p < q ∧ gate p = some false ∧ look p ≠ none ∧ ¬RunAt look n start p := by
      intro q hpq hstops
      rcases Nat.eq_or_lt_of_le hpq with heq | hlt
      · exact .inl heq.symm
      · exact .inr ⟨hlt, hstops.passes.gates p hle hlt, hstops.passes.looks p hle hlt, hstops.passes.runs p hle hlt⟩
    rw [scan]
    cases hgate : gate p with
    | none =>
      refine ⟨nofun, fun ⟨hpq, _, hstops⟩ => ?_⟩
      rcases hbehind hpq hstops with rfl | ⟨-, hgate', -⟩
      · rcases hstops.here with h | ⟨h, -⟩ <;> rw [hgate] at h <;> cases h
      · rw [hgate] at hgate'
        cases hgate'
    | some ends =>
      cases ends with
      | true =>
        refine ⟨fun h => ?_, fun ⟨hpq, _, hstops⟩ => ?_⟩
        · obtain rfl : p = q := Sum.inl.inj (some.inj h)
          exact ⟨Nat.le_refl p, by omega, hle, hpasses, .inl hgate⟩
        · rcases hbehind hpq hstops with rfl | ⟨-, hgate', -⟩
          · rfl
          · rw [hgate] at hgate'
            cases hgate'
      | false =>
        cases hlook : look p with
        | none =>
          refine ⟨nofun, fun ⟨hpq, _, hstops⟩ => ?_⟩
          rcases hbehind hpq hstops with rfl | ⟨-, -, hlook', -⟩
          · rcases hstops.here with h | ⟨-, hrun⟩
            · rw [hgate] at h
              cases h
            · have hhit := hrun.2 q (by omega) (Nat.le_refl q)
              rw [hlook] at hhit
              cases hhit
          · exact absurd hlook hlook'
        | some hit =>
          have hrun : RunAt look n start p ↔ tally c hit = n := by
            rw [hc.runAt_iff, hlook]
            cases hit with
            | false => exact ⟨fun h => absurd h.1 nofun, fun h => absurd h.symm (Nat.ne_of_gt hn)⟩
            | true => exact ⟨fun h => h.2, fun h => ⟨rfl, h⟩⟩
          dsimp only
          split
          next hcount =>
            refine ⟨fun h => ?_, fun ⟨hpq, _, hstops⟩ => ?_⟩
            · obtain rfl : p = q := Sum.inl.inj (some.inj h)
              exact ⟨Nat.le_refl p, by omega, hle, hpasses, .inr ⟨hgate, hrun.mpr hcount⟩⟩
            · rcases hbehind hpq hstops with rfl | ⟨-, -, -, hnot⟩
              · rfl
              · exact absurd (hrun.mpr hcount) hnot
          next hcount =>
            have hnot : ¬RunAt look n start p := fun h => hcount (hrun.mp h)
            rw [ih (by omega) (hc.step hlook hcount) (hpasses.step hgate (by rw [hlook]; nofun) hnot)]
            refine ⟨fun ⟨hpq, hq, hstops⟩ => ⟨by omega, by omega, hstops⟩, fun ⟨hpq, hq, hstops⟩ => ⟨?_, by omega, hstops⟩⟩
            rcases hbehind hpq hstops with rfl | ⟨hlt, -⟩
            · rcases hstops.here with h | ⟨-, h⟩
              · rw [hgate] at h
                cases h
              · exact absurd h hnot
            · exact hlt

/-- A search from its start on ends at the first position at which `gate` ends it or a run is complete. -/
theorem scan_eq_inl_iff (hn : 0 < n) :
    scan gate look n k start 0 = some (.inl q) ↔ q < start + k ∧ StopsAt gate look n start q := by
  have hc : Counted look n start start 0 := ⟨hn, Nat.le_refl _, fun x hlo hx => by omega, .inl rfl⟩
  have hpasses : Passes gate look n start start :=
    ⟨fun x hlo hx => by omega, fun x hlo hx => by omega, fun x hlo hx => by omega⟩
  rw [scan_eq_inl_iff_of_counted hn (Nat.le_refl _) hc hpasses]
  exact ⟨fun h => h.2, fun h => ⟨h.2.le, h⟩⟩

end Scan
