import HelinKern.Theorems.BootLayout
import HelinKern.Theorems.FrameRuns

/-! The frames handed out before `alloc_mapItself`, by a counter that starts behind the map, against those that the map
    gives out afterwards. -/

namespace HelinKern
namespace Frames
open Bitmap

/-- The frames given out before `alloc_mapItself` are distinct, and the map gives none of them out again unless it was
    freed. -/
structure HandOff (mem : Bytes) (kernelEnd highMem n : Nat) : Prop where
  distinct : ∀ k l, k < l → l < n →
    (early mem kernelEnd highMem k).allocGetPage.1 ≠ (early mem kernelEnd highMem l).allocGetPage.1
  kept : ∀ k < n, ∀ (ops : List FrameOp) (f : Nat), (early mem kernelEnd highMem k).allocGetPage.1 = some f →
    (ops.foldl execFrame (booted mem kernelEnd highMem n)).allocGetPage.1 = some f →
      ∃ g, .freePage g ∈ ops ∧ g % wordSize / 4096 = f / 4096

section HandOff
variable {mem : Bytes} {kernelEnd highMem n i k : Nat}

theorem early_getPage_eq_iff (h0 : highMem ≠ 0) {l : Nat} (hkl : k < l) :
    (early mem kernelEnd highMem k).allocGetPage.1 = (early mem kernelEnd highMem l).allocGetPage.1 ↔ 2 ^ 20 ∣ l - k := by
  rw [early_getPage h0, early_getPage h0, Option.some.injEq]
  unfold wordSize
  omega

theorem distinct_iff (h0 : highMem ≠ 0) :
    (∀ k l, k < l → l < n →
      (early mem kernelEnd highMem k).allocGetPage.1 ≠ (early mem kernelEnd highMem l).allocGetPage.1) ↔ n ≤ 2 ^ 20 := by
  constructor
  · intro h
    refine Nat.le_of_not_lt fun hlt => h 0 (2 ^ 20) (by decide) hlt ?_
    exact (early_getPage_eq_iff h0 (by decide)).mpr (Nat.dvd_refl _)
  · intro hle k l hkl hl heq
    have hdvd := (early_getPage_eq_iff h0 hkl).mp heq
    omega

def earlyIndex (highMem k : Nat) : Nat := (firstEarly highMem + (k + 1)) % 2 ^ 20

theorem kept_early_iff (hlo : 0x100000 ≤ highMem) (hhi : highMem < wordSize) (k : Nat) :
    (∀ (ops : List FrameOp) (f : Nat), (early mem kernelEnd highMem k).allocGetPage.1 = some f →
      (ops.foldl execFrame (booted mem kernelEnd highMem n)).allocGetPage.1 = some f →
        ∃ g, .freePage g ∈ ops ∧ g % wordSize / 4096 = f / 4096) ↔
      (earlyIndex highMem k < 8 * (highMem / 4096 / 8) → earlyIndex highMem k < highMem / 4096 * 2 / 4096 + 10 ∨
        earlyIndex highMem k ∈ (early mem kernelEnd highMem n).bootMarks) := by
  have h0 : highMem ≠ 0 := by omega
  have hready := ready_booted mem kernelEnd n hhi
  have hmanaged : (booted mem kernelEnd highMem n).managed = 8 * (highMem / 4096 / 8) := by
    rw [managed, booted_totalPages]
  have haddr : (archGetMemStart kernelEnd + (firstEarly highMem + (k + 1)) * 4096) % wordSize =
      (booted mem kernelEnd highMem n).frameAddr (earlyIndex highMem k) := by
    unfold frameAddr earlyIndex pageSize wordSize
    rw [booted_allocStart h0]
    omega
  rw [early_getPage h0, haddr]
  by_cases hin : earlyIndex highMem k < 8 * (highMem / 4096 / 8)
  · have hj := hmanaged ▸ hin
    rw [← bitAt_booted _ hj, ← kept_iff hready hj]
    constructor
    · exact fun h _ ops hget => h ops _ rfl hget
    · intro h ops f hf hget
      cases hf
      exact h hin ops hget
  · refine ⟨fun _ h => absurd h hin, fun _ ops f hf hget => ?_⟩
    cases hf
    obtain ⟨i, hi, heq⟩ := getPage_managed hready hget
    have hidx : earlyIndex highMem k < 2 ^ 20 := Nat.mod_lt _ (by decide)
    obtain rfl := (frameAddr_inj hidx (by omega)).mp heq
    exact absurd (hmanaged ▸ hi) hin

/-- The hand-off is right unless frames are given out early until the addresses wrap around: the counter of the early
    frames knows no end of the memory. -/
theorem handOff_iff (mem : Bytes) (kernelEnd n : Nat) (hlo : 0x100000 ≤ highMem) (hhi : highMem < wordSize) :
    HandOff mem kernelEnd highMem n ↔ n = 0 ∨
      archGetMemStart kernelEnd + highMem / 4096 * 8 < wordSize ∧ n ≤ 2 ^ 20 ∧
        (highMem / 4096 < 512 ∨ n + highMem / 4096 / 512 < 2 ^ 20 + highMem / 4096 / 2048) := by
  have h0 : highMem ≠ 0 := by omega
  have hmarks : ∀ i, i ∈ (early mem kernelEnd highMem n).bootMarks ↔ _ := fun i => mem_bootMarks_iff h0 hhi
  constructor
  · rintro ⟨hdistinct, hkept⟩
    rw [distinct_iff h0] at hdistinct
    rcases Nat.eq_zero_or_pos n with hn | hn
    · exact .inl hn
    -- the first early frame, and the one that wraps around to the first frame behind the map
    have hfirst := (kept_early_iff hlo hhi 0).mp (hkept 0 hn)
    have hfit : archGetMemStart kernelEnd + highMem / 4096 * 8 < wordSize := by
      rw [hmarks] at hfirst
      unfold earlyIndex firstEarly at hfirst
      unfold wordSize at hhi
      exact ((hfirst (by omega)).resolve_left (by omega)).1
    refine .inr ⟨hfit, hdistinct, ?_⟩
    by_contra hcond
    obtain ⟨k, hk⟩ : ∃ k, k + 1 + highMem / 4096 / 512 = 2 ^ 20 + highMem / 4096 / 2048 :=
      ⟨2 ^ 20 + highMem / 4096 / 2048 - highMem / 4096 / 512 - 1, by unfold wordSize at hhi; omega⟩
    have hidx : earlyIndex highMem k = highMem / 4096 / 2048 + 10 := by
      unfold earlyIndex firstEarly
      unfold wordSize at hhi
      omega
    have hwrap := (kept_early_iff hlo hhi k).mp (hkept k (by omega))
    rw [hmarks, hidx] at hwrap
    unfold firstEarly at hwrap
    omega
  · intro hcond
    refine ⟨(distinct_iff h0).mpr (by omega), fun k hk => (kept_early_iff hlo hhi k).mpr fun hin => ?_⟩
    rw [hmarks]
    unfold earlyIndex firstEarly at *
    unfold wordSize at *
    omega

end HandOff

theorem handOff_iff_hundred : HandOff (fun _ => 0#8) 0x150000 0x8000000 100 :=
  (handOff_iff _ _ _ (by decide) (by decide)).mpr (by decide)

/-- After 2^20 calls the early frames start anew. -/
theorem handOff_repeats :
    (early (fun _ => 0#8) 0x150000 0x100000 0).allocGetPage.1 =
        (early (fun _ => 0#8) 0x150000 0x100000 (2 ^ 20)).allocGetPage.1 ∧
      ¬HandOff (fun _ => 0#8) 0x150000 0x100000 (2 ^ 20 + 1) := by
  have heq : (early (fun _ => 0#8) 0x150000 0x100000 0).allocGetPage.1 =
      (early (fun _ => 0#8) 0x150000 0x100000 (2 ^ 20)).allocGetPage.1 :=
    (early_getPage_eq_iff (by decide) (by decide)).mpr (Nat.dvd_refl _)
  exact ⟨heq, fun h => h.distinct 0 (2 ^ 20) (by decide) (Nat.lt_succ_self _) heq⟩

end Frames
end HelinKern
