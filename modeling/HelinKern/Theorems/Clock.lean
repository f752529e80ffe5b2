import HelinKern.Clock

/-! How long `kwait` waits, and what `clock_convertTime` makes of dates. -/

namespace HelinKern
namespace Clock

variable {entry : BitVec 64} {ms : Nat} {t t' : Tm}

theorem waits_iff (h : entry.toNat < 2147483648 ∨ 18446744071562067968 ≤ entry.toNat) (hms : ms + 1 < 2147483648) (ticks : Nat) :
    waits entry ms ticks ↔ ticks % 18446744073709551616 ≤ ms := by
  have := entry.isLt
  unfold waits
  omega

/-- The wait is long enough exactly if the counter is its own value as an `int`. -/
theorem kwait_lasts_iff (hms : ms + 1 < 2147483648) : (∀ tests ticks, kwait entry ms tests = some ticks → ms ≤ ticks) ↔
    ms = 0 ∨ entry.toNat < 2147483648 ∨ 18446744071562067968 ≤ entry.toNat := by
  constructor
  · intro h
    by_contra hno
    have hreturns : ¬waits entry ms 0 := by
      have := entry.isLt
      unfold waits
      omega
    have := h [0] 0 (by simp [kwait, hreturns])
    omega
  · rintro (rfl | h) tests ticks hwait
    · exact Nat.zero_le ticks
    · have hends : ¬waits entry ms ticks := by simpa using List.find?_some hwait
      have := Nat.mod_le ticks 18446744073709551616
      rw [waits_iff h hms] at hends
      omega

theorem kwait_lasts_boot : kwait 0 10 [5, 11] = some 11 ∧ 10 ≤ 11 :=
  ⟨by decide, (@kwait_lasts_iff 0 10 (by decide)).mpr (.inr (.inl (by decide))) [5, 11] 11 (by decide)⟩

/-- After 2^31 ticks a wait for 10 ms ends at once. -/
theorem kwait_returns_at_once : kwait 0x80000000 10 [0] = some 0 := by decide

/-! ### Dates -/

def leap (year : Nat) : Bool := year % 4 = 0 ∧ (year % 100 ≠ 0 ∨ year % 400 = 0)

def yearDays (year : Nat) : Nat := if leap year then 366 else 365

def monthDays (year mon : Nat) : Nat :=
  if mon = 1 then if leap year then 29 else 28 else if mon ∈ [3, 5, 8, 10] then 30 else 31

/-- The days from the start of 1970 to that of a month. -/
def daysBefore (year mon : Nat) : Nat :=
  ((List.range (year - 70)).map fun y => yearDays (1970 + y)).sum + ((List.range mon).map (monthDays (1900 + year))).sum

def seconds (t : Tm) : Nat :=
  (daysBefore t.year t.mon + (t.mday - 1)) * 86400 + t.hour * 3600 + t.min * 60 + t.sec

/-- A date from 1970 to 2099. -/
structure Valid (t : Tm) : Prop where
  year : 70 ≤ t.year ∧ t.year < 200
  mon : t.mon < 12
  mday : 1 ≤ t.mday ∧ t.mday ≤ monthDays (1900 + t.year) t.mon
  hour : t.hour < 24
  min : t.min < 60
  sec : t.sec < 60

def fields (t : Tm) : List Nat := [t.year, t.mon, t.mday, t.hour, t.min, t.sec]

theorem convertTime_eq (h : Valid t) :
    clockConvertTime t = ((t.year - 69) * 365 + t.mon * 30 + (t.mday - 1)) * 86400 + t.hour * 3600 + t.min * 60 + t.sec := by
  have hyear := h.year
  simp only [clockConvertTime]
  rw [if_pos (by omega), show t.year + 1900 - 1970 + 1 = t.year - 69 by omega]

theorem daysBefore_le : ∀ y < 130, ∀ mon < 12, daysBefore (70 + y) mon ≤ y * 365 + mon * 30 + 38 := by decide +kernel

/-- The result is always too large, and it keeps the order of dates whose days are not the 31st. -/
theorem convertTime_spec (h : Valid t) (h' : Valid t') : seconds t < clockConvertTime t ∧
    (t.mday ≤ 30 → t'.mday ≤ 30 → fields t < fields t' → clockConvertTime t < clockConvertTime t') := by
  rw [convertTime_eq h, convertTime_eq h']
  obtain ⟨hyear, hmon, hmday, hhour, hmin, hsec⟩ := h
  obtain ⟨hyear', hmon', hmday', hhour', hmin', hsec'⟩ := h'
  refine ⟨?_, fun hday hday' hlt => ?_⟩
  · have hdays := daysBefore_le (t.year - 70) (by omega) t.mon hmon
    rw [show 70 + (t.year - 70) = t.year by omega] at hdays
    unfold seconds
    omega
  · simp only [fields, List.cons_lt_cons_iff, List.not_lt_nil, and_false, or_false] at hlt
    omega

theorem convertTime_spec_leapDay : clockConvertTime ⟨100, 1, 28, 0, 0, 0⟩ < clockConvertTime ⟨100, 1, 29, 0, 0, 0⟩ :=
  (convertTime_spec (by constructor <;> decide) (by constructor <;> decide)).2 (by decide) (by decide) (by decide)

/-- The start of 1970 is taken for that of 1971, and two days of it for one. -/
theorem convertTime_epoch : clockConvertTime ⟨70, 0, 1, 0, 0, 0⟩ = 31536000 ∧ seconds ⟨70, 0, 1, 0, 0, 0⟩ = 0 ∧
    clockConvertTime ⟨70, 0, 31, 0, 0, 0⟩ = clockConvertTime ⟨70, 1, 1, 0, 0, 0⟩ := by decide

end Clock
end HelinKern
