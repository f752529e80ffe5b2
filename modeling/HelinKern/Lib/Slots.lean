import Mathlib.Data.Set.Card

/-! Blocks of memory and the slots that refer to them: when every block that is alive is referred to, and none that was
    freed; and blocks whose contents must fit the slots that refer to them. -/

namespace Slots
open Option Function

inductive MemStatus
  | unused
  | alive
  | freed
  deriving DecidableEq, Repr

variable {ι α β : Type} {s s' : ι → Option α} {i j : ι} {x y z : α} {v : Option α} {status status' : α → MemStatus}
  {m : MemStatus}

theorem MemStatus.eq_alive (hunused : m ≠ .unused) (hfreed : m ≠ .freed) : m = .alive := by
  cases m with
  | unused => exact absurd rfl hunused
  | alive => rfl
  | freed => exact absurd rfl hfreed

theorem MemStatus.ne_of_unused (hy : status y = .unused) (hx : status x = .alive) : x ≠ y := by
  rintro rfl
  rw [hy] at hx
  cases hx

theorem MemStatus.unused_of_update [DecidableEq α] (hx : update status y m x = .unused) (hm : m ≠ .unused) :
    status x = .unused := by
  by_cases hxy : x = y
  · rw [hxy, update_self] at hx
    exact absurd hx hm
  · rwa [update_of_ne hxy] at hx

def refs (s : ι → Option α) (x : α) : Set ι := {i | s i = some x}

def Holds (s : ι → Option α) (x : α) : Prop := ∃ i, s i = some x

def HoldsBut (s : ι → Option α) (j : ι) (x : α) : Prop := ∃ i, i ≠ j ∧ s i = some x

theorem HoldsBut.holds (h : HoldsBut s j x) : Holds s x := by
  obtain ⟨i, -, hi⟩ := h
  exact ⟨i, hi⟩

/-- Slots refer to all blocks that are alive, and to none that was freed. -/
structure Tracks (s : ι → Option α) (status : α → MemStatus) : Prop where
  alive : ∀ x, status x = .alive → Holds s x
  freed : ∀ x, status x = .freed → ¬Holds s x

theorem Tracks.congr (h : Tracks s status) (hsame : ∀ x, Holds s' x ↔ Holds s x) : Tracks s' status :=
  ⟨fun x hx => (hsame x).mpr (h.alive x hx), fun x hx hholds => h.freed x hx ((hsame x).mp hholds)⟩

/-- Slots refer to blocks, to blocks that were freed, or to the strays `l`. -/
def Known (s : ι → Option α) (status : α → MemStatus) (l : List α) : Prop :=
  ∀ x, Holds s x → status x = .unused → x ∈ l

theorem Known.not_holds {l : List α} (h : Known s status l) (hx : status x = .unused) (hl : x ∉ l) : ¬Holds s x :=
  fun hholds => hl (h x hholds hx)

theorem Known.mono {l l' : List α} (h : Known s status l) (hholds : ∀ x, Holds s' x → Holds s x)
    (hstatus : ∀ x, status' x = .unused → status x = .unused) (hl : l ⊆ l') : Known s' status' l' :=
  fun x hx hunused => hl (h x (hholds x hx) (hstatus x hunused))

section Update

variable [DecidableEq ι]

theorem holds_iff (j : ι) : Holds s x ↔ s j = some x ∨ HoldsBut s j x := by
  constructor
  · rintro ⟨i, hi⟩
    by_cases hij : i = j
    · exact .inl (hij ▸ hi)
    · exact .inr ⟨i, hij, hi⟩
  · rintro (h | h)
    · exact ⟨j, h⟩
    · exact h.holds

theorem holds_update : Holds (update s j v) x ↔ v = some x ∨ HoldsBut s j x := by
  rw [holds_iff j, update_self]
  refine or_congr_right (exists_congr fun i => and_congr_right fun hij => ?_)
  rw [update_of_ne hij]

theorem Holds.but (h : Holds s x) (hj : s j ≠ some x) : HoldsBut s j x := ((holds_iff j).mp h).resolve_left hj

theorem Known.update {l l' : List α} (h : Known s status l) (hv : ∀ x, v = some x → status' x = .unused → x ∈ l')
    (hstatus : ∀ x, status' x = .unused → status x = .unused) (hl : l ⊆ l') :
    Known (update s j v) status' l' := by
  intro x hx hunused
  obtain heq | hbut := holds_update.mp hx
  · exact hv x heq hunused
  · exact hl (h x hbut.holds (hstatus x hunused))

theorem refs_put : refs (update s i (some x)) x = insert i (refs s x) := by
  ext l
  by_cases hl : l = i
  · simp [refs, hl]
  · simp [refs, hl]

theorem refs_clear : refs (update s i none) x = refs s x \ {i} := by
  ext l
  by_cases hl : l = i
  · simp [refs, hl]
  · simp [refs, hl]

theorem refs_update_of_ne (hi : s i ≠ some x) (hv : v ≠ some x) : refs (update s i v) x = refs s x := by
  ext l
  by_cases hl : l = i
  · simp [refs, hl, hi, hv]
  · simp [refs, hl]

end Update

namespace Tracks

theorem free_new [DecidableEq α] (h : Tracks s status) (hnew : ¬Holds s y) : Tracks s (update status y .freed) := by
  refine ⟨fun x hx => ?_, fun x hx => ?_⟩
  · by_cases hxy : x = y
    · rw [hxy, update_self] at hx
      cases hx
    · rw [update_of_ne hxy] at hx
      exact h.alive x hx
  · by_cases hxy : x = y
    · exact hxy ▸ hnew
    · rw [update_of_ne hxy] at hx
      exact h.freed x hx

variable [DecidableEq ι]

/-- Writing a slot: what it referred to needs another slot, and what it refers to now must not be freed. -/
theorem put_iff (h : Tracks s status) (y : α) :
    Tracks (update s j (some y)) status ↔
      status y ≠ .freed ∧ ∀ x, status x = .alive → y = x ∨ HoldsBut s j x := by
  constructor
  · intro h'
    refine ⟨fun hy => h'.freed y hy (holds_update.mpr (.inl rfl)), fun x hx => ?_⟩
    exact (holds_update.mp (h'.alive x hx)).imp some.inj id
  · rintro ⟨hy, hkept⟩
    refine ⟨fun x hx => holds_update.mpr ((hkept x hx).imp (congrArg some) id), fun x hx hholds => ?_⟩
    obtain heq | hbut := holds_update.mp hholds
    · cases heq
      exact hy hx
    · exact h.freed x hx hbut.holds

theorem clear_iff (h : Tracks s status) (hj : s j = some y) (hy : status y = .alive) :
    Tracks (update s j none) status ↔ HoldsBut s j y := by
  constructor
  · intro h'
    exact (holds_update.mp (h'.alive y hy)).resolve_left nofun
  · intro hbut
    refine ⟨fun x hx => holds_update.mpr (.inr ?_), fun x hx hholds => ?_⟩
    · by_cases hxy : x = y
      · exact hxy ▸ hbut
      · exact (h.alive x hx).but fun heq => hxy (some.inj (heq.symm.trans hj))
    · exact h.freed x hx ((holds_update.mp hholds).resolve_left nofun).holds

variable [DecidableEq α]

theorem clear_free_iff (h : Tracks s status) (hj : s j = some y) :
    Tracks (update s j none) (update status y .freed) ↔ ¬HoldsBut s j y := by
  constructor
  · intro h' hbut
    exact h'.freed y (update_self ..) (holds_update.mpr (.inr hbut))
  · intro hbut
    refine ⟨fun x hx => ?_, fun x hx hholds => ?_⟩
    · by_cases hxy : x = y
      · rw [hxy, update_self] at hx
        cases hx
      · rw [update_of_ne hxy] at hx
        exact holds_update.mpr (.inr ((h.alive x hx).but fun heq => hxy (some.inj (heq.symm.trans hj))))
    · have hholds := (holds_update.mp hholds).resolve_left nofun
      by_cases hxy : x = y
      · exact hbut (hxy ▸ hholds)
      · rw [update_of_ne hxy] at hx
        exact h.freed x hx hholds.holds

theorem freed_put_new (hfreed : ∀ x, status x = .freed → ¬Holds s x) (x : α)
    (hx : update status y .alive x = .freed) : ¬Holds (update s j (some y)) x := by
  by_cases hxy : x = y
  · rw [hxy, update_self] at hx
    cases hx
  rw [update_of_ne hxy] at hx
  intro hholds
  obtain heq | hbut := holds_update.mp hholds
  · exact hxy (some.inj heq).symm
  · exact hfreed x hx hbut.holds

theorem put_new_iff (hfreed : ∀ x, status x = .freed → ¬Holds s x) (hy : status y = .unused) :
    Tracks (update s j (some y)) (update status y .alive) ↔
      ∀ x, status x = .alive → HoldsBut s j x := by
  constructor
  · intro h' x hx
    have hxy := MemStatus.ne_of_unused hy hx
    have halive := h'.alive x (by rwa [update_of_ne hxy])
    exact (holds_update.mp halive).resolve_left fun heq => hxy (some.inj heq).symm
  · intro hkept
    refine ⟨fun x hx => holds_update.mpr ?_, freed_put_new hfreed⟩
    by_cases hxy : x = y
    · exact .inl (hxy ▸ rfl)
    · rw [update_of_ne hxy] at hx
      exact .inr (hkept x hx)

theorem put_two_new_iff (h : Tracks s status) (hy : status y = .unused) (hz : status z = .unused) (hzy : z ≠ y)
    (hij : i ≠ j) :
    Tracks (update (update s i (some y)) j (some z))
        (update (update status y .alive) z .alive) ↔
      ∀ x, status x = .alive → ∃ l, l ≠ i ∧ l ≠ j ∧ s l = some x := by
  rw [put_new_iff (freed_put_new h.freed) (by rwa [update_of_ne hzy])]
  constructor
  · intro hkept x hx
    have hxy := MemStatus.ne_of_unused hy hx
    obtain ⟨l, hlj, hl⟩ := hkept x (by rwa [update_of_ne hxy])
    have hli : l ≠ i := by
      rintro rfl
      rw [update_self] at hl
      exact hxy (some.inj hl).symm
    exact ⟨l, hli, hlj, by rwa [update_of_ne hli] at hl⟩
  · intro hkept x hx
    by_cases hxy : x = y
    · exact ⟨i, hij, by rw [update_self, hxy]⟩
    · rw [update_of_ne hxy] at hx
      obtain ⟨l, hli, hlj, hl⟩ := hkept x hx
      exact ⟨l, hlj, by rwa [update_of_ne hli]⟩

end Tracks

/-- The blocks that are alive are those that slots refer to, and the contents of each fit the slots that do. -/
structure Owned (Fits : β → Set ι → Prop) (s : ι → Option α) (status : α → MemStatus) (contents : α → β) : Prop where
  alive : ∀ x, status x = .alive ↔ (refs s x).Nonempty
  fits : ∀ x, status x = .alive → Fits (contents x) (refs s x)

namespace Owned

variable {Fits : β → Set ι → Prop} {contents contents' : α → β}

theorem alive_of_ref (h : Owned Fits s status contents) (hi : s i = some x) : status x = .alive := (h.alive x).mpr ⟨i, hi⟩

theorem refs_eq_empty (h : Owned Fits s status contents) (hx : status x ≠ .alive) : refs s x = ∅ :=
  Set.not_nonempty_iff_eq_empty.mp (mt (h.alive x).mpr hx)

/-- A change to one block and the slots that refer to it: `S` and `c` are what they are after it. -/
theorem change (h : Owned Fits s status contents) {S : Set ι} {c : β} (hS : refs s' x = S) (hc : contents' x = c)
    (hrefs : ∀ y, y ≠ x → refs s' y = refs s y) (hstatus : ∀ y, y ≠ x → status' y = status y)
    (hcontents : ∀ y, y ≠ x → contents' y = contents y) (halive : status' x = .alive ↔ S.Nonempty)
    (hfits : status' x = .alive → Fits c S) : Owned Fits s' status' contents' := by
  subst hS hc
  refine ⟨fun y => ?_, fun y hy => ?_⟩
  · by_cases hyx : y = x
    · exact hyx ▸ halive
    · rw [hstatus y hyx, hrefs y hyx]
      exact h.alive y
  · by_cases hyx : y = x
    · subst hyx
      exact hfits hy
    · rw [hstatus y hyx] at hy
      rw [hcontents y hyx, hrefs y hyx]
      exact h.fits y hy

end Owned
end Slots
