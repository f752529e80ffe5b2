import HelinKern.Theorems.Aspace

/-! The check of user pointers, `isAccessable`: which addresses it accepts, against what the page tables say. -/

namespace HelinKern
namespace Mmu

variable {m : Mmu} {pd p : Nat}

def Mapped (m : Mmu) (pd p : Nat) : Prop :=
  ∃ e, m.pte pd (pageDirectoryIndex p) (pageTableIndex p) = some e ∧ e.frame ≠ 0

/-- The page table entry that `arch_mmu_getPhysical` reads, whatever the directory entry says. -/
def tableEntry (m : Mmu) (pd p : Nat) : Entry :=
  m.entry (m.entry pd (pageDirectoryIndex p)).frame (pageTableIndex p)

/-- The address is the first one of a page whose entry has the frame 0, and lies above the kernel or in a present page. -/
def ReadsZero (m : Mmu) (pd p : Nat) : Prop :=
  ((m.tableEntry pd p).has pgPresent = true ∨ m.kernelEnd < p) ∧ (m.tableEntry pd p).frame = 0 ∧ p % 4096 = 0

theorem archMmuGetPhysical_eq_zero (hp : 0 < p) :
    m.archMmuGetPhysical pd p = 0 ↔ m.entry pd (pageDirectoryIndex p) = .empty ∨ m.ReadsZero pd p := by
  unfold archMmuGetPhysical ReadsZero tableEntry
  by_cases hpde : m.entry pd (pageDirectoryIndex p) = .empty
  · simp only [hpde, if_true, true_or]
  simp only [hpde, if_false, false_or]
  split
  · -- the branch for pages of 4 MB gives the address itself
    rename_i h
    have hpresent := Bool.not_eq_true' _ ▸ h.1
    refine iff_of_false (by omega) fun h' => ?_
    obtain hpresent' | hlt := h'.1
    · rw [hpresent] at hpresent'
      cases hpresent'
    · omega
  next h =>
    rw [not_and_or, Bool.not_eq_true', Bool.not_eq_false, Nat.not_le] at h
    rw [and_iff_right h]
    omega

theorem isAccessable_iff : m.isAccessable pd p ↔ m.archMmuGetPhysical pd p ≠ 0 := decide_eq_true_iff

theorem Mapped.isAccessable (h : m.Mapped pd p) : m.isAccessable pd p := by
  obtain ⟨e, he, hframe⟩ := h
  obtain ⟨hdir, hpresent, rfl⟩ := pte_eq_some.mp he
  have hne : m.entry pd (pageDirectoryIndex p) ≠ .empty := by
    intro hempty
    rw [hempty] at hdir
    cases hdir
  rw [isAccessable_iff]
  unfold archMmuGetPhysical
  simp only [hne, hpresent, if_false, Bool.not_true, Bool.false_eq_true, false_and]
  omega

/-- The check agrees with the page tables exactly for mapped pages, for addresses whose directory entry is 0, and for the
    first address of a page with the frame 0. -/
theorem isAccessable_iff_mapped (m : Mmu) (calls : List PageCall) (pd : Nat) {p : Nat} (hp : userOffset ≤ p)
    (_ : p < memoryEnd) :
    ((m.built calls).isAccessable pd p = true ↔ (m.built calls).Mapped pd p) ↔
      (m.built calls).Mapped pd p ∨ (m.built calls).entry pd (pageDirectoryIndex p) = .empty ∨
        (m.built calls).ReadsZero pd p := by
  generalize m.built calls = m
  have hp : 0 < p := Nat.lt_of_lt_of_le (by decide) hp
  rw [← archMmuGetPhysical_eq_zero hp]
  constructor
  · intro hagree
    by_cases hmapped : m.Mapped pd p
    · exact .inl hmapped
    · have hnot := mt hagree.mp hmapped
      rw [isAccessable_iff, not_not] at hnot
      exact .inr hnot
  · rintro (hmapped | hzero)
    · exact iff_of_true hmapped.isAccessable hmapped
    · have hnot : m.isAccessable pd p ≠ true := fun h => isAccessable_iff.mp h hzero
      exact iff_of_false hnot (mt Mapped.isAccessable hnot)

/-- A page that was mapped. -/
theorem isAccessable_iff_mapped_page :
    ((small.built [.newAspace, .mapPage 514 userOffset 0x400000 (pgPresent ||| pgUser)]).isAccessable 514 (userOffset + 1) = true ↔
      (small.built [.newAspace, .mapPage 514 userOffset 0x400000 (pgPresent ||| pgUser)]).Mapped 514 (userOffset + 1)) := by
  refine (isAccessable_iff_mapped small _ 514 (by decide) (by decide)).mpr (.inl ?_)
  exact ⟨⟨0x400, pgPresent ||| pgUser⟩, by decide +kernel, by decide⟩

/-- A page that was mapped and unmapped: every address of it but the first passes the check. -/
theorem unmapped_page_accessable :
    ∃ calls p, userOffset ≤ p ∧ p < memoryEnd ∧ (small.built calls).isAccessable 514 p = true ∧
      ¬(small.built calls).Mapped 514 p := by
  refine ⟨[.newAspace, .mapPage 514 userOffset 0x400000 (pgPresent ||| pgUser), .unmap 514 userOffset 1], userOffset + 1,
    by decide, by decide, by decide +kernel, ?_⟩
  rintro ⟨e, he, -⟩
  cases he

end Mmu
end HelinKern
