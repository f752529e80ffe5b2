import HelinKern.Mmu
import HelinKern.Theorems.Frames
import Mathlib.Data.Set.Lattice
import Mathlib.Order.CompletePartialOrder

/-! Where boot puts the frame bitmap, the page-directory pool and the frames `alloc_getPage` returns. -/

namespace HelinKern
variable {kernelEnd i : Nat}

namespace Frames
open Bitmap Lts List

/-- `len` addresses from `start` on, wrapping around the 32-bit address space. -/
def area (start len : Nat) : Set Nat := {a | ∃ k < len, a = (start + k) % wordSize}

/-- `[phys_map, phys_map + total_pages / 8)`. -/
def physMapArea (kernelEnd highMem : Nat) : Set Nat := area (archGetMemStart kernelEnd) (highMem / 4096 / 8)

/-- `[KERN_PD_AREA_BEGIN, KERN_PD_AREA_END)`. -/
def pdArea (kernelEnd : Nat) : Set Nat := area (kernPdAreaBegin kernelEnd) kernPdAreaSize

/-- What `alloc_getPage` can return: one of the `n` frames taken before `alloc_mapItself`, or a frame
    some sequence of calls gets afterwards. -/
def Returnable (mem : Bytes) (kernelEnd highMem n f : Nat) : Prop :=
  (∃ k < n, (early mem kernelEnd highMem k).allocGetPage.1 = some f) ∨
    ∃ ops s, Run FrameStep ⟨booted mem kernelEnd highMem n, []⟩ ops s ∧ s.frames.allocGetPage.1 = some f

def frameArea (mem : Bytes) (kernelEnd highMem n : Nat) : Set Nat :=
  {a | ∃ f, Returnable mem kernelEnd highMem n f ∧ a ∈ area f pageSize}

/-- The three areas keep out of each other. -/
structure LayoutDisjoint (mem : Bytes) (kernelEnd highMem n : Nat) : Prop where
  map_pool : Disjoint (physMapArea kernelEnd highMem) (pdArea kernelEnd)
  map_frames : Disjoint (physMapArea kernelEnd highMem) (frameArea mem kernelEnd highMem n)
  pool_frames : Disjoint (pdArea kernelEnd) (frameArea mem kernelEnd highMem n)

theorem kernPdAreaBegin_eq (kernelEnd : Nat) :
    kernPdAreaBegin kernelEnd = (archGetMemStart kernelEnd + 8192) % wordSize := by
  unfold kernPdAreaBegin archGetMemStart wordSize
  omega

theorem mem_pdArea {k : Nat} (hlo : 8192 ≤ k) (hhi : k < 8192 + kernPdAreaSize) :
    (archGetMemStart kernelEnd + k) % wordSize ∈ pdArea kernelEnd := by
  refine ⟨k - 8192, by omega, ?_⟩
  rw [kernPdAreaBegin_eq]
  unfold wordSize
  omega

theorem not_disjoint_of_returnable {mem : Bytes} {highMem n : Nat}
    (hf : Returnable mem kernelEnd highMem n ((archGetMemStart kernelEnd + i * 4096) % wordSize)) (hlo : 2 ≤ i)
    (hhi : i ≤ 258) : ¬LayoutDisjoint mem kernelEnd highMem n := by
  intro h
  refine Set.disjoint_left.mp h.pool_frames (mem_pdArea (k := i * 4096) (by omega) (by unfold kernPdAreaSize; omega))
    ⟨_, hf, 0, by decide, ?_⟩
  simp

section Accepted
variable {mem : Bytes} {kernelEnd highMem n : Nat}

theorem allocInit_eq (h0 : highMem ≠ 0) :
    (unset mem).allocInit kernelEnd highMem =
      { unset mem with
        allocStart := archGetMemStart kernelEnd
        totalPages := highMem / 4096
        notMappedPageIndx := pageIndex4K ((archGetMemStart kernelEnd + highMem / 4096 * 8) % wordSize) + 10 } := by
  unfold allocInit
  rw [if_neg h0]

theorem booted_allocStart (h0 : highMem ≠ 0) :
    (booted mem kernelEnd highMem n).allocStart = archGetMemStart kernelEnd := by
  obtain ⟨used, h⟩ := early_eq mem kernelEnd highMem n
  show (early mem kernelEnd highMem n).allocStart = _
  rw [h, allocInit_eq h0]

def firstEarly (highMem : Nat) : Nat := highMem / 4096 / 512 + 10

theorem early_getPage (h0 : highMem ≠ 0) (k : Nat) :
    (early mem kernelEnd highMem k).allocGetPage.1 =
      some ((archGetMemStart kernelEnd + (firstEarly highMem + (k + 1)) * 4096) % wordSize) := by
  obtain ⟨used, h⟩ := early_eq mem kernelEnd highMem k
  rw [h, allocInit_eq h0]
  show some _ = some _
  simp only [pageIndex4K, pageSize, archGetMemStart, wordSize, Option.some.injEq, firstEarly]
  omega

theorem returnable_early (h0 : highMem ≠ 0) (hn : n ≠ 0) :
    Returnable mem kernelEnd highMem n
      ((archGetMemStart kernelEnd + (highMem / 4096 / 512 + 11) * 4096) % wordSize) :=
  .inl ⟨0, Nat.pos_of_ne_zero hn, early_getPage h0 0⟩

theorem mem_takeWhile_range {α : Type} {f : Nat → α} {p : α → Bool} {m : Nat} {x : α} :
    x ∈ ((List.range m).map f).takeWhile p ↔ ∃ k < m, x = f k ∧ ∀ l ≤ k, p (f l) := by
  induction m generalizing f with
  | zero => simp
  | succ m ih =>
    rw [range_succ_eq_map, map_cons, map_map, takeWhile_cons]
    cases hp : p (f 0) with
    | false =>
      refine ⟨nofun, ?_⟩
      rintro ⟨k, -, -, hall⟩
      rw [hall 0 (Nat.zero_le k)] at hp
      cases hp
    | true =>
      rw [if_pos rfl, mem_cons, ih]
      constructor
      · rintro (rfl | ⟨k, hk, rfl, hall⟩)
        · exact ⟨0, Nat.succ_pos m, rfl, fun l hl => by rwa [Nat.le_zero.mp hl]⟩
        refine ⟨k + 1, by omega, rfl, fun l hl => ?_⟩
        cases l with
        | zero => exact hp
        | succ l => exact hall l (by omega)
      · rintro ⟨k, hk, rfl, hall⟩
        cases k with
        | zero => exact .inl rfl
        | succ k => exact .inr ⟨k, by omega, rfl, fun l hl => hall (l + 1) (by omega)⟩

theorem mem_bootMarks_iff (h0 : highMem ≠ 0) (hmem : highMem < wordSize) :
    i ∈ (early mem kernelEnd highMem n).bootMarks ↔
      archGetMemStart kernelEnd + highMem / 4096 * 8 < wordSize ∧ firstEarly highMem ≤ i ∧
        i < firstEarly highMem + n + 2 ∧ i < highMem / 4096 := by
  obtain ⟨used, h⟩ := early_eq mem kernelEnd highMem n
  have hstart := archGetMemStart_lt kernelEnd
  have haligned : archGetMemStart kernelEnd % 4096 = 0 := Nat.mul_mod_left ..
  rw [h, allocInit_eq h0]
  unfold bootMarks
  rw [mem_takeWhile_range]
  simp only [pageIndex4K, firstEarly]
  unfold wordSize at *
  constructor
  · rintro ⟨k, hk, rfl, hall⟩
    have hshort : k < highMem / 4096 := by
      refine Nat.lt_of_not_le fun hle => ?_
      have hfirst := of_decide_eq_true (hall 0 (Nat.zero_le k))
      have hend := of_decide_eq_true (hall (highMem / 4096) hle)
      omega
    have hfirst := of_decide_eq_true (hall 0 (Nat.zero_le k))
    have hlast := of_decide_eq_true (hall k (Nat.le_refl k))
    omega
  · rintro ⟨hfit, hlo, hhi, hlt⟩
    refine ⟨i - (highMem / 4096 / 512 + 10), by omega, by omega, fun l hl => decide_eq_true (by omega)⟩

theorem bitAt_booted (i : Nat) (hi : i < (booted mem kernelEnd highMem n).managed) :
    bitAt (booted mem kernelEnd highMem n).physMap i ↔
      i < highMem / 4096 * 2 / 4096 + 10 ∨ i ∈ (early mem kernelEnd highMem n).bootMarks := by
  have htotal : (early mem kernelEnd highMem n).totalPages = highMem / 4096 := booted_totalPages ..
  have hcleared : ∀ m : Bytes, bitAt (fun byte => if byte < highMem / 4096 / 8 then 0#8 else m byte) i = false := by
    intro m
    rw [managed, booted_totalPages] at hi
    show (if i / 8 < highMem / 4096 / 8 then 0#8 else m (i / 8)).getLsbD (i % 8) = false
    rw [if_pos (by omega), BitVec.getLsbD_zero]
  unfold booted allocMapItself
  simp only [bitAt_foldl_setBit, htotal, hcleared, Bool.or_false, Bool.or_eq_true, decide_eq_true_eq, mem_range,
    allocGetBitmapSize]
  exact or_comm

theorem findPage_booted_small (hsmall : highMem / 4096 < 16) : (booted mem kernelEnd highMem n).findPage = none := by
  refine findPage_eq_none_iff.mpr fun i hi => (bitAt_booted i hi).mpr (Or.inl ?_)
  rw [managed, booted_totalPages] at hi
  omega

theorem findPage_booted (h0 : highMem ≠ 0) (hlo : 16 ≤ highMem / 4096) (hhi : highMem / 4096 ≤ 65543) :
    ∃ i, (booted mem kernelEnd highMem 0).findPage = some i ∧ 2 ≤ i ∧ i ≤ 258 := by
  have hfree : highMem / 4096 / 512 + 12 < (booted mem kernelEnd highMem 0).managed := by
    rw [managed, booted_totalPages]
    omega
  have hclear : bitAt (booted mem kernelEnd highMem 0).physMap (highMem / 4096 / 512 + 12) = false := by
    refine Bool.eq_false_iff.mpr fun hset => ?_
    rcases (bitAt_booted _ hfree).mp hset with h | h
    · omega
    · have := (mem_bootMarks_iff h0 (by unfold wordSize; omega)).mp h
      unfold firstEarly at this
      omega
  cases hf : (booted mem kernelEnd highMem 0).findPage with
  | none =>
    rw [findPage_eq_none_iff.mp hf _ hfree] at hclear
    cases hclear
  | some i =>
    obtain ⟨hi, hic⟩ := findPage_eq_some hf
    have hle := findPage_le hf hfree hclear
    refine ⟨i, rfl, Nat.le_of_not_lt fun hlt => ?_, by omega⟩
    rw [(bitAt_booted i hi).mpr (Or.inl (by omega))] at hic
    cases hic

theorem returnable_booted (h0 : highMem ≠ 0) (hi : (booted mem kernelEnd highMem n).findPage = some i) :
    Returnable mem kernelEnd highMem n ((archGetMemStart kernelEnd + i * 4096) % wordSize) := by
  refine Or.inr ⟨[], _, Run.refl, ?_⟩
  rw [allocGetPage_of_mapped rfl, hi]
  show some ((_ + i * 4096) % wordSize) = _
  rw [booted_allocStart h0]

theorem not_returnable (hfull : (booted mem kernelEnd highMem 0).findPage = none) (f : Nat) :
    ¬Returnable mem kernelEnd highMem 0 f := by
  rintro (⟨k, hk, -⟩ | ⟨ops, s, hrun, hget⟩)
  · exact Nat.not_lt_zero k hk
  have hsame : s = ⟨booted mem kernelEnd highMem 0, []⟩ := by
    refine Run.invariant (· = _) rfl ?_ hrun
    rintro t op u rfl hs
    have hnone : (booted mem kernelEnd highMem 0).allocGetPage = (none, booted mem kernelEnd highMem 0) := by
      rw [allocGetPage_of_mapped rfl, hfull]
    cases hs with
    | got hg => simp [hnone] at hg
    | full hg => simpa [hnone] using hg.symm
    | freed hf => simp at hf
  rw [hsame, allocGetPage_of_mapped rfl, hfull] at hget
  cases hget

/-- The bitmap, the pool and the frames keep out of each other for no memory that could hold the
    kernel: only under 16 pages, where no frame is ever given after `alloc_mapItself`, and only if
    none was taken before. -/
theorem layoutDisjoint_iff (h0 : highMem ≠ 0) :
    LayoutDisjoint mem kernelEnd highMem n ↔ highMem / 4096 < 16 ∧ n = 0 := by
  constructor
  · intro h
    by_cases hlarge : 65543 < highMem / 4096
    · -- the bitmap alone is longer than the two pages before the pool
      exact absurd (mem_pdArea (by decide) (by decide))
        (Set.disjoint_left.mp h.map_pool ⟨8192, by omega, rfl⟩)
    by_cases hn : n = 0
    · subst hn
      refine ⟨Nat.lt_of_not_le fun hlo => ?_, rfl⟩
      obtain ⟨i, hi, hlo, hhi⟩ := findPage_booted h0 hlo (Nat.le_of_not_lt hlarge)
      exact not_disjoint_of_returnable (returnable_booted h0 hi) hlo hhi h
    · exact absurd h (not_disjoint_of_returnable (returnable_early h0 hn) (by omega) (by omega))
  · rintro ⟨hsmall, rfl⟩
    have hno := not_returnable (findPage_booted_small hsmall : (booted mem kernelEnd highMem 0).findPage = none)
    have hempty : frameArea mem kernelEnd highMem 0 = ∅ :=
      Set.eq_empty_of_forall_notMem fun a ⟨f, hf, _⟩ => hno f hf
    refine ⟨Set.disjoint_left.mpr ?_, hempty ▸ Set.disjoint_empty _, hempty ▸ Set.disjoint_empty _⟩
    rintro a ⟨k, hk, rfl⟩ ⟨j, hj, hjk⟩
    rw [kernPdAreaBegin_eq] at hjk
    simp only [kernPdAreaSize, wordSize] at hj hjk
    omega

end Accepted

/-- A small machine on which the layout is as meant, and one page more than that. -/
theorem layoutDisjoint_iff_small :
    LayoutDisjoint (fun _ => 0#8) 0x150000 0xF000 0 ∧ ¬LayoutDisjoint (fun _ => 0#8) 0x150000 0x10000 0 :=
  ⟨(layoutDisjoint_iff (by decide)).mpr (by decide),
    fun h => absurd ((layoutDisjoint_iff (by decide)).mp h) (by decide)⟩

/-- With 128 MiB the first frame after boot has index 26, inside the pool. -/
theorem layoutDisjoint_fails : ¬LayoutDisjoint (fun _ => 0#8) 0x150000 0x8000000 0 := by
  have h0 : 0x8000000 ≠ 0 := by decide
  obtain ⟨i, hi, hlo, hhi⟩ : ∃ i, (booted (fun _ => 0#8) 0x150000 0x8000000 0).findPage = some i ∧ 2 ≤ i ∧ i ≤ 258 :=
    findPage_booted h0 (by decide) (by decide)
  exact not_disjoint_of_returnable (returnable_booted h0 hi) hlo hhi

end Frames
end HelinKern
