import HelinKern.Frames
import HelinKern.Lib.Lts
import Mathlib.Algebra.Ring.Nat
import Mathlib.Data.List.Nodup
import Mathlib.Logic.Function.Iterate

/-! The frame allocator over whole runs, in which callers take frames and give back frames they hold. -/

namespace HelinKern
variable {s : Frames} {j f : Nat}

namespace Frames
open Bitmap Lts List Option

def frameAddr (s : Frames) (i : Nat) : Nat := (s.allocStart + i * pageSize) % wordSize

def managed (s : Frames) : Nat := 8 * (s.totalPages / 8)

variable {i : Nat}

theorem findPage_eq_some (h : s.findPage = some i) : i < s.managed ∧ bitAt s.physMap i = false := by
  obtain ⟨byte, hbyte, h⟩ := exists_of_findSome?_eq_some h
  rw [mem_range] at hbyte
  split at h
  · obtain ⟨bit, hbit, rfl⟩ := map_eq_some_iff.mp h
    obtain ⟨hlt, hclear⟩ := firstClear_eq_some hbit
    refine ⟨by unfold managed; omega, ?_⟩
    unfold bitAt
    rwa [show (8 * byte + bit) / 8 = byte by omega, show (8 * byte + bit) % 8 = bit by omega]
  · cases h

theorem findPage_eq_none_iff : s.findPage = none ↔ ∀ i < s.managed, bitAt s.physMap i := by
  constructor
  · intro h i hi
    have hbyte := findSome?_eq_none_iff.mp h (i / 8) (mem_range.mpr (by unfold managed at hi; omega))
    split at hbyte
    · exact firstClear_eq_none (map_eq_none_iff.mp hbyte) _ (Nat.mod_lt _ (by decide))
    next hff => exact (eq_allOnes_iff _).mp (not_not.mp hff) _ (Nat.mod_lt _ (by decide))
  · intro h
    cases hf : s.findPage with
    | none => rfl
    | some i =>
      obtain ⟨hi, hclear⟩ := findPage_eq_some hf
      rw [h i hi] at hclear
      cases hclear

theorem findPage_le (h : s.findPage = some i) (hj : j < s.managed) (hclear : bitAt s.physMap j = false) : i ≤ j := by
  obtain ⟨before, byte, after, hsplit, hbyte, hnone⟩ := findSome?_eq_some_iff.mp h
  obtain ⟨bit, hbit, rfl⟩ : ∃ bit, firstClear (s.physMap byte) = some bit ∧ 8 * byte + bit = i := by
    split at hbyte
    · exact map_eq_some_iff.mp hbyte
    · cases hbyte
  have hmem : j / 8 ∈ before ++ byte :: after := by
    rw [← hsplit, mem_range]
    unfold managed at hj
    omega
  have hlt : ∀ x ∈ after, byte < x := by
    have hsorted : (before ++ byte :: after).Pairwise (· < ·) := hsplit ▸ pairwise_lt_range
    exact (pairwise_cons.mp (pairwise_append.mp hsorted).2.1).1
  have hbitlt := (firstClear_eq_some hbit).1
  rcases mem_append.mp hmem with hb | hb
  · -- a byte before is full
    refine absurd (hnone _ hb) ?_
    have hbyte : s.physMap (j / 8) ≠ 0xFF#8 := fun hff => by
      rw [bitAt, (eq_allOnes_iff _).mp hff _ (Nat.mod_lt _ (by decide))] at hclear
      cases hclear
    rw [if_pos hbyte, map_eq_none_iff]
    intro hfull
    rw [bitAt, firstClear_eq_none hfull _ (Nat.mod_lt _ (by decide))] at hclear
    cases hclear
  · rcases mem_cons.mp hb with hb | hb
    · have := firstClear_le hbit (Nat.mod_lt j (by decide)) (by rwa [bitAt, hb] at hclear)
      omega
    · have := hlt _ hb
      omega

theorem allocGetPage_of_mapped (hm : s.mapped) :
    s.allocGetPage = match s.findPage with
      | none => (none, s)
      | some i => (some (s.frameAddr i),
          { s with physMap := setBit s.physMap i, usedPhysMem := (s.usedPhysMem + 4096) % wordSize }) := by
  unfold allocGetPage
  rw [if_neg (by simp [hm])]
  rfl

theorem allocGetPage_eq_some {t : Frames} (hm : s.mapped) (h : s.allocGetPage = (some f, t)) :
    ∃ i < s.managed, bitAt s.physMap i = false ∧ f = s.frameAddr i ∧
      t = { s with physMap := setBit s.physMap i, usedPhysMem := (s.usedPhysMem + 4096) % wordSize } := by
  rw [allocGetPage_of_mapped hm] at h
  cases hf : s.findPage with
  | none => simp [hf] at h
  | some i =>
    simp only [hf, Prod.mk.injEq, some.injEq] at h
    obtain ⟨hi, hclear⟩ := findPage_eq_some hf
    exact ⟨i, hi, hclear, h.1.symm, h.2.symm⟩

theorem allocGetPage_none_iff (hm : s.mapped) :
    s.allocGetPage.1 = none ↔ ∀ i < s.managed, bitAt s.physMap i := by
  rw [← findPage_eq_none_iff, allocGetPage_of_mapped hm]
  cases s.findPage <;> simp

theorem allocGetPage_of_none (h : s.allocGetPage.1 = none) : s.allocGetPage.2 = s := by
  unfold allocGetPage at h ⊢
  split at h
  · cases h
  rename_i hmapped
  rw [if_neg hmapped]
  split at h
  · rfl
  · cases h

theorem frameAddr_inj (hi : i < 2 ^ 20) (hj : j < 2 ^ 20) :
    s.frameAddr i = s.frameAddr j ↔ i = j := by
  simp only [frameAddr, pageSize, wordSize]
  omega

theorem allocFreePage_frameAddr (hs : s.allocStart < wordSize) (hi : i < 2 ^ 20) :
    s.allocFreePage (s.frameAddr i) =
      { s with physMap := clearBit s.physMap i, usedPhysMem := (s.usedPhysMem + (wordSize - 4096)) % wordSize } := by
  have hidx : (s.frameAddr i + (wordSize - s.allocStart)) % wordSize / pageSize = i := by
    simp only [frameAddr, pageSize, wordSize] at hs ⊢
    omega
  simp only [allocFreePage, hidx]

def unset (mem : Bytes) : Frames where
  physMap := mem
  totalPages := 0
  allocStart := 0
  usedPhysMem := 0
  mapped := false
  pagesUsedBeforeMapping := 0
  notMappedPageIndx := 0

def early (mem : Bytes) (kernelEnd highMem n : Nat) : Frames :=
  (fun s => s.allocGetPage.2)^[n] ((unset mem).allocInit kernelEnd highMem)

def booted (mem : Bytes) (kernelEnd highMem n : Nat) : Frames := (early mem kernelEnd highMem n).allocMapItself

theorem archGetMemStart_lt (kernelEnd : Nat) : archGetMemStart kernelEnd < wordSize := by
  unfold archGetMemStart wordSize
  omega

theorem iterate_allocGetPage (hm : s.mapped = false) (n : Nat) :
    ∃ used, (fun s => s.allocGetPage.2)^[n] s =
      { s with pagesUsedBeforeMapping := s.pagesUsedBeforeMapping + n, usedPhysMem := used } := by
  induction n with
  | zero => exact ⟨s.usedPhysMem, rfl⟩
  | succ n ih =>
    obtain ⟨used, ih⟩ := ih
    rw [Function.iterate_succ_apply', ih]
    simp [allocGetPage, hm, Nat.add_assoc]

theorem early_eq (mem : Bytes) (kernelEnd highMem n : Nat) :
    ∃ used, early mem kernelEnd highMem n =
      { (unset mem).allocInit kernelEnd highMem with pagesUsedBeforeMapping := n, usedPhysMem := used } := by
  have hm : ((unset mem).allocInit kernelEnd highMem).mapped = false := by unfold allocInit; split <;> rfl
  have hp : ((unset mem).allocInit kernelEnd highMem).pagesUsedBeforeMapping = 0 := by unfold allocInit; split <;> rfl
  obtain ⟨used, h⟩ := iterate_allocGetPage hm n
  exact ⟨used, by rw [early, h, hp, Nat.zero_add]⟩

section Booted
variable (mem : Bytes) (kernelEnd highMem n : Nat)

theorem booted_totalPages : (booted mem kernelEnd highMem n).totalPages = highMem / 4096 := by
  obtain ⟨used, h⟩ := early_eq mem kernelEnd highMem n
  show (early mem kernelEnd highMem n).totalPages = highMem / 4096
  rw [h]
  unfold allocInit
  split
  next h0 =>
    rw [h0]
    rfl
  · rfl

theorem booted_allocStart_lt : (booted mem kernelEnd highMem n).allocStart < wordSize := by
  obtain ⟨used, h⟩ := early_eq mem kernelEnd highMem n
  show (early mem kernelEnd highMem n).allocStart < wordSize
  rw [h]
  unfold allocInit
  split
  · exact (by decide : 0 < wordSize)
  · exact archGetMemStart_lt kernelEnd

end Booted

inductive FrameOp
  | getPage
  | freePage (f : Nat)

structure Holding where
  frames : Frames
  held : List Nat

inductive FrameStep : Holding → FrameOp → Holding → Prop
  | got {s : Holding} {f : Nat} {t : Frames} (h : s.frames.allocGetPage = (some f, t)) :
      FrameStep s .getPage ⟨t, f :: s.held⟩
  | full {s : Holding} {t : Frames} (h : s.frames.allocGetPage = (none, t)) : FrameStep s .getPage ⟨t, s.held⟩
  | freed {s : Holding} {f : Nat} (h : f ∈ s.held) :
      FrameStep s (.freePage f) ⟨s.frames.allocFreePage f, s.held.erase f⟩

structure HoldingInv (b : Frames) (s : Holding) : Prop where
  mapped : s.frames.mapped = true
  total : s.frames.totalPages = b.totalPages
  start : s.frames.allocStart = b.allocStart
  nodup : s.held.Nodup
  held : ∀ f ∈ s.held, ∃ i < b.managed, f = b.frameAddr i ∧ bitAt b.physMap i = false
  bits : ∀ i < b.managed, bitAt s.frames.physMap i = true ↔ bitAt b.physMap i = true ∨ b.frameAddr i ∈ s.held
  used : (s.frames.usedPhysMem + 4096 * count b.physMap b.managed) % wordSize =
    (b.usedPhysMem + 4096 * count s.frames.physMap b.managed) % wordSize

namespace HoldingInv
variable {b : Frames} {s t : Holding}

theorem init (hm : b.mapped) : HoldingInv b ⟨b, []⟩ where
  mapped := hm
  total := rfl
  start := rfl
  nodup := nodup_nil
  held _ hf := by simp at hf
  bits _ _ := by simp
  used := rfl

theorem managed_eq (h : HoldingInv b s) : s.frames.managed = b.managed := by
  unfold managed
  rw [h.total]

theorem frameAddr_eq (h : HoldingInv b s) (i : Nat) : s.frames.frameAddr i = b.frameAddr i := by
  unfold frameAddr
  rw [h.start]

theorem got (h : HoldingInv b s) {t : Frames} (hg : s.frames.allocGetPage = (some f, t)) :
    ∃ i < b.managed, f = b.frameAddr i ∧ bitAt s.frames.physMap i = false ∧ bitAt b.physMap i = false ∧
      f ∉ s.held ∧
      t = { s.frames with
        physMap := setBit s.frames.physMap i, usedPhysMem := (s.frames.usedPhysMem + 4096) % wordSize } := by
  obtain ⟨i, hi, hclear, rfl, rfl⟩ := allocGetPage_eq_some h.mapped hg
  rw [h.managed_eq] at hi
  rw [h.frameAddr_eq]
  have hnot : ¬(bitAt b.physMap i ∨ b.frameAddr i ∈ s.held) := by
    rw [← h.bits i hi, hclear]
    exact Bool.false_ne_true
  exact ⟨i, hi, rfl, hclear, Bool.eq_false_iff.mpr fun hb => hnot (Or.inl hb), fun hb => hnot (Or.inr hb), rfl⟩

theorem freed (h : HoldingInv b s) (hsize : b.managed ≤ 2 ^ 20) (hstart : b.allocStart < wordSize) (hf : f ∈ s.held) :
    ∃ i < b.managed, f = b.frameAddr i ∧ bitAt s.frames.physMap i ∧ bitAt b.physMap i = false ∧
      s.frames.allocFreePage f =
        { s.frames with
          physMap := clearBit s.frames.physMap i
          usedPhysMem := (s.frames.usedPhysMem + (wordSize - 4096)) % wordSize } := by
  obtain ⟨i, hi, rfl, hb⟩ := h.held f hf
  refine ⟨i, hi, rfl, (h.bits i hi).mpr (Or.inr hf), hb, ?_⟩
  rw [← h.frameAddr_eq]
  exact allocFreePage_frameAddr (h.start ▸ hstart) (Nat.lt_of_lt_of_le hi hsize)

theorem step (hsize : b.managed ≤ 2 ^ 20) (hstart : b.allocStart < wordSize) {op : FrameOp} (h : HoldingInv b s)
    (hs : FrameStep s op t) : HoldingInv b t := by
  cases hs with
  | @got f t hg =>
    obtain ⟨i, hi, rfl, hclear, hb, hnew, rfl⟩ := h.got hg
    refine ⟨h.mapped, h.total, h.start, nodup_cons.mpr ⟨hnew, h.nodup⟩, ?_, ?_, ?_⟩
    · intro f hf
      rcases mem_cons.mp hf with rfl | hf
      · exact ⟨i, hi, rfl, hb⟩
      · exact h.held f hf
    · intro j hj
      have hinj := frameAddr_inj (s := b) (Nat.lt_of_lt_of_le hj hsize) (Nat.lt_of_lt_of_le hi hsize)
      simp only [bitAt_setBit, Bool.or_eq_true, decide_eq_true_eq, h.bits j hj, mem_cons, hinj]
      exact or_left_comm
    · have := h.used
      simp only [count_setBit hi hclear, wordSize] at this ⊢
      omega
  | full hg =>
    have hnone : s.frames.allocGetPage.1 = none := by rw [hg]
    have hsame := allocGetPage_of_none hnone
    rw [hg] at hsame
    subst hsame
    exact h
  | @freed f hf =>
    obtain ⟨i, hi, rfl, hset, hb, hfree⟩ := h.freed hsize hstart hf
    rw [hfree]
    refine ⟨h.mapped, h.total, h.start, h.nodup.erase _, fun f hf => h.held f (mem_of_mem_erase hf), ?_, ?_⟩
    · intro j hj
      have hinj := frameAddr_inj (s := b) (Nat.lt_of_lt_of_le hj hsize) (Nat.lt_of_lt_of_le hi hsize)
      simp only [bitAt_clearBit, Bool.and_eq_true, Bool.not_eq_true', decide_eq_false_iff_not, h.bits j hj,
        h.nodup.mem_erase_iff, ne_eq, hinj]
      constructor
      · rintro ⟨hji, hor⟩
        exact hor.imp id fun hm => ⟨hji, hm⟩
      · rintro (hbj | ⟨hji, hm⟩)
        · refine ⟨?_, Or.inl hbj⟩
          rintro rfl
          rw [hb] at hbj
          cases hbj
        · exact ⟨hji, Or.inr hm⟩
    · have := h.used
      have hcount := count_clearBit hi hset
      simp only [wordSize] at this ⊢
      omega

theorem of_run {mem : Bytes} {kernelEnd highMem n : Nat} (hsize : highMem / 4096 ≤ 2 ^ 20) {ops : List FrameOp}
    (h : Run FrameStep ⟨booted mem kernelEnd highMem n, []⟩ ops s) :
    HoldingInv (booted mem kernelEnd highMem n) s := by
  have hm : (booted mem kernelEnd highMem n).managed ≤ 2 ^ 20 := by
    unfold managed
    rw [booted_totalPages]
    omega
  exact Run.invariant _ (init rfl) (step hm (booted_allocStart_lt ..)) h

end HoldingInv

/-- The allocator is sound after boot, whatever callers took before the map existed and take and free
    afterwards. Bit `i` stands for the frame `b.frameAddr i`; `usedPhysMem` is a 32-bit counter, so its
    difference to the bits is one modulo 2^32. -/
theorem frames_sound {mem : Bytes} {kernelEnd highMem n : Nat} (hsize : highMem / 4096 ≤ 2 ^ 20)
    {ops : List FrameOp} {s : Holding} (h : Run FrameStep ⟨booted mem kernelEnd highMem n, []⟩ ops s) :
    let b := booted mem kernelEnd highMem n
    let bits := 8 * (highMem / 4096 / 8)
    (∀ f t, s.frames.allocGetPage = (some f, t) → f ∉ s.held ∧
      ∃ i < bits, f = (b.allocStart + 4096 * i) % 2 ^ 32 ∧ bitAt b.physMap i = false ∧
        bitAt s.frames.physMap i = false ∧ t.physMap = setBit s.frames.physMap i) ∧
    (s.frames.allocGetPage.1 = none ↔ ∀ i < bits, bitAt s.frames.physMap i = true) ∧
    (s.frames.allocGetPage.1 = none → s.frames.allocGetPage.2 = s.frames) ∧
    (∀ f ∈ s.held, ∃ i < bits, f = (b.allocStart + 4096 * i) % 2 ^ 32 ∧
      ∀ j, bitAt (s.frames.allocFreePage f).physMap j = if j = i then false else bitAt s.frames.physMap j) ∧
    (s.frames.usedPhysMem + 4096 * count b.physMap bits) % 2 ^ 32 =
      (b.usedPhysMem + 4096 * count s.frames.physMap bits) % 2 ^ 32 := by
  intro b bits
  have inv : HoldingInv b s := HoldingInv.of_run hsize h
  have hbits : b.managed = bits := by
    show 8 * (b.totalPages / 8) = _
    rw [booted_totalPages]
  have haddr (i : Nat) : b.frameAddr i = (b.allocStart + 4096 * i) % 2 ^ 32 := by
    show (b.allocStart + i * 4096) % 2 ^ 32 = _
    rw [Nat.mul_comm]
  refine ⟨?_, ?_, allocGetPage_of_none, ?_, ?_⟩
  · intro f t hg
    obtain ⟨i, hi, hf, hclear, hb, hnew, rfl⟩ := inv.got hg
    exact ⟨hnew, i, hbits ▸ hi, hf.trans (haddr i), hb, hclear, rfl⟩
  · rw [allocGetPage_none_iff inv.mapped, inv.managed_eq, hbits]
  · intro f hf
    obtain ⟨i, hi, hfi, -, -, hfree⟩ := inv.freed (by omega) (booted_allocStart_lt ..) hf
    refine ⟨i, hbits ▸ hi, hfi.trans (haddr i), fun j => ?_⟩
    rw [hfree]
    by_cases hj : j = i <;> simp [hj]
  · have := inv.used
    rwa [hbits] at this

theorem frames_sound_small :
    let b := booted (fun _ => 0#8) 0x150000 0x100000 3
    Run FrameStep ⟨b, []⟩ [.getPage] ⟨b.allocGetPage.2, [0x15f000]⟩ ∧
      b.allocGetPage.2.allocGetPage.1 = some 0x160000 ∧ 0x160000 ∉ [0x15f000] := by
  intro b
  have hrun : Run FrameStep ⟨b, []⟩ [.getPage] ⟨b.allocGetPage.2, [0x15f000]⟩ :=
    .single (.got (Prod.ext (by decide +kernel : b.allocGetPage.1 = some 0x15f000) rfl))
  have hnext : b.allocGetPage.2.allocGetPage.1 = some 0x160000 := by decide +kernel
  exact ⟨hrun, hnext, ((frames_sound (by decide) hrun).1 _ _ (Prod.ext hnext rfl)).1⟩

end Frames
end HelinKern
