import HelinKern.Lib.Loop
import HelinKern.Theorems.Frames

/-! Several frames at once: `alloc_getPages`, which takes a run of free frames, and `alloc_reserve`, which marks the frames
    of an address range. -/

namespace HelinKern
variable {byte f : Nat} {found : Nat × Nat}

namespace Frames
open Bitmap List

/-! ### The scan of `alloc_getPages` -/

/-- The free frames before `i` and after the last used one, where frames of full bytes count for nothing: they neither
    are free nor end a run. -/
def freeRun (s : Frames) : Nat → Nat
  | 0 => 0
  | i + 1 =>
    if s.physMap (i / 8) = 0xFF#8 then s.freeRun i else if bitAt s.physMap i then 0 else s.freeRun i + 1

/-- `n` frames counted as free end at the frame `p`. -/
def RunEnd (s : Frames) (n p : Nat) : Prop := bitAt s.physMap p = false ∧ n ≤ s.freeRun (p + 1)

def FirstEnd (s : Frames) (n p : Nat) : Prop := s.RunEnd n p ∧ ∀ q < p, ¬s.RunEnd n q

section Scan
variable {s : Frames} {n i p q : Nat}

theorem not_full_of_clear (h : bitAt s.physMap i = false) : s.physMap (i / 8) ≠ 0xFF#8 := by
  intro hff
  rw [bitAt, (eq_allOnes_iff _).mp hff _ (Nat.mod_lt _ (by decide))] at h
  cases h

theorem freeRun_clear (h : bitAt s.physMap i = false) : s.freeRun (i + 1) = s.freeRun i + 1 := by
  rw [freeRun, if_neg (not_full_of_clear h), h]
  rfl

theorem freeRun_used (hfull : s.physMap (i / 8) ≠ 0xFF#8) (h : bitAt s.physMap i) : s.freeRun (i + 1) = 0 := by
  rw [freeRun, if_neg hfull, if_pos h]

theorem freeRun_full (hfull : s.physMap (i / 8) = 0xFF#8) : s.freeRun (i + 1) = s.freeRun i := by
  rw [freeRun, if_pos hfull]

theorem freeRun_full_byte {k : Nat} (hfull : s.physMap byte = 0xFF#8) (hk : k ≤ 8) :
    s.freeRun (8 * byte + k) = s.freeRun (8 * byte) := by
  induction k with
  | zero => rfl
  | succ k ih =>
    rw [← Nat.add_assoc, freeRun_full, ih (by omega)]
    rwa [show (8 * byte + k) / 8 = byte by omega]

theorem le_freeRun (h : ∀ k < n, bitAt s.physMap (q + k) = false) : n ≤ s.freeRun (q + n) := by
  induction n with
  | zero => exact Nat.zero_le _
  | succ n ih =>
    rw [← Nat.add_assoc, freeRun_clear (h n (by omega))]
    have := ih fun k hk => h k (by omega)
    omega

theorem exists_runEnd (hn : 0 < n) (h : n ≤ s.freeRun i) : ∃ p < i, s.RunEnd n p := by
  induction i with
  | zero =>
    rw [freeRun] at h
    omega
  | succ i ih =>
    by_cases hfull : s.physMap (i / 8) = 0xFF#8
    · rw [freeRun_full hfull] at h
      obtain ⟨p, hp, hend⟩ := ih h
      exact ⟨p, by omega, hend⟩
    · cases hbit : bitAt s.physMap i with
      | true =>
        rw [freeRun_used hfull hbit] at h
        omega
      | false => exact ⟨i, by omega, hbit, h⟩

def Scanned (s : Frames) (n i : Nat) (found : Nat × Nat) : Prop := found.2 = s.freeRun i ∧ ∀ p < i, ¬s.RunEnd n p

def Jumped (s : Frames) (n : Nat) (found : Nat × Nat) : Prop :=
  s.FirstEnd n found.1 ∧ found.1 < s.managed ∧ n ≤ found.2

theorem Scanned.succ {found' : Nat × Nat} (h : s.Scanned n i found) (hrun : found'.2 = s.freeRun (i + 1))
    (hend : ¬s.RunEnd n i) : s.Scanned n (i + 1) found' := by
  refine ⟨hrun, fun p hp => ?_⟩
  rcases Nat.lt_succ_iff_lt_or_eq.mp hp with hp | rfl
  · exact h.2 p hp
  · exact hend

theorem scanBits_cases (hbyte : byte < s.totalPages / 8) (hfull : s.physMap byte ≠ 0xFF#8)
    (h : s.Scanned n (8 * byte) found) :
    (∃ t, s.scanBits n byte found = .ok t ∧ s.Scanned n (8 * byte + 8) t) ∨
      ∃ e, s.scanBits n byte found = .error e ∧ s.Jumped n e := by
  refine Loop.foldlM_range_jump (fun bit found => s.Scanned n (8 * byte + bit) found) (s.Jumped n) h ?_
  intro bit found hbit h
  have hdiv : (8 * byte + bit) / 8 = byte := by omega
  have hmask : s.physMap byte &&& 1#8 <<< bit = 0#8 ↔ bitAt s.physMap (8 * byte + bit) = false := by
    have := testBit_mask (s.physMap byte) bit hbit
    unfold bitAt
    rw [hdiv, show (8 * byte + bit) % 8 = bit by omega]
    rw [← beq_iff_eq, this]
    simp
  by_cases hclear : bitAt s.physMap (8 * byte + bit) = false
  · rw [if_pos (hmask.mpr hclear)]
    have hrun := freeRun_clear hclear
    rw [← h.1] at hrun
    by_cases hlong : (n : Int) ≤ found.2 + 1
    · rw [if_pos hlong]
      refine .inr ⟨_, rfl, ⟨⟨hclear, ?_⟩, h.2⟩, ?_, ?_⟩
      · show n ≤ s.freeRun (8 * byte + bit + 1)
        omega
      · show 8 * byte + bit < 8 * (s.totalPages / 8)
        omega
      · show n ≤ found.2 + 1
        omega
    · rw [if_neg hlong]
      refine .inl ⟨_, rfl, h.succ hrun.symm fun hend => hlong ?_⟩
      have := hend.2
      omega
  · rw [if_neg fun hm => hclear (hmask.mp hm)]
    have hused := Bool.not_eq_false _ ▸ hclear
    refine .inl ⟨_, rfl, h.succ (freeRun_used (by rwa [hdiv]) hused).symm fun hend => hclear hend.1⟩

theorem scanPages_cases (hn : 0 < n) :
    s.Jumped n (s.scanPages n) ∨ (∀ p < s.managed, ¬s.RunEnd n p) ∧ (s.scanPages n).2 < n := by
  have hloop := Loop.foldlM_range_jump (f := fun found byte =>
      if s.physMap byte ≠ 0xFF#8 then s.scanBits n byte found else .ok found) (s := (wordSize - 1, 0))
    (n := s.totalPages / 8) (fun byte found => s.Scanned n (8 * byte) found) (s.Jumped n) ⟨rfl, fun p hp => by omega⟩ ?_
  · unfold scanPages
    rcases hloop with ⟨t, ht, hscan⟩ | ⟨e, he, hjump⟩
    · rw [ht]
      refine .inr ⟨hscan.2, Nat.lt_of_not_le fun hle => ?_⟩
      rw [hscan.1] at hle
      obtain ⟨p, hp, hend⟩ := exists_runEnd hn hle
      exact hscan.2 p hp hend
    · rw [he]
      exact .inl hjump
  · intro byte found hbyte h
    by_cases hfull : s.physMap byte = 0xFF#8
    · rw [if_neg (not_not.mpr hfull)]
      refine .inl ⟨found, rfl, h.1.trans (freeRun_full_byte hfull (Nat.le_refl 8)).symm, fun p hp hend => ?_⟩
      by_cases hlt : p < 8 * byte
      · exact h.2 p hlt hend
      · refine not_full_of_clear hend.1 ?_
        rwa [show p / 8 = byte by omega]
    · rw [if_pos hfull]
      exact scanBits_cases hbyte hfull h

end Scan

/-! ### `alloc_getPages` -/

/-- What `alloc_getPages` is for: it takes `n` managed frames that lie side by side and were free, and marks these, or
    there are none and it changes nothing. -/
def Contiguous (s : Frames) (n : Nat) : Prop :=
  (∃ i t, s.allocGetPages n = (some (s.frameAddr i), t) ∧ i + n ≤ s.managed ∧ (∀ k < n, bitAt s.physMap (i + k) = false) ∧
      ∀ j, bitAt t.physMap j = (decide (i ≤ j ∧ j < i + n) || bitAt s.physMap j)) ∨
    (¬∃ i, i + n ≤ s.managed ∧ ∀ k < n, bitAt s.physMap (i + k) = false) ∧ s.allocGetPages n = (none, s)

/-- The frames from the first end of `n` counted frames on, if there is one, are free too, `n` of them. -/
def FreeBehind (s : Frames) (n : Nat) : Prop :=
  ∀ p < s.managed, s.FirstEnd n p → p + n ≤ s.managed ∧ ∀ k < n, bitAt s.physMap (p + k) = false

section GetPages
variable {s : Frames} {n : Nat}

theorem allocGetPages_cases (hm : s.mapped) (hn : 0 < n) (hmax : n < 2 ^ 31) (hsize : s.totalPages ≤ 2 ^ 20) :
    (∃ p t, p < s.managed ∧ s.FirstEnd n p ∧ s.allocGetPages n = (some (s.frameAddr p), t) ∧
        t.physMap = (List.range' p n).foldl setBit s.physMap) ∨
      (∀ p < s.managed, ¬s.RunEnd n p) ∧ s.allocGetPages n = (none, s) := by
  unfold allocGetPages
  rw [if_neg (by simp [hm])]
  rcases scanPages_cases (s := s) hn with ⟨hfirst, hlt, hlong⟩ | ⟨hnone, hshort⟩
  · have hcount : (((s.scanPages n).1 + (n : Int)) % wordSize).toNat - (s.scanPages n).1 = n := by
      unfold managed at hlt
      unfold wordSize
      omega
    refine .inl ⟨(s.scanPages n).1, { s with
      physMap := (List.range' (s.scanPages n).1 n).foldl setBit s.physMap
      usedPhysMem := (s.usedPhysMem + 4096 * n) % wordSize }, hlt, hfirst, ?_, rfl⟩
    simp only [Int.ofNat_le.mpr hlong, hcount, length_range']
    rfl
  · refine .inr ⟨hnone, ?_⟩
    simp only [Int.ofNat_le, Nat.not_le.mpr hshort, if_false]

theorem bitAt_marked (m : Bytes) (p n j : Nat) :
    bitAt ((List.range' p n).foldl setBit m) j = (decide (p ≤ j ∧ j < p + n) || bitAt m j) := by
  rw [bitAt_foldl_setBit]
  congr 1
  exact decide_eq_decide.mpr mem_range'_1

theorem contiguous_iff (hm : s.mapped = true) (hn : 0 < n) (hmax : n < 2 ^ 31) (hsize : s.totalPages ≤ 2 ^ 20) :
    s.Contiguous n ↔ s.FreeBehind n := by
  have hlimit : s.managed ≤ 2 ^ 20 := by
    unfold managed
    omega
  rcases allocGetPages_cases hm hn hmax hsize with ⟨p, t, hlt, hfirst, hget, hmarks⟩ | ⟨hnone, hget⟩
  · constructor
    · rintro (⟨i, t', hget', hin, hfree, -⟩ | ⟨-, hget'⟩)
      · intro q hq hfirstq
        rw [hget] at hget'
        obtain ⟨haddr, -⟩ : s.frameAddr p = s.frameAddr i ∧ t = t' := by simpa using hget'
        obtain rfl := (frameAddr_inj (by omega) (by omega)).mp haddr
        -- there is only one first end
        obtain rfl : p = q := by
          rcases Nat.lt_trichotomy p q with h | h | h
          · exact absurd hfirst.1 (hfirstq.2 p h)
          · exact h
          · exact absurd hfirstq.1 (hfirst.2 q h)
        exact ⟨hin, hfree⟩
      · rw [hget] at hget'
        cases hget'
    · intro hbehind
      obtain ⟨hin, hfree⟩ := hbehind p hlt hfirst
      refine .inl ⟨p, t, hget, hin, hfree, fun j => ?_⟩
      rw [hmarks, bitAt_marked]
  · constructor
    · exact fun _ p hp hfirst => absurd hfirst.1 (hnone p hp)
    · refine fun _ => .inr ⟨?_, hget⟩
      rintro ⟨i, hin, hfree⟩
      refine hnone (i + (n - 1)) (by omega) ⟨hfree _ (by omega), ?_⟩
      have := le_freeRun hfree
      rwa [show i + (n - 1) + 1 = i + n by omega]

theorem freeBehind_one (s : Frames) : s.FreeBehind 1 := by
  rintro p hp ⟨⟨hclear, -⟩, -⟩
  refine ⟨hp, fun k hk => ?_⟩
  obtain rfl : k = 0 := by omega
  exact hclear

end GetPages

theorem contiguous_iff_first : (booted (fun _ => 0#8) 0x150000 0x100000 0).Contiguous 1 :=
  (contiguous_iff rfl (by decide) (by decide) (by decide)).mpr (freeBehind_one _)

def holed : Frames :=
  let s := booted (fun _ => 0#8) 0x150000 0x100000 0
  ((s.allocGetPage.2.allocGetPage.2.allocGetPage.2).allocFreePage (s.frameAddr 12)).allocFreePage (s.frameAddr 13)

/-- The frames 12 and 13 are free and 14 is used: `alloc_getPages(2)` gives out 13 and 14. -/
theorem contiguous_takes_used :
    holed.mapped = true ∧ bitAt holed.physMap 12 = false ∧ bitAt holed.physMap 13 = false ∧
      bitAt holed.physMap 14 = true ∧ (holed.allocGetPages 2).1 = some (holed.frameAddr 13) ∧ ¬holed.Contiguous 2 := by
  have hused : bitAt holed.physMap 14 = true := by decide +kernel
  have hget : (holed.allocGetPages 2).1 = some (holed.frameAddr 13) := by decide +kernel
  have hmanaged : holed.managed = 256 := by decide +kernel
  refine ⟨by decide +kernel, by decide +kernel, by decide +kernel, hused, hget, ?_⟩
  rintro (⟨i, t, hget', hin, hfree, -⟩ | ⟨-, hget'⟩)
  · have haddr : some (holed.frameAddr 13) = some (holed.frameAddr i) := hget.symm.trans (congrArg Prod.fst hget')
    obtain rfl := (frameAddr_inj (by decide) (by omega)).mp (Option.some.inj haddr)
    have := hfree 1 (by decide)
    cases this
  · have := hget.symm.trans (congrArg Prod.fst hget')
    cases this

/-! ### Reserved ranges -/

/-- What holds from `alloc_mapItself` on. -/
structure Ready (s : Frames) : Prop where
  mapped : s.mapped = true
  size : s.totalPages ≤ 2 ^ 20
  start : s.allocStart < wordSize
  aligned : s.allocStart % 4096 = 0

theorem ready_booted (mem : Bytes) (kernelEnd : Nat) {highMem : Nat} (n : Nat) (h : highMem < wordSize) :
    (booted mem kernelEnd highMem n).Ready := by
  refine ⟨rfl, ?_, booted_allocStart_lt .., ?_⟩
  · rw [booted_totalPages]
    unfold wordSize at h
    omega
  · obtain ⟨used, hearly⟩ := early_eq mem kernelEnd highMem n
    show (early mem kernelEnd highMem n).allocStart % 4096 = 0
    rw [hearly]
    unfold allocInit
    split
    · rfl
    · exact Nat.mul_mod_left ..

def Overlaps (f a e : Nat) : Prop := ∃ x, a ≤ x ∧ x < e ∧ f ≤ x ∧ x < f + 4096

theorem overlaps_iff {a e : Nat} : Overlaps f a e ↔ a < e ∧ f < e ∧ a < f + 4096 := by
  constructor
  · rintro ⟨x, hx⟩
    omega
  · intro h
    refine ⟨max a f, ?_⟩
    omega

def execFrame (s : Frames) : FrameOp → Frames
  | .getPage => s.allocGetPage.2
  | .freePage f => s.allocFreePage f

/-- What `alloc_reserve(a, e)` is for: frames of the range are not given out unless they are freed, and only their bits
    change, which lie in the bitmap. -/
structure Reserves (s : Frames) (a e : Nat) : Prop where
  kept : ∀ (ops : List FrameOp) (f : Nat), (ops.foldl execFrame (s.allocReserve a e)).allocGetPage.1 = some f →
    Overlaps f a e → ∃ g, .freePage g ∈ ops ∧ g % wordSize / 4096 = f / 4096
  changed : ∀ j, bitAt (s.allocReserve a e).physMap j ≠ bitAt s.physMap j → j < s.managed ∧ Overlaps (s.frameAddr j) a e
  inside : ∀ i ∈ s.reserveMarks a e, i / 8 < s.totalPages / 8

/-- The index of the frame of an address, as the C `int` that `alloc_reserve` computes. -/
def intIndex (s : Frames) (a : Nat) : Int := ((a : Int) - s.allocStart).bmod wordSize / 4096

/-- The indices from that of `a` up to that of `e` are none or all managed, and a managed frame of the range with another
    index is used already. -/
def Reservable (s : Frames) (a e : Nat) : Prop :=
  (s.intIndex a < s.intIndex e → 0 ≤ s.intIndex a ∧ s.intIndex e ≤ s.managed) ∧
    ∀ j < s.managed, Overlaps (s.frameAddr j) a e →
      (s.intIndex a ≤ j ∧ j < s.intIndex e) ∨ bitAt s.physMap j = true

section Reserve
variable {s t : Frames} {a e i j : Nat}

theorem intIndex_bounds (s : Frames) (a : Nat) : -524288 ≤ s.intIndex a ∧ s.intIndex a < 524288 := by
  unfold intIndex wordSize
  rw [Int.bmod_def]
  split <;> omega

theorem intIndex_spec (h : s.Ready) (ha : a < 2 ^ 31) : ∃ w : Int,
    4096 * s.intIndex a ≤ a - s.allocStart + 4294967296 * w ∧ a - s.allocStart + 4294967296 * w < 4096 * s.intIndex a + 4096 ∧
      (w = 0 ∨ w = 1 ∧ a + 2147483648 < s.allocStart) := by
  have hstart := h.start
  unfold intIndex
  unfold wordSize at *
  rw [Int.bmod_def]
  split
  · by_cases hle : s.allocStart ≤ a
    · exact ⟨0, by omega, by omega, by omega⟩
    · exact ⟨1, by omega, by omega, by omega⟩
  · exact ⟨0, by omega, by omega, by omega⟩

theorem mem_reserveMarks : i ∈ s.reserveMarks a e ↔
    ∃ k, s.intIndex a ≤ k ∧ k < s.intIndex e ∧ i = (k % wordSize).toNat := by
  unfold reserveMarks
  simp only [mem_map, mem_range]
  constructor
  · rintro ⟨k, hk, rfl⟩
    refine ⟨s.intIndex a + k, by omega, ?_, rfl⟩
    unfold intIndex at *
    omega
  · rintro ⟨k, hlo, hhi, rfl⟩
    refine ⟨(k - s.intIndex a).toNat, ?_, ?_⟩
    · unfold intIndex at *
      omega
    · have : ((a : Int) - s.allocStart).bmod wordSize / 4096 + ((k - s.intIndex a).toNat : Int) = k := by
        unfold intIndex at *
        omega
      rw [this]

theorem mem_reserveMarks_of_lt (hi : i < 2 ^ 20) :
    i ∈ s.reserveMarks a e ↔ s.intIndex a ≤ i ∧ i < s.intIndex e := by
  have hlo := s.intIndex_bounds a
  have hhi := s.intIndex_bounds e
  rw [mem_reserveMarks]
  unfold wordSize
  constructor
  · rintro ⟨k, ha, he, hk⟩
    omega
  · rintro ⟨ha, he⟩
    exact ⟨i, ha, he, by omega⟩

theorem Ready.managed_le (h : s.Ready) : s.managed ≤ 2 ^ 20 := by
  have := h.size
  unfold managed
  omega

theorem inside_iff (h : s.Ready) :
    (∀ i ∈ s.reserveMarks a e, i / 8 < s.totalPages / 8) ↔
      (s.intIndex a < s.intIndex e → 0 ≤ s.intIndex a ∧ s.intIndex e ≤ s.managed) := by
  have hsize := h.size
  have hlo := s.intIndex_bounds a
  have hhi := s.intIndex_bounds e
  unfold managed
  constructor
  · intro hin hlt
    -- the lowest and the highest index are enough
    have hfirst := hin _ (mem_reserveMarks.mpr ⟨s.intIndex a, by omega, hlt, rfl⟩)
    have hlast := hin _ (mem_reserveMarks.mpr ⟨s.intIndex e - 1, by omega, by omega, rfl⟩)
    unfold wordSize at hfirst hlast
    omega
  · intro hrange i hi
    obtain ⟨k, ha, he, rfl⟩ := mem_reserveMarks.mp hi
    unfold wordSize
    omega

theorem allocReserve_eq (hm : s.mapped) :
    s.allocReserve a e = { s with physMap := (s.reserveMarks a e).foldl setBit s.physMap } := by
  unfold allocReserve
  rw [if_neg (by simp [hm])]

theorem overlaps_of_intIndex (h : s.Ready) (he : e < 2 ^ 31) (hlo : 0 ≤ s.intIndex a) (ha : s.intIndex a ≤ j)
    (hj : j < s.intIndex e) (hae : a ≤ e) : Overlaps (s.frameAddr j) a e := by
  have haligned := h.aligned
  obtain ⟨v, hv, hv', hvcase⟩ := intIndex_spec h (a := a) (by omega)
  obtain ⟨w, hw, hw', hwcase⟩ := intIndex_spec h he
  rw [overlaps_iff]
  unfold frameAddr pageSize wordSize
  omega

structure Same (s t : Frames) : Prop where
  mapped : t.mapped = s.mapped
  total : t.totalPages = s.totalPages
  start : t.allocStart = s.allocStart

theorem Same.trans {u : Frames} (h : Same s t) (h' : Same t u) : Same s u :=
  ⟨h'.mapped.trans h.mapped, h'.total.trans h.total, h'.start.trans h.start⟩

theorem Same.managed (h : Same s t) : t.managed = s.managed := by
  unfold Frames.managed
  rw [h.total]

theorem Same.frameAddr (h : Same s t) (j : Nat) : t.frameAddr j = s.frameAddr j := by
  unfold Frames.frameAddr
  rw [h.start]

theorem Same.ready (h : Same s t) (hs : s.Ready) : t.Ready :=
  ⟨h.mapped.trans hs.mapped, h.total ▸ hs.size, h.start ▸ hs.start, h.start ▸ hs.aligned⟩

theorem execFrame_same (s : Frames) (op : FrameOp) : Same s (s.execFrame op) := by
  cases op with
  | getPage =>
    show Same s s.allocGetPage.2
    unfold allocGetPage
    split
    · exact ⟨rfl, rfl, rfl⟩
    · split <;> exact ⟨rfl, rfl, rfl⟩
  | freePage f => exact ⟨rfl, rfl, rfl⟩

theorem foldl_execFrame_same (s : Frames) (ops : List FrameOp) : Same s (ops.foldl execFrame s) := by
  induction ops generalizing s with
  | nil => exact ⟨rfl, rfl, rfl⟩
  | cons op ops ih => exact (s.execFrame_same op).trans (ih _)

theorem exists_getPage (hm : s.mapped) (hj : j < s.managed) (hclear : bitAt s.physMap j = false) :
    ∃ ops : List FrameOp, (∀ op ∈ ops, op = .getPage) ∧
      (ops.foldl execFrame s).allocGetPage.1 = some (s.frameAddr j) := by
  -- by the number of free frames below it
  induction hd : j - count s.physMap j using Nat.strongRecOn generalizing s with
  | ind d ih =>
    have hget := allocGetPage_of_mapped hm
    cases hf : s.findPage with
    | none =>
      rw [findPage_eq_none_iff.mp hf j hj] at hclear
      cases hclear
    | some i =>
      rw [hf] at hget
      obtain ⟨-, hfree⟩ := findPage_eq_some hf
      rcases Nat.lt_or_eq_of_le (findPage_le hf hj hclear) with hlt | rfl
      · have hcount := count_setBit hlt hfree
        have hle : count (setBit s.physMap i) j ≤ j := by
          have := countP_le_length (p := bitAt (setBit s.physMap i)) (l := List.range j)
          rwa [length_range] at this
        have hmap : s.allocGetPage.2.physMap = setBit s.physMap i := by rw [hget]
        have hsame : Same s s.allocGetPage.2 := execFrame_same s .getPage
        obtain ⟨ops, hops, hlast⟩ := ih _ (by rw [hmap]; omega) (hsame.mapped.trans hm) (hsame.managed ▸ hj)
          (by rw [hmap, bitAt_setBit, hclear, decide_eq_false (Nat.ne_of_gt hlt)]; rfl) rfl
        refine ⟨.getPage :: ops, forall_mem_cons.mpr ⟨rfl, hops⟩, ?_⟩
        rw [← hsame.frameAddr]
        exact hlast
      · exact ⟨[], nofun, by rw [foldl_nil, hget]⟩

theorem bitAt_foldl_execFrame (h : s.Ready) (hj : j < s.managed) (hused : bitAt s.physMap j)
    (ops : List FrameOp) (hkept : ∀ g, .freePage g ∈ ops → g % wordSize / 4096 ≠ s.frameAddr j / 4096) :
    bitAt (ops.foldl execFrame s).physMap j := by
  induction ops generalizing s with
  | nil => exact hused
  | cons op ops ih =>
    have hsame := s.execFrame_same op
    have hnext : bitAt (s.execFrame op).physMap j := by
      cases op with
      | getPage =>
        show bitAt s.allocGetPage.2.physMap j
        rw [allocGetPage_of_mapped h.mapped]
        split
        · exact hused
        · simp [hused]
      | freePage g =>
        have hne := hkept g mem_cons_self
        have hstart := h.start
        have haligned := h.aligned
        show bitAt (clearBit _ _) j
        rw [bitAt_clearBit, hused, Bool.and_true, Bool.not_eq_true', decide_eq_false_iff_not]
        intro hidx
        apply hne
        unfold frameAddr
        unfold pageSize wordSize at *
        omega
    refine ih (hsame.ready h) (hsame.managed ▸ hj) hnext fun g hg => ?_
    rw [hsame.frameAddr]
    exact hkept g (mem_cons_of_mem _ hg)

theorem kept_iff (h : s.Ready) (hj : j < s.managed) :
    (∀ ops : List FrameOp, (ops.foldl execFrame s).allocGetPage.1 = some (s.frameAddr j) →
      ∃ g, .freePage g ∈ ops ∧ g % wordSize / 4096 = s.frameAddr j / 4096) ↔ bitAt s.physMap j := by
  constructor
  · intro hkept
    by_contra hclear
    obtain ⟨ops, hops, hget⟩ := exists_getPage h.mapped hj (by simpa using hclear)
    obtain ⟨g, hg, -⟩ := hkept ops hget
    cases hops _ hg
  · intro hused ops hget
    by_contra hnot
    have hbit := bitAt_foldl_execFrame h hj hused ops fun g hg heq => hnot ⟨g, hg, heq⟩
    have hsame := foldl_execFrame_same s ops
    obtain ⟨i, hi, hclear, haddr, -⟩ := allocGetPage_eq_some (hsame.mapped.trans h.mapped) (Prod.ext hget rfl)
    rw [hsame.managed] at hi
    rw [hsame.frameAddr] at haddr
    have hlimit := h.managed_le
    obtain rfl := (frameAddr_inj (by omega) (by omega)).mp haddr
    rw [hbit] at hclear
    cases hclear

theorem getPage_managed (h : s.Ready) {ops : List FrameOp} (hget : (ops.foldl execFrame s).allocGetPage.1 = some f) :
    ∃ i < s.managed, f = s.frameAddr i := by
  have hsame := foldl_execFrame_same s ops
  obtain ⟨i, hi, -, haddr, -⟩ := allocGetPage_eq_some (hsame.mapped.trans h.mapped) (Prod.ext hget rfl)
  exact ⟨i, hsame.managed ▸ hi, haddr.trans (hsame.frameAddr i)⟩

theorem reserves_iff (h : s.Ready) (hae : a ≤ e) (he : e < 2 ^ 31) : s.Reserves a e ↔ s.Reservable a e := by
  have hlimit := h.managed_le
  have heq := allocReserve_eq (a := a) (e := e) h.mapped
  have hsame : Same s (s.allocReserve a e) := by
    rw [heq]
    exact ⟨rfl, rfl, rfl⟩
  have hbits : ∀ j, bitAt (s.allocReserve a e).physMap j = (decide (j ∈ s.reserveMarks a e) || bitAt s.physMap j) := by
    intro j
    rw [heq]
    exact bitAt_foldl_setBit ..
  have hmarked : ∀ j < s.managed, bitAt (s.allocReserve a e).physMap j = true ↔
      (s.intIndex a ≤ j ∧ j < s.intIndex e) ∨ bitAt s.physMap j = true := by
    intro j hj
    rw [hbits, Bool.or_eq_true, decide_eq_true_eq, mem_reserveMarks_of_lt (Nat.lt_of_lt_of_le hj hlimit)]
  constructor
  · rintro ⟨hkept, -, hinside⟩
    refine ⟨(inside_iff h).mp hinside, fun j hj hover => ?_⟩
    rw [← hmarked j hj, ← kept_iff (hsame.ready h) (hsame.managed ▸ hj), hsame.frameAddr]
    exact fun ops hget => hkept ops _ hget hover
  · rintro ⟨hrange, hused⟩
    refine ⟨fun ops f hget hover => ?_, fun j hne => ?_, (inside_iff h).mpr hrange⟩
    · obtain ⟨i, hi, rfl⟩ := getPage_managed (hsame.ready h) hget
      rw [hsame.frameAddr] at hover
      rw [hsame.managed] at hi
      exact (kept_iff (hsame.ready h) (hsame.managed ▸ hi)).mpr ((hmarked i hi).mpr (hused i hi hover)) ops hget
    · have hmarked : j ∈ s.reserveMarks a e := by
        by_contra hnot
        apply hne
        rw [hbits, decide_eq_false hnot]
        rfl
      obtain ⟨k, hlo, hhi, rfl⟩ := mem_reserveMarks.mp hmarked
      have hin := hrange (by omega)
      have hk : (k % wordSize).toNat = k.toNat := by
        unfold wordSize
        omega
      exact ⟨by omega, overlaps_of_intIndex h he hin.1 (by omega) (by omega) hae⟩

theorem reservable_iff_of_low (h : s.Ready) (hlow : s.allocStart ≤ 2 ^ 31) (hae : a ≤ e) (he : e < 2 ^ 31) :
    s.Reservable a e ↔ a = e ∨
      (a / 4096 = e / 4096 ∨ s.allocStart ≤ a ∧ e / 4096 ≤ s.allocStart / 4096 + s.managed) ∧
        (e % 4096 = 0 ∨ ∀ j < s.managed, s.frameAddr j = e / 4096 * 4096 → bitAt s.physMap j) := by
  have haligned := h.aligned
  have hlimit := h.managed_le
  obtain ⟨v, hv, hv', hvcase⟩ := intIndex_spec h (a := a) (by omega)
  obtain ⟨w, hw, hw', hwcase⟩ := intIndex_spec h he
  have ha : s.intIndex a = (a / 4096 : Nat) - (s.allocStart / 4096 : Nat) := by omega
  have hb : s.intIndex e = (e / 4096 : Nat) - (s.allocStart / 4096 : Nat) := by omega
  clear hv hv' hvcase hw hw' hwcase
  unfold Reservable
  rw [ha, hb]
  simp only [overlaps_iff, frameAddr, pageSize, wordSize]
  constructor
  · rintro ⟨hrange, hused⟩
    rcases Nat.eq_or_lt_of_le hae with rfl | hlt
    · exact .inl rfl
    refine .inr ⟨by omega, ?_⟩
    rcases Nat.eq_zero_or_pos (e % 4096) with hzero | hpos
    · exact .inl hzero
    · refine .inr fun j hj haddr => (hused j hj (by omega)).resolve_left (by omega)
  · rintro (rfl | ⟨hrange, hlast⟩)
    · exact ⟨by omega, fun j hj hover => by omega⟩
    refine ⟨by omega, fun j hj hover => ?_⟩
    by_cases hend : (s.allocStart + j * 4096) % 4294967296 = e / 4096 * 4096
    · exact .inr (hlast.resolve_left (by omega) j hj hend)
    · exact .inl (by omega)

end Reserve

/-- Two whole frames behind those that boot marked. -/
theorem reserves_iff_behind : (booted (fun _ => 0#8) 0x150000 0x100000 0).Reserves 0x170000 0x172000 := by
  have hready : (booted (fun _ => 0#8) 0x150000 0x100000 0).Ready := ready_booted _ _ _ (by decide)
  refine (reserves_iff hready (by decide) (by decide)).mpr ?_
  exact (reservable_iff_of_low hready (by decide) (by decide) (by decide)).mpr (.inr ⟨by decide, by decide⟩)

/-- The range starts one frame below the first: its index -1 becomes 2^32 - 1, and a byte far behind the bitmap is
    written. -/
theorem reserves_writes_outside :
    (booted (fun _ => 0#8) 0x150000 0x100000 0).allocStart = 0x150000 ∧
      4294967295 ∈ (booted (fun _ => 0#8) 0x150000 0x100000 0).reserveMarks 0x14f000 0x151000 ∧
      ((booted (fun _ => 0#8) 0x150000 0x100000 0).allocReserve 0x14f000 0x151000).physMap 0x1fffffff ≠
        (booted (fun _ => 0#8) 0x150000 0x100000 0).physMap 0x1fffffff ∧
      ¬(booted (fun _ => 0#8) 0x150000 0x100000 0).Reserves 0x14f000 0x151000 := by
  have hmark : 4294967295 ∈ (booted (fun _ => 0#8) 0x150000 0x100000 0).reserveMarks 0x14f000 0x151000 := by
    decide +kernel
  refine ⟨by decide +kernel, hmark, by decide +kernel, fun h => ?_⟩
  have := h.inside _ hmark
  revert this
  decide +kernel

end Frames
end HelinKern
