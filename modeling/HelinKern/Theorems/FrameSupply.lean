import HelinKern.FreshMemory
import HelinKern.Theorems.Break

/-! The frames that `sbrk` and `sys_mmap` put behind the pages they map, told from the state before the call. -/

namespace HelinKern
open Mmu Option

namespace Frames

variable {s : Frames}

theorem upcoming_succ (s : Frames) (n : Nat) : s.upcoming (n + 1) = s.allocGetPage.2.upcoming n := rfl

theorem upcoming_of_none (h : s.allocGetPage.1 = none) (n : Nat) : s.upcoming n = none := by
  unfold upcoming
  rw [Function.iterate_fixed (allocGetPage_of_none h)]
  exact h

end Frames

namespace Mmu

variable {live : List Nat} {m m₁ m' : Mmu} {pd first f : Nat}

theorem addPageToPd_frames (m : Mmu) (pd v a : Nat) (flags : BitVec 12) : (m.addPageToPd pd v a flags).frames =
    if (m.entry pd (pageDirectoryIndex v)).has pgPresent then m.frames else m.frames.allocGetPage.2 := by
  show (m.addTable pd (pageDirectoryIndex v) flags).frames = _
  unfold addTable
  split
  · rfl
  · unfold allocUnchecked
    dsimp only [setEntry]
    split
    next heq => rw [allocPage_get heq]
    next heq => rw [allocPage_get heq]

/-- The first page adds its table, if that is missing; from then on it is there. -/
theorem PageAdded.missingTables (h : PageAdded m live pd first f m') (k : Nat) : m.missingTables pd first (k + 1) =
    (if (m.entry pd (pageDirectoryIndex first)).has pgPresent then 0 else 1) + m'.missingTables pd (first + 4096) k := by
  have himage : ((Finset.range (k + 1)).image fun i => pageDirectoryIndex (first + 4096 * i)) =
      insert (pageDirectoryIndex first) ((Finset.range k).image fun i => pageDirectoryIndex (first + 4096 + 4096 * i)) := by
    rw [Finset.range_add_one', Finset.image_insert, Finset.map_eq_image, Finset.image_image]
    congr 2
    funext i
    show pageDirectoryIndex (first + 4096 * (i + 1)) = _
    congr 1
    omega
  unfold Mmu.missingTables
  rw [himage, Finset.filter_insert]
  generalize hs : ((Finset.range k).image fun i => pageDirectoryIndex (first + 4096 + 4096 * i)) = pages
  have hentry : ∀ i ∈ pages, i ≠ pageDirectoryIndex first → m'.entry pd i = m.entry pd i := by
    intro i hi hne
    rw [← hs] at hi
    obtain ⟨j, -, rfl⟩ := Finset.mem_image.mp hi
    exact h.dir _ (pageDirectoryIndex_lt _) hne
  cases hp : (m.entry pd (pageDirectoryIndex first)).has pgPresent with
  | true =>
    rw [if_neg (by simp), if_pos rfl, Nat.zero_add]
    congr 1
    refine Finset.filter_congr fun i hi => ?_
    by_cases hne : i = pageDirectoryIndex first
    · rw [hne, hp, h.present]
    · rw [hentry i hi hne]
  | false =>
    rw [if_pos (by simp), if_neg (by simp), Nat.add_comm, ← Finset.card_insert_of_notMem (a := pageDirectoryIndex first)]
    · congr 1
      ext i
      by_cases hne : i = pageDirectoryIndex first
      · simp [hne]
      · rw [Finset.mem_insert, Finset.mem_insert, Finset.mem_filter, Finset.mem_filter]
        refine or_congr_right (and_congr_right fun hi => ?_)
        rw [hentry i hi hne]
    · rw [Finset.mem_filter, h.present]
      simp

end Mmu

namespace Request

variable {r : Request} {m m₁ m' : Mmu} {live : List Nat} {n f k vaddr : Nat}

def next (r : Request) : Request := { r with first := r.first + 4096, pages := r.pages - 1 }

theorem frame_zero (r : Request) (m : Mmu) : r.frame m 0 = m.frames.allocGetPage.1 := rfl

theorem frame_succ (halloc : m.allocPage = (some (4096 * f), m₁)) (hm' : m' = m₁.addPageToPd r.pd r.first (4096 * f) ownFlags)
    (h : PageAdded m live r.pd r.first f m') (k : Nat) : r.frame m (k + 1) = r.next.frame m' k := by
  have hmem := m.allocPage_same.1
  rw [halloc] at hmem
  have hframes := addPageToPd_frames m₁ r.pd r.first (4096 * f) ownFlags
  rw [← hm', show m₁.entry = m.entry by unfold Mmu.entry; rw [hmem]] at hframes
  unfold frame
  rw [h.missingTables, hframes, Nat.add_right_comm, ← Nat.add_assoc, Frames.upcoming_succ, allocPage_get halloc]
  unfold next
  split
  · rw [Nat.add_zero]
  · rw [Nat.add_right_comm, Frames.upcoming_succ]

theorem given_of_stop (h : r.limit < r.first ∨ m.frames.allocGetPage.1 = none ∨ ∃ a, m.frames.allocGetPage.1 = some a ∧ r.top ≤ a)
    (k : Nat) : r.given m k = none := by
  unfold given
  obtain hlimit | hnone | ⟨a, ha, htop⟩ := h
  · exact if_neg fun hgiven => by omega
  · have hframe : r.frame m k = none := Frames.upcoming_of_none hnone _
    rw [hframe, ite_self]
  · refine if_neg fun hgiven => ?_
    have hlt := hgiven.2.2 0 (Nat.zero_le k)
    rw [frame_zero, ha] at hlt
    exact absurd (of_decide_eq_true hlt) (Nat.not_lt.mpr htop)

structure Puts (r : Request) (m m' : Mmu) : Prop where
  given : ∀ vaddr, userOffset ≤ vaddr → vaddr < memoryEnd → ∀ a, r.frameAt m vaddr = some a → ∃ f, a = 4096 * f ∧ m'.OwnsAt r.pd vaddr f
  kept : ∀ vaddr, userOffset ≤ vaddr → vaddr < memoryEnd → r.frameAt m vaddr = none →
    m'.pte r.pd (pageDirectoryIndex vaddr) (pageTableIndex vaddr) = m.pte r.pd (pageDirectoryIndex vaddr) (pageTableIndex vaddr)

theorem Puts.of_none (h : ∀ k, r.given m k = none) (hmem : m'.mem = m.mem) : r.Puts m m' := by
  have hnone : ∀ vaddr, r.frameAt m vaddr = none := by
    intro vaddr
    unfold frameAt
    rw [h, ite_self]
  refine ⟨fun vaddr _ _ a ha => ?_, fun vaddr _ _ _ => ?_⟩
  · rw [hnone] at ha
    cases ha
  · unfold pte entry
    rw [hmem]

theorem Puts.of_full (h : m.allocPage = (none, m')) : r.Puts m m' :=
  .of_none (given_of_stop (.inr (.inl (congrArg Prod.fst (allocPage_get h))))) (congrArg Mmu.mem (allocPage_none h))

section Step
variable (htop : 4096 * f < r.top) (halloc : m.allocPage = (some (4096 * f), m₁))
include htop halloc

theorem given_zero (hpages : 0 < r.pages) (hlimit : r.first ≤ r.limit) : r.given m 0 = some (4096 * f) := by
  unfold given
  rw [frame_zero, allocPage_get halloc]
  refine if_pos ⟨hpages, hlimit, fun i hi => ?_⟩
  rw [Nat.le_zero.mp hi, frame_zero, allocPage_get halloc]
  exact decide_eq_true htop

theorem given_succ (hadd : PageAdded m live r.pd r.first f (m₁.addPageToPd r.pd r.first (4096 * f) ownFlags)) (k : Nat) :
    r.given m (k + 1) = r.next.given (m₁.addPageToPd r.pd r.first (4096 * f) ownFlags) k := by
  have hframe := frame_succ halloc rfl hadd
  unfold given
  rw [hframe]
  refine if_congr ?_ rfl rfl
  constructor
  · rintro ⟨hk, hle, hall⟩
    refine ⟨Nat.lt_sub_of_add_lt hk, ?_, fun i hi => ?_⟩
    · show r.first + 4096 + 4096 * k ≤ r.limit
      omega
    · rw [← hframe]
      exact hall (i + 1) (Nat.succ_le_succ hi)
  · rintro ⟨hk, hle, hall⟩
    have hle : r.first + 4096 + 4096 * k ≤ r.limit := hle
    refine ⟨Nat.add_lt_of_lt_sub hk, by omega, fun i hi => ?_⟩
    cases i with
    | zero =>
      rw [frame_zero, allocPage_get halloc]
      exact decide_eq_true htop
    | succ i =>
      rw [hframe]
      exact hall i (Nat.le_of_succ_le_succ hi)

/-- One turn: the page at `first` gets the frame, and the rest is a request of its own. -/
theorem Puts.step (hpages : 0 < r.pages) (hlimit : r.first ≤ r.limit) (hhi : r.first < memoryEnd)
    (hadd : PageAdded m live r.pd r.first f (m₁.addPageToPd r.pd r.first (4096 * f) ownFlags))
    (hrest : r.next.Puts (m₁.addPageToPd r.pd r.first (4096 * f) ownFlags) m') : r.Puts m m' := by
  have hzero := given_zero htop halloc hpages hlimit
  have hsucc := given_succ htop halloc hadd
  generalize m₁.addPageToPd r.pd r.first (4096 * f) ownFlags = m₂ at hadd hrest hsucc
  have hnext : r.next.first / 4096 = r.first / 4096 + 1 := Nat.add_div_right _ (by decide)
  have hother : ∀ vaddr, userOffset ≤ vaddr → vaddr < memoryEnd → vaddr / 4096 ≠ r.first / 4096 →
      m₂.pte r.pd (pageDirectoryIndex vaddr) (pageTableIndex vaddr) = m.pte r.pd (pageDirectoryIndex vaddr) (pageTableIndex vaddr) := by
    intro vaddr hvlo hvhi hne
    refine hadd.others _ _ (Cow.user_of_range hvlo hvhi) (pageTableIndex_lt vaddr) ?_
    unfold memoryEnd at hvhi hhi
    unfold pageDirectoryIndex pageTableIndex
    omega
  -- the pages behind the first are those of the rest
  have hbehind : ∀ vaddr, r.first / 4096 < vaddr / 4096 → r.frameAt m vaddr = r.next.frameAt m₂ vaddr := by
    intro vaddr hlt
    unfold frameAt
    rw [if_pos (Nat.le_of_lt hlt), hnext, if_pos (Nat.succ_le_of_lt hlt), ← hsucc]
    congr 1
    omega
  have hbefore : ∀ vaddr, vaddr / 4096 ≤ r.first / 4096 → r.next.frameAt m₂ vaddr = none := by
    intro vaddr hle
    unfold frameAt
    exact if_neg (by omega)
  refine ⟨fun vaddr hvlo hvhi a ha => ?_, fun vaddr hvlo hvhi hnone => ?_⟩
  · obtain hlt | heq | hlt := Nat.lt_trichotomy (vaddr / 4096) (r.first / 4096)
    · unfold frameAt at ha
      rw [if_neg (Nat.not_le.mpr hlt)] at ha
      cases ha
    · unfold frameAt at ha
      rw [if_pos (Nat.le_of_eq heq.symm), heq, Nat.sub_self, hzero] at ha
      cases ha
      refine ⟨f, rfl, (hrest.kept vaddr hvlo hvhi (hbefore vaddr (Nat.le_of_eq heq))).trans ?_⟩
      have howns := hadd.owns
      unfold OwnsAt at howns
      have hi : pageDirectoryIndex vaddr = pageDirectoryIndex r.first := by
        unfold pageDirectoryIndex
        omega
      have hj : pageTableIndex vaddr = pageTableIndex r.first := by
        unfold pageTableIndex
        omega
      rw [hi, hj]
      exact howns
    · rw [hbehind vaddr hlt] at ha
      exact hrest.given vaddr hvlo hvhi a ha
  · obtain hlt | heq | hlt := Nat.lt_trichotomy (vaddr / 4096) (r.first / 4096)
    · exact (hrest.kept vaddr hvlo hvhi (hbefore vaddr (Nat.le_of_lt hlt))).trans (hother vaddr hvlo hvhi (Nat.ne_of_lt hlt))
    · unfold frameAt at hnone
      rw [if_pos (Nat.le_of_eq heq.symm), heq, Nat.sub_self, hzero] at hnone
      cases hnone
    · rw [hbehind vaddr hlt] at hnone
      exact (hrest.kept vaddr hvlo hvhi hnone).trans (hother vaddr hvlo hvhi (Nat.ne_of_gt hlt))

end Step

variable {role : Nat → Role} {pd next start i : Nat}

theorem given_of_pages (h : r.pages = 0) (k : Nat) : r.given m k = none := by
  unfold given
  rw [h]
  exact if_neg fun hgiven => absurd hgiven.1 (Nat.not_lt_zero k)

theorem puts_sbrkLoop (h : Inv role m live) (hpd : pd ∈ live) (hk : pd ≠ kernelPg) (hnext : BrkOk next)
    (hlog : .missing ∉ (sbrkLoop pd n m next).2.1.log) :
    Puts ⟨pd, next, n, memoryEnd - 8192, 2147483648⟩ m (sbrkLoop pd n m next).2.1 := by
  induction n generalizing role m next with
  | zero => exact .of_none (given_of_pages rfl) rfl
  | succ n ih =>
    unfold sbrkLoop at hlog ⊢
    split at hlog
    next hend =>
      rw [if_pos hend]
      refine .of_none (given_of_stop (.inl ?_)) rfl
      unfold BrkOk userOffset at hnext
      unfold memoryEnd wordSize at *
      dsimp only
      omega
    next hroom =>
      rw [if_neg hroom]
      rcases halloc : m.allocPage with ⟨_ | pAddr, m₁⟩
      · exact .of_full halloc
      rw [halloc] at hlog
      obtain ⟨f, rfl, -, -, hm₁⟩ := allocPage_ok h.alloc.ok halloc
      dsimp only at hlog ⊢
      split at hlog
      next hhigh =>
        rw [if_pos hhigh, hm₁]
        exact .of_none (given_of_stop (.inr (.inr ⟨_, congrArg Prod.fst (allocPage_get halloc), hhigh⟩))) rfl
      next hlow =>
        rw [if_neg hlow]
        have hadd := h.addPage hpd hk hnext.user halloc ((sbrkLoop_grows ..).not_missing hlog)
        obtain ⟨role₁, h₁⟩ := hadd.inv
        have hrest := ih h₁ (hnext.next hroom) hlog
        unfold BrkOk at hnext
        refine .step (Nat.not_le.mp hlow) halloc (Nat.succ_pos n) ?_ ?_ hadd hrest
        · unfold memoryEnd wordSize at *
          dsimp only
          omega
        · unfold memoryEnd at *
          dsimp only
          omega

theorem puts_mmapLoop (h : Inv role m live) (hpd : pd ∈ live) (hk : pd ≠ kernelPg) (hlo : userOffset ≤ start)
    (hhi : start + 4096 * (i + n) ≤ userStack) (hlog : .missing ∉ (mmapLoop pd start n i m).2.log) :
    Puts ⟨pd, start + 4096 * i, n, wordSize, wordSize⟩ m (mmapLoop pd start n i m).2 := by
  induction n generalizing role m i with
  | zero => exact .of_none (given_of_pages rfl) rfl
  | succ n ih =>
    have haddr : (start + i * 4096) % wordSize = start + 4096 * i := by
      unfold userStack at hhi
      unfold wordSize
      omega
    unfold mmapLoop at hlog ⊢
    rcases halloc : m.allocPage with ⟨_ | pAddr, m₁⟩
    · exact .of_full halloc
    rw [halloc] at hlog
    obtain ⟨f, rfl, hlt, -, -⟩ := allocPage_ok h.alloc.ok halloc
    dsimp only at hlog ⊢
    rw [haddr] at hlog ⊢
    have huser : User (pageDirectoryIndex (start + 4096 * i)) := by
      unfold userOffset at hlo
      unfold userStack at hhi
      unfold User pageDirectoryIndex
      omega
    have hadd := h.addPage hpd hk huser halloc ((mmapLoop_grows ..).not_missing hlog)
    obtain ⟨role₁, h₁⟩ := hadd.inv
    have hrest := ih (i := i + 1) h₁ (by omega) hlog
    rw [Nat.mul_succ, ← Nat.add_assoc] at hrest
    unfold userStack at hhi
    refine .step ?_ halloc (Nat.succ_pos n) ?_ ?_ hadd hrest
    · unfold wordSize
      dsimp only
      omega
    · unfold wordSize
      dsimp only
      omega
    · unfold memoryEnd
      dsimp only
      omega

end Request

namespace Mmu

variable {m : Mmu} {pd start : Nat} {addr size : Int} {flags : BitVec 32}

theorem MmapInside.range {start : Nat} (hin : m.MmapInside pd addr size flags) (h : m.mmapWhere pd addr size flags = .ok start) :
    userOffset ≤ start ∧ start + 4096 * (mmapPages size).toNat ≤ userStack := by
  unfold mmapWhere at h
  split at h
  · cases h
  split at h
  · cases h
  split at h
  · cases h
  rename_i hsize hflags hfixed
  obtain ⟨-, start, hquery, hlo, -, hend⟩ := ((hin.resolve_left hsize).resolve_left hflags).resolve_left hfixed
  rw [hquery] at h
  split at h
  · cases h
  · cases h
    exact ⟨hlo, hend⟩

end Mmu

namespace Request

variable {role : Nat → Role} {live : List Nat} {m m' : Mmu} {pd : Nat}

/-- The pages that were asked for got their frames. -/
def Supplies (o : Option Request) (pd : Nat) (m m' : Mmu) : Prop :=
  (∃ r, o = some r ∧ r.pd = pd ∧ r.Puts m m') ∨ o = none ∧ m'.mem = m.mem

theorem supplies_sbrk {b : Brk} {nBytes : Int} (h : Inv role m live) (hpd : pd ∈ live) (hk : pd ≠ kernelPg)
    (hnext : BrkOk b.brkNextUnallocatedPageBegin) (hlog : .missing ∉ (m.sbrk pd b nBytes).2.1.log) :
    Supplies (m.sbrkRequest pd b nBytes) pd m (m.sbrk pd b nBytes).2.1 := by
  unfold sbrkRequest
  unfold Mmu.sbrk sbrkPage at hlog ⊢
  by_cases hpos : nBytes ≤ 0
  · rw [if_pos (.inl hpos), if_pos hpos]
    exact .inr ⟨rfl, rfl⟩
  rw [if_neg hpos] at hlog ⊢
  dsimp only at hlog ⊢
  by_cases hfits : nBytes ≤ (b.brkNextUnallocatedPageBegin - b.brkEnd : Int)
  · rw [if_pos (.inr (.inl hfits)), if_pos hfits]
    exact .inr ⟨rfl, rfl⟩
  rw [if_neg hfits] at hlog ⊢
  generalize (nBytes - (b.brkNextUnallocatedPageBegin - b.brkEnd : Int) - 1).toNat / 4096 + 1 = n at hlog ⊢
  by_cases hmany : m.frames.totalPages + m.frames.usedPhysMem / 4096 < n
  · rw [if_pos (.inr (.inr hmany)), if_pos hmany]
    exact .inr ⟨rfl, rfl⟩
  rw [if_neg hmany] at hlog ⊢
  rw [if_neg fun hstop => hstop.elim hpos fun hstop => hstop.elim hfits hmany]
  have hputs := puts_sbrkLoop (n := n) h hpd hk hnext
  rcases hloop : sbrkLoop pd n m b.brkNextUnallocatedPageBegin with ⟨_ | _, m', next⟩
  all_goals
    rw [hloop] at hlog hputs
    exact .inl ⟨_, rfl, rfl, hputs hlog⟩

theorem supplies_sysMmap {addr size : Int} {flags : BitVec 32} (h : Inv role m live) (hpd : pd ∈ live) (hk : pd ≠ kernelPg)
    (hin : m.MmapInside pd addr size flags) (hlog : .missing ∉ (m.sysMmap pd addr size flags).2.log) :
    Supplies (m.mmapRequest pd addr size flags) pd m (m.sysMmap pd addr size flags).2 := by
  unfold mmapRequest
  unfold Mmu.sysMmap at hlog ⊢
  cases hfound : m.mmapWhere pd addr size flags with
  | error e => exact .inr ⟨rfl, rfl⟩
  | ok start =>
    obtain ⟨hlo, hend⟩ := hin.range hfound
    rw [hfound] at hlog
    dsimp only at hlog ⊢
    have hputs := puts_mmapLoop (i := 0) h hpd hk hlo (by rwa [Nat.zero_add])
    rcases hloop : mmapLoop pd start (mmapPages size).toNat 0 m with ⟨_ | _, m'⟩
    all_goals
      rw [hloop] at hlog hputs
      exact .inl ⟨_, rfl, rfl, hputs hlog⟩

end Request
end HelinKern
