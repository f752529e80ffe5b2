import HelinKern.Elf

/-! Where `elf_load_file` writes: the addresses of the segments against the region that the process has. -/

namespace HelinKern
namespace Elf
open Word List

variable {f : File} {b : Buffers} {entry : Memory} {x : Nat}

def header (f : File) : Memory := f.vfsRead 0 sizeofEhdr fun _ => 0

def scanned (f : File) (b : Buffers) : List Memory := entries f (f.vfsRead 0 sizeofEhdr b.hdr) b.entry

def loaded (f : File) : List Memory := entries f (header f) fun _ => 0

def EndsFrom (f : File) (b : Buffers) (x : Nat) : Prop :=
  ∃ entry ∈ scanned f b, pType entry = ptLoad ∧ x ≤ (pVaddr entry + pMemsz entry) % wordSize

theorem elfCheckFile_vfsRead {buf : Memory} (h : elfCheckFile (header f)) :
    elfCheckFile (f.vfsRead 0 sizeofEhdr buf) := by
  have hbyte {i : Nat} {v : BitVec 8} (hv : v ≠ 0) (hi : header f i = v) : f.vfsRead 0 sizeofEhdr buf i = v := by
    unfold header File.vfsRead at hi
    split at hi
    next hlt =>
      unfold File.vfsRead
      rw [if_pos hlt]
      exact hi
    · exact absurd hi.symm hv
  unfold elfCheckFile at h ⊢
  rw [decide_eq_true_iff] at h ⊢
  exact ⟨hbyte (by decide) h.1, hbyte (by decide) h.2.1, hbyte (by decide) h.2.2.1, hbyte (by decide) h.2.2.2⟩

variable {result : Nat}

theorem le_scanEntry :
    x ≤ scanEntry result entry ↔ x ≤ result ∨ pType entry = ptLoad ∧ x ≤ (pVaddr entry + pMemsz entry) % wordSize := by
  unfold scanEntry
  split
  next hload =>
    dsimp only
    split <;> omega
  next hload => rw [or_iff_left fun h => hload h.1]

theorem le_foldl_scanEntry {es : List Memory} : x ≤ es.foldl scanEntry result ↔
      x ≤ result ∨ ∃ entry ∈ es, pType entry = ptLoad ∧ x ≤ (pVaddr entry + pMemsz entry) % wordSize := by
  induction es generalizing result with
  | nil => simp
  | cons e es ih => rw [foldl_cons, ih, le_scanEntry, exists_mem_cons_iff, or_assoc]

theorem foldl_scanEntry_lt {es : List Memory} (h : result < wordSize) : es.foldl scanEntry result < wordSize := by
  induction es generalizing result with
  | nil => exact h
  | cons e es ih =>
    refine ih ?_
    unfold scanEntry
    have := Nat.mod_lt (pVaddr e + pMemsz e) (show 0 < wordSize by decide)
    split
    · dsimp only
      split <;> assumption
    · exact h

theorem le_elfGetEndInMemory (hcheck : elfCheckFile (header f)) (hx : 0 < x) :
    x ≤ elfGetEndInMemory f b ↔ EndsFrom f b x := by
  have hend : elfGetEndInMemory f b = (scanned f b).foldl scanEntry 0 := by
    simp only [elfGetEndInMemory, elfCheckFile_vfsRead hcheck]
    rfl
  rw [hend, le_foldl_scanEntry, or_iff_right (by omega)]
  rfl

theorem elfGetEndInMemory_lt (f : File) (b : Buffers) : elfGetEndInMemory f b < wordSize := by
  unfold elfGetEndInMemory
  dsimp only
  split
  · decide
  · exact foldl_scanEntry_lt (by decide)

theorem interval_inside {stop : Nat} (hstop : stop < wordSize) (v lo len start : Nat) :
    (∀ i, lo ≤ i → i < lo + len → start ≤ (v + i) % wordSize ∧ (v + i) % wordSize < stop) ↔
      (0 < len → start ≤ (v + lo) % wordSize ∧ (v + lo) % wordSize + len ≤ stop) := by
  unfold wordSize at *
  constructor
  · intro h hlen
    have hfirst := h lo (by omega) (by omega)
    refine ⟨hfirst.1, Nat.le_of_not_lt fun hlt => ?_⟩
    -- the address `stop` would be one of them
    have hlast := h (lo + (stop - (v + lo) % 4294967296)) (by omega) (by omega)
    omega
  · intro h i hlo hhi
    omega

def Inside (f : File) (b : Buffers) (entry : Memory) : Prop :=
  (0 < f.count (pOffset entry) (pFilesz entry) → Mmu.userOffset ≤ pVaddr entry ∧
    EndsFrom f b (pVaddr entry + f.count (pOffset entry) (pFilesz entry))) ∧
  (pFilesz entry < pMemsz entry → Mmu.userOffset ≤ (pVaddr entry + pFilesz entry) % wordSize ∧
    EndsFrom f b ((pVaddr entry + pFilesz entry) % wordSize + (pMemsz entry - pFilesz entry)))

theorem segmentWrites_inside (hcheck : elfCheckFile (header f)) :
    (∀ w ∈ segmentWrites f entry, Mmu.userOffset ≤ w.1 ∧ w.1 < elfGetEndInMemory f b) ↔ Inside f b entry := by
  have hlt := elfGetEndInMemory_lt f b
  have hvaddr : pVaddr entry % wordSize = pVaddr entry := Nat.mod_eq_of_lt (read_lt entry 8)
  have hsplit : (∀ w ∈ segmentWrites f entry, Mmu.userOffset ≤ w.1 ∧ w.1 < elfGetEndInMemory f b) ↔
      (∀ i, 0 ≤ i → i < 0 + f.count (pOffset entry) (pFilesz entry) →
        Mmu.userOffset ≤ (pVaddr entry + i) % wordSize ∧ (pVaddr entry + i) % wordSize < elfGetEndInMemory f b) ∧
      (∀ i, pFilesz entry ≤ i → i < pFilesz entry + (pMemsz entry - pFilesz entry) →
        Mmu.userOffset ≤ (pVaddr entry + i) % wordSize ∧ (pVaddr entry + i) % wordSize < elfGetEndInMemory f b) := by
    unfold segmentWrites
    rw [forall_mem_append, forall_mem_map, forall_mem_map]
    simp only [mem_range, mem_range'_1, Nat.zero_le, true_implies, Nat.zero_add, and_imp]
  rw [hsplit, interval_inside hlt, interval_inside hlt, Nat.add_zero, hvaddr]
  refine and_congr (forall_congr' fun hlen => ?_) ?_
  · rw [le_elfGetEndInMemory hcheck (by omega)]
  · rw [Nat.sub_pos_iff_lt]
    refine forall_congr' fun hlen => ?_
    rw [le_elfGetEndInMemory hcheck (by omega)]

/-- The file is an executable for this machine, and a segment of it ends behind 0. -/
def Accepted (f : File) (b : Buffers) : Prop :=
  elfCheckFile (header f) = true ∧ eType (header f) = 2 ∧ archElfCheckHeader (header f) = true ∧ EndsFrom f b 1

theorem elfLoadFile_of_accepted (h : Accepted f b) :
    elfLoadFile f b = .ok ((loaded f).flatMap fun entry => if pType entry = ptLoad then segmentWrites f entry else []) := by
  obtain ⟨hcheck, htype, hmachine, hend⟩ := h
  have hend := (le_elfGetEndInMemory hcheck (by decide)).mpr hend
  unfold header at hcheck htype hmachine
  simp only [elfLoadFile, hcheck, htype, hmachine]
  rw [if_neg (by decide), if_neg (by decide), if_neg (by decide), if_neg (by decide), if_neg (by omega)]
  rfl

theorem accepted_of_elfLoadFile {ws : List (Nat × BitVec 8)} (h : elfLoadFile f b = .ok ws) : Accepted f b := by
  unfold elfLoadFile at h
  dsimp only at h
  split at h
  · cases h
  rename_i hcheck
  split at h
  · cases h
  split at h
  · cases h
  rename_i htype
  split at h
  · cases h
  rename_i hmachine
  split at h
  · cases h
  rw [Bool.not_eq_true', Bool.not_eq_false] at hcheck hmachine
  exact ⟨hcheck, Decidable.not_not.mp htype, hmachine, (le_elfGetEndInMemory hcheck (by decide)).mp (by omega)⟩

/-- The bytes of an executable are written into the region of the process only if every segment lies inside; then
    they are. -/
theorem writes_inside_iff (f : File) (b : Buffers) :
    (∀ ws, elfLoadFile f b = .ok ws → ∀ w ∈ ws, Mmu.userOffset ≤ w.1 ∧ w.1 < elfGetEndInMemory f b) ↔
      (Accepted f b → ∀ entry ∈ loaded f, pType entry = ptLoad → Inside f b entry) := by
  by_cases haccepted : Accepted f b
  · rw [elfLoadFile_of_accepted haccepted]
    simp only [Except.ok.injEq, forall_eq', haccepted, true_implies, mem_flatMap, forall_exists_index, and_imp]
    constructor
    · intro h entry hentry hload
      refine (segmentWrites_inside haccepted.1).mp fun w hw => h w entry hentry ?_
      rwa [if_pos hload]
    · intro h w entry hentry hw
      split at hw
      next hload => exact (segmentWrites_inside haccepted.1).mpr (h entry hentry hload) w hw
      · cases hw
  · exact iff_of_true (fun ws h => absurd (accepted_of_elfLoadFile h) haccepted) fun h => absurd h haccepted

def lowSegment : File where
  data := [0x7F, 0x45, 0x4C, 0x46] ++ replicate 12 0 ++ [2, 0, 3, 0] ++ replicate 8 0 ++ [52, 0, 0, 0] ++
    replicate 10 0 ++ [32, 0, 1, 0] ++ replicate 6 0 ++
    [1, 0, 0, 0] ++ replicate 4 0 ++ [0, 0x10, 0, 0] ++ replicate 8 0 ++ [4, 0, 0, 0] ++ replicate 8 0
  size_lt := by decide

/-- It is loaded. -/
theorem lowSegment_overwrites_kernel :
    ∃ ws, elfLoadFile lowSegment ⟨fun _ => 0, fun _ => 0⟩ = .ok ws ∧ ∃ w ∈ ws, ¬Mmu.userOffset ≤ w.1 := by
  have hws : (elfLoadFile lowSegment ⟨fun _ => 0, fun _ => 0⟩).toOption =
      some [(0x1000, 0), (0x1001, 0), (0x1002, 0), (0x1003, 0)] := by
    decide +kernel
  cases hload : elfLoadFile lowSegment ⟨fun _ => 0, fun _ => 0⟩ with
  | error e =>
    rw [hload] at hws
    cases hws
  | ok ws =>
    rw [hload] at hws
    cases hws
    exact ⟨_, rfl, (0x1000, 0), mem_cons_self .., by decide⟩

end Elf
end HelinKern
