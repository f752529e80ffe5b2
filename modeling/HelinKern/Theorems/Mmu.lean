import HelinKern.Mmu
import HelinKern.Theorems.Frames

/-! Entries in memory, and what one call of the frame allocator changes. -/

namespace HelinKern
open Paged Bitmap List

variable {b : Bool} {i addr : Nat}

namespace Entry

theorem has_twoPow (e : Entry) (n : Nat) (hn : n < 12) : e.has (BitVec.twoPow 12 n) = e.flags.getLsbD n := by
  unfold has
  rw [BitVec.and_twoPow]
  cases h : e.flags.getLsbD n with
  | true => simp
  | false =>
    have : (0#12).getLsbD n ≠ (BitVec.twoPow 12 n).getLsbD n := by simp [hn]
    simp only [Bool.false_eq_true, if_false, decide_eq_false_iff_not]
    exact fun h => this (by rw [h])

@[simp] theorem has_present (e : Entry) : e.has pgPresent = e.flags.getLsbD 0 := has_twoPow e 0 (by decide)

@[simp] theorem has_write (e : Entry) : e.has pgWrite = e.flags.getLsbD 1 := has_twoPow e 1 (by decide)

@[simp] theorem has_user (e : Entry) : e.has pgUser = e.flags.getLsbD 2 := has_twoPow e 2 (by decide)

@[simp] theorem has_4MB (e : Entry) : e.has pg4MB = e.flags.getLsbD 7 := has_twoPow e 7 (by decide)

@[simp] theorem has_owned (e : Entry) : e.has pgOwned = e.flags.getLsbD 9 := has_twoPow e 9 (by decide)

theorem has_of_flags (frame : Nat) {flags flag : BitVec 12} (h : (⟨0, flags⟩ : Entry).has flag = b) :
    (⟨frame, flags⟩ : Entry).has flag = b := h

theorem of_page (frame : Nat) (flags : BitVec 12) : Entry.of (4096 * frame) flags = ⟨frame, flags⟩ := by
  have : BitVec.ofNat 12 (4096 * frame) = 0#12 := by
    apply BitVec.eq_of_toNat_eq
    simp
  unfold of
  rw [this, BitVec.zero_or, Nat.mul_div_cancel_left _ (by decide)]

theorem ofWord_toWord {e : Entry} (h : e.frame < 1048576) : ofWord (e.toWord % 4294967296) = e := by
  have hframe : (4096 * e.frame + e.flags.toNat) % 4294967296 / 4096 = e.frame := by omega
  have hflags : BitVec.ofNat 12 ((4096 * e.frame + e.flags.toNat) % 4294967296) = e.flags := by
    apply BitVec.eq_of_toNat_eq
    simp only [BitVec.toNat_ofNat]
    omega
  unfold ofWord toWord
  rw [hframe, hflags]

end Entry

theorem pageDirectoryIndex_lt (vaddr : Nat) : pageDirectoryIndex vaddr < 1024 := Nat.mod_lt _ (by decide)

theorem pageTableIndex_lt (vaddr : Nat) : pageTableIndex vaddr < 1024 := Nat.mod_lt _ (by decide)

namespace Mmu

variable {m m' : Mmu} {p p' j j' : Nat} {e : Entry}

theorem entry_frame_lt (m : Mmu) (p j : Nat) : (m.entry p j).frame < 1048576 := by
  have := word_lt m.mem p j
  show word m.mem p j / 4096 < 1048576
  omega

theorem entry_congr (hj : j < 1024) (h : ∀ a, a / 4096 = p → m'.mem a = m.mem a) : m'.entry p j = m.entry p j :=
  congrArg Entry.ofWord (word_congr hj h)

theorem entry_setEntry_self (h : e.frame < 1048576) : (m.setEntry p j e).entry p j = e := by
  unfold entry setEntry
  rw [word_setWord_self, Entry.ofWord_toWord h]

theorem entry_setEntry_of_ne (hj : j < 1024) (hj' : j' < 1024) (h : ¬(p' = p ∧ j' = j)) :
    (m.setEntry p j e).entry p' j' = m.entry p' j' :=
  congrArg Entry.ofWord (word_setWord_of_ne hj hj' h)

theorem entry_fill_self {g : Nat → Entry} (hj : j < 1024) (h : (g j).frame < 1048576) :
    { m with mem := fill m.mem p fun i => (g i).toWord }.entry p j = g j := by
  unfold entry
  rw [word_fill_self hj, Entry.ofWord_toWord h]

theorem entry_fill_of_ne {g : Nat → Nat} (hj : j < 1024) (h : p' ≠ p) :
    { m with mem := fill m.mem p g }.entry p' j = m.entry p' j :=
  congrArg Entry.ofWord (word_fill_of_ne hj h)

end Mmu

namespace Frames

/-- The statics are as `alloc_init` and `alloc_mapItself` leave them. -/
structure Ok (s : Frames) : Prop where
  mapped : s.mapped = true
  aligned : s.allocStart % 4096 = 0
  start_lt : s.allocStart < wordSize
  managed_le : s.managed ≤ 1048576

def Free (s : Frames) (f : Nat) : Prop := ∃ i < s.managed, bitAt s.physMap i = false ∧ s.frameAddr i = 4096 * f

def Held (s : Frames) (f : Nat) : Prop := ∃ i < s.managed, bitAt s.physMap i = true ∧ s.frameAddr i = 4096 * f

variable {s t : Frames} {f g : Nat}

theorem Ok.index_eq (ok : s.Ok) {i' : Nat} (hi : i < s.managed) (hi' : i' < s.managed)
    (h : s.frameAddr i = s.frameAddr i') : i = i' := by
  have := ok.managed_le
  exact (frameAddr_inj (by omega) (by omega)).mp h

theorem Ok.frameAddr_page (ok : s.Ok) (i : Nat) : s.frameAddr i = 4096 * (s.frameAddr i / 4096) := by
  have := ok.aligned
  unfold frameAddr pageSize wordSize
  omega

structure Marked (s : Frames) (f : Nat) (t : Frames) : Prop where
  free : s.Free f
  ok : t.Ok
  free_iff : ∀ g, t.Free g ↔ s.Free g ∧ g ≠ f
  held_iff : ∀ g, t.Held g ↔ s.Held g ∨ g = f

structure Cleared (s : Frames) (f : Nat) (t : Frames) : Prop where
  ok : t.Ok
  free_iff : ∀ g, t.Free g ↔ s.Free g ∨ g = f
  held_iff : ∀ g, t.Held g ↔ s.Held g ∧ g ≠ f

theorem Ok.changed {map : Bytes} (ok : s.Ok) (hi : i < s.managed) (hf : s.frameAddr i = 4096 * f)
    (hbit : ∀ k, bitAt map k = if k = i then b else bitAt s.physMap k) (g : Nat) :
    ((∃ k < s.managed, bitAt map k = b ∧ s.frameAddr k = 4096 * g) ↔
      (∃ k < s.managed, bitAt s.physMap k = b ∧ s.frameAddr k = 4096 * g) ∨ g = f) ∧
    ((∃ k < s.managed, bitAt map k = !b ∧ s.frameAddr k = 4096 * g) ↔
      (∃ k < s.managed, bitAt s.physMap k = !b ∧ s.frameAddr k = 4096 * g) ∧ g ≠ f) := by
  have hunique : ∀ {k}, k < s.managed → s.frameAddr k = 4096 * g → (g = f ↔ k = i) := by
    intro k hk hg
    constructor
    · rintro rfl
      exact ok.index_eq hk hi (hg.trans hf.symm)
    · rintro rfl
      omega
  refine ⟨⟨?_, ?_⟩, ?_, ?_⟩
  · rintro ⟨k, hk, hb, hg⟩
    by_cases hki : k = i
    · exact .inr ((hunique hk hg).mpr hki)
    · exact .inl ⟨k, hk, by rwa [hbit, if_neg hki] at hb, hg⟩
  · rintro (⟨k, hk, hb, hg⟩ | rfl)
    · exact ⟨k, hk, by rw [hbit, hb, ite_self], hg⟩
    · exact ⟨i, hi, by rw [hbit, if_pos rfl], hf⟩
  · rintro ⟨k, hk, hb, hg⟩
    have hki : k ≠ i := by
      rintro rfl
      rw [hbit, if_pos rfl] at hb
      cases b <;> cases hb
    exact ⟨⟨k, hk, by rwa [hbit, if_neg hki] at hb, hg⟩, fun h => hki ((hunique hk hg).mp h)⟩
  · rintro ⟨⟨k, hk, hb, hg⟩, hne⟩
    exact ⟨k, hk, by rw [hbit, if_neg fun h => hne ((hunique hk hg).mpr h), hb], hg⟩

theorem Ok.allocGetPage (ok : s.Ok) (h : s.allocGetPage = (some addr, t)) :
    ∃ f, addr = 4096 * f ∧ f < 1048576 ∧ Marked s f t := by
  obtain ⟨i, hi, hclear, rfl, rfl⟩ := allocGetPage_eq_some ok.mapped h
  have hpage := ok.frameAddr_page i
  have hlt : s.frameAddr i < wordSize := Nat.mod_lt _ (by decide)
  have hbit : ∀ k, bitAt (setBit s.physMap i) k = if k = i then true else bitAt s.physMap k := by
    intro k
    by_cases hk : k = i <;> simp [hk]
  exact ⟨s.frameAddr i / 4096, hpage, by unfold wordSize at hlt; omega, ⟨i, hi, hclear, hpage⟩,
    { ok with }, fun g => (ok.changed hi hpage hbit g).2,
    fun g => (ok.changed hi hpage hbit g).1⟩

theorem Ok.allocFreePage (ok : s.Ok) (h : s.Held f) : Cleared s f (s.allocFreePage (4096 * f)) := by
  obtain ⟨i, hi, hset, haddr⟩ := h
  have := ok.managed_le
  rw [← haddr, allocFreePage_frameAddr ok.start_lt (by omega)]
  have hbit : ∀ k, bitAt (clearBit s.physMap i) k = if k = i then false else bitAt s.physMap k := by
    intro k
    by_cases hk : k = i <;> simp [hk]
  exact ⟨{ ok with }, fun g => (ok.changed hi haddr hbit g).1,
    fun g => (ok.changed hi haddr hbit g).2⟩

end Frames

namespace FrameEvent

def released (f : Nat) : List FrameEvent → Bool
  | [] => false
  | .alloc g :: log => !decide (g = f) && released f log
  | .free g :: log => decide (g = f) || released f log
  | .missing :: log => released f log

/-- No frame is freed twice without an allocation in between. -/
def FreedOnce (log : List FrameEvent) : Prop :=
  ∀ later f earlier, log = later ++ .free f :: earlier → released f earlier = false

theorem freedOnce_nil : FreedOnce [] := by
  intro later f earlier h
  cases later <;> cases h

theorem freedOnce_cons {ev : FrameEvent} {log : List FrameEvent} (h : FreedOnce log)
    (hev : ∀ f, ev = .free f → released f log = false) : FreedOnce (ev :: log) := by
  rintro (_ | ⟨_, later⟩) f earlier heq
  · cases heq
    exact hev f rfl
  · rw [cons_append] at heq
    cases heq
    exact h later f earlier rfl

end FrameEvent

namespace Mmu

variable {m m' : Mmu} {pd i j p vaddr pAddr : Nat} {flags : BitVec 12}

theorem loop_eq_foldl (f : Mmu → Nat → Mmu) (is : List Nat) (m : Mmu) : loop f is m = is.foldl f m := by
  induction is generalizing m with
  | nil => rfl
  | cons i is ih => exact ih (f m i)

theorem present_eq (m : Mmu) (p j : Nat) : m.present p j = (m.entry p j).has pgPresent := by
  rw [Entry.has_present]
  unfold entry Entry.ofWord present word Word.read
  rw [BitVec.getLsbD_ofNat, Nat.testBit_zero, Bool.eq_iff_iff]
  simp only [Nat.zero_lt_succ, decide_true, Bool.true_and, decide_eq_true_eq]
  omega

def LogGrows (m m' : Mmu) : Prop := m.log <:+ m'.log

theorem LogGrows.refl (m : Mmu) : LogGrows m m := suffix_refl _

theorem LogGrows.trans {m₁ m₂ m₃ : Mmu} (h : LogGrows m₁ m₂) (h' : LogGrows m₂ m₃) : LogGrows m₁ m₃ :=
  List.IsSuffix.trans h h'

theorem LogGrows.not_missing (h : LogGrows m m') (hm : .missing ∉ m'.log) : .missing ∉ m.log :=
  fun hin => hm (h.subset hin)

theorem LogGrows.foldl {f : Mmu → Nat → Mmu} (h : ∀ m i, LogGrows m (f m i)) (is : List Nat) (m : Mmu) :
    LogGrows m (is.foldl f m) := by
  induction is generalizing m with
  | nil => exact .refl m
  | cons i is ih => exact (h m i).trans (ih (f m i))

theorem allocPage_grows (m : Mmu) : LogGrows m m.allocPage.2 := by
  unfold allocPage
  split
  · exact .refl m
  · exact suffix_cons _ _

theorem allocUnchecked_grows (m : Mmu) : LogGrows m m.allocUnchecked.2 := by
  have h := allocPage_grows m
  unfold allocUnchecked
  split
  next heq =>
    rw [heq] at h
    exact h.trans (suffix_cons _ _)
  next heq => rwa [heq] at h

theorem addTable_grows (m : Mmu) (pd i : Nat) (flags : BitVec 12) : LogGrows m (m.addTable pd i flags) := by
  unfold addTable
  split
  · exact .refl m
  · exact allocUnchecked_grows m

theorem addPageToPd_grows (m : Mmu) (pd vaddr pAddr : Nat) (flags : BitVec 12) :
    LogGrows m (m.addPageToPd pd vaddr pAddr flags) :=
  addTable_grows m pd _ flags

theorem duplicatePage_grows (parent child i : Nat) (m : Mmu) (j : Nat) :
    LogGrows m (duplicatePage parent child i m j) := by
  unfold duplicatePage
  dsimp only
  split
  · split
    · exact (addPageToPd_grows ..).trans (addPageToPd_grows ..)
    · exact addPageToPd_grows ..
  · exact .refl m

theorem duplicateTable_grows (parent child : Nat) (m : Mmu) (i : Nat) :
    LogGrows m (duplicateTable parent child m i) := by
  unfold duplicateTable
  rw [loop_eq_foldl]
  split
  · exact .foldl (duplicatePage_grows parent child i) _ m
  · exact .refl m

theorem freePage_grows (m : Mmu) (f : Nat) : LogGrows m (m.freePage f) := suffix_cons _ _

theorem allocPage_get {page : Option Nat} (h : m.allocPage = (page, m')) : m.frames.allocGetPage = (page, m'.frames) := by
  unfold allocPage at h
  split at h <;> cases h <;> assumption

theorem allocPage_ok (ok : m.frames.Ok) (h : m.allocPage = (some addr, m')) :
    ∃ f, addr = 4096 * f ∧ f < 1048576 ∧ Frames.Marked m.frames f m'.frames ∧
      m' = { m with frames := m'.frames, log := .alloc f :: m.log } := by
  unfold allocPage at h
  split at h
  · cases h
  rename_i frames hget
  cases h
  obtain ⟨f, rfl, hlt, hmarked⟩ := ok.allocGetPage hget
  exact ⟨f, rfl, hlt, hmarked, by rw [Nat.mul_div_cancel_left _ (by decide)]⟩

theorem allocPage_none (h : m.allocPage = (none, m')) : m' = m := by
  unfold allocPage at h
  split at h
  next frames hget =>
    cases h
    have hsame := Frames.allocGetPage_of_none (congrArg Prod.fst hget)
    rw [hget] at hsame
    rw [show frames = m.frames from hsame]
  · cases h

theorem allocUnchecked_ok (ok : m.frames.Ok) (h : m.allocUnchecked = (addr, m')) (hlog : .missing ∉ m'.log) :
    ∃ f, addr = 4096 * f ∧ f < 1048576 ∧ Frames.Marked m.frames f m'.frames ∧
      m' = { m with frames := m'.frames, log := .alloc f :: m.log } := by
  unfold allocUnchecked at h
  split at h
  · obtain ⟨-, rfl⟩ := Prod.mk.inj h
    exact absurd (mem_cons_self ..) hlog
  next hget =>
    obtain ⟨rfl, rfl⟩ := Prod.mk.inj h
    exact allocPage_ok ok hget

end Mmu

end HelinKern
