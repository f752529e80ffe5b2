import HelinKern.Mmap
import HelinKern.Theorems.AspaceCalls

/-! Two machines whose memories differ in data only. Page directories and tables are the same in both, so that the calls
    that map, copy and free pages do the same to both. -/

namespace HelinKern
namespace Mmu
open Paged FrameEvent

/-- The page is a directory or a table of a live directory, or may become a directory. -/
def Structural (m : Mmu) (live : List Nat) (f : Nat) : Prop :=
  f ∈ m.pool ∨ f ∈ live ∨ ∃ pd ∈ live, ∃ i, User i ∧ (m.entry pd i).has pgPresent = true ∧ (m.entry pd i).frame = f

/-- The machines differ at most in bytes that are not clean and lie in no directory or table. -/
structure Twin (clean : Nat → Prop) (live : List Nat) (m m' : Mmu) : Prop where
  frames : m'.frames = m.frames
  kernelEnd : m'.kernelEnd = m.kernelEnd
  log : m'.log = m.log
  mem : ∀ a, clean a ∨ m.Structural live (a / 4096) → m'.mem a = m.mem a

def Low (i : Nat) : Prop := 256 ≤ i ∧ i < 960

theorem Low.user {i : Nat} (h : Low i) : User i := ⟨h.1, Nat.lt_trans h.2 (by decide)⟩

/-- What processes map is their own and open to them. -/
structure Plain (m : Mmu) (live : List Nat) : Prop where
  table : ∀ pd ∈ live, ∀ i, Low i →
    m.entry pd i = .empty ∨ (m.entry pd i).has pgPresent = true ∧ (m.entry pd i).has pgUser = true
  page : ∀ pd ∈ live, ∀ i j, Low i → j < 1024 → ∀ e, m.pte pd i j = some e → e.has pgOwned = true ∧ e.has pgUser = true

structure Steady (live : List Nat) (pd : Nat) (m m₁ : Mmu) : Prop where
  plain : m.Plain live → m₁.Plain live
  dir : ∀ q ∈ live, q ≠ pd → ∀ i < 1024, m₁.entry q i = m.entry q i
  back : ∀ q ∈ live, q ≠ pd → ∀ i j, Low i → j < 1024 → m₁.backing q i j = m.backing q i j

structure Moved (clean : Nat → Prop) (live : List Nat) (pd : Nat) (m m₁ m₁' : Mmu) : Prop where
  twin : Twin clean live m₁ m₁'
  steady : Steady live pd m m₁

structure Calm (live : List Nat) (m m' m₁ m₁' : Mmu) : Prop where
  grows : ∀ f, m.Structural live f → m₁.Structural live f
  same : ∀ a, ¬m₁.Structural live (a / 4096) → m₁.mem a = m.mem a ∧ m₁'.mem a = m'.mem a

structure Grown (clean : Nat → Prop) (live : List Nat) (pd : Nat) (m m' m₁ m₁' : Mmu) : Prop
    extends Moved clean live pd m m₁ m₁' where
  calm : Calm live m m' m₁ m₁'

variable {role role' : Nat → Role} {clean : Nat → Prop} {live live' : List Nat} {m m' m₁ m₁' m₂ m₂' : Mmu}
  {pd q t f i j p vaddr : Nat} {e : Entry} {flags : BitVec 12}

/-! ### Structural frames -/

theorem Structural.dir (h : pd ∈ live) : m.Structural live pd := .inr (.inl h)

theorem Structural.table (hpd : pd ∈ live) (hi : User i) (hp : (m.entry pd i).has pgPresent) :
    m.Structural live (m.entry pd i).frame := .inr (.inr ⟨pd, hpd, i, hi, hp, rfl⟩)

theorem Structural.mono (h : m.Structural live f) (hsub : ∀ pd ∈ live, pd ∈ live') : m.Structural live' f := by
  rcases h with h | h | ⟨pd, hpd, hi⟩
  · exact .inl h
  · exact .inr (.inl (hsub f h))
  · exact .inr (.inr ⟨pd, hsub pd hpd, hi⟩)

theorem Structural.of_entries (h : m₁.Structural live f) (hk : m₁.kernelEnd = m.kernelEnd)
    (he : ∀ pd ∈ live, ∀ i, User i → (m₁.entry pd i).has pgPresent → m₁.entry pd i = m.entry pd i) :
    m.Structural live f := by
  rcases h with h | h | ⟨pd, hpd, i, hi, hp, hf⟩
  · refine .inl ?_
    unfold pool at h ⊢
    rwa [hk] at h
  · exact .inr (.inl h)
  · have hsame := he pd hpd i hi hp
    rw [hsame] at hp hf
    exact .inr (.inr ⟨pd, hpd, i, hi, hp, hf⟩)

theorem Inv.role_structural (h : Inv role m live) (hf : m.Structural live f) : (role f).structural := by
  rcases hf with hf | hf | ⟨q, hq, i, hi, hp, rfl⟩
  · rw [h.dirs.pool f hf]
    rfl
  · rw [h.dirs.dir hf]
    rfl
  · exact (h.dirs.pde q hq i hi hp).structural

theorem Inv.not_structural (h : Inv role m live) (hpd : pd ∈ live) (hi : User i) (hj : j < 1024)
    (he : m.pte pd i j = some e) : ¬m.Structural live e.frame := by
  intro hf
  have hdata := (h.pte_ok hpd hi hj he).not_structural
  rw [h.role_structural hf] at hdata
  cases hdata

/-! ### The same change to both -/

namespace Twin

theorem entry (h : Twin clean live m m') (hp : m.Structural live p) (hj : j < 1024) : m'.entry p j = m.entry p j :=
  entry_congr hj fun a ha => h.mem a (.inr (ha ▸ hp))

theorem agree (h : Twin clean live m m') : Twin (fun a => m'.mem a = m.mem a) live m m' :=
  ⟨h.frames, h.kernelEnd, h.log, fun a ha => ha.elim id fun ha => h.mem a (.inr ha)⟩

theorem mono {clean' : Nat → Prop} (h : Twin clean live m m') (hsub : ∀ pd ∈ live', pd ∈ live)
    (hclean : ∀ a, clean' a → clean a) : Twin clean' live' m m' :=
  ⟨h.frames, h.kernelEnd, h.log, fun a ha => h.mem a (ha.imp (hclean a) (·.mono hsub))⟩

theorem change (new : Nat → Prop) (h : Twin clean live m m') (hframes : m₁'.frames = m₁.frames)
    (hk : m₁'.kernelEnd = m₁.kernelEnd) (hlog : m₁'.log = m₁.log)
    (hmem : ∀ a, m'.mem a = m.mem a ∨ new (a / 4096) → m₁'.mem a = m₁.mem a)
    (hstr : ∀ f, m₁.Structural live' f → m.Structural live f ∨ new f) : Twin clean live' m₁ m₁' := by
  refine ⟨hframes, hk, hlog, ?_⟩
  rintro a (ha | ha)
  · exact hmem a (.inl (h.mem a (.inl ha)))
  · exact hmem a ((hstr _ ha).imp_left fun ha => h.mem a (.inr ha))

section
variable (h : Twin clean live m m')
include h

theorem setEntry (ht : t ∉ live ∨ e = .empty) (hj : j < 1024) : Twin clean live (m.setEntry t j e) (m'.setEntry t j e) := by
  refine h.change (fun _ => False) h.frames h.kernelEnd h.log ?_ fun f hf => .inl (hf.of_entries rfl ?_)
  · rintro a (ha | ha)
    · exact Word.write_congr ha
    · cases ha
  · intro pd hpd i hi hp
    refine entry_setEntry_of_ne hj hi.lt ?_
    rintro ⟨rfl, rfl⟩
    rcases ht with ht | rfl
    · exact ht hpd
    · rw [entry_setEntry_self (by decide)] at hp
      cases hp

theorem allocPage : ∃ m₁', m'.allocPage = (m.allocPage.1, m₁') ∧ Twin clean live m.allocPage.2 m₁' := by
  unfold Mmu.allocPage
  rw [h.frames]
  rcases m.frames.allocGetPage with ⟨_ | addr, frames⟩
  · exact ⟨_, rfl, rfl, h.kernelEnd, h.log, h.mem⟩
  · refine ⟨_, rfl, rfl, h.kernelEnd, ?_, h.mem⟩
    rw [h.log]

theorem allocUnchecked : ∃ m₁', m'.allocUnchecked = (m.allocUnchecked.1, m₁') ∧ Twin clean live m.allocUnchecked.2 m₁' := by
  obtain ⟨m₁', heq, h₁⟩ := h.allocPage
  unfold Mmu.allocUnchecked
  rw [heq]
  rcases hm : m.allocPage with ⟨_ | addr, m₁⟩
  · rw [hm] at h₁
    refine ⟨_, rfl, h₁.frames, h₁.kernelEnd, ?_, h₁.mem⟩
    rw [h₁.log]
  · rw [hm] at h₁
    exact ⟨_, rfl, h₁⟩

theorem freePage (f : Nat) : Twin clean live (m.freePage f) (m'.freePage f) := by
  refine ⟨?_, h.kernelEnd, ?_, h.mem⟩
  · show m'.frames.allocFreePage _ = m.frames.allocFreePage _
    rw [h.frames]
  · show _ :: m'.log = _ :: m.log
    rw [h.log]

end

end Twin

/-! ### What other directories keep -/

theorem Steady.refl (live : List Nat) (pd : Nat) (m : Mmu) : Steady live pd m m :=
  ⟨id, fun _ _ _ _ _ => rfl, fun _ _ _ _ _ _ _ => rfl⟩

theorem Steady.trans (h : Steady live pd m m₁) (h' : Steady live pd m₁ m₂) : Steady live pd m m₂ :=
  ⟨fun hm => h'.plain (h.plain hm), fun q hq hne i hi => (h'.dir q hq hne i hi).trans (h.dir q hq hne i hi),
    fun q hq hne i j hi hj => (h'.back q hq hne i j hi hj).trans (h.back q hq hne i j hi hj)⟩

theorem pte_structural (hpd : pd ∈ live) (hi : User i) (hj : j < 1024)
    (he : ∀ p, m.Structural live p → ∀ j < 1024, m₁.entry p j = m.entry p j) : m₁.pte pd i j = m.pte pd i j :=
  pte_congr (he pd (.dir hpd) i hi.lt) fun hp => he _ (.table hpd hi hp) j hj

theorem Plain.congr (h : m.Plain live) (he : ∀ p, m.Structural live p → ∀ j < 1024, m₁.entry p j = m.entry p j) :
    m₁.Plain live := by
  constructor
  · intro q hq i hi
    rw [he q (.dir hq) i hi.user.lt]
    exact h.table q hq i hi
  · intro q hq i j hi hj e hpte
    rw [pte_structural hq hi.user hj he] at hpte
    exact h.page q hq i j hi hj e hpte

theorem entry_of_mem (h : m₁.mem = m.mem) (p j : Nat) : m₁.entry p j = m.entry p j := by
  unfold entry
  rw [h]

theorem Plain.of_mem (hm : m.Plain live) (h : m₁.mem = m.mem) : m₁.Plain live :=
  hm.congr fun p _ j _ => entry_of_mem h p j

theorem Steady.of_mem (h : m₁.mem = m.mem) : Steady live pd m m₁ := by
  refine ⟨fun hm => hm.of_mem h, fun q _ _ i _ => entry_of_mem h q i, fun q hq _ i j hi hj => ?_⟩
  unfold backing
  rw [pte_structural hq hi.user hj fun p _ j _ => entry_of_mem h p j]

theorem Plain.setEntry (h : m.Plain live) (ht : t ∉ live) (hj : j < 1024) (hlt : e.frame < 1048576)
    (he : ∀ q ∈ live, ∀ i, Low i → (m.entry q i).has pgPresent → (m.entry q i).frame = t →
      e.has pgPresent → e.has pgOwned ∧ e.has pgUser) : (m.setEntry t j e).Plain live := by
  have hdir : ∀ q ∈ live, ∀ i, Low i → (m.setEntry t j e).entry q i = m.entry q i := by
    intro q hq i hi
    refine entry_setEntry_of_ne hj hi.user.lt ?_
    rintro ⟨rfl, -⟩
    exact ht hq
  refine ⟨fun q hq i hi => by rw [hdir q hq i hi]; exact h.table q hq i hi, fun q hq i j' hi hj' e' hpte => ?_⟩
  obtain ⟨hp, hpe, rfl⟩ := pte_eq_some.mp hpte
  rw [hdir q hq i hi] at hp hpe ⊢
  by_cases hsame : (m.entry q i).frame = t ∧ j' = j
  · obtain ⟨rfl, rfl⟩ := hsame
    rw [entry_setEntry_self hlt] at hpe ⊢
    exact he q hq i hi hp rfl hpe
  · rw [entry_setEntry_of_ne hj hj' hsame] at hpe ⊢
    exact h.page q hq i j' hi hj' _ (pte_eq_some.mpr ⟨hp, hpe, rfl⟩)

theorem backing_setEntry_of_ne (ht : t ∉ live) (hq : q ∈ live) (hi : Low i) (hj : j < 1024) {j' : Nat} (hj' : j' < 1024)
    (hne : (m.entry q i).has pgPresent → (m.entry q i).frame ≠ t) :
    (m.setEntry t j e).backing q i j' = m.backing q i j' := by
  have hdir : (m.setEntry t j e).entry q i = m.entry q i := by
    refine entry_setEntry_of_ne hj hi.user.lt ?_
    rintro ⟨rfl, -⟩
    exact ht hq
  unfold backing
  rw [pte_congr hdir fun hp => entry_setEntry_of_ne hj hj' fun h => hne hp h.1]

section
variable (h : Inv role m live) (hpd : pd ∈ live)
include h hpd

theorem Inv.low_table {i' : Nat} (hq : q ∈ live) (hi : User i) (hi' : Low i') (hp : (m.entry pd i).has pgPresent)
    (hpq : (m.entry q i').has pgPresent) (hframe : (m.entry q i').frame = (m.entry pd i).frame) : q = pd ∧ i' = i := by
  obtain ⟨rfl, hsame⟩ := h.same_table hpd hq hi hi'.user hp hpq hframe
  have := hi'.2
  omega

theorem Inv.table_not_live (hi : User i) (hp : (m.entry pd i).has pgPresent) : (m.entry pd i).frame ∉ live :=
  fun hlive => (h.dirs.active hpd hi hp).ne_dir (h.dirs.dir hlive) rfl

theorem Inv.steady_setEntry (hi : User i) (hp : (m.entry pd i).has pgPresent) (hj : j < 1024) (hlt : e.frame < 1048576)
    (he : Low i → e.has pgPresent → e.has pgOwned ∧ e.has pgUser) : Steady live pd m (m.setEntry (m.entry pd i).frame j e) := by
  have ht := h.table_not_live hpd hi hp
  refine ⟨fun hm => hm.setEntry ht hj hlt ?_, ?_, ?_⟩
  · intro q hq i' hi' hpq hframe
    obtain ⟨-, rfl⟩ := h.low_table hpd hq hi hi' hp hpq hframe
    exact he hi'
  · intro q hq _ i' hi'
    exact entry_setEntry_of_ne hj hi' fun hqt => ht (hqt.1 ▸ hq)
  · intro q hq hne i' j' hi' hj'
    exact backing_setEntry_of_ne ht hq hi' hj hj' fun hpq hframe => hne (h.low_table hpd hq hi hi' hp hpq hframe).1

end

/-! ### New tables -/

theorem allocPage_same (m : Mmu) : m.allocPage.2.mem = m.mem ∧ m.allocPage.2.kernelEnd = m.kernelEnd := by
  unfold allocPage
  split
  · exact ⟨rfl, rfl⟩
  · exact ⟨rfl, rfl⟩

theorem allocUnchecked_same (m : Mmu) :
    m.allocUnchecked.2.mem = m.mem ∧ m.allocUnchecked.2.kernelEnd = m.kernelEnd := by
  have hsame := m.allocPage_same
  unfold allocUnchecked
  split
  next heq => rwa [heq] at hsame
  next heq => rwa [heq] at hsame

structure AddedAt (m : Mmu) (pd i f : Nat) (flags : BitVec 12) (m₁ : Mmu) : Prop where
  mem : m₁.mem = fill (setWord m.mem pd i (Entry.toWord ⟨f, flags ||| pgPresent ||| pgWrite⟩)) f fun _ => 0
  frames : m₁.frames = m.allocUnchecked.2.frames
  kernelEnd : m₁.kernelEnd = m.allocUnchecked.2.kernelEnd
  log : m₁.log = m.allocUnchecked.2.log

theorem addTable_absent (habsent : (m.entry pd i).has pgPresent = false) (hlt : f < 1048576)
    (haddr : m.allocUnchecked.1 = 4096 * f) : AddedAt m pd i f flags (m.addTable pd i flags) := by
  have heq : m.addTable pd i flags =
      ⟨fill (m.allocUnchecked.2.setEntry pd i ⟨f, flags ||| pgPresent ||| pgWrite⟩).mem f fun _ => 0,
        m.allocUnchecked.2.frames, m.allocUnchecked.2.kernelEnd, m.allocUnchecked.2.log⟩ := by
    unfold addTable
    rw [if_neg (by rw [habsent]; nofun)]
    dsimp only
    rw [haddr, Entry.of_page, entry_setEntry_self hlt]
    rfl
  rw [heq]
  refine ⟨?_, rfl, rfl, rfl⟩
  dsimp only [setEntry]
  rw [m.allocUnchecked_same.1]

theorem AddedAt.entry_of_ne {k u : Nat} (hat : AddedAt m pd i f flags m') (hk : k < 1024) (hne : u ≠ f) :
    m'.entry u k = (m.setEntry pd i ⟨f, flags ||| pgPresent ||| pgWrite⟩).entry u k := by
  unfold entry
  rw [hat.mem]
  exact congrArg Entry.ofWord (word_fill_of_ne hk hne)

theorem AddedAt.dir (hat : AddedAt m pd i f flags m') (hi : i < 1024) (hlt : f < 1048576) (hne : f ≠ pd) :
    m'.entry pd i = ⟨f, flags ||| pgPresent ||| pgWrite⟩ := by
  rw [hat.entry_of_ne hi hne.symm]
  exact entry_setEntry_self hlt

theorem Inv.addTable_free (h : Inv role m live) (hpd : pd ∈ live) (habsent : (m.entry pd i).has pgPresent = false)
    (hlog : .missing ∉ (m.addTable pd i flags).log) :
    ∃ f, role f = .free ∧ f ≠ pd ∧ f < 1048576 ∧ m.allocUnchecked.1 = 4096 * f := by
  have hlog : .missing ∉ m.allocUnchecked.2.log := by
    unfold Mmu.addTable at hlog
    rwa [if_neg (by rw [habsent]; nofun)] at hlog
  obtain ⟨f, haddr, hlt, hmarked, -⟩ := allocUnchecked_ok h.alloc.ok rfl hlog
  have hfree := h.alloc.of_free hmarked.free
  refine ⟨f, hfree, ?_, hlt, haddr⟩
  rintro rfl
  rw [h.dirs.dir hpd] at hfree
  cases hfree

theorem Twin.grown_addTable (h : Twin clean live m m') (hinv : Inv role m live) (hpd : pd ∈ live) (hk : pd ≠ kernelPg)
    (hi : User i) (hlarge : flags.getLsbD 7 = false) (huser : Low i → flags.getLsbD 2)
    (hlog : .missing ∉ (m.addTable pd i flags).log) :
    Grown clean live pd m m' (m.addTable pd i flags) (m'.addTable pd i flags) := by
  have hentry := h.entry (.dir hpd) hi.lt
  cases habsent : (m.entry pd i).has pgPresent with
  | true =>
    rw [addTable_of_present habsent, addTable_of_present (by rw [hentry]; exact habsent)]
    exact ⟨⟨h, .refl ..⟩, fun _ => id, fun _ _ => ⟨rfl, rfl⟩⟩
  | false =>
    obtain ⟨role₁, -, hadd⟩ := hinv.addTable hpd (.inl hk) hi hlarge hlog
    obtain ⟨f, hfree, hne, hlt, haddr⟩ := hinv.addTable_free hpd habsent hlog
    obtain ⟨m₁', hm₁', h₁⟩ := h.allocUnchecked
    have hat : AddedAt m pd i f flags (m.addTable pd i flags) := addTable_absent habsent hlt haddr
    have hat' : AddedAt m' pd i f flags (m'.addTable pd i flags) :=
      addTable_absent (by rw [hentry]; exact habsent) hlt (by rw [hm₁']; exact haddr)
    have hpde := hat.dir hi.lt hlt hne
    have hdir : ∀ q ∈ live, ∀ i' < 1024, ¬(q = pd ∧ i' = i) → (m.addTable pd i flags).entry q i' = m.entry q i' := by
      intro q hq i' hi' hne
      by_cases hqp : q = pd
      · subst hqp
        exact hadd.dir i' hi' fun h => hne ⟨rfl, h⟩
      · exact entry_congr hi' fun a ha => hadd.mem a (by rw [ha, hinv.dirs.dir hq]; nofun) (by rw [ha]; exact hqp)
    have hpool : (m.addTable pd i flags).pool = m.pool := by
      unfold pool
      rw [hat.kernelEnd, m.allocUnchecked_same.2]
    refine ⟨⟨h.change (· = f) ?_ ?_ ?_ ?_ ?_,
      fun hm => ⟨?_, ?_⟩, fun q hq hne i' hi' => hdir q hq i' hi' fun h => hne h.1, ?_⟩, ?_, ?_⟩
    · rw [hat.frames, hat'.frames, hm₁']
      exact h₁.frames
    · rw [hat.kernelEnd, hat'.kernelEnd, hm₁']
      exact h₁.kernelEnd
    · rw [hat.log, hat'.log, hm₁']
      exact h₁.log
    · intro a ha
      rw [hat.mem, hat'.mem]
      exact fill_congr (fun hne => Word.write_congr (ha.resolve_right hne)) fun _ _ => rfl
    · rintro g (hg | hg | ⟨q, hq, i', hi', hp, rfl⟩)
      · exact .inl (.inl (hpool ▸ hg))
      · exact .inl (.dir hg)
      · by_cases hsame : q = pd ∧ i' = i
        · obtain ⟨rfl, rfl⟩ := hsame
          rw [hpde]
          exact .inr rfl
        · rw [hdir q hq i' hi'.lt hsame] at hp ⊢
          exact .inl (.table hq hi' hp)
    · intro q hq i' hi'
      by_cases hsame : q = pd ∧ i' = i
      · obtain ⟨rfl, rfl⟩ := hsame
        rw [hpde, Entry.has_present, Entry.has_user, BitVec.getLsbD_or, BitVec.getLsbD_or, BitVec.getLsbD_or,
          BitVec.getLsbD_or, huser hi']
        exact .inr ⟨by simp [pgPresent], rfl⟩
      · rw [hdir q hq i' hi'.user.lt hsame]
        exact hm.table q hq i' hi'
    · intro q hq i' j' hi' hj' e he
      rw [hadd.pte_eq hinv hpd hq hi'.user hj'] at he
      exact hm.page q hq i' j' hi' hj' e he
    · intro q hq _ i' j' hi' hj'
      unfold backing
      rw [hadd.pte_eq hinv hpd hq hi'.user hj']
    · rintro g (hg | hg | ⟨q, hq, i', hi', hp, rfl⟩)
      · exact .inl (by rw [hpool]; exact hg)
      · exact .dir hg
      · have hsame := hdir q hq i' hi'.lt (by rintro ⟨rfl, rfl⟩; rw [habsent] at hp; cases hp)
        rw [← hsame] at hp ⊢
        exact .table hq hi' hp
    · intro a ha
      have hne : a / 4096 ≠ f := by
        have htable : (m.addTable pd i flags).Structural live ((m.addTable pd i flags).entry pd i).frame :=
          .table hpd hi hadd.present
        rw [hpde] at htable
        rintro rfl
        exact ha htable
      have hne' : a / 4096 ≠ pd := by
        rintro rfl
        exact ha (.dir hpd)
      rw [hat.mem, hat'.mem, fill_of_ne hne, fill_of_ne hne, setWord_of_ne hi.lt hne', setWord_of_ne hi.lt hne']
      exact ⟨rfl, rfl⟩

theorem Grown.trans (h : Grown clean live pd m m' m₁ m₁') (h' : Grown clean live pd m₁ m₁' m₂ m₂') :
    Grown clean live pd m m' m₂ m₂' := by
  refine ⟨⟨h'.twin, h.steady.trans h'.steady⟩, fun f hf => h'.calm.grows f (h.calm.grows f hf), fun a ha => ?_⟩
  obtain ⟨hold, hold'⟩ := h.calm.same a fun hs => ha (h'.calm.grows _ hs)
  obtain ⟨hnew, hnew'⟩ := h'.calm.same a ha
  exact ⟨hnew.trans hold, hnew'.trans hold'⟩

theorem Grown.refl (h : Twin clean live m m') : Grown clean live pd m m' m m' :=
  ⟨⟨h, .refl ..⟩, fun _ => id, fun _ _ => ⟨rfl, rfl⟩⟩

theorem Twin.grown_setEntry (h : Twin clean live m m') (hinv : Inv role m live) (hpd : pd ∈ live) (hi : User i)
    (hp : (m.entry pd i).has pgPresent) (hj : j < 1024) (hlt : e.frame < 1048576)
    (he : Low i → e.has pgPresent → e.has pgOwned ∧ e.has pgUser) :
    Grown clean live pd m m' (m.setEntry (m.entry pd i).frame j e) (m'.setEntry (m'.entry pd i).frame j e) := by
  have ht := hinv.table_not_live hpd hi hp
  have hdir : ∀ q ∈ live, ∀ i' < 1024, (m.setEntry (m.entry pd i).frame j e).entry q i' = m.entry q i' := by
    intro q hq i' hi'
    refine entry_setEntry_of_ne hj hi' ?_
    rintro ⟨rfl, -⟩
    exact ht hq
  rw [h.entry (.dir hpd) hi.lt]
  refine ⟨⟨h.setEntry (.inl ht) hj, hinv.steady_setEntry hpd hi hp hj hlt he⟩, fun f hf => ?_, fun a ha => ?_⟩
  · refine hf.of_entries rfl fun q hq i' hi' _ => (hdir q hq i' hi'.lt).symm
  · have htable := Structural.table hpd hi (by rw [hdir pd hpd i hi.lt]; exact hp)
    rw [hdir pd hpd i hi.lt] at htable
    have hne : a / 4096 ≠ (m.entry pd i).frame := by
      intro hat
      rw [hat] at ha
      exact ha htable
    exact ⟨setWord_of_ne hj hne, setWord_of_ne hj hne⟩

theorem Twin.grown_addPage (h : Twin clean live m m') (hinv : Inv role m live) (hpd : pd ∈ live) (hk : pd ≠ kernelPg)
    (hi : User (pageDirectoryIndex vaddr)) (hlt : f < 1048576) (hlarge : flags.getLsbD 7 = false)
    (hflags : Low (pageDirectoryIndex vaddr) → flags.getLsbD 9 ∧ flags.getLsbD 2)
    (hlog : .missing ∉ (m.addPageToPd pd vaddr (4096 * f) flags).log) :
    Grown clean live pd m m' (m.addPageToPd pd vaddr (4096 * f) flags) (m'.addPageToPd pd vaddr (4096 * f) flags) := by
  rw [addPageToPd_page] at hlog ⊢
  rw [addPageToPd_page]
  obtain ⟨role₁, h₁, hadd⟩ := hinv.addTable hpd (.inl hk) hi hlarge hlog
  have hgrown := h.grown_addTable hinv hpd hk hi hlarge (fun hlow => (hflags hlow).2) hlog
  refine hgrown.trans (hgrown.twin.grown_setEntry h₁ hpd hi hadd.present (Nat.mod_lt _ (by decide)) hlt fun hlow _ => ?_)
  rw [Entry.has_owned, Entry.has_user]
  exact hflags hlow

theorem Twin.grown_alloc (pd : Nat) {page : Option Nat} (h : Twin clean live m m') (halloc : m.allocPage = (page, m₁)) :
    ∃ m₁', m'.allocPage = (page, m₁') ∧ Grown clean live pd m m' m₁ m₁' := by
  obtain ⟨m₁', heq, h₁⟩ := h.allocPage
  have hsame := m.allocPage_same
  have hsame' := m'.allocPage_same
  rw [halloc] at heq h₁ hsame
  rw [heq] at hsame'
  refine ⟨m₁', heq, ⟨h₁, .of_mem hsame.1⟩, fun f hf => hf.of_entries hsame.2.symm fun q _ i' _ _ => ?_, fun a _ => ?_⟩
  · unfold Mmu.entry
    rw [hsame.1]
  · rw [hsame.1, hsame'.1]
    exact ⟨rfl, rfl⟩

section
variable (h : Twin clean live m m') (hinv : Inv role m live) (hpd : pd ∈ live) (hk : pd ≠ kernelPg)
include h hinv hpd hk

theorem Twin.grown_page {pAddr : Nat} (hi : User (pageDirectoryIndex vaddr)) (halloc : m.allocPage = (some pAddr, m₁))
    (hlog : .missing ∉ (m₁.addPageToPd pd vaddr pAddr ownFlags).log) :
    ∃ m₁', m'.allocPage = (some pAddr, m₁') ∧ Grown clean live pd m m'
      (m₁.addPageToPd pd vaddr pAddr ownFlags)
      (m₁'.addPageToPd pd vaddr pAddr ownFlags) := by
  obtain ⟨m₁', halloc', hgrown⟩ := h.grown_alloc pd halloc
  obtain ⟨f, rfl, hlt, hmarked, hm₁⟩ := allocPage_ok hinv.alloc.ok halloc
  have h₁ := hinv.alloc_page hmarked (pageDirectoryIndex vaddr) (pageTableIndex vaddr)
  rw [← hm₁] at h₁
  exact ⟨m₁', halloc', hgrown.trans (hgrown.twin.grown_addPage h₁ hpd hk hi hlt (by decide) (fun _ => by decide) hlog)⟩

/-! ### `sbrk` -/

theorem Twin.grown_sbrkLoop {n next : Nat} (hnext : BrkOk next) (hlog : .missing ∉ (sbrkLoop pd n m next).2.1.log) :
    (sbrkLoop pd n m' next).1 = (sbrkLoop pd n m next).1 ∧ (sbrkLoop pd n m' next).2.2 = (sbrkLoop pd n m next).2.2 ∧
      Grown clean live pd m m' (sbrkLoop pd n m next).2.1 (sbrkLoop pd n m' next).2.1 := by
  induction n generalizing role m m' next with
  | zero => exact ⟨rfl, rfl, .refl h⟩
  | succ n ih =>
    unfold sbrkLoop at hlog ⊢
    split at hlog
    · rw [if_pos (by assumption), if_pos (by assumption)]
      exact ⟨rfl, rfl, .refl h⟩
    rename_i hroom
    rw [if_neg hroom, if_neg hroom]
    have hnext' := hnext.next hroom
    rcases halloc : m.allocPage with ⟨_ | pAddr, m₁⟩
    · obtain ⟨m₁', halloc', hgrown⟩ := h.grown_alloc pd halloc
      rw [halloc']
      exact ⟨rfl, rfl, hgrown⟩
    rw [halloc] at hlog
    dsimp only at hlog ⊢
    split at hlog
    · obtain ⟨m₁', halloc', hgrown⟩ := h.grown_alloc pd halloc
      rw [halloc']
      dsimp only
      rw [if_pos (by assumption), if_pos (by assumption)]
      exact ⟨rfl, rfl, hgrown⟩
    · have hlog₁ := (sbrkLoop_grows ..).not_missing hlog
      obtain ⟨m₁', halloc', hgrown⟩ := h.grown_page hinv hpd hk hnext.user halloc hlog₁
      obtain ⟨role₂, h₂⟩ := hinv.grow hpd hk hnext.user halloc hlog₁
      rw [halloc']
      dsimp only
      rw [if_neg (by assumption), if_neg (by assumption)]
      obtain ⟨hres, hend, hrest⟩ := ih hgrown.twin h₂ hnext' hlog
      exact ⟨hres, hend, hgrown.trans hrest⟩

theorem Twin.grown_sbrk {b : Brk} {nBytes : Int}
    (hnext : BrkOk b.brkNextUnallocatedPageBegin) (hlog : .missing ∉ (m.sbrk pd b nBytes).2.1.log) :
    (m'.sbrk pd b nBytes).2.2 = (m.sbrk pd b nBytes).2.2 ∧
      Grown clean live pd m m' (m.sbrk pd b nBytes).2.1 (m'.sbrk pd b nBytes).2.1 := by
  rcases sbrk_cases m pd b nBytes with ⟨r, e, hm⟩ | ⟨n, hm⟩
  · rw [hm m rfl, hm m' h.frames]
    exact ⟨rfl, .refl h⟩
  rw [hm m rfl] at hlog ⊢
  rw [hm m' h.frames]
  obtain ⟨hok, hend, hgrown⟩ := h.grown_sbrkLoop hinv hpd hk hnext hlog
  unfold sbrkEnd
  rw [hok, hend]
  exact ⟨rfl, hgrown⟩

end

/-! ### `sys_mmap` -/

theorem mmapLoop_grows (pd start n i : Nat) (m : Mmu) : LogGrows m (mmapLoop pd start n i m).2 := by
  induction n generalizing m i with
  | zero => exact .refl m
  | succ n ih =>
    have hgrows := allocPage_grows m
    unfold mmapLoop
    split
    next heq => rwa [heq] at hgrows
    next heq =>
      rw [heq] at hgrows
      exact (hgrows.trans (addPageToPd_grows ..)).trans (ih _ _)

theorem Twin.grown_mmapLoop {start n : Nat} (h : Twin clean live m m') (hinv : Inv role m live) (hpd : pd ∈ live)
    (hk : pd ≠ kernelPg) (hrange : ∀ k, i ≤ k → k < i + n → User (pageDirectoryIndex ((start + k * 4096) % wordSize)))
    (hlog : .missing ∉ (mmapLoop pd start n i m).2.log) :
    (mmapLoop pd start n i m').1 = (mmapLoop pd start n i m).1 ∧ (∃ role', Inv role' (mmapLoop pd start n i m).2 live) ∧
      Grown clean live pd m m' (mmapLoop pd start n i m).2 (mmapLoop pd start n i m').2 := by
  induction n generalizing role m m' i with
  | zero => exact ⟨rfl, ⟨role, hinv⟩, .refl h⟩
  | succ n ih =>
    unfold mmapLoop at hlog ⊢
    rcases halloc : m.allocPage with ⟨_ | page, m₁⟩
    · obtain ⟨m₁', halloc', hgrown⟩ := h.grown_alloc pd halloc
      rw [halloc']
      refine ⟨rfl, ⟨role, ?_⟩, hgrown⟩
      rw [allocPage_none halloc]
      exact hinv
    · rw [halloc] at hlog
      have hlog₁ := (mmapLoop_grows ..).not_missing hlog
      have hi := hrange i (Nat.le_refl i) (by omega)
      obtain ⟨m₁', halloc', hgrown⟩ := h.grown_page hinv hpd hk hi halloc hlog₁
      obtain ⟨role₂, h₂⟩ := hinv.grow hpd hk hi halloc hlog₁
      rw [halloc']
      obtain ⟨hres, hinv', hrest⟩ := ih hgrown.twin h₂ (fun k hlo hhi => hrange k (by omega) (by omega)) hlog
      exact ⟨hres, hinv', hgrown.trans hrest⟩

end Mmu
end HelinKern
