import HelinKern.MapPage
import HelinKern.Theorems.Twin

/-! `arch_mmu_mapPage` on i386 changes the page it is asked for and nothing else: no word but the entries that lead to the
    page, and the translation of no other page in any address space. -/

namespace HelinKern
variable {live : List Nat} {c : Nat}

namespace Mmu
open Paged FrameEvent Lts Option List

variable {m m' : Mmu} {pd q t f i j v w pAddr : Nat} {flags : BitVec 12}

/-! ### The recursive entry -/

def selfEntry (pd : Nat) : Entry := ⟨pd, pgPresent ||| pgWrite⟩

theorem pageDirectoryIndex_user (hv : v < memoryEnd) : pageDirectoryIndex v < 1023 := by
  unfold memoryEnd at hv
  unfold pageDirectoryIndex
  omega

theorem pageDirectoryIndex_ptAddr (hi : i < 1024) (hj : j < 1024) : pageDirectoryIndex (ptAddr i j) = 1023 := by
  unfold pageDirectoryIndex ptAddr
  omega

theorem pageTableIndex_ptAddr (hi : i < 1024) (hj : j < 1024) : pageTableIndex (ptAddr i j) = i := by
  unfold pageTableIndex ptAddr
  omega

section
variable (hself : m.entry pd 1023 = selfEntry pd) (hi : i < 1024) (hj : j < 1024)
include hself hi hj

theorem pageTable_ptAddr : (m.entry pd (pageDirectoryIndex (ptAddr i j))).frame = pd ∧
      (m.entry pd (pageDirectoryIndex (ptAddr i j))).has pgPresent ∧
      (m.entry pd (pageDirectoryIndex (ptAddr i j))).has pg4MB = false := by
  rw [pageDirectoryIndex_ptAddr hi hj, hself]
  exact ⟨rfl, Entry.has_of_flags pd (by decide), Entry.has_of_flags pd (by decide)⟩

theorem translate_ptAddr (hp : (m.entry pd i).has pgPresent) :
    ∃ a, m.translate pd (ptAddr i j) = some a ∧ a.phys = 4096 * (m.entry pd i).frame + 4 * j := by
  obtain ⟨hframe, hpresent, hsmall⟩ := pageTable_ptAddr hself hi hj
  have hoff : ptAddr i j % 4096 = 4 * j := by
    unfold ptAddr
    omega
  unfold translate
  dsimp only
  rw [hframe, hpresent, hsmall, pageTableIndex_ptAddr hi hj, hp, hoff]
  exact ⟨_, rfl, rfl⟩

theorem loadEntry_ptAddr
    (hp : (m.entry pd i).has pgPresent) : m.loadEntry pd (ptAddr i j) = some (m.entry (m.entry pd i).frame j) := by
  obtain ⟨a, ha, hphys⟩ := translate_ptAddr hself hi hj hp
  unfold loadEntry
  rw [ha, map_some, hphys]
  rfl

end

theorem storeEntry_ptAddr (e : Entry) (hself : m.entry pd 1023 = selfEntry pd) (hi : i < 1024) (hj : j < 1024)
    (hp : (m.entry pd i).has pgPresent) :
    m.storeEntry pd (ptAddr i j) e = some (m.setEntry (m.entry pd i).frame j e) := by
  obtain ⟨a, ha, hphys⟩ := translate_ptAddr hself hi hj hp
  unfold storeEntry
  rw [ha, map_some, hphys]
  rfl

theorem pdAddr_eq (i : Nat) : pdAddr i = ptAddr 1023 i := rfl

theorem loadEntry_pdAddr (hself : m.entry pd 1023 = selfEntry pd) (hi : i < 1024) :
    m.loadEntry pd (pdAddr i) = some (m.entry pd i) := by
  rw [pdAddr_eq, loadEntry_ptAddr hself (by decide) hi (by rw [hself]; exact Entry.has_of_flags pd (by decide)), hself]
  rfl

theorem storeEntry_pdAddr (e : Entry) (hself : m.entry pd 1023 = selfEntry pd) (hi : i < 1024) :
    m.storeEntry pd (pdAddr i) e = some (m.setEntry pd i e) := by
  rw [pdAddr_eq, storeEntry_ptAddr e hself (by decide) hi (by rw [hself]; exact Entry.has_of_flags pd (by decide)), hself]
  rfl

section
variable (hself : m.entry pd 1023 = selfEntry pd)
include hself

theorem clearTable_eq (hi : i < 1024) (hp : (m.entry pd i).has pgPresent) (hne : (m.entry pd i).frame ≠ pd) :
    m.clearTable pd i = some { m with mem := fill m.mem (m.entry pd i).frame fun _ => 0 } := by
  obtain ⟨t, ht, rfl⟩ := Loop.foldlM_range (s := m)
    (fun k t => t = { m with mem := fun a => if a / 4096 = (m.entry pd i).frame ∧ a % 4096 < 4 * k then 0 else m.mem a })
    (by simp) (fun k t hk ht => by
      have hentry : ∀ j < 1024, t.entry pd j = m.entry pd j := by
        intro j hj
        rw [ht]
        exact entry_congr hj fun a ha => if_neg fun h => hne (h.1.symm.trans ha)
      refine ⟨_, storeEntry_ptAddr .empty ((hentry 1023 (by decide)).trans hself) hi hk (by rw [hentry i hi]; exact hp), ?_⟩
      rw [hentry i hi, ht]
      unfold setEntry
      congr 1
      funext a
      rw [setWord_apply _ _ _ hk]
      by_cases ha : a / 4096 = (m.entry pd i).frame ∧ a % 4096 / 4 = k
      · rw [if_pos ha, if_pos ⟨ha.1, by omega⟩, show Entry.empty.toWord = 0 from rfl, Nat.zero_div]
        rfl
      · rw [if_neg ha]
        exact if_congr (and_congr_right fun hpage => by omega) rfl rfl)
  refine ht.trans (congrArg (fun mem => some { m with mem }) ?_)
  funext a
  unfold fill
  by_cases ha : a / 4096 = (m.entry pd i).frame
  · rw [if_pos ⟨ha, by omega⟩, if_pos ha, Nat.zero_div]
    rfl
  · rw [if_neg (fun h => ha h.1), if_neg ha]

/-- Through the recursive entry the call does what it does on the tables themselves, if a table it needs gets a frame. -/
theorem archMmuMapPage_eq (hi : pageDirectoryIndex v < 1023)
    (htable : (m.entry pd (pageDirectoryIndex v)).has pgPresent = false →
      ∃ t < 1048576, m.allocUnchecked.1 = 4096 * t ∧ t ≠ pd) :
    m.archMmuMapPage pd v pAddr flags = some (m.addPageToPd pd v pAddr flags) := by
  have hi' : pageDirectoryIndex v < 1024 := by omega
  have hj := pageTableIndex_lt v
  unfold archMmuMapPage
  dsimp only
  rw [loadEntry_pdAddr hself hi', bind_eq_bind, bind_some]
  cases hp : (m.entry pd (pageDirectoryIndex v)).has pgPresent with
  | true =>
    unfold addPageToPd
    rw [if_pos rfl, bind_eq_bind, bind_some, storeEntry_ptAddr _ hself hi' hj hp, addTable_of_present hp]
  | false =>
    obtain ⟨t, ht, haddr, hne⟩ := htable hp
    have hat : AddedAt m pd (pageDirectoryIndex v) t flags _ := addTable_absent hp ht haddr
    have hself' : m.allocUnchecked.2.entry pd 1023 = selfEntry pd := by
      unfold entry
      rw [m.allocUnchecked_same.1]
      exact hself
    have hpresent : (⟨t, flags ||| pgPresent ||| pgWrite⟩ : Entry).has pgPresent := by
      rw [Entry.has_present]
      simp [pgPresent]
    -- the directory with the new entry, before the table is cleared
    have hpde : (m.allocUnchecked.2.setEntry pd (pageDirectoryIndex v)
        (.of m.allocUnchecked.1 (flags ||| pgPresent ||| pgWrite))).entry pd (pageDirectoryIndex v) =
        ⟨t, flags ||| pgPresent ||| pgWrite⟩ := by
      rw [haddr, Entry.of_page]
      exact entry_setEntry_self ht
    have hclear : (m.allocUnchecked.2.setEntry pd (pageDirectoryIndex v)
        (.of m.allocUnchecked.1 (flags ||| pgPresent ||| pgWrite))).clearTable pd (pageDirectoryIndex v) =
        some (m.addTable pd (pageDirectoryIndex v) flags) :=
      (clearTable_eq ((entry_setEntry_of_ne hi' (by decide) (by omega)).trans hself') hi' (by rw [hpde]; exact hpresent)
        (by rw [hpde]; exact hne)).trans (congrArg some (if_neg (by rw [hp]; exact Bool.false_ne_true)).symm)
    rw [if_neg Bool.false_ne_true, storeEntry_pdAddr _ hself' hi', bind_eq_bind, bind_some, hclear, bind_some,
      storeEntry_ptAddr _ ?_ hi' hj (by rw [hat.dir hi' ht hne]; exact hpresent)]
    · rfl
    · rw [hat.entry_of_ne (by decide) hne.symm, entry_setEntry_of_ne hi' (by decide) (by omega), hself]

end

/-! ### Directories and their tables -/

def tableOf (m : Mmu) (pd i : Nat) : Option Nat :=
  if (m.entry pd i).has pgPresent && !(m.entry pd i).has pg4MB then some (m.entry pd i).frame else none

theorem tableOf_eq_some : m.tableOf pd i = some t ↔
    (m.entry pd i).has pgPresent ∧ (m.entry pd i).has pg4MB = false ∧ (m.entry pd i).frame = t := by
  unfold tableOf
  split
  next h =>
    rw [Bool.and_eq_true, Bool.not_eq_true'] at h
    rw [some.injEq]
    exact ⟨fun heq => ⟨h.1, h.2, heq⟩, fun h' => h'.2.2⟩
  next h =>
    rw [Bool.and_eq_true, Bool.not_eq_true'] at h
    exact ⟨nofun, fun h' => absurd ⟨h'.1, h'.2.1⟩ h⟩

theorem tableOf_congr (h : m'.entry q i = m.entry pd i) : m'.tableOf q i = m.tableOf pd i := by
  unfold tableOf
  rw [h]

def DirPage (m : Mmu) (pd : Nat) : Prop := pd = kernelPg ∨ pd ∈ m.pool

structure Tabled (m : Mmu) (live : List Nat) : Prop where
  ok : m.frames.Ok
  kernel : kernelPg ∈ live
  dir : ∀ pd ∈ live, m.DirPage pd
  low : ∀ pd, m.DirPage pd → pd < 1048576
  kept : ∀ pd, m.DirPage pd → ¬m.frames.Free pd
  self : ∀ pd ∈ live, m.entry pd 1023 = selfEntry pd
  used : ∀ pd ∈ live, (m.entry pd 0).has pgPresent = true
  table : ∀ pd ∈ live, ∀ i < 1023, ∀ t, m.tableOf pd i = some t → ¬m.DirPage t ∧ ¬m.frames.Free t
  index : ∀ pd ∈ live, ∀ q ∈ live, ∀ i < 1023, ∀ k < 1023, ∀ t, m.tableOf pd i = some t → m.tableOf q k = some t → k = i

/-- What `arch_mmu_mapPage` writes: the entry `e` into the table `t`, which was there or is a new one. -/
structure Entered (m : Mmu) (live : List Nat) (pd i j t : Nat) (e : Entry) (flags : BitVec 12) (m' : Mmu) : Prop where
  kernelEnd : m'.kernelEnd = m.kernelEnd
  table : m'.tableOf pd i = some t
  entry : m'.entry t j = e
  dir : ∀ q ∈ live, ∀ k < 1024, ¬(q = pd ∧ k = i) → m'.entry q k = m.entry q k
  page : ∀ u, u ≠ pd → u ≠ t → ∀ k < 1024, m'.entry u k = m.entry u k
  mem : ∀ a, m'.mem a ≠ m.mem a → a / 4096 = pd ∧ a % 4096 / 4 = i ∨
    a / 4096 = t ∧ (a % 4096 / 4 = j ∨ (m.entry pd i).has pgPresent = false)
  cases : m'.entry pd i = m.entry pd i ∧ m'.frames = m.frames ∧ (∀ k < 1024, k ≠ j → m'.entry t k = m.entry t k) ∨
    (m.entry pd i).has pgPresent = false ∧ m.frames.Marked t m'.frames ∧
      m'.entry pd i = ⟨t, flags ||| pgPresent ||| pgWrite⟩ ∧ ∀ k < 1024, k ≠ j → m'.entry t k = .empty

section
variable (h : Tabled m live) (hpd : pd ∈ live) (hv : pageDirectoryIndex v < 1023) (hf : f < 1048576)
include h hpd hv hf

theorem Tabled.mapPage_old (ht : m.tableOf pd (pageDirectoryIndex v) = some t) :
    ∃ m', m.archMmuMapPage pd v (4096 * f) flags = some m' ∧
      Entered m live pd (pageDirectoryIndex v) (pageTableIndex v) t ⟨f, flags⟩ flags m' := by
  have hj := pageTableIndex_lt v
  obtain ⟨hp, hsmall, hframe⟩ := tableOf_eq_some.mp ht
  have hdir : ∀ q ∈ live, q ≠ t := by
    rintro q hq rfl
    exact (h.table pd hpd _ hv q ht).1 (h.dir q hq)
  refine ⟨_, archMmuMapPage_eq (h.self pd hpd) hv (by rw [hp]; nofun), ?_⟩
  unfold addPageToPd
  dsimp only
  rw [addTable_of_present hp, hframe, Entry.of_page]
  have hpde : ∀ q ∈ live, ∀ k < 1024, (m.setEntry t (pageTableIndex v) ⟨f, flags⟩).entry q k = m.entry q k :=
    fun q hq k hk => entry_setEntry_of_ne hj hk fun hsame => hdir q hq hsame.1
  refine ⟨rfl, ?_, entry_setEntry_self hf, fun q hq k hk _ => hpde q hq k hk,
    fun u _ hu k hk => entry_setEntry_of_ne hj hk fun hsame => hu hsame.1, fun a ha => .inr ?_,
    .inl ⟨?_, rfl, fun k hk hne => ?_⟩⟩
  · rw [tableOf_congr (hpde pd hpd _ (by omega)), ht]
  · have hword := setWord_apply (p := t) m.mem (Entry.toWord ⟨f, flags⟩) a hj
    by_contra hout
    exact ha (hword.trans (if_neg fun hin => hout ⟨hin.1, .inl hin.2⟩))
  · exact hpde pd hpd _ (by omega)
  · exact entry_setEntry_of_ne hj hk fun hsame => hne hsame.2

theorem Tabled.mapPage_new (hp : (m.entry pd (pageDirectoryIndex v)).has pgPresent = false)
    (hlarge : (⟨f, flags⟩ : Entry).has pg4MB = false) (hroom : m.frames.allocGetPage.1 ≠ none) :
    ∃ t m', m.archMmuMapPage pd v (4096 * f) flags = some m' ∧
      Entered m live pd (pageDirectoryIndex v) (pageTableIndex v) t ⟨f, flags⟩ flags m' := by
  have hi : pageDirectoryIndex v < 1024 := by omega
  have hj := pageTableIndex_lt v
  obtain ⟨m₁, addr, halloc⟩ : ∃ m₁ addr, m.allocPage = (some addr, m₁) := by
    unfold allocPage
    cases hget : m.frames.allocGetPage with
    | mk r frames =>
      cases r with
      | none => exact absurd (congrArg Prod.fst hget) hroom
      | some addr => exact ⟨_, addr, rfl⟩
  obtain ⟨t, rfl, ht, hmarked, hm₁⟩ := allocPage_ok h.ok halloc
  have hdir : ∀ q ∈ live, q ≠ t := by
    rintro q hq rfl
    exact h.kept q (h.dir q hq) hmarked.free
  have hunchecked : m.allocUnchecked = (4096 * t, m₁) := by
    unfold allocUnchecked
    rw [halloc]
  have hat : AddedAt m pd (pageDirectoryIndex v) t flags _ := addTable_absent hp ht (by rw [hunchecked])
  have hpde₂ := hat.dir hi ht (hdir pd hpd).symm
  refine ⟨t, _, archMmuMapPage_eq (h.self pd hpd) hv fun _ => ⟨t, ht, by rw [hunchecked], (hdir pd hpd).symm⟩, ?_⟩
  unfold addPageToPd
  dsimp only
  rw [hpde₂, Entry.of_page]
  generalize m.addTable pd (pageDirectoryIndex v) flags = m₂ at hat hpde₂ ⊢
  have hpde : ∀ u, u ≠ t → ∀ k < 1024, (m₂.setEntry t (pageTableIndex v) ⟨f, flags⟩).entry u k = m₂.entry u k :=
    fun u hu k hk => entry_setEntry_of_ne hj hk fun hsame => hu hsame.1
  have hnew : (m₂.setEntry t (pageTableIndex v) ⟨f, flags⟩).entry pd (pageDirectoryIndex v) =
      ⟨t, flags ||| pgPresent ||| pgWrite⟩ := by
    rw [hpde pd (hdir pd hpd) _ hi, hpde₂]
  refine ⟨?_, ?_, entry_setEntry_self hf, fun q hq k hk hne => ?_, fun u hne hu k hk => ?_, fun a ha => ?_,
    .inr ⟨hp, ?_, hnew, fun k hk hne => ?_⟩⟩
  · show m₂.kernelEnd = m.kernelEnd
    rw [hat.kernelEnd, hunchecked, hm₁]
  · rw [tableOf_eq_some, hnew]
    rw [Entry.has_4MB] at hlarge
    refine ⟨?_, ?_, rfl⟩
    · rw [Entry.has_present]
      simp [pgPresent]
    · rw [Entry.has_4MB, BitVec.getLsbD_or, BitVec.getLsbD_or, hlarge]
      rfl
  · rw [hpde q (hdir q hq) k hk, hat.entry_of_ne hk (hdir q hq), entry_setEntry_of_ne hi hk hne]
  · rw [hpde u hu k hk, hat.entry_of_ne hk hu, entry_setEntry_of_ne hi hk fun hsame => hne hsame.1]
  · by_contra hout
    rw [not_or] at hout
    have hpage : a / 4096 ≠ t := fun heq => hout.2 ⟨heq, .inr hp⟩
    refine ha ?_
    show setWord m₂.mem t _ _ a = m.mem a
    rw [setWord_of_ne hj hpage, hat.mem, fill_of_ne hpage, setWord_apply _ _ _ hi, if_neg hout.1]
  · show m.frames.Marked t m₂.frames
    rw [hat.frames, hunchecked]
    exact hmarked
  · rw [entry_setEntry_of_ne hj hk fun hsame => hne hsame.2]
    unfold Mmu.entry
    rw [hat.mem, word_fill_self hk]
    rfl

end

section
variable {live : List Nat} {e : Entry}

section
variable (he : Entered m live pd i j t e flags m')
include he

theorem Entered.dirPage : m'.DirPage q ↔ m.DirPage q := by
  unfold DirPage pool
  rw [he.kernelEnd]

theorem Entered.free_mono (hfree : m'.frames.Free q) : m.frames.Free q := by
  rcases he.cases with ⟨-, hframes, -⟩ | ⟨-, hmarked, -⟩
  · rwa [hframes] at hfree
  · exact ((hmarked.free_iff q).mp hfree).1

theorem Entered.tableOf_cases {u k : Nat} (hq : q ∈ live) (hk : k < 1024) (hu : m'.tableOf q k = some u) :
    m.tableOf q k = some u ∨ (q = pd ∧ k = i) ∧ u = t ∧ m.frames.Free t ∧ ¬m'.frames.Free t := by
  by_cases hsame : q = pd ∧ k = i
  · obtain ⟨rfl, rfl⟩ := hsame
    rcases he.cases with ⟨hpde, -⟩ | ⟨-, hmarked, -⟩
    · exact .inl ((tableOf_congr hpde).symm.trans hu)
    · have heq : u = t := some.inj (hu.symm.trans he.table)
      exact .inr ⟨⟨rfl, rfl⟩, heq, hmarked.free, fun hfree => ((hmarked.free_iff t).mp hfree).2 rfl⟩
  · exact .inl ((tableOf_congr (he.dir q hq k hk hsame)).symm.trans hu)

end

theorem Entered.tabled (h : Tabled m live) (hi : i < 1023) (he : Entered m live pd i j t e flags m') : Tabled m' live := by
  refine ⟨?_, h.kernel, fun q hq => he.dirPage.mpr (h.dir q hq), fun q hq => h.low q (he.dirPage.mp hq),
    fun q hq hfree => h.kept q (he.dirPage.mp hq) (he.free_mono hfree), fun q hq => ?_, fun q hq => ?_, fun q hq k hk u hu => ?_,
    fun q hq q' hq' k hk k' hk' u hu hu' => ?_⟩
  · rcases he.cases with ⟨-, hframes, -⟩ | ⟨-, hmarked, -⟩
    · rw [hframes]
      exact h.ok
    · exact hmarked.ok
  · rw [he.dir q hq 1023 (by decide) (by omega), h.self q hq]
  · by_cases hsame : q = pd ∧ 0 = i
    · obtain ⟨rfl, rfl⟩ := hsame
      exact (tableOf_eq_some.mp he.table).1
    · rw [he.dir q hq 0 (by decide) hsame]
      exact h.used q hq
  · rw [he.dirPage]
    rcases he.tableOf_cases hq (by omega) hu with hold | ⟨-, rfl, hfree, hfree'⟩
    · obtain ⟨hdir, hnot⟩ := h.table q hq k hk u hold
      exact ⟨hdir, fun hfree => hnot (he.free_mono hfree)⟩
    · exact ⟨fun hdir => h.kept u hdir hfree, hfree'⟩
  · rcases he.tableOf_cases hq (by omega) hu with hold | ⟨hat, rfl, hfree, -⟩
    · rcases he.tableOf_cases hq' (by omega) hu' with hold' | ⟨-, rfl, hfree, -⟩
      · exact h.index q hq q' hq' k hk k' hk' u hold hold'
      · exact absurd hfree (h.table q hq k hk u hold).2
    · rcases he.tableOf_cases hq' (by omega) hu' with hold' | ⟨hat', -⟩
      · exact absurd hfree (h.table q' hq' k' hk' u hold').2
      · rw [hat.2, hat'.2]

theorem translate_congr (hpde : m'.entry q (pageDirectoryIndex w) = m.entry q (pageDirectoryIndex w))
    (hpte : ∀ u, m.tableOf q (pageDirectoryIndex w) = some u → m'.entry u (pageTableIndex w) = m.entry u (pageTableIndex w)) :
    m'.translate q w = m.translate q w := by
  unfold translate
  dsimp only
  rw [hpde]
  cases hp : (m.entry q (pageDirectoryIndex w)).has pgPresent with
  | false => rfl
  | true =>
    cases hlarge : (m.entry q (pageDirectoryIndex w)).has pg4MB with
    | true => rfl
    | false => rw [hpte _ (tableOf_eq_some.mpr ⟨hp, hlarge, rfl⟩)]

theorem page_eq_of_index (hv : v < 4294967296) (hw : w < 4294967296) (hi : pageDirectoryIndex w = pageDirectoryIndex v)
    (hj : pageTableIndex w = pageTableIndex v) : w / 4096 = v / 4096 := by
  unfold pageDirectoryIndex at hi
  unfold pageTableIndex at hj
  omega

/-- The translation of `w` in the directory `q` is not the one of the page, nor that of the table in the window. -/
def Elsewhere (pd v q w : Nat) : Prop :=
  w / 4096 ≠ v / 4096 ∧ ¬(q = pd ∧ w / 4096 = ptAddr (pageDirectoryIndex v) 0 / 4096)

theorem Entered.translate_of_elsewhere (h : Tabled m live) (hpd : pd ∈ live) (hv : v < memoryEnd)
    (he : Entered m live pd (pageDirectoryIndex v) (pageTableIndex v) t e flags m') (hq : q ∈ live) (hw : w < 4294967296)
    (helse : Elsewhere pd v q w) : m'.translate q w = m.translate q w := by
  have hi := pageDirectoryIndex_user hv
  have hv' : v < 4294967296 := by
    unfold memoryEnd at hv
    omega
  have hiw := pageDirectoryIndex_lt w
  have hjw := pageTableIndex_lt w
  have hrow (hsame : pageDirectoryIndex w = pageDirectoryIndex v) : pageTableIndex w ≠ pageTableIndex v :=
    fun hj => helse.1 (page_eq_of_index hv' hw hsame hj)
  by_cases hat : q = pd ∧ pageDirectoryIndex w = pageDirectoryIndex v
  · obtain ⟨rfl, hsame⟩ := hat
    rcases he.cases with ⟨hpde, -, hold⟩ | ⟨habsent, -, -, hempty⟩
    · refine translate_congr (by rw [hsame]; exact hpde) fun u hu => ?_
      have hu' : m'.tableOf q (pageDirectoryIndex v) = some u := by
        rw [tableOf_congr hpde, ← hsame]
        exact hu
      obtain rfl : u = t := some.inj (hu'.symm.trans he.table)
      exact hold _ hjw (hrow hsame)
    · -- a page of the new table was not mapped before and is not mapped now
      obtain ⟨hp, hsmall, hframe⟩ := tableOf_eq_some.mp he.table
      unfold translate
      dsimp only
      rw [hsame, habsent, hp, hsmall, hframe, hempty _ hjw (hrow hsame)]
      rfl
  · refine translate_congr (he.dir q hq _ hiw hat) fun u hu => ?_
    by_cases hwin : pageDirectoryIndex w = 1023
    · -- the window: the page tables of `q` as pages
      obtain rfl : q = u := by
        have hself := h.self q hq
        rw [hwin] at hu
        rw [← (tableOf_eq_some.mp hu).2.2, hself]
        rfl
      refine he.dir q hq _ hjw fun hsame => helse.2 ⟨hsame.1, ?_⟩
      unfold pageTableIndex at hsame
      unfold pageDirectoryIndex at hwin
      unfold ptAddr
      omega
    · have hlt : pageDirectoryIndex w < 1023 := by omega
      obtain ⟨hdir, hfree⟩ := h.table q hq _ hlt u hu
      have hupd : u ≠ pd := by
        rintro rfl
        exact hdir (h.dir u hpd)
      by_cases hut : u = t
      · subst hut
        rcases he.cases with ⟨hpde, -, hold⟩ | ⟨-, hmarked, -⟩
        · have hu' : m.tableOf pd (pageDirectoryIndex v) = some u := (tableOf_congr hpde).symm.trans he.table
          exact hold _ hjw (hrow (h.index pd hpd q hq _ hi _ hlt u hu' hu))
        · exact absurd hmarked.free hfree
      · exact he.page u hupd hut _ hjw

theorem Entered.translate_self (he : Entered m live pd (pageDirectoryIndex v) (pageTableIndex v) t ⟨f, flags⟩ flags m')
    (hp : (⟨f, flags⟩ : Entry).has pgPresent) :
    m'.translate pd v = some ⟨4096 * f + v % 4096,
      (m'.entry pd (pageDirectoryIndex v)).has pgUser && (⟨f, flags⟩ : Entry).has pgUser,
      (m'.entry pd (pageDirectoryIndex v)).has pgWrite && (⟨f, flags⟩ : Entry).has pgWrite⟩ := by
  obtain ⟨hpde, hsmall, hframe⟩ := tableOf_eq_some.mp he.table
  unfold translate
  dsimp only
  rw [hpde, hsmall, hframe, he.entry, hp]
  rfl

end

/-! ### New directories -/

theorem newEntry_self (m : Mmu) (c : Nat) : m.newEntry c 1023 = selfEntry c := Entry.of_page c _

theorem newEntry_tables (hi : i < 1023) :
    m.newEntry c i = .empty ∨
      m.newEntry c i = ⟨(m.entry kernelPg i).frame, (m.entry kernelPg i).flags &&& ~~~pgOwned⟩ := by
  unfold newEntry
  split
  · exact .inr rfl
  · split
    · exact .inl rfl
    · exact .inr rfl

theorem has_of_clear_owned (e : Entry) : (⟨e.frame, e.flags &&& ~~~pgOwned⟩ : Entry).has pgPresent = e.has pgPresent ∧
    (⟨e.frame, e.flags &&& ~~~pgOwned⟩ : Entry).has pg4MB = e.has pg4MB := by
  constructor <;> simp [pgOwned]

theorem Tabled.newAspace (h : Tabled m live) (hnew : m.archMmuNewAspace = some (c, m')) :
    Tabled m' (c :: live) := by
  obtain ⟨c', hfind, heq⟩ := map_eq_some_iff.mp hnew
  cases heq
  have hpool : m.DirPage c := .inr (mem_of_find?_eq_some hfind)
  have hfresh : ∀ q ∈ live, q ≠ c := by
    rintro q hq rfl
    have hused := h.used q hq
    have hword : word m.mem q 0 = 0 := by simpa using find?_some hfind
    unfold Mmu.entry at hused
    rw [hword] at hused
    cases hused
  have hother : ∀ u, u ≠ c → ∀ k < 1024,
      { m with mem := fill m.mem c fun i => (m.newEntry c i).toWord }.entry u k = m.entry u k :=
    fun u hu k hk => entry_fill_of_ne hk hu
  have hentry : ∀ k < 1023, { m with mem := fill m.mem c fun i => (m.newEntry c i).toWord }.entry c k = m.newEntry c k :=
    fun k hk => entry_fill_self (by omega) (newEntry_frame_lt hk)
  -- a table of the new directory is one of the kernel
  have htable : ∀ q ∈ c :: live, ∀ k < 1023, ∀ u,
      { m with mem := fill m.mem c fun i => (m.newEntry c i).toWord }.tableOf q k = some u →
        ∃ q' ∈ live, m.tableOf q' k = some u := by
    intro q hq k hk u hu
    rcases mem_cons.mp hq with rfl | hq
    · obtain ⟨hp, hsmall, hframe⟩ := tableOf_eq_some.mp hu
      rw [hentry k hk] at hp hsmall hframe
      rcases newEntry_tables hk with hempty | hcopy
      · rw [hempty] at hp
        cases hp
      · rw [hcopy] at hp hsmall hframe
        have hhas := has_of_clear_owned (m.entry kernelPg k)
        exact ⟨kernelPg, h.kernel, tableOf_eq_some.mpr ⟨hhas.1 ▸ hp, hhas.2 ▸ hsmall, hframe⟩⟩
    · exact ⟨q, hq, (tableOf_congr (hother q (hfresh q hq) k (by omega))).symm.trans hu⟩
  refine ⟨h.ok, mem_cons_of_mem _ h.kernel, fun q hq => ?_, h.low, h.kept, fun q hq => ?_, fun q hq => ?_,
    fun q hq k hk u hu => ?_, fun q hq q' hq' k hk k' hk' u hu hu' => ?_⟩
  · rcases mem_cons.mp hq with rfl | hq
    · exact hpool
    · exact h.dir q hq
  · rcases mem_cons.mp hq with rfl | hq
    · rw [← newEntry_self m q]
      exact entry_fill_self (by decide) (by rw [newEntry_self]; exact h.low q hpool)
    · rw [hother q (hfresh q hq) 1023 (by decide), h.self q hq]
  · rcases mem_cons.mp hq with rfl | hq
    · rw [hentry 0 (by decide),
        show m.newEntry q 0 = ⟨(m.entry kernelPg 0).frame, (m.entry kernelPg 0).flags &&& ~~~pgOwned⟩ from rfl,
        (has_of_clear_owned _).1]
      exact h.used kernelPg h.kernel
    · rw [hother q (hfresh q hq) 0 (by decide)]
      exact h.used q hq
  · obtain ⟨p, hp, hold⟩ := htable q hq k hk u hu
    exact h.table p hp k hk u hold
  · obtain ⟨p, hp, hold⟩ := htable q hq k hk u hu
    obtain ⟨p', hp', hold'⟩ := htable q' hq' k' hk' u hu'
    exact h.index p hp p' hp' k hk k' hk' u hold hold'

theorem Tabled.boot (hok : m.frames.Ok) (hk : kernelPg ∉ m.pool)
    (hpool : kernPdAreaBegin m.kernelEnd + kernPdAreaSize ≤ 4294967296) (hkeep : ∀ pd, m.DirPage pd → ¬m.frames.Free pd) :
    Tabled m.archMmuInit [kernelPg] := by
  have hentry : ∀ i < 1024, m.archMmuInit.entry kernelPg i = bootEntry m.kernelEnd i := fun i hi => entry_archMmuInit hk hi
  have hnone : ∀ q ∈ [kernelPg], ∀ i < 1023, ∀ t, m.archMmuInit.tableOf q i ≠ some t := by
    intro q hq i hi t ht
    obtain ⟨hp, hsmall, -⟩ := tableOf_eq_some.mp ht
    rw [mem_singleton.mp hq, hentry i (by omega)] at hp hsmall
    unfold bootEntry at hp hsmall
    rw [if_neg (by omega)] at hp hsmall
    split at hp
    next hlow =>
      rw [if_pos hlow] at hsmall
      have hof := Entry.of_page (i * 1024) (pgPresent ||| pgWrite ||| pg4MB ||| pgUser)
      rw [show 4096 * (i * 1024) = i * 4194304 by omega] at hof
      have hlarge : (⟨i * 1024, pgPresent ||| pgWrite ||| pg4MB ||| pgUser⟩ : Entry).has pg4MB :=
        Entry.has_of_flags _ (by decide)
      rw [hof, hlarge] at hsmall
      cases hsmall
    · cases hp
  refine ⟨hok, mem_singleton.mpr rfl, fun q hq => .inl (mem_singleton.mp hq), ?_, hkeep, ?_, ?_,
    fun q hq i hi t ht => absurd ht (hnone q hq i hi t), fun q hq _ _ i hi _ _ t ht => absurd ht (hnone q hq i hi t)⟩
  · rintro q (rfl | hq)
    · decide
    obtain ⟨-, hhi⟩ := mem_range'_1.mp hq
    unfold kernPdAreaSize at hpool hhi
    have : kernPdAreaBegin m.archMmuInit.kernelEnd = kernPdAreaBegin m.kernelEnd := rfl
    have : kernPdAreaBegin m.kernelEnd % 4096 = 0 := Nat.mul_mod_left _ _
    omega
  · intro q hq
    rw [mem_singleton.mp hq, hentry 1023 (by decide)]
    rfl
  · intro q hq
    rw [mem_singleton.mp hq, hentry 0 (by decide)]
    unfold bootEntry
    rw [if_neg (by decide), if_pos (by omega)]
    rfl

end Mmu

/-- A machine with the directories that `arch_mmu_init` and `arch_mmu_newAspace` made. -/
structure Spaces where
  mmu : Mmu
  live : List Nat

/-- The calls of a run; `frames` is that the rest of the kernel took or gave back frames. -/
inductive MapOp
  | newAspace
  | mapPage (pd vaddr frame : Nat) (flags : BitVec 12)
  | frames (frames : Frames)

namespace Spaces
open Mmu Paged Lts Option

/-- A call of `arch_mmu_mapPage` is for a page below `0xFFC00000` and a frame, with one of the directories loaded. -/
def exec (s : Spaces) : MapOp → Option Spaces
  | .newAspace => some ((s.mmu.archMmuNewAspace.map fun (pd, m) => ⟨m, pd :: s.live⟩).getD s)
  | .mapPage pd vaddr frame flags =>
    if pd ∈ s.live ∧ vaddr < memoryEnd ∧ frame < 1048576 then
      some { s with mmu := (s.mmu.archMmuMapPage pd vaddr (4096 * frame) flags).getD s.mmu }
    else none
  | .frames frames => some { s with mmu := { s.mmu with frames } }

/-- The call does not go through an entry for 4 MB, does not make one, finds a frame for a new table, and asks for no more than
    the entry of the directory allows. What the rest of the kernel gives back is no directory and no table. -/
def Fits (s : Spaces) : MapOp → Prop
  | .newAspace => True
  | .mapPage pd vaddr _ flags =>
    let pde := s.mmu.entry pd (pageDirectoryIndex vaddr)
    if pde.has pgPresent then
      pde.has pg4MB = false ∧ (flags.getLsbD 2 = true → pde.has pgUser = true) ∧ (flags.getLsbD 1 = true → pde.has pgWrite = true)
    else flags.getLsbD 7 = false ∧ s.mmu.frames.allocGetPage.1 ≠ none
  | .frames frames => frames.Ok ∧ ∀ f, frames.Free f →
      ¬s.mmu.DirPage f ∧ ∀ pd ∈ s.live, ∀ i < 1023, s.mmu.tableOf pd i ≠ some f

structure Mapped (s : Spaces) (pd vaddr frame : Nat) (flags : BitVec 12) (t : Spaces) : Prop where
  done : s.mmu.archMmuMapPage pd vaddr (4096 * frame) flags = some t.mmu
  page : flags.getLsbD 0 = true →
    t.mmu.translate pd vaddr = some ⟨4096 * frame + vaddr % 4096, flags.getLsbD 2, flags.getLsbD 1⟩ ∧
      t.mmu.pte pd (pageDirectoryIndex vaddr) (pageTableIndex vaddr) = some ⟨frame, flags⟩
  writes : ∀ a, t.mmu.mem a ≠ s.mmu.mem a →
    a / 4096 = pd ∧ a % 4096 / 4 = pageDirectoryIndex vaddr ∨
    ∃ table, t.mmu.tableOf pd (pageDirectoryIndex vaddr) = some table ∧ a / 4096 = table ∧
      (a % 4096 / 4 = pageTableIndex vaddr ∨
        (s.mmu.entry pd (pageDirectoryIndex vaddr)).has pgPresent = false ∧ s.mmu.frames.Free table)
  others : ∀ q ∈ s.live, ∀ w < 4294967296, Elsewhere pd vaddr q w → t.mmu.translate q w = s.mmu.translate q w

/-- What is shown of every call of a run. -/
def Local (s : Spaces) (op : MapOp) (t : Spaces) : Prop :=
  ∀ pd vaddr frame flags, op = .mapPage pd vaddr frame flags → Mapped s pd vaddr frame flags t

variable {s t : Spaces} {op : MapOp} {pd vaddr frame : Nat} {flags : BitVec 12}

theorem entered_of_fits (h : Tabled s.mmu s.live) (hpd : pd ∈ s.live) (hv : vaddr < memoryEnd) (hf : frame < 1048576)
    (hfits : s.Fits (.mapPage pd vaddr frame flags)) :
    ∃ table m', s.mmu.archMmuMapPage pd vaddr (4096 * frame) flags = some m' ∧
      Entered s.mmu s.live pd (pageDirectoryIndex vaddr) (pageTableIndex vaddr) table ⟨frame, flags⟩ flags m' := by
  have hi := pageDirectoryIndex_user hv
  unfold Fits at hfits
  dsimp only at hfits
  split at hfits
  next hp => exact ⟨_, h.mapPage_old hpd hi hf (tableOf_eq_some.mpr ⟨hp, hfits.1, rfl⟩)⟩
  next hp => exact h.mapPage_new hpd hi hf (by simpa using hp) (by rw [Entry.has_4MB]; exact hfits.1) hfits.2

theorem rights_of_fits {table : Nat} {m' : Mmu} (hfits : s.Fits (.mapPage pd vaddr frame flags))
    (he : Entered s.mmu s.live pd (pageDirectoryIndex vaddr) (pageTableIndex vaddr) table ⟨frame, flags⟩ flags m') :
    ((m'.entry pd (pageDirectoryIndex vaddr)).has pgUser && flags.getLsbD 2) = flags.getLsbD 2 ∧
      ((m'.entry pd (pageDirectoryIndex vaddr)).has pgWrite && flags.getLsbD 1) = flags.getLsbD 1 := by
  rcases he.cases with ⟨hpde, -⟩ | ⟨-, -, hpde, -⟩
  · have hp := (tableOf_eq_some.mp he.table).1
    rw [hpde] at hp
    unfold Fits at hfits
    dsimp only at hfits
    rw [if_pos hp] at hfits
    obtain ⟨-, huser, hwrite⟩ := hfits
    rw [hpde]
    constructor
    · cases hflag : flags.getLsbD 2 with
      | false => exact Bool.and_false _
      | true => rw [huser hflag, Bool.and_true]
    · cases hflag : flags.getLsbD 1 with
      | false => exact Bool.and_false _
      | true => rw [hwrite hflag, Bool.and_true]
  · rw [hpde, Entry.has_user, Entry.has_write]
    simp only [BitVec.getLsbD_or]
    constructor
    · cases flags.getLsbD 2 <;> rfl
    · cases flags.getLsbD 1 <;> rfl

theorem mapped_of_fits (h : Tabled s.mmu s.live) (hpd : pd ∈ s.live) (hv : vaddr < memoryEnd) (hf : frame < 1048576)
    (hfits : s.Fits (.mapPage pd vaddr frame flags)) (hexec : s.exec (.mapPage pd vaddr frame flags) = some t) :
    Mapped s pd vaddr frame flags t ∧ Tabled t.mmu t.live := by
  obtain ⟨table, m', hm', he⟩ := entered_of_fits h hpd hv hf hfits
  have hi := pageDirectoryIndex_user hv
  obtain rfl : { s with mmu := m' } = t := by
    unfold exec at hexec
    dsimp only at hexec
    rw [if_pos ⟨hpd, hv, hf⟩, hm'] at hexec
    exact some.inj hexec
  refine ⟨⟨hm', fun hp => ?_, fun a ha => ?_,
    fun q hq w hw helse => he.translate_of_elsewhere h hpd hv hq hw helse⟩, he.tabled h hi⟩
  · have hpresent : (⟨frame, flags⟩ : Entry).has pgPresent := by rw [Entry.has_present]; exact hp
    obtain ⟨huser, hwrite⟩ := rights_of_fits hfits he
    obtain ⟨hpde, -, hframe⟩ := tableOf_eq_some.mp he.table
    refine ⟨?_, pte_eq_some.mpr ⟨hpde, ?_, ?_⟩⟩
    · dsimp only
      rw [he.translate_self hpresent, Entry.has_user ⟨frame, flags⟩, Entry.has_write ⟨frame, flags⟩, huser, hwrite]
    · rw [hframe, he.entry]
      exact hpresent
    · rw [hframe, he.entry]
  · rcases he.mem a ha with hdir | ⟨htable, hentry | habsent⟩
    · exact .inl hdir
    · exact .inr ⟨table, he.table, htable, .inl hentry⟩
    · rcases he.cases with ⟨hpde, -⟩ | ⟨-, hmarked, -⟩
      · rw [← hpde, (tableOf_eq_some.mp he.table).1] at habsent
        cases habsent
      · exact .inr ⟨table, he.table, htable, .inr ⟨habsent, hmarked.free⟩⟩

theorem tabled_frames {frames : Frames} (h : Tabled s.mmu s.live) (hfits : s.Fits (.frames frames)) :
    Tabled { s.mmu with frames } s.live :=
  ⟨hfits.1, h.kernel, h.dir, h.low, fun pd hpd hfree => (hfits.2 pd hfree).1 hpd, h.self, h.used,
    fun pd hpd i hi t ht => ⟨(h.table pd hpd i hi t ht).1, fun hfree => (hfits.2 t hfree).2 pd hpd i hi ht⟩, h.index⟩

theorem step_of_fits (h : Tabled s.mmu s.live) (hexec : s.exec op = some t) (hfits : s.Fits op) :
    s.Local op t ∧ Tabled t.mmu t.live := by
  cases op with
  | newAspace =>
    refine ⟨nofun, ?_⟩
    cases hnew : s.mmu.archMmuNewAspace with
    | none =>
      unfold exec at hexec
      rw [hnew] at hexec
      cases hexec
      exact h
    | some r =>
      unfold exec at hexec
      rw [hnew] at hexec
      cases hexec
      exact h.newAspace hnew
  | mapPage pd vaddr frame flags =>
    have hdom : pd ∈ s.live ∧ vaddr < memoryEnd ∧ frame < 1048576 := by
      by_contra hno
      unfold exec at hexec
      dsimp only at hexec
      rw [if_neg hno] at hexec
      cases hexec
    obtain ⟨hmapped, htabled⟩ := mapped_of_fits h hdom.1 hdom.2.1 hdom.2.2 hfits hexec
    refine ⟨fun _ _ _ _ heq => ?_, htabled⟩
    cases heq
    exact hmapped
  | frames frames =>
    cases hexec
    exact ⟨nofun, tabled_frames h hfits⟩

/-- In every run from `arch_mmu_init` on whose calls fit, each call of `arch_mmu_mapPage` maps its page and touches nothing else. -/
theorem map_local {m : Mmu} {ops : List MapOp} (hok : m.frames.Ok) (hk : kernelPg ∉ m.pool)
    (hpool : kernPdAreaBegin m.kernelEnd + kernPdAreaSize ≤ 4294967296) (hkeep : ∀ pd, m.DirPage pd → ¬m.frames.Free pd)
    (hfits : Along exec (fun s op _ => s.Fits op) ⟨m.archMmuInit, [kernelPg]⟩ ops) :
    Along exec Local ⟨m.archMmuInit, [kernelPg]⟩ ops := by
  refine Along.mono (P := fun s op t => s.Fits op ∧ s.Local op t) (fun _ hstep => hstep.2) ?_
  refine (along_iff (fun s => Tabled s.mmu s.live) (.boot hok hk hpool hkeep) ?_ ?_ ops).mpr hfits
  · intro s op t hs hexec
    exact ⟨And.left, fun hfit => ⟨hfit, (step_of_fits hs hexec hfit).1⟩⟩
  · intro s op t hs hexec hfit
    exact (step_of_fits hs hexec hfit).2

instance : Decidable (s.Fits (.mapPage pd vaddr frame flags)) := by
  unfold Fits
  infer_instance

theorem exec_mapPage (hdom : pd ∈ s.live ∧ vaddr < memoryEnd ∧ frame < 1048576)
    (hself : s.mmu.entry pd 1023 = selfEntry pd)
    (htable : (s.mmu.entry pd (pageDirectoryIndex vaddr)).has pgPresent = false →
      ∃ t < 1048576, s.mmu.allocUnchecked.1 = 4096 * t ∧ t ≠ pd) :
    s.exec (.mapPage pd vaddr frame flags) = some { s with mmu := s.mmu.addPageToPd pd vaddr (4096 * frame) flags } := by
  unfold exec
  dsimp only
  rw [if_pos hdom, archMmuMapPage_eq hself (pageDirectoryIndex_user hdom.2.1) htable]
  rfl

/-- Two pages of the kernel, the second through a new directory, and one of a process. -/
theorem map_local_small : Along exec Local ⟨small.archMmuInit, [kernelPg]⟩
    [.mapPage kernelPg 0xF0000000 777 3, .newAspace, .mapPage 514 0xF0001000 778 3, .mapPage 514 0x40000000 779 7] := by
  have heval : ((small.archMmuInit.addPageToPd kernelPg 0xF0000000 (4096 * 777) 3).archMmuNewAspace.any fun (pd, m) =>
      pd = 514 ∧ m.entry pd 1023 = selfEntry pd ∧ (m.entry pd (pageDirectoryIndex 0xF0001000)).has pgPresent = true ∧
        Fits ⟨m, [pd, kernelPg]⟩ (.mapPage pd 0xF0001000 778 3) ∧
        Fits ⟨m.addPageToPd pd 0xF0001000 (4096 * 778) 3, [pd, kernelPg]⟩ (.mapPage pd 0x40000000 779 7)) = true := by
    decide +kernel
  obtain ⟨⟨pd, m⟩, hnew, heval⟩ := (any_eq_true _ _).mp heval
  obtain ⟨rfl, hself, hp, hfits, hfits'⟩ := of_decide_eq_true heval
  refine map_local ⟨rfl, rfl, by decide, by decide⟩ (by decide) (by decide) small_keeps fun t ht => ⟨?_, ?_⟩
  · show Fits _ _
    decide +kernel
  cases (exec_mapPage (by decide) (by decide +kernel) fun _ => ⟨776, by decide, by decide +kernel, by decide⟩).symm.trans ht
  intro t ht
  have hfork : exec ⟨small.archMmuInit.addPageToPd kernelPg 0xF0000000 (4096 * 777) 3, [kernelPg]⟩ .newAspace =
      some ⟨m, [514, kernelPg]⟩ := by
    unfold exec
    rw [hnew]
    rfl
  cases hfork.symm.trans ht
  refine ⟨trivial, fun t ht => ⟨hfits, ?_⟩⟩
  cases (exec_mapPage (by simp [memoryEnd]) hself (by rw [hp]; nofun)).symm.trans ht
  exact fun _ _ => ⟨hfits', trivial⟩

/-- The first 16 MB are mapped by entries for 4 MB: a page there cannot be mapped elsewhere, and the call writes its entry to
    the address `0x800`, in the first page of memory. -/
theorem map_local_fails : ∃ t, exec ⟨small.archMmuInit, [kernelPg]⟩ (.mapPage kernelPg 0x200000 0x300 3) = some t ∧
    ¬Local ⟨small.archMmuInit, [kernelPg]⟩ (.mapPage kernelPg 0x200000 0x300 3) t ∧
    (t.mmu.translate kernelPg 0x200000).map Access.phys = some 0x200000 ∧ t.mmu.mem 0x800 ≠ small.archMmuInit.mem 0x800 := by
  have heval : ((exec ⟨small.archMmuInit, [kernelPg]⟩ (.mapPage kernelPg 0x200000 0x300 3)).map fun t =>
      decide ((t.mmu.translate kernelPg 0x200000).map Access.phys = some 0x200000 ∧
        t.mmu.mem 0x800 ≠ small.archMmuInit.mem 0x800)) = some true := by decide +kernel
  obtain ⟨t, hexec, hdecide⟩ := Option.map_eq_some_iff.mp heval
  obtain ⟨htranslate, hmem⟩ := of_decide_eq_true hdecide
  refine ⟨t, hexec, fun hlocal => ?_, htranslate, hmem⟩
  have hpage := ((hlocal _ _ _ _ rfl).page (by decide)).1
  rw [hpage] at htranslate
  cases htranslate

end Spaces
end HelinKern
