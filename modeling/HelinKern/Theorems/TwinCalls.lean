import HelinKern.Theorems.CopyOnWrite
import HelinKern.Theorems.Twin
import Mathlib.Data.List.Find

/-! What making, copying and destroying an address space, stores and the search for free pages do to two machines whose
    memories differ in data only. -/

namespace HelinKern
variable {v v' : BitVec 8} {parent : Option Nat}

namespace Mmu
open Paged FrameEvent Function List Option

variable {role : Nat → Role} {clean : Nat → Prop} {live : List Nat} {m m' m₁ m₁' m₂ m₂' : Mmu}
  {pd q t f i j vaddr : Nat} {e : Entry}

/-! ### New directories -/

variable {c : Nat}

theorem NewAspace.plain (hn : NewAspace m live c m₁) (hinv : Inv role m live) (hc : role c = .dir)
    (h : m.Plain live) : m₁.Plain (c :: live) := by
  constructor
  · intro q hq i hi
    rcases mem_cons.mp hq with rfl | hq
    · exact .inl (hn.low i hi.1 hi.2)
    · rw [hn.entry_eq (hn.ne hq) hi.user.lt]
      exact h.table q hq i hi
  · intro q hq i j hi hj e he
    rcases mem_cons.mp hq with rfl | hq
    · obtain ⟨hp, -⟩ := pte_eq_some.mp he
      rw [hn.low i hi.1 hi.2] at hp
      cases hp
    · rw [hn.pte_eq hinv hc hq hi.user hj] at he
      exact h.page q hq i j hi hj e he

theorem Twin.newAspace (h : Twin clean live m m') (hinv : Inv role m live)
    (hnew : m.archMmuNewAspace = some (c, m₁)) :
    ∃ m₁', m'.archMmuNewAspace = some (c, m₁') ∧ Twin clean (c :: live) m₁ m₁' := by
  obtain ⟨-, hn⟩ := hinv.newAspace hnew
  obtain ⟨c', hfind, heq⟩ := map_eq_some_iff.mp hnew
  cases heq
  have hfind' : m'.pool.find? (fun pd => word m'.mem pd 0 = 0) = some c := by
    have hpool : m'.pool = m.pool := by
      unfold pool
      rw [h.kernelEnd]
    rw [← hfind, hpool]
    refine find?_congr fun pd hpd => ?_
    rw [word_congr (by decide) fun a ha => h.mem a (.inr (ha ▸ .inl hpd))]
  have hentries : ∀ i < 1024, m'.newEntry c i = m.newEntry c i := by
    intro i hi
    unfold newEntry
    rw [h.entry (.dir hinv.dirs.kernel) hi]
  refine ⟨{ m' with mem := fill m'.mem c fun i => (m'.newEntry c i).toWord }, ?_,
    h.change (fun _ => False) h.frames h.kernelEnd h.log ?_ ?_⟩
  · unfold archMmuNewAspace
    rw [hfind']
    rfl
  · rintro a (ha | ha)
    · dsimp only
      exact fill_congr (fun _ => ha) fun i hi => by rw [hentries i hi]
    · cases ha
  · rintro g (hg | hg | ⟨q, hq, i, hi, hp, rfl⟩)
    · exact .inl (.inl hg)
    · rcases mem_cons.mp hg with rfl | hg
      · exact .inl (.inl (mem_of_find?_eq_some hfind))
      · exact .inl (.dir hg)
    · by_cases hqc : q = c
      · subst hqc
        -- below 960 the directory is empty, from there on it has the tables of the kernel
        rcases Nat.lt_or_ge i 960 with hlt | hge
        · rw [hn.low i hi.1 hlt] at hp
          cases hp
        · rw [hn.high i hge hi.2] at hp ⊢
          exact .inl (.table hinv.dirs.kernel hi ((Entry.present_disowned _).symm.trans hp))
      · rw [hn.entry_eq hqc hi.lt] at hp ⊢
        exact .inl (.table ((mem_cons.mp hq).resolve_left hqc) hi hp)

/-! ### `arch_mmu_duplicate` -/

section Duplicate
variable {parent child : Nat}

theorem Twin.duplicatePage (h : Twin clean live m m') (hinv : Inv role m live) (hplain : m.Plain live)
    (hparent : parent ∈ live) (hchild : child ∈ live) (hne : parent ≠ child) (hk : child ≠ kernelPg) (hi : User i)
    (hj : j < 1024) (hp : (m.entry parent i).has pgPresent)
    (hlog : .missing ∉ (duplicatePage parent child i m j).log) :
    Moved clean live child m (duplicatePage parent child i m j) (duplicatePage parent child i m' j) := by
  have ht := hinv.table_not_live hparent hi hp
  have hdir' := h.entry (.dir hparent) hi.lt
  have hentry' : m'.entry (m.entry parent i).frame j = m.entry (m.entry parent i).frame j := h.entry (.table hparent hi hp) hj
  rcases hinv.duplicatePage hparent hchild hne hk hi hj hp rfl hlog with ⟨hpe, heq⟩ | ⟨hpe, role', hinv', hdup⟩
  · have heq' : Mmu.duplicatePage parent child i m' j = m' := by
      unfold Mmu.duplicatePage
      rw [present_eq, hdir', hentry', if_neg (by rw [hpe]; nofun)]
    rw [heq, heq']
    exact ⟨h, .refl ..⟩
  · have hback : ∀ q ∈ live, q ≠ child → ∀ i' j', Low i' → j' < 1024 →
        (Mmu.duplicatePage parent child i m j).backing q i' j' = m.backing q i' j' := by
      intro q hq hqc i' j' hi' hj'
      rw [hdup.back q hq i' j' hi'.user hj', if_neg]
      rintro ⟨hpq, hframe, -⟩
      exact hqc (hinv'.low_table hchild hq hi hi' hdup.present hpq hframe).1
    have hlt := m.entry_frame_lt (m.entry parent i).frame j
    have hidx := pageDirectoryIndex_virtual hi hj
    have htdx := pageTableIndex_virtual (i := i) hj
    unfold Mmu.duplicatePage at hlog hback ⊢
    rw [present_eq m', hdir', hentry', if_pos hpe]
    rw [present_eq, if_pos hpe] at hlog hback ⊢
    cases ho : (m.entry (m.entry parent i).frame j).has pgOwned with
    | true =>
      rw [ho] at hlog hback
      rw [if_pos rfl]
      have hlog₁ := (addPageToPd_grows ..).not_missing hlog
      have hgrown := h.grown_addPage hinv hchild hk (by rw [hidx]; exact hi) hlt (by decide) (fun _ => by decide) hlog₁
      generalize m.addPageToPd child (getVirtualAddress i j) _ _ = m₁ at hgrown hback ⊢
      generalize m'.addPageToPd child (getVirtualAddress i j) _ _ = m₁' at hgrown ⊢
      have hdir := hgrown.steady.dir parent hparent hne i hi.lt
      have hdir₁ : m₁'.entry parent i = m.entry parent i := (hgrown.twin.entry (.dir hparent) hi.lt).trans hdir
      rw [addPageToPd_page, hidx, htdx, addTable_of_present (by rw [hdir]; exact hp), hdir] at hback ⊢
      rw [addPageToPd_page, hidx, htdx, addTable_of_present (by rw [hdir₁]; exact hp), hdir₁]
      refine ⟨hgrown.twin.setEntry (.inl ht) hj, fun hm => ?_, fun q hq hqc i' hi' => ?_, hback⟩
      · exact (hgrown.steady.plain hm).setEntry ht hj hlt fun _ _ _ _ _ _ _ =>
          ⟨cowEntry_owned _, Entry.has_of_flags _ (by decide)⟩
      · have hqt : q ≠ (m.entry parent i).frame := fun heq => ht (heq ▸ hq)
        rw [entry_setEntry_of_ne hj hi' fun hsame => hqt hsame.1]
        exact hgrown.steady.dir q hq hqc i' hi'
    | false =>
      rw [ho] at hlog
      have hsmall := (hinv.pages.page _ i j (hinv.dirs.active hparent hi hp) hj hpe).small
      rw [Entry.has_4MB] at hsmall
      refine (h.grown_addPage hinv hchild hk (by rw [hidx]; exact hi) hlt hsmall (fun hlow => ?_) hlog).toMoved
      rw [hidx] at hlow
      rw [(hplain.page parent hparent i j hlow hj _ (pte_eq_some.mpr ⟨hp, hpe, rfl⟩)).1] at ho
      cases ho

structure DupTwin (clean : Nat → Prop) (live : List Nat) (child : Nat) (m₀ m m' : Mmu) : Prop
    extends Moved clean live child m₀ m m' where
  inv : ∃ role, Inv role m live

section
variable (h : DupTwin clean live child m₂ m m') (hplain : m₂.Plain live) (hparent : parent ∈ live) (hchild : child ∈ live)
  (hne : parent ≠ child) (hk : child ≠ kernelPg) (hi : User i)
include h hplain hparent hchild hne hk hi

theorem DupTwin.page (hj : j < 1024)
    (hp : (m.entry parent i).has pgPresent) (hlog : .missing ∉ (duplicatePage parent child i m j).log) :
    DupTwin clean live child m₂ (duplicatePage parent child i m j) (duplicatePage parent child i m' j) := by
  obtain ⟨role, hinv⟩ := h.inv
  have hmoved := h.twin.duplicatePage hinv (h.steady.plain hplain) hparent hchild hne hk hi hj hp hlog
  refine ⟨⟨hmoved.twin, h.steady.trans hmoved.steady⟩, ?_⟩
  rcases hinv.duplicatePage hparent hchild hne hk hi hj hp rfl hlog with ⟨-, heq⟩ | ⟨-, role', hinv', -⟩
  · rw [heq]
    exact ⟨role, hinv⟩
  · exact ⟨role', hinv'⟩

theorem DupTwin.table (hlog : .missing ∉ (duplicateTable parent child m i).log) :
    DupTwin clean live child m₂ (duplicateTable parent child m i) (duplicateTable parent child m' i) := by
  have hdir' := h.twin.entry (.dir hparent) hi.lt
  unfold duplicateTable at hlog ⊢
  rw [present_eq, loop_eq_foldl] at hlog ⊢
  rw [present_eq m', hdir', loop_eq_foldl]
  split at hlog
  next hp =>
    rw [if_pos hp, if_pos hp]
    refine Loop.foldl_range_rel
      (fun _ m₁ m₁' => .missing ∉ m₁.log → DupTwin clean live child m₂ m₁ m₁') (fun _ => h) ?_ hlog
    intro j m₁ m₁' hj ih hlog'
    have h' := ih ((duplicatePage_grows ..).not_missing hlog')
    refine h'.page hplain hparent hchild hne hk hi hj ?_ hlog'
    rw [h'.steady.dir parent hparent hne i hi.lt, ← h.steady.dir parent hparent hne i hi.lt]
    exact hp
  · rw [if_neg (by assumption), if_neg (by assumption)]
    exact h

end

theorem Twin.duplicate (h : Twin clean live m m') (hinv : Inv role m live) (hplain : m.Plain live) (hparent : parent ∈ live)
    (hchild : child ∈ live) (hne : parent ≠ child) (hk : child ≠ kernelPg)
    (hlog : .missing ∉ (m.archMmuDuplicate parent child).log) :
    Moved clean live child m (m.archMmuDuplicate parent child) (m'.archMmuDuplicate parent child) := by
  unfold archMmuDuplicate at hlog ⊢
  rw [loop_eq_foldl] at hlog
  rw [loop_eq_foldl, loop_eq_foldl]
  have hloop := Loop.foldl_range'_rel (n := 767) (f := duplicateTable parent child)
    (fun _ m₁ m₁' => .missing ∉ m₁.log → DupTwin clean live child m m₁ m₁')
    (fun _ => ⟨⟨h, .refl ..⟩, role, hinv⟩) fun i m₁ m₁' hlo hhi ih hlog' =>
      (ih ((duplicateTable_grows ..).not_missing hlog')).table hplain hparent hchild hne hk ⟨hlo, by omega⟩ hlog'
  exact (hloop hlog).toMoved

end Duplicate

/-! ### `arch_mmu_destroyAspace` -/

section Destroy
variable {all : Bool}

structure DestroyTwin (clean : Nat → Prop) (live : List Nat) (pd : Nat) (all : Bool) (m₀ m m' : Mmu) : Prop
    extends Moved clean live pd m₀ m m' where
  inv : ∃ role, DestroyInv m₀ live pd all role m

theorem setEntry_freePage (m : Mmu) (f t j : Nat) (e : Entry) :
    (m.freePage f).setEntry t j e = (m.setEntry t j e).freePage f := rfl

section
variable (h : DestroyTwin clean live pd all m₂ m m') (hpd : pd ∈ live) (hi : User i) (hto : i < 576)
include h hpd hi hto

theorem DestroyTwin.page (hj : j < 1024) (hp : (m.entry pd i).has pgPresent) :
    DestroyTwin clean live pd all m₂ (destroyPage pd all i m j) (destroyPage pd all i m' j) := by
  obtain ⟨role, hinv⟩ := h.inv
  have ht := hinv.inv.table_not_live hpd hi hp
  refine ⟨?_, (hinv.page hpd hi hto hj hp).2⟩
  unfold destroyPage
  dsimp only
  rw [present_eq, present_eq, h.twin.entry (.dir hpd) hi.lt, h.twin.entry (.table hpd hi hp) hj]
  split
  · rw [setEntry_freePage]
    have hsteady := hinv.inv.steady_setEntry hpd hi hp hj (e := .empty) (by decide) fun _ hpe => by cases hpe
    exact ⟨(h.twin.setEntry (.inl ht) hj).freePage _, (h.steady.trans hsteady).trans (.of_mem rfl)⟩
  · exact h.toMoved

theorem DestroyTwin.pages {n : Nat} (hn : n ≤ 1024) (hp : (m.entry pd i).has pgPresent) :
    DestroyTwin clean live pd all m₂ ((List.range n).foldl (destroyPage pd all i) m)
      ((List.range n).foldl (destroyPage pd all i) m') := by
  refine (Loop.foldl_range_rel
    (fun _ m₁ m₁' => m₁.entry pd i = m.entry pd i ∧ DestroyTwin clean live pd all m₂ m₁ m₁') ⟨rfl, h⟩ ?_).2
  rintro j m₁ m₁' hj ⟨hdir, h'⟩
  obtain ⟨role', hinv'⟩ := h'.inv
  have hj : j < 1024 := Nat.lt_of_lt_of_le hj hn
  have hp' : (m₁.entry pd i).has pgPresent := by rw [hdir]; exact hp
  exact ⟨(hinv'.page hpd hi hto hj hp').1.trans hdir, h'.page hpd hi hto hj hp'⟩

end

theorem Inv.steady_clear (hinv : Inv role m live) (hpd : pd ∈ live) (hi : User i) :
    Steady live pd m (m.setEntry pd i .empty) := by
  have hentry : ∀ p j, j < 1024 → ¬(p = pd ∧ j = i) → (m.setEntry pd i .empty).entry p j = m.entry p j :=
    fun p j hj hne => entry_setEntry_of_ne hi.lt hj hne
  have htable : ∀ q ∈ live, ∀ i' j, User i' → j < 1024 → (m.entry q i').has pgPresent →
      (m.setEntry pd i .empty).entry (m.entry q i').frame j = m.entry (m.entry q i').frame j :=
    fun q hq i' j hi' hj hp => hentry _ j hj fun hsame => hinv.table_not_live hq hi' hp (hsame.1 ▸ hpd)
  refine ⟨fun hm => ⟨?_, ?_⟩, fun q _ hne i' hi' => hentry q i' hi' fun h => hne h.1, ?_⟩
  · intro q hq i' hi'
    by_cases hsame : q = pd ∧ i' = i
    · obtain ⟨rfl, rfl⟩ := hsame
      exact .inl (entry_setEntry_self (by decide))
    · rw [hentry q i' hi'.user.lt hsame]
      exact hm.table q hq i' hi'
  · intro q hq i' j hi' hj e hpte
    obtain ⟨hp, hpe, rfl⟩ := pte_eq_some.mp hpte
    have hsame : ¬(q = pd ∧ i' = i) := by
      rintro ⟨rfl, rfl⟩
      rw [entry_setEntry_self (by decide)] at hp
      cases hp
    rw [hentry q i' hi'.user.lt hsame] at hp hpe ⊢
    rw [htable q hq i' j hi'.user hj hp] at hpe ⊢
    exact hm.page q hq i' j hi' hj _ (pte_eq_some.mpr ⟨hp, hpe, rfl⟩)
  · intro q hq hne i' j hi' hj
    unfold backing
    rw [pte_congr (hentry q i' hi'.user.lt fun h => hne h.1) fun hp => htable q hq i' j hi'.user hj hp]

theorem DestroyTwin.table (h : DestroyTwin clean live pd all m₂ m m') (hpd : pd ∈ live) (hi : User i) (hto : i < 576) :
    DestroyTwin clean live pd all m₂ (destroyTable pd all m i) (destroyTable pd all m' i) := by
  obtain ⟨role, hinv⟩ := h.inv
  refine ⟨?_, hinv.table hpd hi hto⟩
  unfold destroyTable
  rw [present_eq, present_eq, loop_eq_foldl, loop_eq_foldl, h.twin.entry (.dir hpd) hi.lt]
  split
  next hp =>
    have h₁ := h.pages hpd hi hto (Nat.le_refl 1024) hp
    obtain ⟨role', hinv'⟩ := h₁.inv
    dsimp only
    rw [h₁.twin.entry (.dir hpd) hi.lt]
    split
    · rw [setEntry_freePage, setEntry_freePage]
      exact ⟨(h₁.twin.setEntry (.inr rfl) hi.lt).freePage _,
        (h₁.steady.trans (hinv'.inv.steady_clear hpd hi)).trans (.of_mem rfl)⟩
    · exact h₁.toMoved
  · exact h.toMoved

theorem Twin.destroy (h : Twin clean live m m') (hinv : Inv role m live) (hpd : pd ∈ live)
    (hex : Exclusive role m live pd all) :
    DestroyTwin clean live pd all m (m.archMmuDestroyAspace pd all) (m'.archMmuDestroyAspace pd all) := by
  have hstart : DestroyInv m live pd all role m := by
    refine ⟨hinv, hex, .refl m, ?_⟩
    rintro f ⟨recent, hrecent, hmem⟩
    rw [self_eq_append_left.mp hrecent] at hmem
    cases hmem
  unfold archMmuDestroyAspace
  rw [loop_eq_foldl, loop_eq_foldl]
  refine Loop.foldl_range'_rel
    (fun _ m₁ m₁' => DestroyTwin clean live pd all m m₁ m₁') ⟨⟨h, .refl ..⟩, role, hstart⟩ ?_
  intro i m₁ m₁' hlo hhi ih
  have hto : i < 576 := hhi
  exact ih.table hpd ⟨hlo, by omega⟩ hto

end Destroy

theorem Twin.translate (h : Twin clean live m m') (hpd : pd ∈ live) (hi : User (pageDirectoryIndex vaddr)) :
    m'.translate pd vaddr = m.translate pd vaddr := by
  have hj := pageTableIndex_lt vaddr
  unfold Mmu.translate
  dsimp only
  rw [h.entry (.dir hpd) hi.lt]
  cases hp : (m.entry pd (pageDirectoryIndex vaddr)).has pgPresent with
  | false => rfl
  | true => rw [h.entry (.table hpd hi hp) hj]

def Agrees (m m' : Mmu) (pd vaddr : Nat) : Prop :=
  ∀ e, m.pte pd (pageDirectoryIndex vaddr) (pageTableIndex vaddr) = some e →
    m'.mem (4096 * e.frame + vaddr % 4096) = m.mem (4096 * e.frame + vaddr % 4096)

theorem Moved.agrees (h : Moved (fun a => m'.mem a = m.mem a) live pd m m₁ m₁') (hq : q ∈ live) (hne : q ≠ pd)
    (hi : Low (pageDirectoryIndex vaddr)) (hagree : Agrees m m' q vaddr) : Agrees m₁ m₁' q vaddr := by
  intro e he
  have hback := h.steady.back q hq hne _ (pageTableIndex vaddr) hi (Nat.mod_lt _ (by decide))
  unfold backing at hback
  rw [he] at hback
  obtain ⟨e', he', heq⟩ := map_eq_some_iff.mp hback.symm
  rw [← show e'.frame = e.frame from congrArg Prod.fst heq]
  exact h.twin.mem _ (.inl (hagree e' he'))

theorem Grown.agrees_iff (h : Grown clean live pd m m' m₁ m₁') (hinv : Inv role m₁ live) (hq : q ∈ live)
    (hi : User (pageDirectoryIndex vaddr)) :
    Agrees m₁ m₁' q vaddr ↔ ∀ e, m₁.pte q (pageDirectoryIndex vaddr) (pageTableIndex vaddr) = some e →
      m'.mem (4096 * e.frame + vaddr % 4096) = m.mem (4096 * e.frame + vaddr % 4096) := by
  refine forall_congr' fun e => forall_congr' fun he => ?_
  have hdata := hinv.not_structural hq hi (Nat.mod_lt _ (by decide)) he
  obtain ⟨hleft, hright⟩ := h.calm.same (4096 * e.frame + vaddr % 4096) (by
    rwa [show (4096 * e.frame + vaddr % 4096) / 4096 = e.frame by omega])
  rw [hleft, hright]

theorem Twin.write (h : Twin clean live m m') (hinv : Inv role m live) (hpd : pd ∈ live) (hi : User i) (hj : j < 1024)
    (he : m.pte pd i j = some e) {o : Nat} (ho : o < 4096) (v v' : BitVec 8) :
    Twin (fun a => clean a ∧ a ≠ 4096 * e.frame + o) live { m with mem := update m.mem (4096 * e.frame + o) v }
      { m' with mem := update m'.mem (4096 * e.frame + o) v' } := by
  have hdata := hinv.not_structural hpd hi hj he
  have hne : ∀ a, m.Structural live (a / 4096) → a ≠ 4096 * e.frame + o := by
    rintro a ha rfl
    rw [show (4096 * e.frame + o) / 4096 = e.frame by omega] at ha
    exact hdata ha
  refine ⟨h.frames, h.kernelEnd, h.log, ?_⟩
  rintro a (⟨ha, hao⟩ | ha)
  · exact (update_of_ne hao _ _).trans ((h.mem a (.inl ha)).trans (update_of_ne hao _ _).symm)
  have hs : m.Structural live (a / 4096) := ha.of_entries rfl fun q hq i' hi' _ => entry_congr hi'.lt fun b hb =>
    update_of_ne (hne b (hb ▸ .dir hq)) _ _
  exact (update_of_ne (hne a hs) _ _).trans
    ((h.mem a (.inr hs)).trans (update_of_ne (hne a hs) _ _).symm)

structure Stored (live : List Nat) (pd vaddr : Nat) (m m' m₁ m₁' : Mmu) : Prop where
  twin : Twin (fun _ => False) live m₁ m₁'
  plain : m₁.Plain live
  agrees : ∀ q ∈ live, ∀ w, Low (pageDirectoryIndex w) → w < memoryEnd → ¬(q = pd ∧ w = vaddr) → Agrees m m' q w →
    Agrees m₁ m₁' q w

theorem Inv.own_byte {w : Nat} {e' : Entry} (hinv : Inv role m live) (hplain : m.Plain live) (hpd : pd ∈ live) (hq : q ∈ live)
    (hi : User (pageDirectoryIndex vaddr)) (hiw : Low (pageDirectoryIndex w)) (hhi : vaddr < memoryEnd) (hw : w < memoryEnd)
    (he : m.pte pd (pageDirectoryIndex vaddr) (pageTableIndex vaddr) = some e)
    (he' : m.pte q (pageDirectoryIndex w) (pageTableIndex w) = some e') (hwrite : e.has pgWrite)
    (hframe : e'.frame = e.frame) (hoff : w % 4096 = vaddr % 4096) : q = pd ∧ w = vaddr := by
  have hj := pageTableIndex_lt vaddr
  have hjw := pageTableIndex_lt w
  have hrole' := (hinv.pte_ok hq hiw.user hjw he').owned (hplain.page q hq _ _ hiw hjw e' he').1
  have hok := hinv.pte_ok hpd hi hj he
  cases ho : e.has pgOwned with
  | false =>
    have hrole := (hok.other ho).1
    rw [← hframe, hrole'] at hrole
    cases hrole
  | true =>
    have hrole := hok.owned ho
    rw [← hframe, hrole'] at hrole
    obtain ⟨hidx, htdx⟩ := Role.page.inj hrole
    have hvaddr : w = vaddr := by
      unfold pageDirectoryIndex at hidx
      unfold pageTableIndex at htdx
      unfold memoryEnd at hhi hw
      omega
    subst hvaddr
    obtain ⟨hp', htable⟩ := hinv.pte_alone hpd hq hi hj he he' ho hwrite hframe
    exact ⟨(hinv.low_table hpd hq hi hiw (pte_eq_some.mp he).1 hp' htable).1, rfl⟩

theorem Twin.userWrite (h : Twin clean live m m') (hinv : Inv role m live) (hplain : m.Plain live) (hpd : pd ∈ live)
    (hi : User (pageDirectoryIndex vaddr)) (hhi : vaddr < memoryEnd) (hwrite : m.userWrite pd vaddr v = some m₁)
    (hwrite' : m'.userWrite pd vaddr v' = some m₁') :
    Stored live pd vaddr m m' m₁ m₁' := by
  have hj := pageTableIndex_lt vaddr
  obtain ⟨a, ha, hw, rfl⟩ := Cow.userWrite_eq_some hwrite
  obtain ⟨a', ha', -, rfl⟩ := Cow.userWrite_eq_some hwrite'
  rw [h.translate hpd hi, ha] at ha'
  cases ha'
  rw [Cow.translate_user hinv hpd hi] at ha
  obtain ⟨e, he, rfl⟩ := map_eq_some_iff.mp ha
  rw [Bool.and_eq_true] at hw
  have htwin := h.agree.write hinv hpd hi hj he (o := vaddr % 4096) (Nat.mod_lt _ (by decide)) v v'
  have hdata := hinv.not_structural hpd hi hj he
  have hentry : ∀ p, m.Structural live p → ∀ j < 1024,
      { m with mem := update m.mem (4096 * e.frame + vaddr % 4096) v }.entry p j = m.entry p j := by
    intro p hp j hj
    refine entry_congr hj fun a ha => update_of_ne ?_ _ _
    rintro rfl
    rw [show (4096 * e.frame + vaddr % 4096) / 4096 = e.frame by omega] at ha
    exact hdata (ha ▸ hp)
  refine ⟨htwin.mono (fun _ => id) nofun, hplain.congr hentry, ?_⟩
  intro q hq w hiw hw' hne hagree e' he'
  have hjw := pageTableIndex_lt w
  rw [pte_structural hq hiw.user hjw hentry] at he'
  refine htwin.mem _ (.inl ⟨hagree e' he', fun hphys => hne ?_⟩)
  have hoff : w % 4096 = vaddr % 4096 := by omega
  exact hinv.own_byte hplain hpd hq hi hiw hhi hw' he he' hw.2 (by omega) hoff

theorem handleCOW_written (hi : User (pageDirectoryIndex vaddr))
    (hp : (m.entry pd (pageDirectoryIndex vaddr)).has pgPresent)
    (hpe : (m.entry (m.entry pd (pageDirectoryIndex vaddr)).frame (pageTableIndex vaddr)).has pgPresent)
    (haddr : m.allocUnchecked.1 = 4096 * f) (hpdf : pd ≠ f) (hcow : m.handleCOW pd parent vaddr = some m₁) :
    m₁ = ⟨setWord (copy m.mem (m.entry (m.entry pd (pageDirectoryIndex vaddr)).frame (pageTableIndex vaddr)).frame f)
        (m.entry pd (pageDirectoryIndex vaddr)).frame (pageTableIndex vaddr) (ownEntry f).toWord,
      m.allocUnchecked.2.frames, m.allocUnchecked.2.kernelEnd, m.allocUnchecked.2.log⟩ := by
  obtain ⟨addr, m₂, halloc, -, rfl⟩ := handleCOW_eq hcow
  have hsame := m.allocUnchecked_same.1
  rw [halloc] at haddr hsame ⊢
  subst haddr
  have hdir : { m₂ with mem := copy m₂.mem (m.archMmuGetPhysical pd (vaddr / 4096 * 4096) / 4096) (4096 * f / 4096) }.entry pd
      (pageDirectoryIndex vaddr) = m.entry pd (pageDirectoryIndex vaddr) := by
    refine entry_congr hi.lt fun a ha => ?_
    dsimp only
    rw [copy_of_ne (by omega), hsame]
  rw [addPageToPd_page, pageDirectoryIndex_page, pageTableIndex_page, addTable_of_present (by rw [hdir]; exact hp), hdir,
    archMmuGetPhysical_page hp hpe, Nat.mul_div_cancel_left f (by decide)]
  rw [hsame]
  rfl

theorem Twin.handleCOW (h : Twin clean live m m') (hinv : Inv role m live) (hplain : m.Plain live) (hpd : pd ∈ live)
    (hi : User (pageDirectoryIndex vaddr)) (hp : (m.entry pd (pageDirectoryIndex vaddr)).has pgPresent)
    (hpe : (m.entry (m.entry pd (pageDirectoryIndex vaddr)).frame (pageTableIndex vaddr)).has pgPresent)
    (hcow : m.handleCOW pd parent vaddr = some m₁) (hcow' : m'.handleCOW pd parent vaddr = some m₁')
    (hlog : .missing ∉ m₁.log) : Stored live pd vaddr m m' m₁ m₁' := by
  have hj := pageTableIndex_lt vaddr
  have ht := hinv.table_not_live hpd hi hp
  have hdir' := h.entry (.dir hpd) hi.lt
  have hentry' := h.entry (.table hpd hi hp) hj
  obtain ⟨addr, m₂, halloc, hgrows, -⟩ := handleCOW_eq hcow
  obtain ⟨f, rfl, hlt, hmarked, -⟩ := allocUnchecked_ok hinv.alloc.ok halloc (hgrows.not_missing hlog)
  have hfree := hinv.alloc.of_free hmarked.free
  have hne : ∀ g, m.Structural live g → g ≠ f := by
    rintro g hg rfl
    have := hinv.role_structural hg
    rw [hfree] at this
    cases this
  have hm₁ := handleCOW_written hi hp hpe (congrArg Prod.fst halloc) (hne pd (.dir hpd)) hcow
  obtain ⟨m₂', halloc', htwin⟩ := h.allocUnchecked
  have hm₁' := handleCOW_written hi (by rw [hdir']; exact hp) (by rw [hdir', hentry']; exact hpe)
    (by rw [halloc']; exact congrArg Prod.fst halloc) (hne pd (.dir hpd)) hcow'
  rw [halloc', hdir', hentry'] at hm₁'
  obtain ⟨f', hc, -⟩ := hinv.handleCOW hpd hi hp hpe hcow hlog
  obtain rfl : f' = f := by
    have hentry : m₁.entry (m.entry pd (pageDirectoryIndex vaddr)).frame (pageTableIndex vaddr) = ownEntry f := by
      rw [hm₁]
      exact entry_setEntry_self (m := { m with mem := copy m.mem _ f }) hlt
    exact (congrArg Entry.frame (hc.entry.symm.trans hentry) : _)
  have hcopied := hc.copy
  generalize hsrc : (m.entry (m.entry pd (pageDirectoryIndex vaddr)).frame (pageTableIndex vaddr)).frame = src
    at hm₁ hm₁' hcopied
  have hwritten : ∀ a, a / 4096 ≠ (m.entry pd (pageDirectoryIndex vaddr)).frame → m₁'.mem a = copy m'.mem src f' a := by
    intro a ha
    rw [hm₁']
    exact setWord_of_ne hj ha
  refine ⟨⟨?_, ?_, ?_, ?_⟩, ?_, ?_⟩
  · rw [hm₁, hm₁']
    exact htwin.frames
  · rw [hm₁, hm₁']
    exact htwin.kernelEnd
  · rw [hm₁, hm₁']
    exact htwin.log
  · rintro a (ha | ha)
    · cases ha
    have hs : m.Structural live (a / 4096) :=
      ha.of_entries (by rw [hm₁]; exact m.allocUnchecked_same.2) fun q hq i' hi' _ => hc.dir q hq i' hi'.lt
    rw [hm₁, hm₁']
    refine Word.write_congr (copy_congr ?_)
    rw [if_neg (hne _ hs)]
    exact h.mem a (.inr hs)
  · have hcopy : Plain { m with mem := copy m.mem src f' } live :=
      hplain.congr fun p hp j hj => entry_congr hj fun a ha => copy_of_ne (by rw [ha]; exact hne p hp)
    have hset := hcopy.setEntry ht hj hlt fun _ _ _ _ _ _ _ =>
      ⟨ownEntry_owned f', Entry.has_of_flags f' (by decide)⟩
    exact hset.of_mem (by rw [hm₁]; rfl)
  · intro q hq w hiw _ _ hagree e₁ he₁
    have hjw := pageTableIndex_lt w
    have hback := hc.back q hq _ _ hiw.user hjw
    unfold backing at hback
    rw [he₁] at hback
    split at hback
    · -- the page that was copied
      rename_i hsame
      obtain ⟨hpq, hframe, htdx⟩ := hsame
      obtain ⟨rfl, hidx⟩ := hinv.low_table hpd hq hi hiw hp hpq hframe
      have hf : e₁.frame = f' := congrArg Prod.fst (some.inj hback)
      have hold := hagree _ (pte_eq_some.mpr ⟨hpq, by rw [hidx, htdx]; exact ⟨hpe, rfl⟩⟩)
      rw [hsrc] at hold
      rw [hf, hcopied _ (Nat.mod_lt _ (by decide)), hwritten, copy_self (Nat.mod_lt _ (by decide))]
      · exact hold
      · rw [show (4096 * f' + w % 4096) / 4096 = f' by omega]
        exact (hne _ (.table hpd hi hp)).symm
    · obtain ⟨e, he, heq⟩ := map_eq_some_iff.mp hback.symm
      rw [← show e.frame = e₁.frame from congrArg Prod.fst heq]
      have hok := hinv.pte_ok hq hiw.user hjw he
      have hdiv : (4096 * e.frame + w % 4096) / 4096 = e.frame := by omega
      rw [hwritten, copy_of_ne, hc.mem]
      · exact hagree e he
      · rw [hdiv]
        exact hok.ne_free
      · rw [hdiv]
        exact hok.not_structural
      · rw [hdiv]
        exact fun hef => hok.ne_free (hef ▸ hfree)
      · rw [hdiv]
        intro hef
        exact hinv.not_structural hq hiw.user hjw he (hef ▸ .table hpd hi hp)

theorem Stored.trans (h : Stored live pd vaddr m m' m₁ m₁') (h' : Stored live pd vaddr m₁ m₁' m₂ m₂') :
    Stored live pd vaddr m m' m₂ m₂' :=
  ⟨h'.twin, h'.plain, fun q hq w hi hhi hne hagree => h'.agrees q hq w hi hhi hne (h.agrees q hq w hi hhi hne hagree)⟩

theorem userWrite_isSome (v v' : BitVec 8) (h : m'.translate pd vaddr = m.translate pd vaddr) :
    (m'.userWrite pd vaddr v').isSome = (m.userWrite pd vaddr v).isSome := by
  unfold userWrite
  rw [h]
  split
  · rfl
  · split
    · rfl
    · rfl

theorem Twin.userStore (h : Twin clean live m m') (hinv : Inv role m live) (hplain : m.Plain live) (hpd : pd ∈ live)
    (hi : User (pageDirectoryIndex vaddr)) (hhi : vaddr < memoryEnd)
    (hstore : m.userStore pd parent vaddr v = some m₁) (hstore' : m'.userStore pd parent vaddr v' = some m₁')
    (hlog : .missing ∉ m₁.log) : Stored live pd vaddr m m' m₁ m₁' := by
  have hsome := userWrite_isSome v v' (h.translate hpd hi)
  unfold Mmu.userStore at hstore'
  rcases Cow.userStore_cases hinv hpd hi hstore hlog with hwrite | ⟨hfault, m₂, e, he, hcow, hlog₂, hretry⟩
  · rw [hwrite] at hsome
    obtain ⟨m₂', hwrite'⟩ := isSome_iff_exists.mp hsome
    rw [hwrite'] at hstore'
    cases hstore'
    exact h.userWrite hinv hplain hpd hi hhi hwrite hwrite'
  · rw [hfault] at hsome
    rw [isSome_eq_false_iff.mp hsome |> isNone_iff_eq_none.mp] at hstore'
    dsimp only at hstore'
    split at hstore'
    · cases hstore'
    obtain ⟨m₂', hcow', hretry'⟩ := bind_eq_some_iff.mp hstore'
    obtain ⟨hp, hpe, -⟩ := pte_eq_some.mp he
    obtain ⟨f, -, hinv₂⟩ := hinv.handleCOW hpd hi hp hpe hcow hlog₂
    have hcopied := h.handleCOW hinv hplain hpd hi hp hpe hcow hcow' hlog₂
    exact hcopied.trans (hcopied.twin.userWrite hinv₂ hcopied.plain hpd hi hhi hretry hretry')

/-! ### `arch_mmu_query` -/

section Query
variable {sizeInPages n pt ptIndex founded start : Nat}

theorem Twin.queryTable (h : Twin clean live m m') (ht : m.Structural live t) (hn : n ≤ 1024) :
    m'.queryTable t sizeInPages n founded = m.queryTable t sizeInPages n founded := by
  induction n generalizing founded with
  | zero => rfl
  | succ n ih =>
    unfold Mmu.queryTable
    dsimp only
    rw [h.entry ht (by omega), ih (by omega)]

theorem queryTable_lt (m : Mmu) {k founded' : Nat} (h : m.queryTable t sizeInPages n founded = (some k, founded')) :
    k < 1024 := by
  induction n generalizing founded with
  | zero => cases h
  | succ n ih =>
    unfold queryTable at h
    dsimp only at h
    generalize (if m.entry t (1024 - (n + 1)) = .empty then founded + 1 else 0) = founded at h
    split at h
    · cases h
      omega
    · exact ih h

/-- The search goes upwards, so that a place it finds among the tables of the process was reached through these. -/
theorem queryFrom_low (h : m.queryFrom pd sizeInPages n i pt ptIndex founded = some start)
    (hstart : Low (pageDirectoryIndex start)) (hn : i + n ≤ 1025) (hpt : ptIndex < 1024) : i < 960 := by
  have hfound : ∀ i k, k < 1024 → start = getVirtualAddress i k % wordSize → i ≤ 1024 → i < 960 := by
    intro i k hk heq hi
    unfold Low pageDirectoryIndex at hstart
    unfold getVirtualAddress wordSize at heq
    omega
  induction n generalizing i pt ptIndex founded with
  | zero => cases h
  | succ n ih =>
    unfold queryFrom at h
    split at h
    · exact hfound i ptIndex hpt (some.inj h).symm (by omega)
    split at h
    next k _ hk => exact hfound i k (m.queryTable_lt hk) (some.inj h).symm (by omega)
    · have := ih h (by omega) (by decide)
      omega

theorem Twin.queryFrom (h : Twin clean live m m') (hplain : m.Plain live) (hpd : pd ∈ live)
    (hquery : m.queryFrom pd sizeInPages n i pt ptIndex founded = some start) (hstart : Low (pageDirectoryIndex start))
    (hn : i + n ≤ 1025) (hlo : 256 ≤ i) (hpti : ptIndex < 1024)
    (hpt : pt = i ∨ Low pt ∧ (m.entry pd pt).has pgPresent) :
    m'.queryFrom pd sizeInPages n i pt ptIndex founded = some start := by
  induction n generalizing i pt ptIndex founded with
  | zero => cases hquery
  | succ n ih =>
    have hlow : Low i := ⟨hlo, queryFrom_low hquery hstart hn hpti⟩
    have hentry : ∀ m : Mmu, m.directoryEntry pd i = m.entry pd i := fun m => if_pos hlow.user.lt
    unfold Mmu.queryFrom at hquery ⊢
    rw [hentry] at hquery ⊢
    rw [h.entry (.dir hpd) hlow.user.lt]
    split at hquery
    · rw [if_pos (by assumption)]
      exact hquery
    rename_i hne
    rw [if_neg hne]
    have hpresent := ((hplain.table pd hpd i hlow).resolve_left hne).1
    have hpt : Low pt ∧ (m.entry pd pt).has pgPresent := hpt.elim (fun heq => heq ▸ ⟨hlow, hpresent⟩) id
    rw [h.entry (.dir hpd) hpt.1.user.lt, h.queryTable (.table hpd hpt.1.user hpt.2) (by omega)]
    split at hquery
    · exact hquery
    · exact ih hquery (by omega) (by omega) (by decide) (.inr ⟨hlow, hpresent⟩)

theorem Twin.archMmuQuery {hint size : Nat} (h : Twin clean live m m') (hplain : m.Plain live) (hpd : pd ∈ live)
    (hquery : m.archMmuQuery pd hint size = some start) (hstart : Low (pageDirectoryIndex start))
    (hlo : 256 ≤ pageDirectoryIndex hint) : m'.archMmuQuery pd hint size = some start := by
  have hlt := pageDirectoryIndex_lt hint
  exact h.queryFrom hplain hpd hquery hstart (by omega) hlo (Nat.mod_lt _ (by decide)) (.inl rfl)

end Query

/-! ### What a call leaves the same -/

structure Kept (live live' : List Nat) (pd : Nat) (m m' m₁ m₁' : Mmu) : Prop where
  twin : Twin (fun _ => False) live' m₁ m₁'
  plain : m.Plain live → m₁.Plain live'
  agrees : ∀ q ∈ live, q ≠ pd → ∀ w, Low (pageDirectoryIndex w) → Agrees m m' q w → Agrees m₁ m₁' q w

theorem Moved.kept (h : Moved (fun a => m'.mem a = m.mem a) live pd m m₁ m₁') : Kept live live pd m m' m₁ m₁' :=
  ⟨h.twin.mono (fun _ => id) nofun, h.steady.plain, fun _ hq hne _ hi => h.agrees hq hne hi⟩

theorem Kept.trans {live' : List Nat} (h : Kept live live' pd m m' m₁ m₁') (h' : Kept live' live' pd m₁ m₁' m₂ m₂')
    (hsub : ∀ q ∈ live, q ∈ live') : Kept live live' pd m m' m₂ m₂' :=
  ⟨h'.twin, fun hm => h'.plain (h.plain hm), fun q hq hne w hi hagree =>
    h'.agrees q (hsub q hq) hne w hi (h.agrees q hq hne w hi hagree)⟩

theorem Twin.kept_newAspace (h : Twin clean live m m') (hinv : Inv role m live)
    (hnew : m.archMmuNewAspace = some (c, m₁)) :
    ∃ m₁', m'.archMmuNewAspace = some (c, m₁') ∧ Kept live (c :: live) c m m' m₁ m₁' := by
  obtain ⟨m₁', hnew', htwin⟩ := h.agree.newAspace hinv hnew
  obtain ⟨hinv', hn⟩ := hinv.newAspace hnew
  have hc := hinv'.dirs.dir (mem_cons_self ..)
  refine ⟨m₁', hnew', htwin.mono (fun _ => id) nofun, hn.plain hinv hc, fun q hq _ w hi hagree e he => ?_⟩
  have hj := pageTableIndex_lt w
  rw [hn.pte_eq hinv hc hq hi.user hj] at he
  exact htwin.mem _ (.inl (hagree e he))

end Mmu
end HelinKern
