import HelinKern.Lib.Loop
import HelinKern.Theorems.Aspace

/-! What the calls that fork, fault, grow and destroy address spaces do to the roles of frames. -/

namespace HelinKern
variable {g q i' child n : Nat} {parent : Option Nat} {size : Int}

namespace Mmu
open Paged FrameEvent Function List Option

variable {role role' : Nat → Role} {m m' : Mmu} {live : List Nat} {pd t c i j f : Nat} {e : Entry}

/-! ### One page of `arch_mmu_duplicate` -/

abbrev cowFlags : BitVec 12 := pgPresent ||| pgUser ||| pgOwned

abbrev ownFlags : BitVec 12 := pgPresent ||| pgWrite ||| pgUser ||| pgOwned

def cowEntry (f : Nat) : Entry := ⟨f, cowFlags⟩

def ownEntry (f : Nat) : Entry := ⟨f, ownFlags⟩

theorem cowEntry_present (f : Nat) : (cowEntry f).has pgPresent := Entry.has_of_flags f (by decide)

theorem cowEntry_write (f : Nat) : (cowEntry f).has pgWrite = false := Entry.has_of_flags f (by decide)

theorem cowEntry_owned (f : Nat) : (cowEntry f).has pgOwned := Entry.has_of_flags f (by decide)

theorem ownEntry_present (f : Nat) : (ownEntry f).has pgPresent := Entry.has_of_flags f (by decide)

theorem ownEntry_owned (f : Nat) : (ownEntry f).has pgOwned := Entry.has_of_flags f (by decide)

theorem PageOk.cow (h : role f = .page i j) : PageOk role i j (cowEntry f) :=
  ⟨Entry.has_of_flags f (by decide), fun _ => h, fun ho => by rw [cowEntry_owned] at ho; cases ho⟩

theorem PageOk.own (h : role f = .page i j) : PageOk role i j (ownEntry f) :=
  ⟨Entry.has_of_flags f (by decide), fun _ => h, fun ho => by rw [ownEntry_owned] at ho; cases ho⟩

theorem Inv.share (h : Inv role m live) (ht : Active role live t i) (hc : Active role live c i) (hj : j < 1024)
    (hp : (m.entry t j).has pgPresent) (ho : (m.entry t j).has pgOwned) :
    Inv role ((m.setEntry t j (cowEntry (m.entry t j).frame)).setEntry c j (cowEntry (m.entry t j).frame)) live := by
  have hlt := m.entry_frame_lt t j
  have hrole := (h.pages.page t i j ht hj hp).owned ho
  have hok := PageOk.cow hrole
  have h₁ : Inv role (m.setEntry t j (cowEntry (m.entry t j).frame)) live := by
    refine h.setEntry ht hj hlt (fun _ => hok) fun _ _ t' ht' hne hp' hf => ⟨cowEntry_write _, fun hw => ?_⟩
    exact hne (h.pages.cow t' t i j ht' ht hj hw hp hf.symm).symm
  have hself : (m.setEntry t j (cowEntry (m.entry t j).frame)).entry t j = cowEntry (m.entry t j).frame :=
    entry_setEntry_self hlt
  refine h₁.setEntry hc hj hlt (fun _ => hok) fun _ _ t' ht' _ hp' hf => ⟨cowEntry_write _, fun hw => ?_⟩
  -- the writable page would be the read-only one of `t`
  have heq := h₁.pages.cow t' t i j ht' ht hj hw (by rw [hself]; exact cowEntry_present _)
    (by rw [hself]; exact hf.symm)
  have hwrite := hw.write
  rw [← heq, hself, cowEntry_write] at hwrite
  cases hwrite

theorem setEntry_comm (m : Mmu) {p p' : Nat} (hj : j < 1024) (e : Entry) :
    (m.setEntry p j e).setEntry p' j e = (m.setEntry p' j e).setEntry p j e := by
  by_cases hp : p' = p
  · rw [hp]
  · unfold setEntry
    rw [setWord_comm m.mem hj hj fun h => hp h.1]

structure Duplicated (role : Nat → Role) (m : Mmu) (live : List Nat) (child i j : Nat) (e : Entry)
    (role' : Nat → Role) (m' : Mmu) : Prop where
  ext : ∀ f, role f ≠ .free → role' f = role f
  mem : ∀ a, role (a / 4096) ≠ .free → (role (a / 4096)).structural = false → m'.mem a = m.mem a
  dir : ∀ q ∈ live, ∀ i' < 1024, ¬(q = child ∧ i' = i) → m'.entry q i' = m.entry q i'
  present : (m'.entry child i).has pgPresent = true
  old : (m.entry child i).has pgPresent = true → m'.entry child i = m.entry child i
  back : ∀ q ∈ live, ∀ i' j', User i' → j' < 1024 → m'.backing q i' j' =
    if (m'.entry q i').has pgPresent = true ∧ (m'.entry q i').frame = (m'.entry child i).frame ∧ j' = j then
      some (e.frame, e.has pgOwned)
    else m.backing q i' j'

theorem pageDirectoryIndex_virtual (hi : User i) (hj : j < 1024) : pageDirectoryIndex (getVirtualAddress i j) = i := by
  have := hi.lt
  unfold pageDirectoryIndex getVirtualAddress
  omega

theorem pageTableIndex_virtual (hj : j < 1024) : pageTableIndex (getVirtualAddress i j) = j := by
  unfold pageTableIndex getVirtualAddress
  omega

theorem addPageToPd_page (m : Mmu) (pd vaddr f : Nat) (flags : BitVec 12) :
    m.addPageToPd pd vaddr (4096 * f) flags = (m.addTable pd (pageDirectoryIndex vaddr) flags).setEntry
      ((m.addTable pd (pageDirectoryIndex vaddr) flags).entry pd (pageDirectoryIndex vaddr)).frame
      (pageTableIndex vaddr) ⟨f, flags⟩ := by
  unfold addPageToPd
  rw [Entry.of_page]

theorem Active.ne_of_data (h : Active role live t i) (hg : (role g).structural = false) : g ≠ t := by
  rintro rfl
  rw [h.structural] at hg
  cases hg

theorem entry_dir_setEntry (h : Inv role m live) (ht : Active role live t i) (hj : j < 1024) (m' : Mmu) :
    ∀ q ∈ live, ∀ i' < 1024, (m'.setEntry t j e).entry q i' = m'.entry q i' :=
  fun _ hq _ hi' => entry_setEntry_of_ne hj hi' fun hqt => ht.ne_dir (h.dirs.dir hq) hqt.1.symm

theorem backing_setEntry {j' : Nat} (ht : Active role live t i) (hj : j < 1024) (hlt : e.frame < 1048576)
    (hp : e.has pgPresent) (hq : role q = .dir) (hi : User i') (hj' : j' < 1024) :
    (m.setEntry t j e).backing q i' j' =
      if (m.entry q i').has pgPresent ∧ (m.entry q i').frame = t ∧ j' = j then some (e.frame, e.has pgOwned)
      else m.backing q i' j' := by
  unfold backing
  rw [pte_setEntry ht hj hlt hq hi hj']
  split <;> rfl

theorem Duplicated.of_writes {role₁ : Nat → Role} {m₁ : Mmu} {e' : Entry} (h : Inv role m live)
    (hchild : child ∈ live) (hi : User i) (hj : j < 1024) (h₁ : Inv role₁ m₁ live)
    (hadd : TableAdded role m child i role₁ m₁) (hframe : e'.frame = e.frame)
    (howned : e'.has pgOwned = e.has pgOwned) (hp : e'.has pgPresent) (hlt : e.frame < 1048576) :
    Duplicated role m live child i j e role₁ (m₁.setEntry (m₁.entry child i).frame j e') := by
  have hc := h₁.dirs.active hchild hi hadd.present
  have hdir := entry_dir_setEntry (e := e') h₁ hc hj m₁
  refine ⟨hadd.ext, ?_, ?_, ?_, ?_, ?_⟩
  · intro a ha hs
    have hne : a / 4096 ≠ (m₁.entry child i).frame := hc.ne_of_data (by rw [hadd.ext _ ha, hs])
    have hne' : a / 4096 ≠ child := by
      intro heq
      rw [heq, h.dirs.dir hchild] at hs
      cases hs
    exact (setWord_of_ne hj hne).trans (hadd.mem a ha hne')
  · intro q hq i' hi' hne
    rw [hdir q hq i' hi']
    by_cases hqc : q = child
    · subst hqc
      exact hadd.dir i' hi' fun hii => hne ⟨rfl, hii⟩
    · exact entry_congr hi' fun a ha => hadd.mem a (by rw [ha, h.dirs.dir hq]; nofun) (by rw [ha]; exact hqc)
  · rw [hdir child hchild i hi.lt]
    exact hadd.present
  · intro hold
    rw [hdir child hchild i hi.lt, (hadd.old hold).2]
  · intro q hq i' j' hi' hj'
    rw [backing_setEntry hc hj (by rw [hframe]; exact hlt) hp (h₁.dirs.dir hq) hi' hj', hdir q hq i' hi'.lt,
      hdir child hchild i hi.lt, hframe, howned]
    unfold backing
    rw [hadd.pte_eq h hchild hq hi' hj']

theorem Duplicated.rewrite (h : Duplicated role m live child i j e role' m') (hm : Inv role m live)
    (hchild : child ∈ live) (ht : Active role live t i) (hi : User i) (hj : j < 1024) (he : m.entry t j = e)
    (hp : e.has pgPresent) (ho : e.has pgOwned) :
    Duplicated role m live child i j e role' (m'.setEntry t j (cowEntry e.frame)) := by
  have hlt : (cowEntry e.frame).frame < 1048576 := by
    rw [← he]
    exact entry_frame_lt ..
  have hdir := entry_dir_setEntry (e := cowEntry e.frame) hm ht hj m'
  refine ⟨h.ext, ?_, ?_, ?_, ?_, ?_⟩
  · exact fun a ha hs => (setWord_of_ne hj (ht.ne_of_data hs)).trans (h.mem a ha hs)
  · exact fun q hq i' hi' hne => (hdir q hq i' hi').trans (h.dir q hq i' hi' hne)
  · rw [hdir child hchild i hi.lt]
    exact h.present
  · intro hold
    rw [hdir child hchild i hi.lt, h.old hold]
  · intro q hq i' j' hi' hj'
    rw [backing_setEntry ht hj hlt (cowEntry_present _) (hm.dirs.dir hq) hi' hj', h.back q hq i' j' hi' hj',
      hdir q hq i' hi'.lt, hdir child hchild i hi.lt, cowEntry_owned]
    split
    next hsame =>
      obtain ⟨hp', hframe, rfl⟩ := hsame
      split
      · rw [ho]
        rfl
      rename_i hother
      have hold : m'.entry q i' = m.entry q i' := by
        refine h.dir q hq i' hi'.lt ?_
        rintro ⟨rfl, rfl⟩
        exact hother ⟨hp', rfl, rfl⟩
      rw [hold] at hp' hframe
      have hpte : m.pte q i' j' = some e := pte_eq_some.mpr ⟨hp', by rw [hframe, he]; exact ⟨hp, rfl⟩⟩
      unfold backing
      rw [hpte, map_some, ho]
      rfl
    · rfl

theorem Inv.duplicatePage {parent : Nat} (h : Inv role m live) (hparent : parent ∈ live) (hchild : child ∈ live)
    (hne : parent ≠ child) (hk : child ≠ kernelPg) (hi : User i) (hj : j < 1024)
    (hp : (m.entry parent i).has pgPresent) (he : m.entry (m.entry parent i).frame j = e)
    (hlog : .missing ∉ (duplicatePage parent child i m j).log) :
    (e.has pgPresent = false ∧ duplicatePage parent child i m j = m) ∨
      e.has pgPresent ∧ ∃ role', Inv role' (duplicatePage parent child i m j) live ∧
        Duplicated role m live child i j e role' (duplicatePage parent child i m j) := by
  cases hpe : e.has pgPresent with
  | false =>
    refine .inl ⟨rfl, ?_⟩
    unfold Mmu.duplicatePage
    rw [present_eq, he, if_neg (by rw [hpe]; nofun)]
  | true =>
    refine .inr ⟨rfl, ?_⟩
    have ht := h.dirs.active hparent hi hp
    have hok := h.pages.page _ i j ht hj (by rw [he]; exact hpe)
    rw [he] at hok
    have hlt : e.frame < 1048576 := by
      rw [← he]
      exact entry_frame_lt ..
    have hsmall := hok.small
    rw [Entry.has_4MB] at hsmall
    cases ho : e.has pgOwned with
    | true =>
      have heq : Mmu.duplicatePage parent child i m j =
          (m.addPageToPd child (getVirtualAddress i j) (4096 * e.frame) cowFlags).addPageToPd
            parent (getVirtualAddress i j) (4096 * e.frame) cowFlags := by
        unfold Mmu.duplicatePage
        rw [present_eq, he, if_pos hpe, if_pos ho]
      rw [heq] at hlog ⊢
      have hlog₁ := (addPageToPd_grows ..).not_missing hlog
      rw [addPageToPd_page m, pageDirectoryIndex_virtual hi hj, pageTableIndex_virtual hj] at hlog₁ ⊢
      obtain ⟨role₁, h₁, hadd⟩ := h.addTable hchild (.inl hk) hi (by decide) hlog₁
      generalize m.addTable child i cowFlags = m₁ at h₁ hadd ⊢
      have hc := h₁.dirs.active hchild hi hadd.present
      -- the table of the parent is not touched by what happens to the child
      have hdir : m₁.entry parent i = m.entry parent i := entry_congr hi.lt fun a ha =>
        hadd.mem a (by rw [ha, h.dirs.dir hparent]; nofun) (by rw [ha]; exact hne)
      have hentry : m₁.entry (m.entry parent i).frame j = e := by
        rw [← he]
        exact entry_congr hj fun a ha =>
          hadd.mem a (by rw [ha]; exact ht.ne_free) (by rw [ha]; exact ht.ne_dir (h.dirs.dir hchild))
      have ht₁ : Active role₁ live (m.entry parent i).frame i :=
        hdir ▸ h₁.dirs.active hparent hi (by rw [hdir]; exact hp)
      have hdir₂ : (m₁.setEntry (m₁.entry child i).frame j (cowEntry e.frame)).entry parent i = m.entry parent i := by
        rw [entry_dir_setEntry h₁ hc hj m₁ parent hparent i hi.lt, hdir]
      have hsecond : (m₁.setEntry (m₁.entry child i).frame j (cowEntry e.frame)).addPageToPd parent
          (getVirtualAddress i j) (4096 * e.frame) cowFlags =
          (m₁.setEntry (m₁.entry child i).frame j (cowEntry e.frame)).setEntry (m.entry parent i).frame j
            (cowEntry e.frame) := by
        rw [addPageToPd_page, pageDirectoryIndex_virtual hi hj, pageTableIndex_virtual hj,
          addTable_of_present (by rw [hdir₂]; exact hp), hdir₂]
        rfl
      refine ⟨role₁, ?_, ?_⟩
      · have hshare := h₁.share ht₁ hc hj (by rw [hentry]; exact hpe) (by rw [hentry]; exact ho)
        rw [hentry] at hshare
        rw [show Entry.mk e.frame cowFlags = cowEntry e.frame from rfl, hsecond,
          setEntry_comm m₁ hj]
        exact hshare
      · rw [show Entry.mk e.frame cowFlags = cowEntry e.frame from rfl, hsecond]
        have hfirst : Duplicated role m live child i j e role₁
            (m₁.setEntry (m₁.entry child i).frame j (cowEntry e.frame)) :=
          .of_writes h hchild hi hj h₁ hadd rfl (by rw [ho, cowEntry_owned]) (cowEntry_present _) hlt
        exact hfirst.rewrite h hchild ht hi hj he hpe ho
    | false =>
      have heq : Mmu.duplicatePage parent child i m j =
          m.addPageToPd child (getVirtualAddress i j) (4096 * e.frame) e.flags := by
        unfold Mmu.duplicatePage
        rw [present_eq, he, if_pos hpe, if_neg (by rw [ho]; nofun)]
      rw [heq, addPageToPd_page, pageDirectoryIndex_virtual hi hj, pageTableIndex_virtual hj] at hlog ⊢
      obtain ⟨role₁, h₁, hadd⟩ := h.addTable hchild (.inl hk) hi hsmall hlog
      have hc := h₁.dirs.active hchild hi hadd.present
      refine ⟨role₁, h₁.setEntry hc hj hlt (fun _ => ?_) fun _ ho' => ?_, ?_⟩
      · exact hok.of_eq (hadd.ext _ hok.ne_free)
      · rw [ho] at ho'
        cases ho'
      · exact .of_writes h hchild hi hj h₁ hadd rfl rfl hpe hlt

/-! ### `arch_mmu_duplicate` -/

/-- All directories use the tables the kernel has for the upper part of the address space. -/
def KernShared (m : Mmu) (live : List Nat) : Prop :=
  ∀ q ∈ live, ∀ i, 960 ≤ i → i < 1023 → (m.entry kernelPg i).has pgPresent = true →
    (m.entry q i).has pgPresent = true ∧ (m.entry q i).frame = (m.entry kernelPg i).frame

def KernTable (m : Mmu) (i : Nat) : Prop := 960 ≤ i ∧ (m.entry kernelPg i).has pgPresent = true

structure Fresh (m : Mmu) (parent child : Nat) : Prop where
  kern : ∀ i j, User i → j < 1024 → m.KernTable i → m.backing child i j = m.backing parent i j
  none : ∀ i j, User i → j < 1024 → ¬m.KernTable i → m.backing child i j = none

structure DupInv (role₀ : Nat → Role) (m₀ : Mmu) (live : List Nat) (parent child i j : Nat) (m : Mmu) : Prop where
  inv : ∃ role, Inv role m live ∧ ∀ f, role₀ f ≠ .free → role f = role₀ f
  mem : ∀ a, role₀ (a / 4096) ≠ .free → (role₀ (a / 4096)).structural = false → m.mem a = m₀.mem a
  dir : ∀ q ∈ live, q ≠ child → ∀ i' < 1024, m.entry q i' = m₀.entry q i'
  childDir : ∀ i' < 1024, (m₀.entry child i').has pgPresent = true → m.entry child i' = m₀.entry child i'
  back : KernShared m₀ live → ∀ q ∈ live, q ≠ child → ∀ i' j', User i' → j' < 1024 →
    m.backing q i' j' = m₀.backing q i' j'
  copied : KernShared m₀ live → Fresh m₀ parent child → ∀ i' j', User i' → j' < 1024 →
    ((i' < i ∨ i' = i ∧ j' < j) ∨ m₀.KernTable i') → m.backing child i' j' = m₀.backing parent i' j'
  pending : KernShared m₀ live → Fresh m₀ parent child → ∀ i' j', User i' → j' < 1024 →
    ¬((i' < i ∨ i' = i ∧ j' < j) ∨ m₀.KernTable i') → m.backing child i' j' = none

section Duplicate
variable {role₀ : Nat → Role} {m₀ : Mmu} {parent child : Nat}

theorem backing_eq_none (h : (m.entry (m.entry pd i).frame j).has pgPresent = false) : m.backing pd i j = none := by
  unfold backing pte
  rw [h, Bool.and_false]
  rfl

theorem backing_eq_some (hp : (m.entry pd i).has pgPresent) (he : m.entry (m.entry pd i).frame j = e)
    (hpe : e.has pgPresent) : m.backing pd i j = some (e.frame, e.has pgOwned) := by
  unfold backing
  rw [pte_eq_some.mpr ⟨hp, by rw [he]; exact hpe, he⟩]
  rfl

theorem Inv.same_table (h : Inv role m live) (hchild : child ∈ live) (hq : q ∈ live) (hi : User i) (hi' : User i')
    (hpc : (m.entry child i).has pgPresent) (hpq : (m.entry q i').has pgPresent)
    (hframe : (m.entry q i').frame = (m.entry child i).frame) :
    i' = i ∧ (q = child ∨ 960 ≤ i ∧ (m.entry kernelPg i).has pgPresent ∧
      (m.entry kernelPg i).frame = (m.entry child i).frame) := by
  have hidx := (h.dirs.active hchild hi hpc).index_eq (hframe ▸ h.dirs.active hq hi' hpq)
  subst hidx
  refine ⟨rfl, ?_⟩
  rcases (h.dirs.pde child hchild i' hi hpc).role with hc | ⟨hc, -⟩
  · rcases (h.dirs.pde q hq i' hi' hpq).role with hq | ⟨hq, -⟩ <;> rw [hframe, hc] at hq <;> cases hq
    exact .inl rfl
  · obtain ⟨hlo, -, hp, hf⟩ := h.dirs.kern _ _ hc
    exact .inr ⟨hlo, hp, hf⟩

theorem DupInv.refl (h : Inv role₀ m₀ live) : DupInv role₀ m₀ live parent child 256 0 m₀ := by
  refine ⟨⟨role₀, h, fun _ _ => rfl⟩, fun _ _ _ => rfl, fun _ _ _ _ _ => rfl, fun _ _ _ => rfl,
    fun _ _ _ _ _ _ _ _ => rfl, ?_, ?_⟩
  · intro _ hfresh i' j' hi hj hdone
    have hlo := hi.1
    exact hfresh.kern i' j' hi hj (hdone.resolve_left (by omega))
  · exact fun _ hfresh i' j' hi hj hdone => hfresh.none i' j' hi hj fun hk => hdone (.inr hk)

/-- What the parent does not map is copied by doing nothing. -/
theorem DupInv.skip {i₁ j₁ : Nat} (h : DupInv role₀ m₀ live parent child i j m) (hparent : parent ∈ live)
    (hne : parent ≠ child) (hmore : i < i₁ ∨ i = i₁ ∧ j ≤ j₁)
    (hnone : ∀ i' j', j' < 1024 → (i' < i₁ ∨ i' = i₁ ∧ j' < j₁) → ¬(i' < i ∨ i' = i ∧ j' < j) →
      m.backing parent i' j' = none) : DupInv role₀ m₀ live parent child i₁ j₁ m := by
  refine ⟨h.inv, h.mem, h.dir, h.childDir, h.back, fun hks hfresh i' j' hi' hj' hdone => ?_,
    fun hks hfresh i' j' hi' hj' hdone => ?_⟩
  · by_cases hold : (i' < i ∨ i' = i ∧ j' < j) ∨ m₀.KernTable i'
    · exact h.copied hks hfresh i' j' hi' hj' hold
    · obtain ⟨hbefore, hkern⟩ := not_or.mp hold
      rw [h.pending hks hfresh i' j' hi' hj' hold, ← h.back hks parent hparent hne i' j' hi' hj',
        hnone i' j' hj' (hdone.resolve_right hkern) hbefore]
  · refine h.pending hks hfresh i' j' hi' hj' fun hold => hdone (hold.imp_left fun h => ?_)
    omega

theorem DupInv.page (h : DupInv role₀ m₀ live parent child i j m) (hparent : parent ∈ live) (hchild : child ∈ live)
    (hne : parent ≠ child) (hk : child ≠ kernelPg) (hi : User i) (hj : j < 1024)
    (hp : (m.entry parent i).has pgPresent) (hlog : .missing ∉ (duplicatePage parent child i m j).log) :
    DupInv role₀ m₀ live parent child i (j + 1) (duplicatePage parent child i m j) := by
  obtain ⟨role, hinv, hext⟩ := h.inv
  rcases hinv.duplicatePage hparent hchild hne hk hi hj hp rfl hlog with ⟨hpe, heq⟩ | ⟨hpe, role', hinv', hdup⟩
  · rw [heq]
    refine h.skip hparent hne (.inr ⟨rfl, Nat.le_succ j⟩) fun i' j' hj' hdone hold => ?_
    obtain ⟨rfl, rfl⟩ : i' = i ∧ j' = j := by omega
    exact backing_eq_none hpe
  · generalize duplicatePage parent child i m j = m' at hinv' hdup
    have hback := backing_eq_some hp rfl hpe
    refine ⟨⟨role', hinv', ?_⟩, ?_, ?_, ?_, ?_, ?_, ?_⟩
    · exact fun f hf => (hdup.ext f (by rw [hext f hf]; exact hf)).trans (hext f hf)
    · intro a ha hs
      have hr := hext _ ha
      exact (hdup.mem a (by rwa [hr]) (by rwa [hr])).trans (h.mem a ha hs)
    · intro q hq hqc i' hi'
      rw [hdup.dir q hq i' hi' fun h => hqc h.1, h.dir q hq hqc i' hi']
    · intro i' hi' hp'
      have hold := h.childDir i' hi' hp'
      by_cases hii : i' = i
      · subst hii
        rw [hdup.old (by rw [hold]; exact hp'), hold]
      · rw [hdup.dir child hchild i' hi' fun h => hii h.2, hold]
    · intro hks q hq hqc i' j' hi' hj'
      rw [hdup.back q hq i' j' hi' hj', ← h.back hks q hq hqc i' j' hi' hj']
      split
      next hsame =>
        obtain ⟨hpq, hframe, rfl⟩ := hsame
        obtain ⟨rfl, hkern⟩ := hinv'.same_table hchild hq hi hi' hdup.present hpq hframe
        obtain ⟨hlo, hpk, -⟩ := hkern.resolve_left hqc
        -- both directories use the table of the kernel, so that the page was there already
        rw [hdup.dir kernelPg hinv.dirs.kernel i' hi.lt fun h => hk h.1.symm,
          h.dir kernelPg hinv.dirs.kernel hk.symm i' hi.lt] at hpk
        have hq₀ := hks q hq i' hlo hi.2 hpk
        have hp₀ := hks parent hparent i' hlo hi.2 hpk
        rw [← h.dir q hq hqc i' hi.lt] at hq₀
        rw [← h.dir parent hparent hne i' hi.lt] at hp₀
        exact (backing_eq_some hq₀.1 (by rw [hq₀.2, ← hp₀.2]) hpe).symm
      · rfl
    · intro hks hfresh i' j' hi' hj' hdone
      rw [hdup.back child hchild i' j' hi' hj']
      split
      next hsame =>
        obtain ⟨hpq, hframe, rfl⟩ := hsame
        obtain ⟨rfl, -⟩ := hinv'.same_table hchild hchild hi hi' hdup.present hpq hframe
        rw [← hback, h.back hks parent hparent hne i' j' hi hj]
      next hother =>
        refine h.copied hks hfresh i' j' hi' hj' (hdone.imp_left fun hdone => ?_)
        have : ¬(i' = i ∧ j' = j) := by
          rintro ⟨rfl, rfl⟩
          exact hother ⟨hdup.present, rfl, rfl⟩
        omega
    · intro hks hfresh i' j' hi' hj' hdone
      rw [hdup.back child hchild i' j' hi' hj', if_neg]
      · refine h.pending hks hfresh i' j' hi' hj' fun hold => hdone (hold.imp_left fun h => ?_)
        omega
      · rintro ⟨hpq, hframe, rfl⟩
        obtain ⟨rfl, -⟩ := hinv'.same_table hchild hchild hi hi' hdup.present hpq hframe
        exact hdone (.inl (.inr ⟨rfl, by omega⟩))

theorem DupInv.table (h : DupInv role₀ m₀ live parent child i 0 m) (hparent : parent ∈ live) (hchild : child ∈ live)
    (hne : parent ≠ child) (hk : child ≠ kernelPg) (hi : User i)
    (hlog : .missing ∉ (duplicateTable parent child m i).log) :
    DupInv role₀ m₀ live parent child (i + 1) 0 (duplicateTable parent child m i) := by
  -- being done with the last entry of a table is being done with the table
  have hnext {m} (h : DupInv role₀ m₀ live parent child i 1024 m) : DupInv role₀ m₀ live parent child (i + 1) 0 m :=
    h.skip hparent hne (.inl (Nat.lt_succ_self i)) fun i' j' hj' hdone hold => by omega
  have hdir := fun {m} (h : DupInv role₀ m₀ live parent child i 0 m) => h.dir parent hparent hne i hi.lt
  unfold duplicateTable at hlog ⊢
  rw [present_eq, loop_eq_foldl] at hlog ⊢
  split at hlog
  next hp =>
    rw [if_pos hp]
    refine hnext ?_
    have hloop := Loop.foldl_range (n := 1024) (f := duplicatePage parent child i)
      (fun j m => .missing ∉ m.log → DupInv role₀ m₀ live parent child i j m) (fun _ => h) fun j m' hj ih hlog' => ?_
    · exact hloop hlog
    · have h' := ih ((duplicatePage_grows ..).not_missing hlog')
      refine h'.page hparent hchild hne hk hi hj ?_ hlog'
      rw [h'.dir parent hparent hne i hi.lt, ← hdir h]
      exact hp
  next hp =>
    rw [if_neg hp]
    refine h.skip hparent hne (.inl (Nat.lt_succ_self i)) fun i' j' hj' hdone hold => ?_
    obtain rfl : i' = i := by omega
    unfold backing pte
    rw [Bool.eq_false_of_not_eq_true hp]
    rfl

theorem Inv.duplicate (h : Inv role₀ m₀ live) (hparent : parent ∈ live) (hchild : child ∈ live)
    (hne : parent ≠ child) (hk : child ≠ kernelPg) (hlog : .missing ∉ (m₀.archMmuDuplicate parent child).log) :
    DupInv role₀ m₀ live parent child 1023 0 (m₀.archMmuDuplicate parent child) := by
  unfold archMmuDuplicate at hlog ⊢
  rw [loop_eq_foldl] at hlog ⊢
  have hloop := Loop.foldl_range' (n := 767)
    (fun i m => .missing ∉ m.log → DupInv role₀ m₀ live parent child i 0 m) (fun _ => .refl h)
    fun i m hlo hhi ih hlog' =>
      (ih ((duplicateTable_grows ..).not_missing hlog')).table hparent hchild hne hk ⟨hlo, by omega⟩ hlog'
  exact hloop hlog

end Duplicate

/-! ### New pages -/

variable {vaddr : Nat}

theorem Inv.map_own (h : Inv role m live) (hpd : pd ∈ live)
    (hk : pd ≠ kernelPg ∨ (m.entry pd (pageDirectoryIndex vaddr)).has pgPresent)
    (hi : User (pageDirectoryIndex vaddr)) (hf : role f = .page (pageDirectoryIndex vaddr) (pageTableIndex vaddr))
    (hlt : f < 1048576)
    (hun : ∀ t, Active role live t (pageDirectoryIndex vaddr) → (m.entry t (pageTableIndex vaddr)).has pgPresent →
      (m.entry t (pageTableIndex vaddr)).frame ≠ f)
    (hlog : .missing ∉ (m.addPageToPd pd vaddr (4096 * f) ownFlags).log) :
    ∃ role', Inv role' (m.addPageToPd pd vaddr (4096 * f) ownFlags) live := by
  have hj := pageTableIndex_lt vaddr
  rw [addPageToPd_page] at hlog ⊢
  obtain ⟨role₁, h₁, hadd⟩ := h.addTable hpd hk hi (by decide) hlog
  refine ⟨role₁, h₁.setEntry (h₁.dirs.active hpd hi hadd.present) hj hlt (fun _ => PageOk.own ?_) ?_⟩
  · rw [hadd.ext f (by rw [hf]; nofun), hf]
  · intro _ _ t' ht' hne hp hframe
    have ht : Active role live t' (pageDirectoryIndex vaddr) := ht'.of_eq (hadd.only t' hne).symm
    have hsame : (m.addTable pd (pageDirectoryIndex vaddr) ownFlags).entry t'
        (pageTableIndex vaddr) = m.entry t' (pageTableIndex vaddr) := entry_congr hj fun a ha =>
      hadd.mem a (by rw [ha]; exact ht.ne_free) (by rw [ha]; exact ht.ne_dir (h.dirs.dir hpd))
    rw [hsame] at hp hframe
    exact absurd hframe (hun t' ht hp)

theorem Active.of_page (h : Active (update role f (.page i j)) live t i') :
    Active role live t i' := by
  refine h.of_eq (update_of_ne ?_ _ _).symm
  rintro rfl
  have := h.structural
  rw [update_self] at this
  cases this

theorem Inv.unmapped {frames : Frames} (h : Inv role m live) (hf : Frames.Marked m.frames f frames) (hj : j < 1024)
    (ht : Active (update role f (.page i j)) live t i) (hp : (m.entry t j).has pgPresent) :
    (m.entry t j).frame ≠ f := by
  have hfree := h.alloc.of_free hf.free
  have hold := ht.of_page
  intro heq
  exact (h.pages.page t i j hold hj hp).ne_free (by rw [heq]; exact hfree)

theorem Inv.grow {pAddr : Nat} (h : Inv role m live) (hpd : pd ∈ live) (hk : pd ≠ kernelPg)
    (hi : User (pageDirectoryIndex vaddr)) (halloc : m.allocPage = (some pAddr, m'))
    (hlog : .missing ∉ (m'.addPageToPd pd vaddr pAddr ownFlags).log) :
    ∃ role', Inv role' (m'.addPageToPd pd vaddr pAddr ownFlags) live := by
  obtain ⟨f, rfl, hlt, hmarked, hm'⟩ := allocPage_ok h.alloc.ok halloc
  have h₁ := h.alloc_page hmarked (pageDirectoryIndex vaddr) (pageTableIndex vaddr)
  rw [← hm'] at h₁
  have hj := pageTableIndex_lt vaddr
  refine h₁.map_own hpd (.inl hk) hi (update_self ..) hlt (fun t ht hp => ?_) hlog
  rw [hm'] at hp ⊢
  exact h.unmapped hmarked hj ht hp

def BrkOk (next : Nat) : Prop := userOffset ≤ next ∧ next ≤ memoryEnd - 4096

theorem BrkOk.next {next : Nat} (h : BrkOk next) (hroom : ¬memoryEnd - 4096 < (next + 4096) % wordSize) : BrkOk (next + 4096) := by
  unfold BrkOk userOffset memoryEnd at h ⊢
  unfold memoryEnd wordSize at hroom
  omega

theorem BrkOk.user {next : Nat} (h : BrkOk next) : User (pageDirectoryIndex next) := by
  unfold BrkOk userOffset memoryEnd at h
  unfold User pageDirectoryIndex
  omega

theorem sbrkLoop_grows (pd n : Nat) (m : Mmu) (next : Nat) : LogGrows m (sbrkLoop pd n m next).2.1 := by
  induction n generalizing m next with
  | zero => exact .refl m
  | succ n ih =>
    have hgrows := allocPage_grows m
    unfold sbrkLoop
    split
    · exact .refl m
    split
    next heq => rwa [heq] at hgrows
    rename_i heq
    rw [heq] at hgrows
    split
    · exact hgrows
    · exact (hgrows.trans (addPageToPd_grows ..)).trans (ih _ _)

theorem Inv.sbrkLoop {next : Nat} (h : Inv role m live) (hpd : pd ∈ live) (hk : pd ≠ kernelPg) (hnext : BrkOk next)
    (hlog : .missing ∉ (sbrkLoop pd n m next).2.1.log) :
    BrkOk (sbrkLoop pd n m next).2.2 ∧ ∃ role', Inv role' (sbrkLoop pd n m next).2.1 live := by
  induction n generalizing role m next with
  | zero => exact ⟨hnext, role, h⟩
  | succ n ih =>
    unfold Mmu.sbrkLoop at hlog ⊢
    split at hlog
    · rw [if_pos (by assumption)]
      exact ⟨hnext, role, h⟩
    rename_i hroom
    rw [if_neg hroom]
    have hnext' := hnext.next hroom
    cases halloc : m.allocPage with
    | mk addr m₁ =>
      rw [halloc] at hlog
      cases addr with
      | none =>
        rw [allocPage_none halloc]
        exact ⟨hnext, role, h⟩
      | some addr =>
        dsimp only at hlog ⊢
        split at hlog
        · rw [if_pos (by assumption)]
          obtain ⟨f, rfl, hlt, hmarked, hm₁⟩ := allocPage_ok h.alloc.ok halloc
          have h₁ := h.alloc_page hmarked (pageDirectoryIndex next) (pageTableIndex next)
          rw [← hm₁] at h₁
          exact ⟨hnext, _, h₁⟩
        · rw [if_neg (by assumption)]
          obtain ⟨role₂, h₂⟩ := h.grow hpd hk hnext.user halloc ((sbrkLoop_grows ..).not_missing hlog)
          exact ih h₂ hnext' hlog

/-- What `sbrk` answers, by the answer of `sbrk_page`. -/
def sbrkEnd (b : Brk) (nBytes : Int) (x : Bool × Mmu × Nat) : Option Nat × Mmu × Brk :=
  (if x.1 then some b.brkEnd else none, x.2.1, ⟨if x.1 then b.brkEnd + nBytes.toNat else b.brkEnd, x.2.2⟩)

theorem sbrk_cases (m : Mmu) (pd : Nat) (b : Brk) (nBytes : Int) :
    (∃ r e, ∀ m' : Mmu, m'.frames = m.frames → m'.sbrk pd b nBytes = (r, m', ⟨e, b.brkNextUnallocatedPageBegin⟩)) ∨
    ∃ n, ∀ m' : Mmu, m'.frames = m.frames →
      m'.sbrk pd b nBytes = sbrkEnd b nBytes (sbrkLoop pd n m' b.brkNextUnallocatedPageBegin) := by
  unfold Mmu.sbrk sbrkPage
  by_cases hpos : nBytes ≤ 0
  · exact .inl ⟨_, _, fun m' _ => if_pos hpos⟩
  simp only [if_neg hpos]
  by_cases hfits : nBytes ≤ (b.brkNextUnallocatedPageBegin - b.brkEnd : Int)
  · exact .inl ⟨_, _, fun m' _ => if_pos hfits⟩
  simp only [if_neg hfits]
  generalize (nBytes - (↑b.brkNextUnallocatedPageBegin - ↑b.brkEnd) - 1).toNat / 4096 + 1 = n
  by_cases hmany : m.frames.totalPages + m.frames.usedPhysMem / 4096 < n
  · exact .inl ⟨_, _, fun m' hframes => by rw [hframes, if_pos hmany]⟩
  · refine .inr ⟨n, fun m' hframes => ?_⟩
    rw [hframes, if_neg hmany]
    rcases Mmu.sbrkLoop pd n m' b.brkNextUnallocatedPageBegin with ⟨_ | _, _, _⟩ <;> rfl

theorem Inv.sbrk {b : Brk} {nBytes : Int} (h : Inv role m live) (hpd : pd ∈ live) (hk : pd ≠ kernelPg)
    (hnext : BrkOk b.brkNextUnallocatedPageBegin) (hlog : .missing ∉ (m.sbrk pd b nBytes).2.1.log) :
    BrkOk (m.sbrk pd b nBytes).2.2.brkNextUnallocatedPageBegin ∧ ∃ role', Inv role' (m.sbrk pd b nBytes).2.1 live := by
  rcases sbrk_cases m pd b nBytes with ⟨r, e, hm⟩ | ⟨n, hm⟩
  · rw [hm m rfl]
    exact ⟨hnext, role, h⟩
  · rw [hm m rfl] at hlog ⊢
    exact h.sbrkLoop hpd hk hnext hlog

theorem sbrk_grows (m : Mmu) (pd : Nat) (b : Brk) (nBytes : Int) : LogGrows m (m.sbrk pd b nBytes).2.1 := by
  rcases sbrk_cases m pd b nBytes with ⟨r, e, hm⟩ | ⟨n, hm⟩
  · rw [hm m rfl]
    exact .refl m
  · rw [hm m rfl]
    exact sbrkLoop_grows ..

theorem brkOk_userOffset : BrkOk userOffset := by
  unfold BrkOk
  decide

def load (m : Mmu) (size : Int) : Option (Nat × Mmu) :=
  m.archMmuNewAspace.map fun (pd, m) => (pd, (m.allocInitProcess pd size).1)

theorem load_grows (h : m.load size = some (pd, m')) : LogGrows m m' := by
  obtain ⟨⟨pd', m₁⟩, hnew, heq⟩ := map_eq_some_iff.mp h
  cases heq
  have hlog : m₁.log = m.log := by
    obtain ⟨_, -, heq⟩ := map_eq_some_iff.mp hnew
    cases heq
    rfl
  have hgrows : LogGrows m m₁ := by
    unfold LogGrows
    rw [hlog]
  exact hgrows.trans (sbrk_grows m₁ _ _ _)

theorem Inv.load (h : Inv role m live) (hload : m.load size = some (pd, m')) (hlog : .missing ∉ m'.log) :
    ∃ role', Inv role' m' (pd :: live) := by
  obtain ⟨⟨pd', m₁⟩, hnew, heq⟩ := map_eq_some_iff.mp hload
  cases heq
  obtain ⟨h₁, haspace⟩ := h.newAspace hnew
  refine (h₁.sbrk (mem_cons_self ..) ?_ brkOk_userOffset hlog).2
  rintro rfl
  exact haspace.not_live h.dirs.kernel

/-! ### `handle_COW` -/

structure CowCopied (role : Nat → Role) (m : Mmu) (live : List Nat) (pd i j f : Nat) (m' : Mmu) : Prop where
  dir : ∀ q ∈ live, ∀ i' < 1024, m'.entry q i' = m.entry q i'
  entry : m'.entry (m.entry pd i).frame j = ownEntry f
  back : ∀ q ∈ live, ∀ i' j', User i' → j' < 1024 → m'.backing q i' j' =
    if (m.entry q i').has pgPresent = true ∧ (m.entry q i').frame = (m.entry pd i).frame ∧ j' = j then some (f, true)
    else m.backing q i' j'
  mem : ∀ a, role (a / 4096) ≠ .free → (role (a / 4096)).structural = false → m'.mem a = m.mem a
  copy : ∀ o < 4096, m'.mem (4096 * f + o) = m.mem (4096 * (m.entry (m.entry pd i).frame j).frame + o)

theorem handleCOW_eq (h : m.handleCOW pd parent vaddr = some m') :
    ∃ addr m₁, m.allocUnchecked = (addr, m₁) ∧ LogGrows m₁ m' ∧
      m' = { m₁ with mem := copy m₁.mem (m.archMmuGetPhysical pd (vaddr / 4096 * 4096) / 4096) (addr / 4096) }.addPageToPd
        pd (vaddr / 4096 * 4096) addr ownFlags := by
  unfold handleCOW at h
  dsimp only at h
  split at h
  · cases h
  split at h
  · cases h
  refine ⟨_, _, rfl, ?_, (some.inj h).symm⟩
  rw [← some.inj h]
  refine LogGrows.trans ?_ (addPageToPd_grows _ _ _ _ _)
  exact .refl m.allocUnchecked.2

theorem pageDirectoryIndex_page (vaddr : Nat) : pageDirectoryIndex (vaddr / 4096 * 4096) = pageDirectoryIndex vaddr := by
  unfold pageDirectoryIndex
  omega

theorem pageTableIndex_page (vaddr : Nat) : pageTableIndex (vaddr / 4096 * 4096) = pageTableIndex vaddr := by
  unfold pageTableIndex
  omega

theorem archMmuGetPhysical_page (hp : (m.entry pd (pageDirectoryIndex vaddr)).has pgPresent)
    (hpe : (m.entry (m.entry pd (pageDirectoryIndex vaddr)).frame (pageTableIndex vaddr)).has pgPresent) :
    m.archMmuGetPhysical pd (vaddr / 4096 * 4096) / 4096 =
      (m.entry (m.entry pd (pageDirectoryIndex vaddr)).frame (pageTableIndex vaddr)).frame := by
  unfold archMmuGetPhysical
  rw [pageDirectoryIndex_page, pageTableIndex_page, if_neg, if_neg, Nat.mul_mod_left, Nat.add_zero,
    Nat.mul_div_cancel_left _ (by decide)]
  · rw [hpe]
    exact fun h => by cases h.1
  · intro hempty
    rw [hempty] at hp
    cases hp

theorem Inv.handleCOW (h : Inv role m live) (hpd : pd ∈ live) (hi : User (pageDirectoryIndex vaddr))
    (hp : (m.entry pd (pageDirectoryIndex vaddr)).has pgPresent)
    (hpe : (m.entry (m.entry pd (pageDirectoryIndex vaddr)).frame (pageTableIndex vaddr)).has pgPresent)
    (hcow : m.handleCOW pd parent vaddr = some m') (hlog : .missing ∉ m'.log) :
    ∃ f, CowCopied role m live pd (pageDirectoryIndex vaddr) (pageTableIndex vaddr) f m' ∧
      Inv (update role f (.page (pageDirectoryIndex vaddr) (pageTableIndex vaddr))) m' live := by
  have hj := pageTableIndex_lt vaddr
  have hdi := pageDirectoryIndex_page vaddr
  have hti := pageTableIndex_page vaddr
  have hphys := archMmuGetPhysical_page hp hpe
  generalize hidx : pageDirectoryIndex vaddr = i at *
  generalize hjdx : pageTableIndex vaddr = j at *
  have ht := h.dirs.active hpd hi hp
  generalize hT : (m.entry pd i).frame = t at *
  obtain ⟨addr, m₁, halloc, hgrows, hm'⟩ := handleCOW_eq hcow
  obtain ⟨f, rfl, hlt, hmarked, hm₁⟩ := allocUnchecked_ok h.alloc.ok halloc (hgrows.not_missing hlog)
  rw [hm', hphys, Nat.mul_div_cancel_left f (by decide), addPageToPd_page, hdi, hti]
  have hfree := h.alloc.of_free hmarked.free
  have hne : ∀ g, role g ≠ .free → g ≠ f := fun g hg hgf => hg (hgf ▸ hfree)
  -- the frame is taken, then the page copied
  have h₁ := h.alloc_page hmarked i j
  rw [← hm₁] at h₁
  have h₂ : Inv (update role f (.page i j)) { m₁ with mem := copy m₁.mem (m.entry t j).frame f } live := by
    refine h₁.write fun a ha => copy_of_ne ?_
    intro haf
    rw [haf, update_self] at ha
    cases ha
  have hmem₁ : m₁.mem = m.mem := by rw [hm₁]
  have hmem : ∀ a, a / 4096 ≠ f → copy m₁.mem (m.entry t j).frame f a = m.mem a := by
    intro a ha
    rw [copy_of_ne ha, hmem₁]
  generalize hm₂ : { m₁ with mem := copy m₁.mem (m.entry t j).frame f } = m₂ at *
  have hmem₂ : ∀ a, a / 4096 ≠ f → m₂.mem a = m.mem a := by
    rw [← hm₂]
    exact hmem
  have hentry : ∀ p, role p ≠ .free → ∀ j < 1024, m₂.entry p j = m.entry p j :=
    fun p hp j hj => entry_congr hj fun a ha => hmem₂ a (by rw [ha]; exact hne p hp)
  have hdirs : ∀ q ∈ live, ∀ i' < 1024, m₂.entry q i' = m.entry q i' :=
    fun q hq => hentry q (by rw [h.dirs.dir hq]; nofun)
  have ht₂ : Active (update role f (.page i j)) live t i :=
    ht.of_eq (update_of_ne (hne t ht.ne_free) _ _)
  rw [addTable_of_present (by rw [hdirs pd hpd i hi.lt]; exact hp), hdirs pd hpd i hi.lt, hT]
  have hdir := entry_dir_setEntry (e := ownEntry f) h ht hj m₂
  refine ⟨f, ⟨?_, ?_, ?_, ?_, ?_⟩, h₂.setEntry ht₂ hj hlt (fun _ => PageOk.own (update_self ..)) ?_⟩
  · exact fun q hq i' hi' => (hdir q hq i' hi').trans (hdirs q hq i' hi')
  · rw [hT]
    exact entry_setEntry_self hlt
  · intro q hq i' j' hi' hj'
    have hback := backing_setEntry (m := m₂) ht hj hlt (ownEntry_present f) (h.dirs.dir hq) hi' hj'
    rw [hdirs q hq i' hi'.lt, ownEntry_owned] at hback
    rw [hT]
    refine hback.trans ?_
    split
    · rfl
    · unfold backing
      rw [pte_congr (hdirs q hq i' hi'.lt) fun hp' => hentry _ (h.dirs.active hq hi' hp').ne_free j' hj']
  · exact fun a ha hs => (setWord_of_ne hj (ht.ne_of_data hs)).trans (hmem₂ a (hne _ ha))
  · intro o ho
    have hset : (m₂.setEntry t j (ownEntry f)).mem (4096 * f + o) = m₂.mem (4096 * f + o) :=
      setWord_of_ne hj (by
        rw [show (4096 * f + o) / 4096 = f by omega]
        exact (hne t ht.ne_free).symm)
    rw [hT]
    refine hset.trans ?_
    rw [← hm₂, ← hmem₁]
    exact copy_self ho
  · intro _ _ t' ht' _ hp' hframe
    refine absurd hframe ?_
    rw [hentry t' ht'.of_page.ne_free j hj] at hp' ⊢
    exact h.unmapped hmarked hj ht' hp'

/-! ### `arch_mmu_destroyAspace` -/

/-- The frame `f` was freed between `m` and `m'`. -/
def FreedSince (m m' : Mmu) (f : Nat) : Prop := ∃ recent, m'.log = recent ++ m.log ∧ .free f ∈ recent

def Exclusive (role : Nat → Role) (m : Mmu) (live : List Nat) (pd : Nat) (all : Bool) : Prop :=
  ∀ t i j, i < 576 → role t = .table pd i → j < 1024 → (m.entry t j).has pgPresent = true →
    (m.entry t j).has pgOwned = true → (all = true ∨ (m.entry t j).has pgWrite = true) →
    ∀ t', Active role live t' i → t' ≠ t → (m.entry t' j).has pgPresent = true →
      (m.entry t' j).frame ≠ (m.entry t j).frame

section Destroy
variable {m₀ : Mmu} {all : Bool}

structure DestroyInv (m₀ : Mmu) (live : List Nat) (pd : Nat) (all : Bool) (role : Nat → Role) (m : Mmu) : Prop where
  inv : Inv role m live
  exclusive : Exclusive role m live pd all
  grows : LogGrows m₀ m
  freed : ∀ f, FreedSince m₀ m f → role f = .free

theorem FreedSince.cons {ev : FrameEvent} (hgrows : LogGrows m₀ m) (hlog : m'.log = ev :: m.log)
    (h : FreedSince m₀ m' f) : ev = .free f ∨ FreedSince m₀ m f := by
  obtain ⟨recent, hrecent, hmem⟩ := h
  obtain ⟨old, hold⟩ := hgrows
  rw [hlog, ← hold, ← cons_append] at hrecent
  rw [← append_cancel_right hrecent] at hmem
  exact (mem_cons.mp hmem).imp Eq.symm fun hmem => ⟨old, hold.symm, hmem⟩

theorem free_of_freed (h : ∀ f, FreedSince m₀ m f → role f = .free)
    (hg : FrameEvent.free f = .free g ∨ FreedSince m₀ m g) : update role f .free g = .free := by
  by_cases hgf : g = f
  · rw [hgf]
    exact update_self ..
  · rw [update_of_ne hgf]
    exact h g (hg.resolve_left fun heq => hgf (FrameEvent.free.inj heq).symm)

theorem Exclusive.remove (h : Exclusive role m live pd all)
    (he : ∀ t i j, Active role live t i → j < 1024 → (m'.entry t j).has pgPresent → m'.entry t j = m.entry t j)
    (hpd : pd ∈ live) : Exclusive (update role f .free) m' live pd all := by
  have hne : ∀ {t}, update role f .free t ≠ .free → role t = update role f .free t := by
    intro t ht
    refine (update_of_ne ?_ _ _).symm
    rintro rfl
    exact ht (update_self ..)
  intro t i j hi ht hj hp ho hw t' ht' htt hp'
  have htold := hne (by rw [ht]; nofun)
  have hactive : Active role live t i := .inr ⟨pd, hpd, by rw [htold, ht]⟩
  have hactive' := ht'.of_eq (hne ht'.ne_free)
  have heq := he t i j hactive hj hp
  have heq' := he t' i j hactive' hj hp'
  rw [heq] at hp ho hw ⊢
  rw [heq'] at hp' ⊢
  exact h t i j hi (by rw [htold, ht]) hj hp ho hw t' hactive' htt hp'

theorem Inv.own_table (h : Inv role m live) (hpd : pd ∈ live) (hi : User i) (hlo : i < 960)
    (hp : (m.entry pd i).has pgPresent) : role (m.entry pd i).frame = .table pd i := by
  rcases (h.dirs.pde pd hpd i hi hp).role with hrole | ⟨hrole, -⟩
  · exact hrole
  · have := (h.dirs.kern _ _ hrole).1
    omega

section
variable (h : DestroyInv m₀ live pd all role m) (hpd : pd ∈ live) (hi : User i) (hto : i < 576)
include h hpd hi hto

theorem DestroyInv.page (hj : j < 1024) (hp : (m.entry pd i).has pgPresent) :
    (destroyPage pd all i m j).entry pd i = m.entry pd i ∧
      ∃ role', DestroyInv m₀ live pd all role' (destroyPage pd all i m j) := by
  have hrole := h.inv.own_table hpd hi (by omega) hp
  have ht := h.inv.dirs.active hpd hi hp
  unfold destroyPage
  dsimp only
  rw [present_eq]
  generalize (m.entry pd i).frame = t at *
  split
  next hcond =>
    simp only [Bool.and_eq_true, Bool.or_eq_true] at hcond
    obtain ⟨⟨hpe, ho⟩, hw⟩ := hcond
    have hpage := (h.inv.pages.page t i j ht hj hpe).owned ho
    have hself : (m.setEntry t j .empty).entry t j = .empty := entry_setEntry_self (by decide)
    have hother : ∀ t' j', j' < 1024 → ¬(t' = t ∧ j' = j) → (m.setEntry t j .empty).entry t' j' = m.entry t' j' :=
      fun t' j' hj' hne => entry_setEntry_of_ne hj hj' hne
    have hgone : ∀ t' j', j' < 1024 → ((m.setEntry t j .empty).entry t' j').has pgPresent →
        ¬(t' = t ∧ j' = j) := by
      rintro t' j' hj' hp' ⟨rfl, rfl⟩
      rw [hself] at hp'
      cases hp'
    have h₁ : Inv role (m.setEntry t j .empty) live := h.inv.setEntry ht hj (by decide) nofun nofun
    refine ⟨hother pd i hi.lt fun hpt => ht.ne_dir (h.inv.dirs.dir hpd) hpt.1.symm,
      update role (m.entry t j).frame .free, ⟨?_, ?_, ?_, ?_⟩⟩
    · refine h₁.free_page hpage fun t' ht' hp' => ?_
      have hne := hgone t' j hj hp'
      rw [hother t' j hj hne] at hp' ⊢
      exact h.exclusive t i j hto hrole hj hpe ho hw t' ht' (fun h => hne ⟨h, rfl⟩) hp'
    · exact h.exclusive.remove (fun t' i' j' _ hj' hp' => hother t' j' hj' (hgone t' j' hj' hp')) hpd
    · exact h.grows.trans (freePage_grows m _)
    · exact fun g hg => free_of_freed h.freed (hg.cons h.grows rfl)
  · exact ⟨rfl, role, h⟩

theorem DestroyInv.pages (hn : n ≤ 1024) (hp : (m.entry pd i).has pgPresent) :
    ((List.range n).foldl (destroyPage pd all i) m).entry pd i = m.entry pd i ∧
      ∃ role', DestroyInv m₀ live pd all role' ((List.range n).foldl (destroyPage pd all i) m) := by
  refine Loop.foldl_range
    (fun _ m' => m'.entry pd i = m.entry pd i ∧ ∃ role', DestroyInv m₀ live pd all role' m') ⟨rfl, role, h⟩ ?_
  rintro j m' hj ⟨hdir, role', h'⟩
  obtain ⟨hsame, hnext⟩ := h'.page hpd hi hto (Nat.lt_of_lt_of_le hj hn) (by rw [hdir]; exact hp)
  exact ⟨hsame.trans hdir, hnext⟩

theorem DestroyInv.free_table (hp : (m.entry pd i).has pgPresent) :
    ∃ role', DestroyInv m₀ live pd all role' ((m.freePage (m.entry pd i).frame).setEntry pd i .empty) := by
  have hrole := h.inv.own_table hpd hi (by omega) hp
  have hother : ∀ t' i' j', Active role live t' i' → j' < 1024 →
      ((m.freePage (m.entry pd i).frame).setEntry pd i .empty).entry t' j' = m.entry t' j' :=
    fun t' i' j' ht' hj' => entry_setEntry_of_ne hi.lt hj' fun h' => ht'.ne_dir (h.inv.dirs.dir hpd) h'.1
  refine ⟨_, h.inv.free_table hpd hrole, ?_, h.grows.trans (freePage_grows m _), ?_⟩
  · exact h.exclusive.remove (fun t' i' j' ht' hj' _ => hother t' i' j' ht' hj') hpd
  · exact fun g hg => free_of_freed h.freed (hg.cons h.grows rfl)

theorem DestroyInv.table : ∃ role', DestroyInv m₀ live pd all role' (destroyTable pd all m i) := by
  unfold destroyTable
  rw [present_eq, loop_eq_foldl]
  split
  next hp =>
    obtain ⟨hdir, role₁, h₁⟩ := h.pages hpd hi hto (Nat.le_refl 1024) hp
    dsimp only
    split
    · exact h₁.free_table hpd hi hto (by rw [hdir]; exact hp)
    · exact ⟨role₁, h₁⟩
  · exact ⟨role, h⟩

end

theorem Inv.destroy (h : Inv role m live) (hpd : pd ∈ live) (hex : Exclusive role m live pd all) :
    ∃ role', DestroyInv m live pd all role' (m.archMmuDestroyAspace pd all) := by
  have hstart : DestroyInv m live pd all role m := by
    refine ⟨h, hex, .refl m, ?_⟩
    rintro f ⟨recent, hrecent, hmem⟩
    rw [self_eq_append_left.mp hrecent] at hmem
    cases hmem
  unfold archMmuDestroyAspace
  rw [loop_eq_foldl]
  exact Loop.foldl_range'
    (fun _ m' => ∃ role', DestroyInv m live pd all role' m') ⟨role, hstart⟩
    fun i m' hlo hhi ⟨role', h'⟩ => h'.table hpd ⟨hlo, by omega⟩ hhi

end Destroy

end Mmu
end HelinKern
