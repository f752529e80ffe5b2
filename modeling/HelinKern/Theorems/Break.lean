import HelinKern.Theorems.CopyOnWrite
import HelinKern.Theorems.Twin

/-! The memory of a process between `USER_OFFSET` and its break: what a sequence of `sbrk` calls maps there, and what a call
    that fails leaves behind. -/

namespace HelinKern
namespace Mmu
open Paged FrameEvent Lts List Option

variable {next' : Nat} {b' : Brk} {r : Option Nat}
variable {role : Nat → Role} {live : List Nat} {m m₁ m' : Mmu} {pd f v w next : Nat}

def OwnsAt (m : Mmu) (pd v f : Nat) : Prop := m.pte pd (pageDirectoryIndex v) (pageTableIndex v) = some (ownEntry f)

theorem Inv.addTable_log {i : Nat} {flags : BitVec 12} (h : Inv role m live) (hpd : pd ∈ live) (hi : User i)
    (hlog : .missing ∉ (m.addTable pd i flags).log) :
    (m.addTable pd i flags).log = m.log ∨
      (m.addTable pd i flags).log = .alloc ((m.addTable pd i flags).entry pd i).frame :: m.log := by
  cases hp : (m.entry pd i).has pgPresent with
  | true => exact .inl (by rw [addTable_of_present hp])
  | false =>
    obtain ⟨f, -, hne, hlt, haddr⟩ := h.addTable_free hpd hp hlog
    have hat : AddedAt m pd i f flags (m.addTable pd i flags) := addTable_absent hp hlt haddr
    rw [hat.log] at hlog
    obtain ⟨g, hg, -, -, hm⟩ := allocUnchecked_ok h.alloc.ok rfl hlog
    obtain rfl : g = f := Nat.eq_of_mul_eq_mul_left (by decide : 0 < 4096) (hg.symm.trans haddr)
    right
    rw [hat.log, hat.dir hi.lt hlt hne]
    exact congrArg Mmu.log hm

structure PageAdded (m : Mmu) (live : List Nat) (pd v f : Nat) (m' : Mmu) : Prop where
  inv : ∃ role, Inv role m' live
  owns : m'.OwnsAt pd v f
  others : ∀ i j, User i → j < 1024 → ¬(i = pageDirectoryIndex v ∧ j = pageTableIndex v) → m'.pte pd i j = m.pte pd i j
  tables : ∀ i, User i → (m.entry pd i).has pgPresent = true → m'.entry pd i = m.entry pd i
  dir : ∀ i < 1024, i ≠ pageDirectoryIndex v → m'.entry pd i = m.entry pd i
  present : (m'.entry pd (pageDirectoryIndex v)).has pgPresent
  log : ∃ new, m'.log = new ++ .alloc f :: m.log ∧ ∀ g, .alloc g ∈ new →
    (m'.entry pd (pageDirectoryIndex v)).has pgPresent = true ∧ (m'.entry pd (pageDirectoryIndex v)).frame = g

theorem Inv.addPage (h : Inv role m live) (hpd : pd ∈ live) (hk : pd ≠ kernelPg) (hi : User (pageDirectoryIndex v))
    (halloc : m.allocPage = (some (4096 * f), m₁))
    (hlog : .missing ∉ (m₁.addPageToPd pd v (4096 * f) ownFlags).log) :
    PageAdded m live pd v f (m₁.addPageToPd pd v (4096 * f) ownFlags) := by
  have hj := pageTableIndex_lt v
  obtain ⟨g, hg, hlt, hmarked, hm₁⟩ := allocPage_ok h.alloc.ok halloc
  obtain rfl : g = f := by omega
  have h₁ := h.alloc_page hmarked (pageDirectoryIndex v) (pageTableIndex v)
  rw [← hm₁] at h₁
  have hinv := h.grow hpd hk hi halloc hlog
  rw [addPageToPd_page] at hlog hinv ⊢
  have hlog₁ : m₁.log = .alloc g :: m.log := congrArg Mmu.log hm₁
  have hentry₁ : ∀ p j, m₁.entry p j = m.entry p j := by
    intro p j
    rw [hm₁]
    rfl
  have hpte₁ : ∀ i j, m₁.pte pd i j = m.pte pd i j := by
    intro i j
    rw [hm₁]
    rfl
  obtain ⟨role₂, h₂, hadd⟩ := h₁.addTable hpd (.inl hk) hi (by decide) hlog
  have hactive := h₂.dirs.active hpd hi hadd.present
  have hdir := h₂.dirs.dir hpd
  -- the table of `v` is no directory, so that the entries of `pd` stay
  have hpde : ∀ i, i < 1024 → ((m₁.addTable pd (pageDirectoryIndex v) ownFlags).setEntry
      ((m₁.addTable pd (pageDirectoryIndex v) ownFlags).entry pd
        (pageDirectoryIndex v)).frame (pageTableIndex v) (ownEntry g)).entry pd i =
      (m₁.addTable pd (pageDirectoryIndex v) ownFlags).entry pd i := by
    intro i hi
    exact entry_setEntry_of_ne hj hi fun hsame => hactive.ne_dir hdir hsame.1.symm
  refine ⟨hinv, ?_, ?_, ?_, ?_, ?_, ?_⟩
  · unfold OwnsAt
    refine (pte_setEntry hactive hj (by exact hlt) hdir hi hj).trans ?_
    rw [if_pos ⟨hadd.present, rfl, rfl⟩]
    exact if_pos (ownEntry_present g)
  · intro i j hi' hj' hne
    refine (pte_setEntry hactive hj (by exact hlt) hdir hi' hj').trans ?_
    rw [if_neg, hadd.pte_eq h₁ hpd hpd hi' hj', hpte₁]
    rintro ⟨hp, hframe, rfl⟩
    refine hne ⟨?_, rfl⟩
    exact hactive.index_eq (hframe ▸ h₂.dirs.active hpd hi' hp)
  · intro i hi' hp
    refine (hpde i hi'.lt).trans ?_
    by_cases heq : i = pageDirectoryIndex v
    · subst heq
      rw [(hadd.old (by rw [hentry₁]; exact hp)).2, hentry₁]
    · rw [hadd.dir i hi'.lt heq, hentry₁]
  · intro i hi' hne
    exact (hpde i hi').trans (by rw [hadd.dir i hi' hne, hentry₁])
  · exact (congrArg (Entry.has · pgPresent) (hpde _ hi.lt)).trans hadd.present
  · rcases h₁.addTable_log hpd hi hlog with hsame | hnew
    · refine ⟨[], ?_, nofun⟩
      exact hsame.trans hlog₁
    refine ⟨[.alloc (Mmu.entry _ pd (pageDirectoryIndex v)).frame], hnew.trans (by rw [hlog₁]; rfl), fun g' hg' => ?_⟩
    have hpde' := hpde (pageDirectoryIndex v) hi.lt
    rw [mem_singleton, FrameEvent.alloc.injEq] at hg'
    subst hg'
    exact ⟨(congrArg (Entry.has · pgPresent) hpde').trans hadd.present, congrArg Entry.frame hpde'⟩

def PageIn (a b v : Nat) : Prop := a ≤ v ∧ v < b ∧ v % 4096 = 0

/-- `v` is a page below `0xFFC00000` that user processes may have. -/
def UserPage (v : Nat) : Prop := PageIn userOffset memoryEnd v

theorem UserPage.user (h : UserPage v) : User (pageDirectoryIndex v) := by
  unfold UserPage PageIn userOffset memoryEnd at h
  unfold User pageDirectoryIndex
  omega

theorem UserPage.ext (hv : UserPage v) (hw : UserPage w) (hi : pageDirectoryIndex v = pageDirectoryIndex w)
    (hj : pageTableIndex v = pageTableIndex w) : v = w := by
  unfold UserPage PageIn userOffset memoryEnd at hv hw
  unfold pageDirectoryIndex at hi
  unfold pageTableIndex at hj
  omega

/-- What `sbrk_page` did from `next` up to `next'`: each page there has a frame below 2 GiB, other pages and the tables that
    were there are as before, and each frame that was taken is one of these, a table of `pd`, or lies above 2 GiB. -/
structure Extended (m : Mmu) (live : List Nat) (pd next : Nat) (m' : Mmu) (next' : Nat) : Prop where
  inv : ∃ role, Inv role m' live
  le : next ≤ next'
  aligned : next' % 4096 = 0
  top : next' ≤ memoryEnd - 4096
  mapped : ∀ v, PageIn next next' v → ∃ f < 524288, m'.OwnsAt pd v f
  others : ∀ v, UserPage v → ¬PageIn next next' v →
    m'.pte pd (pageDirectoryIndex v) (pageTableIndex v) = m.pte pd (pageDirectoryIndex v) (pageTableIndex v)
  tables : ∀ i, User i → (m.entry pd i).has pgPresent = true → m'.entry pd i = m.entry pd i
  log : ∃ new, m'.log = new ++ m.log ∧ ∀ f, .alloc f ∈ new → (∃ v, PageIn next next' v ∧ m'.OwnsAt pd v f) ∨
    (∃ i, User i ∧ (m'.entry pd i).has pgPresent = true ∧ (m'.entry pd i).frame = f) ∨ 524288 ≤ f

/-- Why `sbrk_page` may stop: at the limit, without a free frame, or with a frame from 2 GiB on. -/
def Stopped (m m' : Mmu) (next' : Nat) : Prop :=
  memoryEnd - 4096 < next' + 4096 ∨ (∀ f, ¬m'.frames.Free f) ∨
    ∃ f new, 524288 ≤ f ∧ m'.log = .alloc f :: new ∧ m.log <:+ new

theorem Extended.refl (h : Inv role m live) (hnext : BrkOk next) (haligned : next % 4096 = 0) :
    Extended m live pd next m next where
  inv := ⟨role, h⟩
  le := Nat.le_refl _
  aligned := haligned
  top := hnext.2
  mapped _ hv := absurd hv.2.1 (Nat.not_lt.mpr hv.1)
  others _ _ _ := rfl
  tables _ _ _ := rfl
  log := ⟨[], rfl, nofun⟩

theorem PageAdded.extended (h : PageAdded m live pd next f m₁) (hf : f < 524288) (hnext : BrkOk next)
    (haligned : next % 4096 = 0) (hrest : Extended m₁ live pd (next + 4096) m' next') :
    Extended m live pd next m' next' := by
  have hpage : UserPage next := by
    unfold BrkOk at hnext
    unfold UserPage PageIn memoryEnd at *
    omega
  have hle := hrest.le
  have hself : PageIn next next' next := ⟨Nat.le_refl _, by omega, haligned⟩
  have howns : m'.OwnsAt pd next f := by
    unfold OwnsAt
    rw [hrest.others next hpage fun hin => by have := hin.1; omega]
    exact h.owns
  have hsplit : ∀ v, PageIn next next' v → v = next ∨ PageIn (next + 4096) next' v := by
    rintro v ⟨hlo, hhi, hv⟩
    rcases Nat.eq_or_lt_of_le hlo with heq | hlt
    · exact .inl heq.symm
    · exact .inr ⟨by omega, hhi, hv⟩
  have hmono : ∀ v, PageIn (next + 4096) next' v → PageIn next next' v := fun v hv => ⟨by have := hv.1; omega, hv.2⟩
  refine ⟨hrest.inv, by omega, hrest.aligned, hrest.top, ?_, ?_, ?_, ?_⟩
  · intro v hv
    rcases hsplit v hv with rfl | hv
    · exact ⟨f, hf, howns⟩
    · exact hrest.mapped v hv
  · intro v hv hout
    rw [hrest.others v hv fun hin => hout (hmono v hin)]
    refine h.others _ _ hv.user (Nat.mod_lt _ (by decide)) fun hsame => ?_
    rw [hv.ext hpage hsame.1 hsame.2] at hout
    exact hout hself
  · intro i hi hp
    rw [hrest.tables i hi (by rw [h.tables i hi hp]; exact hp), h.tables i hi hp]
  · obtain ⟨new, hlog, hnew⟩ := hrest.log
    obtain ⟨newTable, hlog₁, htable⟩ := h.log
    refine ⟨new ++ (newTable ++ [.alloc f]), by rw [hlog, hlog₁]; simp, fun g hg => ?_⟩
    rw [mem_append, mem_append, mem_singleton, FrameEvent.alloc.injEq] at hg
    rcases hg with hg | hg | rfl
    · rcases hnew g hg with ⟨v, hv, ho⟩ | hold
      · exact .inl ⟨v, hmono v hv, ho⟩
      · exact .inr hold
    · obtain ⟨hp, hframe⟩ := htable g hg
      have hsame := hrest.tables _ hpage.user hp
      exact .inr (.inl ⟨_, hpage.user, by rw [hsame]; exact hp, by rw [hsame]; exact hframe⟩)
    · exact .inl ⟨next, hself, howns⟩

def neededPages (b : Brk) (nBytes : Int) : Nat :=
  (nBytes - (b.brkNextUnallocatedPageBegin - b.brkEnd : Int) - 1).toNat / 4096 + 1

/-- `sbrk_page` refuses to try: it is asked for more pages than all frames and the used ones together. -/
def TooMany (m : Mmu) (b : Brk) (nBytes : Int) : Prop :=
  m.frames.totalPages + m.frames.usedPhysMem / 4096 < neededPages b nBytes

/-- `brk_end` and `brk_next_unallocated_page_begin` of a process. -/
structure BrkBounds (b : Brk) : Prop where
  lo : userOffset ≤ b.brkEnd
  le : b.brkEnd ≤ b.brkNextUnallocatedPageBegin
  aligned : b.brkNextUnallocatedPageBegin % 4096 = 0
  top : b.brkNextUnallocatedPageBegin ≤ memoryEnd - 4096

variable {b : Brk} {nBytes : Int}

theorem BrkBounds.ok (h : BrkBounds b) : BrkOk b.brkNextUnallocatedPageBegin := ⟨Nat.le_trans h.lo h.le, h.top⟩

structure Answered (m : Mmu) (live : List Nat) (pd : Nat) (b : Brk) (nBytes : Int) (r : Option Nat) (m' : Mmu) (b' : Brk) :
    Prop where
  extended : Extended m live pd b.brkNextUnallocatedPageBegin m' b'.brkNextUnallocatedPageBegin
  bounds : BrkBounds b'
  some : ∀ p, r = some p → p = b.brkEnd ∧ b'.brkEnd = b.brkEnd + nBytes.toNat
  none : r = none → b'.brkEnd = b.brkEnd ∧ (Stopped m m' b'.brkNextUnallocatedPageBegin ∨ TooMany m b nBytes)

def frameAt (m : Mmu) (pd v : Nat) : Option Nat := (m.translate pd v).map fun a => a.phys / 4096

theorem Inv.frameAt_eq (h : Inv role m live) (hpd : pd ∈ live) (hi : User (pageDirectoryIndex v)) :
    m.frameAt pd v = (m.pte pd (pageDirectoryIndex v) (pageTableIndex v)).map Entry.frame := by
  unfold frameAt
  rw [Cow.translate_user h hpd hi, Option.map_map]
  congr 1
  funext e
  show (4096 * e.frame + v % 4096) / 4096 = e.frame
  omega

/-- The memory of a process up to its break: each page of it has a frame that is taken from the allocator, and that no
    other page of this or another process has. It is short enough for the `int` in which `sbrk` computes what is left. -/
structure Window (live : List Nat) (pd : Nat) (m : Mmu) (b : Brk) : Prop where
  bounds : BrkBounds b
  short : b.brkNextUnallocatedPageBegin - userOffset < 2147483648
  backed : ∀ v, PageIn userOffset b.brkNextUnallocatedPageBegin v → ∃ f, m.frameAt pd v = some f ∧ m.frames.Held f ∧
    ∀ q ∈ live, ∀ w, UserPage w → m.frameAt q w = some f → q = pd ∧ w = v

structure BrkInv (live : List Nat) (pd : Nat) (m : Mmu) (b : Brk) : Prop where
  inv : ∃ role, Inv role m live
  bounds : BrkBounds b
  mapped : ∀ v, PageIn userOffset b.brkNextUnallocatedPageBegin v → ∃ f < 524288, m.OwnsAt pd v f

theorem BrkBounds.userPage (h : BrkBounds b) (hv : PageIn userOffset b.brkNextUnallocatedPageBegin v) : UserPage v := by
  have htop := h.top
  have hhi := hv.2.1
  refine ⟨hv.1, ?_, hv.2.2⟩
  omega

section
variable (h : Inv role m live) (hpd : pd ∈ live) (hv : UserPage v)
include h hpd hv

theorem Inv.ownsAt_role (ho : m.OwnsAt pd v f) : role f = .page (pageDirectoryIndex v) (pageTableIndex v) :=
  (h.pte_ok hpd hv.user (Nat.mod_lt _ (by decide)) ho).owned (ownEntry_owned f)

theorem Inv.ownsAt_inj (hw : UserPage w) (ho : m.OwnsAt pd v f) (ho' : m.OwnsAt pd w f) : v = w := by
  have hrole := (h.ownsAt_role hpd hv ho).symm.trans (h.ownsAt_role hpd hw ho')
  injection hrole with hi hj
  exact hv.ext hw hi hj

theorem Inv.ownsAt_frame (ho : m.OwnsAt pd v f) : m.frameAt pd v = some f := by
  rw [h.frameAt_eq hpd hv.user, ho]
  rfl

end

theorem BrkInv.short (h : BrkInv live pd m b) (hpd : pd ∈ live) :
    b.brkNextUnallocatedPageBegin - userOffset < 2147483648 := by
  obtain ⟨role, hinv⟩ := h.inv
  by_contra hlong
  have hpage (k : Fin 524288) : PageIn userOffset b.brkNextUnallocatedPageBegin (userOffset + 4096 * k) := by
    refine ⟨Nat.le_add_right .., by omega, ?_⟩
    unfold userOffset
    omega
  have huser k := h.bounds.userPage (hpage k)
  choose frame hlt howns using fun k => h.mapped _ (hpage k)
  have hinj : Function.Injective fun k => (⟨frame k, hlt k⟩ : Fin 524288) := by
    intro k l heq
    have hsame : frame k = frame l := congrArg Fin.val heq
    have hpages := hinv.ownsAt_inj hpd (huser k) (huser l) (howns k) (hsame ▸ howns l)
    exact Fin.ext (by omega)
  obtain ⟨k, hk⟩ := Finite.injective_iff_surjective.mp hinj ⟨kernelPg, by decide⟩
  have hframe : frame k = kernelPg := congrArg Fin.val hk
  have hrole := hinv.ownsAt_role hpd (huser k) (howns k)
  rw [hframe, hinv.dirs.dir hinv.dirs.kernel] at hrole
  cases hrole

theorem Inv.ownsAt_alone {q : Nat} (h : Inv role m live) (hpd : pd ∈ live) (hv : UserPage v) (hlow : pageDirectoryIndex v < 960)
    (ho : m.OwnsAt pd v f) (hq : q ∈ live) (hw : UserPage w) (hframe : m.frameAt q w = some f) : q = pd ∧ w = v := by
  have hj := pageTableIndex_lt w
  have hrole := h.ownsAt_role hpd hv ho
  rw [h.frameAt_eq hq hw.user] at hframe
  obtain ⟨e, he, rfl⟩ := map_eq_some_iff.mp hframe
  have hok := h.pte_ok hq hw.user hj he
  have howned : e.has pgOwned := by
    by_contra hne
    rw [(hok.other (by simpa using hne)).1] at hrole
    cases hrole
  have hsame := (hok.owned howned).symm.trans hrole
  injection hsame with hi' hj'
  obtain rfl : w = v := hw.ext hv hi' hj'
  -- only one table has an entry for this frame, since the process may write it
  obtain ⟨hp, htable⟩ := h.pte_alone hpd hq hv.user hj ho he (ownEntry_owned _) (Entry.has_of_flags _ (by decide)) rfl
  obtain ⟨-, hdir | ⟨hkern, -⟩⟩ := h.same_table hpd hq hv.user hw.user (pte_eq_some.mp ho).1 hp htable
  · exact ⟨hdir, rfl⟩
  · omega

theorem BrkInv.window (h : BrkInv live pd m b) (hpd : pd ∈ live) : Window live pd m b := by
  have hshort := h.short hpd
  obtain ⟨role, hinv⟩ := h.inv
  refine ⟨h.bounds, hshort, fun v hv => ?_⟩
  obtain ⟨f, -, howns⟩ := h.mapped v hv
  have hpage := h.bounds.userPage hv
  have hlow : pageDirectoryIndex v < 960 := by
    have hhi := hv.2.1
    unfold userOffset at hshort
    unfold pageDirectoryIndex
    omega
  exact ⟨f, hinv.ownsAt_frame hpd hpage howns, hinv.alloc.page _ _ _ (hinv.ownsAt_role hpd hpage howns),
    fun q hq w hw hframe => hinv.ownsAt_alone hpd hpage hlow howns hq hw hframe⟩

theorem BrkInv.sbrk (h : BrkInv live pd m b) (ha : Answered m live pd b nBytes r m' b') : BrkInv live pd m' b' := by
  refine ⟨ha.extended.inv, ha.bounds, fun v hv => ?_⟩
  rcases Nat.lt_or_ge v b.brkNextUnallocatedPageBegin with hlt | hge
  · obtain ⟨f, hf, howns⟩ := h.mapped v ⟨hv.1, hlt, hv.2.2⟩
    refine ⟨f, hf, ?_⟩
    unfold OwnsAt
    rw [ha.extended.others v (ha.bounds.userPage hv) fun hin => Nat.not_lt.mpr hin.1 hlt]
    exact howns
  · exact ha.extended.mapped v ⟨hge, hv.2⟩

theorem BrkInv.start (h : Inv role m live) : BrkInv live pd m ⟨userOffset, userOffset⟩ where
  inv := ⟨role, h⟩
  bounds := ⟨Nat.le_refl _, Nat.le_refl _, by decide, by decide⟩
  mapped _ hv := absurd hv.2.1 (Nat.not_lt.mpr hv.1)

def first : Mmu := (small.archMmuInit.archMmuNewAspace.map Prod.snd).getD small

end Mmu
end HelinKern
