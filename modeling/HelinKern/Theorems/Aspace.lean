import HelinKern.Theorems.Mmu

/-! Which frame is used for what: the invariant gives every frame one role and says what the flags `PG_OWNED` and `PG_WRITE`,
    the only record that the kernel keeps, mean for it. -/

namespace HelinKern
variable {flags : BitVec 12} {c q : Nat}

namespace Mmu
open Paged FrameEvent Function List

inductive Role
  | free
  -- a page directory, or a page of the pool
  | dir
  -- the page table of the kernel for the entry `i` of each directory
  | kern (i : Nat)
  -- the page table for the entry `i` of `pd`
  | table (pd i : Nat)
  -- a page that was mapped with `PG_OWNED`, always as entry `j` of a table for the entry `i` of a directory
  | page (i j : Nat)
  -- anything else: memory of the kernel, of devices, or shared by processes
  | shared
  deriving DecidableEq

def Role.structural : Role → Bool
  | .dir | .kern _ | .table _ _ => true
  | _ => false

/-- The entries of a directory that `arch_mmu_duplicate` looks at. -/
def User (i : Nat) : Prop := 256 ≤ i ∧ i < 1023

theorem User.lt {i : Nat} (h : User i) : i < 1024 := by
  unfold User at h
  omega

/-- Some live directory may use the table `t` as its entry `i`. -/
def Active (role : Nat → Role) (live : List Nat) (t i : Nat) : Prop :=
  role t = .kern i ∨ ∃ pd ∈ live, role t = .table pd i

structure TableOk (role : Nat → Role) (pd i : Nat) (e : Entry) : Prop where
  small : e.has pg4MB = false
  role : role e.frame = .table pd i ∨ role e.frame = .kern i ∧ e.has pgOwned = false

structure PageOk (role : Nat → Role) (i j : Nat) (e : Entry) : Prop where
  small : e.has pg4MB = false
  owned : e.has pgOwned = true → role e.frame = .page i j
  other : e.has pgOwned = false → role e.frame = .shared ∧ e.has pgWrite = true

/-- A page the process may write without a fault, and which is freed with it. -/
structure Writable (e : Entry) : Prop where
  present : e.has pgPresent = true
  owned : e.has pgOwned = true
  write : e.has pgWrite = true

/-- The allocator knows which frames have a role. -/
structure Alloc (role : Nat → Role) (m : Mmu) : Prop where
  ok : m.frames.Ok
  taken : ∀ f, role f ≠ .free → ¬m.frames.Free f
  table : ∀ f pd i, role f = .table pd i → m.frames.Held f
  page : ∀ f i j, role f = .page i j → m.frames.Held f
  once : FreedOnce m.log
  released : ∀ f, released f m.log = true → ¬m.frames.Held f

structure Dirs (role : Nat → Role) (m : Mmu) (live : List Nat) : Prop where
  pool : ∀ pd ∈ m.pool, role pd = .dir
  kernel : kernelPg ∈ live
  used : ∀ pd, (pd ∈ live ∨ ∃ t i, role t = .table pd i) → role pd = .dir ∧ (m.entry pd 0).has pgPresent = true
  pde : ∀ pd ∈ live, ∀ i, User i → (m.entry pd i).has pgPresent = true → TableOk role pd i (m.entry pd i)
  kernPde : ∀ i, 960 ≤ i → i < 1023 → (m.entry kernelPg i).has pgPresent = true →
    role (m.entry kernelPg i).frame = .kern i
  table : ∀ t, ∀ pd ∈ live, ∀ i, role t = .table pd i →
    User i ∧ (m.entry pd i).has pgPresent = true ∧ (m.entry pd i).frame = t
  kern : ∀ t i, role t = .kern i →
    960 ≤ i ∧ i < 1023 ∧ (m.entry kernelPg i).has pgPresent = true ∧ (m.entry kernelPg i).frame = t

structure Pages (role : Nat → Role) (m : Mmu) (live : List Nat) : Prop where
  page : ∀ t i j, Active role live t i → j < 1024 → (m.entry t j).has pgPresent = true → PageOk role i j (m.entry t j)
  cow : ∀ t t' i j, Active role live t i → Active role live t' i → j < 1024 → Writable (m.entry t j) →
    (m.entry t' j).has pgPresent = true → (m.entry t' j).frame = (m.entry t j).frame → t' = t

structure Inv (role : Nat → Role) (m : Mmu) (live : List Nat) : Prop where
  alloc : Alloc role m
  dirs : Dirs role m live
  pages : Pages role m live

variable {role role' : Nat → Role} {m m' : Mmu} {live : List Nat} {pd t t' i i' j j' f : Nat} {e : Entry}

section
variable (h : Active role live t i)
include h

theorem Active.structural : (role t).structural := by
  rcases h with h | ⟨_, -, h⟩ <;> rw [h] <;> rfl

theorem Active.index_eq (h' : Active role live t i') : i' = i := by
  rcases h with h | ⟨_, -, h⟩ <;> rcases h' with h' | ⟨_, -, h'⟩ <;> rw [h] at h' <;> cases h' <;> rfl

theorem Active.ne_dir (hd : role pd = .dir) : t ≠ pd := by
  rintro rfl
  rcases h with h | ⟨_, -, h⟩ <;> rw [h] at hd <;> cases hd

theorem Active.ne_free : role t ≠ .free := by
  rcases h with h | ⟨_, -, h⟩ <;> rw [h] <;> nofun

theorem Active.of_eq (hr : role' t = role t) : Active role' live t i := by
  unfold Active at h ⊢
  rwa [hr]

end

theorem Dirs.dir (h : Dirs role m live) (hpd : pd ∈ live) : role pd = .dir := (h.used pd (.inl hpd)).1

theorem Dirs.active (h : Dirs role m live) (hpd : pd ∈ live) (hi : User i)
    (hp : (m.entry pd i).has pgPresent) : Active role live (m.entry pd i).frame i := by
  rcases (h.pde pd hpd i hi hp).role with h | ⟨h, -⟩
  · exact .inr ⟨pd, hpd, h⟩
  · exact .inl h

theorem PageOk.not_structural (h : PageOk role i j e) : (role e.frame).structural = false := by
  cases ho : e.has pgOwned with
  | true => rw [h.owned ho]; rfl
  | false => rw [(h.other ho).1]; rfl

theorem PageOk.ne_free (h : PageOk role i j e) : role e.frame ≠ .free := by
  cases ho : e.has pgOwned with
  | true => rw [h.owned ho]; nofun
  | false => rw [(h.other ho).1]; nofun

theorem PageOk.of_eq (h : PageOk role i j e) (hr : role' e.frame = role e.frame) : PageOk role' i j e :=
  ⟨h.small, fun ho => hr.trans (h.owned ho), fun ho => ⟨hr.trans (h.other ho).1, (h.other ho).2⟩⟩

theorem TableOk.structural (h : TableOk role pd i e) : (role e.frame).structural := by
  rcases h.role with h | ⟨h, -⟩ <;> rw [h] <;> rfl

theorem TableOk.of_eq (h : TableOk role pd i e) (hr : role' e.frame = role e.frame) : TableOk role' pd i e :=
  ⟨h.small, by rw [hr]; exact h.role⟩

theorem Inv.mono {live' : List Nat} (h : Inv role m live) (hsub : ∀ pd ∈ live', pd ∈ live) (hk : kernelPg ∈ live') :
    Inv role m live' := by
  have hactive : ∀ {t i}, Active role live' t i → Active role live t i := by
    rintro t i (h | ⟨pd, hpd, h⟩)
    · exact .inl h
    · exact .inr ⟨pd, hsub pd hpd, h⟩
  refine ⟨h.alloc, ⟨h.dirs.pool, hk, ?_, ?_, h.dirs.kernPde, ?_, h.dirs.kern⟩, ⟨?_, ?_⟩⟩
  · rintro pd (hpd | ht)
    · exact h.dirs.used pd (.inl (hsub pd hpd))
    · exact h.dirs.used pd (.inr ht)
  · exact fun pd hpd => h.dirs.pde pd (hsub pd hpd)
  · exact fun t pd hpd => h.dirs.table t pd (hsub pd hpd)
  · exact fun t i j ht => h.pages.page t i j (hactive ht)
  · exact fun t t' i j ht ht' => h.pages.cow t t' i j (hactive ht) (hactive ht')

noncomputable def bootRole (m : Mmu) (p : Nat) : Role :=
  open Classical in if p = kernelPg ∨ p ∈ m.pool then .dir else if m.frames.Free p then .free else .shared

theorem entry_archMmuInit (hk : kernelPg ∉ m.pool) (hi : i < 1024) :
    m.archMmuInit.entry kernelPg i = bootEntry m.kernelEnd i := by
  have hout : ∀ a, a / 4096 = kernelPg →
      ¬(kernPdAreaBegin m.kernelEnd ≤ a ∧ a < kernPdAreaBegin m.kernelEnd + kernPdAreaSize) := by
    intro a ha hpool
    refine hk (mem_range'_1.mpr ?_)
    have : kernPdAreaBegin m.kernelEnd % 4096 = 0 := Nat.mul_mod_left _ _
    omega
  have hfill : m.archMmuInit.entry kernelPg i =
      { m with mem := fill m.mem kernelPg fun i => (bootEntry m.kernelEnd i).toWord }.entry kernelPg i :=
    entry_congr hi fun a ha => if_neg (hout a ha)
  rw [hfill]
  refine entry_fill_self hi ?_
  unfold bootEntry
  split
  · decide
  split
  · show i * 4194304 / 4096 < 1048576
    omega
  · decide

theorem Inv.boot (hok : m.frames.Ok) (hlog : m.log = []) (hk : kernelPg ∉ m.pool) (hend : m.kernelEnd / 4194304 + 4 ≤ 256)
    (hkeep : ∀ pd, pd = kernelPg ∨ pd ∈ m.pool → ¬m.frames.Free pd) : Inv (bootRole m) m.archMmuInit [kernelPg] := by
  have hdir : ∀ pd, pd = kernelPg ∨ pd ∈ m.pool → bootRole m pd = .dir := fun pd hpd => if_pos hpd
  have hrole : ∀ {f r}, bootRole m f = r → r = .dir ∨ r = .free ∨ r = .shared := by
    rintro f _ rfl
    unfold bootRole
    split
    · exact .inl rfl
    · split
      · exact .inr (.inl rfl)
      · exact .inr (.inr rfl)
  have hkern : ∀ t i, bootRole m t ≠ .kern i := fun t i ht => by simpa using hrole ht
  have htable : ∀ t pd i, bootRole m t ≠ .table pd i := fun t pd i ht => by simpa using hrole ht
  have hpage : ∀ f i j, bootRole m f ≠ .page i j := fun f i j hf => by simpa using hrole hf
  have hactive : ∀ t i, ¬Active (bootRole m) [kernelPg] t i := by
    rintro t i (ht | ⟨pd, -, ht⟩)
    · exact hkern t i ht
    · exact htable t pd i ht
  have hentry : ∀ i, User i → m.archMmuInit.entry kernelPg i = .empty := by
    intro i hi
    rw [entry_archMmuInit hk hi.lt]
    unfold bootEntry
    rw [if_neg (by have := hi.2; omega), if_neg (by have := hi.1; omega)]
  refine ⟨⟨hok, ?_, ?_, ?_, ?_, ?_⟩, ⟨fun pd hpd => hdir pd (.inr hpd), mem_singleton.mpr rfl, ?_, ?_, ?_, ?_, ?_⟩,
    ⟨?_, ?_⟩⟩
  · intro f hf hfree
    unfold bootRole at hf
    split at hf
    · exact hkeep f (by assumption) hfree
    · exact hf (if_pos hfree)
  · exact fun f pd i hf => absurd hf (htable f pd i)
  · exact fun f i j hf => absurd hf (hpage f i j)
  · show FreedOnce m.log
    rw [hlog]
    exact freedOnce_nil
  · intro f hf
    have : FrameEvent.released f m.log := hf
    rw [hlog] at this
    cases this
  · rintro pd (hpd | ⟨t, i, ht⟩)
    · rw [mem_singleton.mp hpd]
      refine ⟨hdir _ (.inl rfl), ?_⟩
      rw [entry_archMmuInit hk (by decide)]
      unfold bootEntry
      rw [if_neg (by decide), if_pos (by omega)]
      rfl
    · exact absurd ht (htable t pd i)
  · intro pd hpd i hi hp
    rw [mem_singleton.mp hpd, hentry i hi] at hp
    cases hp
  · intro i hlo hhi hp
    rw [hentry i ⟨by omega, hhi⟩] at hp
    cases hp
  · exact fun t pd _ i ht => absurd ht (htable t pd i)
  · exact fun t i ht => absurd ht (hkern t i)
  · exact fun t i j ht => absurd ht (hactive t i)
  · exact fun t t' i j ht => absurd ht (hactive t i)

/-- A machine to run things on: 272 frames from 2 MB on, of which the last eight are free. -/
def small : Mmu where
  mem _ := 0
  frames :=
    { physMap := fun byte => if byte < 33 then 0xFF#8 else 0#8, totalPages := 272, allocStart := 0x200000
      usedPhysMem := 0, mapped := true, pagesUsedBeforeMapping := 0, notMappedPageIndx := 0 }
  kernelEnd := 0x200000
  log := []

theorem mem_small_pool (pd : Nat) : pd ∈ small.pool ↔ 514 ≤ pd ∧ pd < 771 := mem_range'_1

theorem small_keeps (pd : Nat) (hpd : pd = kernelPg ∨ pd ∈ small.pool) : ¬small.frames.Free pd := by
  rintro ⟨i, hi, hclear, haddr⟩
  have hlarge : 264 ≤ i := by
    by_contra hlt
    have hbyte : small.frames.physMap (i / 8) = 0xFF#8 := if_pos (by omega)
    have hbit : i % 8 < 8 := Nat.mod_lt _ (by decide)
    unfold Bitmap.bitAt at hclear
    rw [hbyte, (Bitmap.eq_allOnes_iff _).mp rfl _ hbit] at hclear
    cases hclear
  have hlt : i < 272 := hi
  have haddr : (0x200000 + i * 4096) % 4294967296 = 4096 * pd := haddr
  rcases hpd with rfl | hpd
  · have : kernelPg = 1 := rfl
    omega
  · have := (mem_small_pool pd).mp hpd
    omega

theorem small_inv : Inv (bootRole small) small.archMmuInit [kernelPg] := by
  refine .boot ⟨rfl, rfl, by decide, by decide⟩ rfl ?_ (by decide) small_keeps
  decide

/-! ### Changes that keep the entries -/

theorem Alloc.congr (h : Alloc role m) (hframes : m'.frames = m.frames) (hlog : m'.log = m.log) : Alloc role m' := by
  constructor
  · rw [hframes]; exact h.ok
  · rw [hframes]; exact h.taken
  · rw [hframes]; exact h.table
  · rw [hframes]; exact h.page
  · rw [hlog]; exact h.once
  · rw [hframes, hlog]; exact h.released

theorem Dirs.congr (h : Dirs role m live) (hold : ∀ f, (role f).structural → role' f = role f)
    (hnew : ∀ f, (role' f).structural → role' f = role f)
    (he : ∀ pd, role pd = .dir → ∀ i < 1024, m'.entry pd i = m.entry pd i) (hk : m'.kernelEnd = m.kernelEnd) :
    Dirs role' m' live := by
  have hkernel := he _ (h.dir h.kernel)
  refine ⟨?_, h.kernel, ?_, ?_, ?_, ?_, ?_⟩
  · intro pd hpd
    have hd := h.pool pd (by unfold Mmu.pool at hpd ⊢; rwa [hk] at hpd)
    rw [hold pd (by rw [hd]; rfl), hd]
  · intro pd hpd
    obtain ⟨hd, hp⟩ := h.used pd <| hpd.imp id fun ⟨t, i, ht⟩ => ⟨t, i, hnew t (by rw [ht]; rfl) ▸ ht⟩
    rw [hold pd (by rw [hd]; rfl), he pd hd 0 (by decide)]
    exact ⟨hd, hp⟩
  · intro pd hpd i hi hp
    rw [he pd (h.dir hpd) i hi.lt] at hp ⊢
    have hok := h.pde pd hpd i hi hp
    exact hok.of_eq (hold _ hok.structural)
  · intro i hlo hhi hp
    rw [hkernel i (by omega)] at hp ⊢
    have hok := h.kernPde i hlo hhi hp
    rw [hold _ (by rw [hok]; rfl), hok]
  · intro t pd hpd i ht
    rw [hnew t (by rw [ht]; rfl)] at ht
    have hok := h.table t pd hpd i ht
    rwa [he pd (h.dir hpd) i hok.1.lt]
  · intro t i ht
    rw [hnew t (by rw [ht]; rfl)] at ht
    have hok := h.kern t i ht
    rwa [hkernel i (by omega)]

-- one entry is set or cleared, and the page it leads to becomes its table or is given back
theorem Dirs.change (h : Dirs role m live) (hpd : pd ∈ live) (hi : User i)
    (hold : ∀ g, role g ≠ .free → role g ≠ .table pd i → role' g = role g)
    (hnew : ∀ g, role' g ≠ .free → role' g ≠ .table pd i → role' g = role g) (hpool : m'.pool = m.pool)
    (he : ∀ p j, role p = .dir → j < 1024 → ¬(p = pd ∧ j = i) → m'.entry p j = m.entry p j)
    (hpde : (m'.entry pd i).has pgPresent → pd ≠ kernelPg ∧ TableOk role' pd i (m'.entry pd i))
    (htable : ∀ t, role' t = .table pd i → (m'.entry pd i).has pgPresent ∧ (m'.entry pd i).frame = t)
    (hkern : ∀ t, role t = .kern i → pd ≠ kernelPg) : Dirs role' m' live where
  pool p hp := by
    have hd := h.pool p (hpool ▸ hp)
    rw [hold p (by rw [hd]; nofun) (by rw [hd]; nofun), hd]
  kernel := h.kernel
  used p hp := by
    have hused : role p = .dir ∧ (m.entry p 0).has pgPresent := by
      rcases hp with hp | ⟨t, i', ht⟩
      · exact h.used p (.inl hp)
      by_cases hsame : role' t = .table pd i
      · rw [ht] at hsame
        cases hsame
        exact h.used _ (.inl hpd)
      · exact h.used p (.inr ⟨t, i', hnew t (by rw [ht]; nofun) hsame ▸ ht⟩)
    rw [hold p (by rw [hused.1]; nofun) (by rw [hused.1]; nofun), he p 0 hused.1 (by decide)]
    · exact hused
    · rintro ⟨-, rfl⟩
      exact absurd hi.1 (by decide)
  pde p hp i' hi' hp' := by
    by_cases hsame : p = pd ∧ i' = i
    · obtain ⟨rfl, rfl⟩ := hsame
      exact (hpde hp').2
    rw [he p i' (h.dir hp) hi'.lt hsame] at hp' ⊢
    have hok := h.pde p hp i' hi' hp'
    refine hok.of_eq (hold _ (fun heq => ?_) fun heq => ?_)
    all_goals rcases hok.role with hrole | ⟨hrole, -⟩ <;> rw [heq] at hrole <;> cases hrole
    exact hsame ⟨rfl, rfl⟩
  kernPde i' hlo hhi hp := by
    have hne : ¬(kernelPg = pd ∧ i' = i) := by
      rintro ⟨rfl, rfl⟩
      exact (hpde hp).1 rfl
    rw [he _ i' (h.dir h.kernel) (by omega) hne] at hp ⊢
    have hok := h.kernPde i' hlo hhi hp
    rw [hold _ (by rw [hok]; nofun) (by rw [hok]; nofun), hok]
  table t p hp i' ht := by
    by_cases hsame : p = pd ∧ i' = i
    · obtain ⟨rfl, rfl⟩ := hsame
      exact ⟨hi, htable t ht⟩
    have hne : role' t ≠ .table pd i := by
      rw [ht]
      rintro ⟨⟩
      exact hsame ⟨rfl, rfl⟩
    rw [hnew t (by rw [ht]; nofun) hne] at ht
    have hok := h.table t p hp i' ht
    rwa [he p i' (h.dir hp) hok.1.lt hsame]
  kern t i' ht := by
    rw [hnew t (by rw [ht]; nofun) (by rw [ht]; nofun)] at ht
    have hok := h.kern t i' ht
    rwa [he _ i' (h.dir h.kernel) (by omega)]
    rintro ⟨rfl, rfl⟩
    exact hkern t ht rfl

theorem Pages.congr (h : Pages role m live)
    (hext : ∀ t i j, Active role live t i → j < 1024 → (m.entry t j).has pgPresent →
      role' (m.entry t j).frame = role (m.entry t j).frame)
    (hnew : ∀ f, (role' f).structural → role' f = role f)
    (he : ∀ t i, Active role live t i → ∀ j < 1024, m'.entry t j = m.entry t j) : Pages role' m' live := by
  have hactive : ∀ {t i}, Active role' live t i → Active role live t i := by
    exact fun ht => ht.of_eq (hnew _ ht.structural).symm
  constructor
  · intro t i j ht hj hp
    rw [he t i (hactive ht) j hj] at hp ⊢
    exact (h.page t i j (hactive ht) hj hp).of_eq (hext t i j (hactive ht) hj hp)
  · intro t t' i j ht ht' hj hw hp hf
    rw [he t i (hactive ht) j hj] at hw hf
    rw [he t' i (hactive ht') j hj] at hp hf
    exact h.cow t t' i j (hactive ht) (hactive ht') hj hw hp hf

theorem Inv.congr (h : Inv role m live) (hext : ∀ f, role f ≠ .free → role' f = role f)
    (hnew : ∀ f, (role' f).structural → role' f = role f)
    (he : ∀ p, (role p).structural → ∀ j < 1024, m'.entry p j = m.entry p j)
    (hk : m'.kernelEnd = m.kernelEnd) (halloc : Alloc role' m') : Inv role' m' live := by
  refine ⟨halloc, h.dirs.congr ?_ hnew (fun pd hpd => he pd (by rw [hpd]; rfl)) hk,
    h.pages.congr (fun t i j ht hj hp => hext _ (h.pages.page t i j ht hj hp).ne_free) hnew fun t i ht =>
      he t ht.structural⟩
  intro f hf
  refine hext f fun h => ?_
  rw [h] at hf
  cases hf

theorem Inv.write {mem : Word.Memory} (h : Inv role m live)
    (hmem : ∀ a, (role (a / 4096)).structural → mem a = m.mem a) : Inv role { m with mem } live := by
  refine h.congr (fun _ _ => rfl) (fun _ _ => rfl) ?_ rfl (h.alloc.congr rfl rfl)
  exact fun p hp j hj => entry_congr hj fun a ha => hmem a (by rwa [ha])

theorem Alloc.of_free (h : Alloc role m) (hf : m.frames.Free f) : role f = .free :=
  not_not.mp fun hne => h.taken f hne hf

variable {frames : Frames}

theorem Alloc.alloc {r : Role} (h : Alloc role m) (hf : Frames.Marked m.frames f frames) :
    Alloc (update role f r) { m with frames, log := .alloc f :: m.log } := by
  have hheld : ∀ g r', update role f r g = r' → (role g = r' → m.frames.Held g) → frames.Held g := by
    intro g r' hg hold
    rw [hf.held_iff]
    by_cases hgf : g = f
    · exact .inr hgf
    · rw [update_of_ne hgf] at hg
      exact .inl (hold hg)
  refine ⟨hf.ok, ?_, fun g pd i hg => hheld g _ hg (h.table g pd i), fun g i j hg => hheld g _ hg (h.page g i j),
    freedOnce_cons h.once nofun, ?_⟩
  · intro g hg hfree
    obtain ⟨hfree, hne⟩ := (hf.free_iff g).mp hfree
    rw [update_of_ne hne] at hg
    exact h.taken g hg hfree
  · intro g hg hheld
    simp only [FrameEvent.released, Bool.and_eq_true, Bool.not_eq_true', decide_eq_false_iff_not] at hg
    rcases (hf.held_iff g).mp hheld with hheld | rfl
    · exact h.released g hg.2 hheld
    · exact hg.1 rfl

theorem Inv.alloc_page (h : Inv role m live) (hf : Frames.Marked m.frames f frames) (i j : Nat) :
    Inv (update role f (.page i j)) { m with frames, log := .alloc f :: m.log } live := by
  have hfree := h.alloc.of_free hf.free
  refine h.congr ?_ ?_ (fun _ _ _ _ => rfl) rfl (h.alloc.alloc hf)
  · intro g hg
    refine update_of_ne ?_ _ _
    rintro rfl
    exact hg hfree
  · intro g hg
    by_cases hgf : g = f
    · rw [hgf, update_self] at hg
      cases hg
    · exact update_of_ne hgf _ _

/-! ### Entries of page tables -/

theorem Inv.setEntry (h : Inv role m live) (ht : Active role live t i) (hj : j < 1024) (hlt : e.frame < 1048576)
    (hok : e.has pgPresent → PageOk role i j e)
    (hcow : e.has pgPresent → e.has pgOwned → ∀ t', Active role live t' i → t' ≠ t →
      (m.entry t' j).has pgPresent → (m.entry t' j).frame = e.frame →
      e.has pgWrite = false ∧ ¬Writable (m.entry t' j)) : Inv role (m.setEntry t j e) live := by
  have hother : ∀ t' j', j' < 1024 → ¬(t' = t ∧ j' = j) → (m.setEntry t j e).entry t' j' = m.entry t' j' :=
    fun t' j' hj' hne => entry_setEntry_of_ne hj hj' hne
  have hself : (m.setEntry t j e).entry t j = e := entry_setEntry_self hlt
  -- a page that is owned and one that is not are different frames
  have howned : e.has pgPresent → ∀ t', Active role live t' i → Writable (m.entry t' j) →
      (m.entry t' j).frame = e.frame → e.has pgOwned := by
    intro hp t' ht' hw hf
    have hrole := (h.pages.page t' i j ht' hj hw.present).owned hw.owned
    rw [hf] at hrole
    cases ho : e.has pgOwned with
    | true => rfl
    | false =>
      rw [((hok hp).other ho).1] at hrole
      cases hrole
  refine ⟨h.alloc.congr rfl rfl, h.dirs.congr (fun _ _ => rfl) (fun _ _ => rfl) (fun pd hpd i hi => hother pd i hi fun hpt =>
      ht.ne_dir hpd hpt.1.symm) rfl, ⟨?_, ?_⟩⟩
  · intro t' i' j' ht' hj' hp
    by_cases hsame : t' = t ∧ j' = j
    · obtain ⟨rfl, rfl⟩ := hsame
      cases ht.index_eq ht'
      rw [hself] at hp ⊢
      exact hok hp
    · rw [hother t' j' hj' hsame] at hp ⊢
      exact h.pages.page t' i' j' ht' hj' hp
  · intro t₁ t₂ i' j' ht₁ ht₂ hj' hw hp hf
    by_cases h₁ : t₁ = t ∧ j' = j
    · obtain ⟨rfl, rfl⟩ := h₁
      cases ht.index_eq ht₁
      refine not_not.mp fun hne => ?_
      rw [hself] at hw hf
      rw [hother t₂ j' hj' fun h => hne h.1] at hp hf
      have := (hcow hw.present hw.owned t₂ ht₂ hne hp hf).1
      rw [hw.write] at this
      cases this
    · by_cases h₂ : t₂ = t ∧ j' = j
      · obtain ⟨rfl, rfl⟩ := h₂
        cases ht.index_eq ht₂
        rw [hother t₁ j' hj' h₁] at hw hf
        rw [hself] at hp hf
        have hne : t₁ ≠ t₂ := fun h => h₁ ⟨h, rfl⟩
        exact absurd hw (hcow hp (howned hp t₁ ht₁ hw hf.symm) t₁ ht₁ hne hw.present hf.symm).2
      · rw [hother t₁ j' hj' h₁] at hw hf
        rw [hother t₂ j' hj' h₂] at hp hf
        exact h.pages.cow t₁ t₂ i' j' ht₁ ht₂ hj' hw hp hf

/-! ### New tables -/

/-- What `add_page_to_pd` does about the table for the entry `i` of `pd`: free frames may get a role, and of
    the frames in use only the entry `i` of `pd` may be written. -/
structure TableAdded (role : Nat → Role) (m : Mmu) (pd i : Nat) (role' : Nat → Role) (m' : Mmu) : Prop where
  present : (m'.entry pd i).has pgPresent = true
  ext : ∀ f, role f ≠ .free → role' f = role f
  only : ∀ f, f ≠ (m'.entry pd i).frame → role' f = role f
  mem : ∀ a, role (a / 4096) ≠ .free → a / 4096 ≠ pd → m'.mem a = m.mem a
  dir : ∀ i' < 1024, i' ≠ i → m'.entry pd i' = m.entry pd i'
  old : (m.entry pd i).has pgPresent = true → role' = role ∧ m' = m
  new : (m.entry pd i).has pgPresent = false → role (m'.entry pd i).frame = .free ∧
    role' (m'.entry pd i).frame = .table pd i ∧ ∀ j < 1024, m'.entry (m'.entry pd i).frame j = .empty

theorem addTable_of_present (h : (m.entry pd i).has pgPresent) :
    m.addTable pd i flags = m := if_pos h

/-- What entering a new table changes: its frame `f` was free and is empty now, and elsewhere only the entry that leads
    to it is written. -/
structure NewTable (role : Nat → Role) (m : Mmu) (pd i f : Nat) (flags : BitVec 12) (m' : Mmu) : Prop where
  free : role f = .free
  pool : m'.pool = m.pool
  pde : m'.entry pd i = ⟨f, flags⟩
  empty : ∀ j < 1024, m'.entry f j = .empty
  entry : ∀ p j, p ≠ f → j < 1024 → ¬(p = pd ∧ j = i) → m'.entry p j = m.entry p j

namespace NewTable

variable {flags : BitVec 12} {g : Nat}

section
variable (hnew : NewTable role m pd i f flags m')
include hnew

theorem ne (hg : role g ≠ .free) : g ≠ f := fun hgf => hg (hgf ▸ hnew.free)

theorem ne_dir (hg : role g = .dir) : g ≠ f := hnew.ne (by rw [hg]; nofun)

theorem role_eq (hg : role g ≠ .free) : update role f (.table pd i) g = role g :=
  update_of_ne (hnew.ne hg) _ _

section
variable (h : Inv role m live) (hpd : pd ∈ live)
include h hpd

theorem dirs (hk : pd ≠ kernelPg) (hi : User i) (habsent : (m.entry pd i).has pgPresent = false)
    (hlarge : flags.getLsbD 7 = false) (hpresent : flags.getLsbD 0) : Dirs (update role f (.table pd i)) m' live := by
  refine h.dirs.change hpd hi (fun g hg _ => hnew.role_eq hg) ?_ hnew.pool
    (fun p j hp hj => hnew.entry p j (hnew.ne_dir hp) hj) ?_ ?_ fun _ _ => hk
  · refine fun g _ hg => update_of_ne ?_ _ _
    rintro rfl
    exact hg (update_self ..)
  · rw [hnew.pde]
    exact fun _ => ⟨hk, by rw [Entry.has_4MB]; exact hlarge, .inl (update_self ..)⟩
  · intro t ht
    have htf : t = f := by
      by_contra htf
      rw [update_of_ne htf] at ht
      have hok := h.dirs.table t pd hpd i ht
      rw [habsent] at hok
      cases hok.2.1
    rw [hnew.pde]
    exact ⟨by rw [Entry.has_present]; exact hpresent, htf.symm⟩

theorem entry_active (ht : Active (update role f (.table pd i)) live t i') (hj : j < 1024) (hp : (m'.entry t j).has pgPresent) :
    Active role live t i' ∧ m'.entry t j = m.entry t j := by
  have htf : t ≠ f := by
    rintro rfl
    rw [hnew.empty j hj] at hp
    cases hp
  have hactive : Active role live t i' := ht.of_eq (update_of_ne htf _ _).symm
  exact ⟨hactive, hnew.entry t j htf hj fun htp => hactive.ne_dir (h.dirs.dir hpd) htp.1⟩

theorem pages : Pages (update role f (.table pd i)) m' live where
  page t i' j ht hj hp := by
    obtain ⟨hactive, heq⟩ := hnew.entry_active h hpd ht hj hp
    rw [heq] at hp ⊢
    have hok := h.pages.page t i' j hactive hj hp
    exact hok.of_eq (hnew.role_eq hok.ne_free)
  cow t t' i' j ht ht' hj hw hp hframe := by
    obtain ⟨hactive, heq⟩ := hnew.entry_active h hpd ht hj hw.present
    obtain ⟨hactive', heq'⟩ := hnew.entry_active h hpd ht' hj hp
    rw [heq] at hw hframe
    rw [heq'] at hp hframe
    exact h.pages.cow t t' i' j hactive hactive' hj hw hp hframe

end

end

end NewTable

theorem Inv.new_table (h : Inv role m live) (flags : BitVec 12) (hpd : pd ∈ live)
    (hk : pd ≠ kernelPg) (hi : User i) (habsent : (m.entry pd i).has pgPresent = false) (hf : Frames.Marked m.frames f frames)
    (hlt : f < 1048576) (hlarge : flags.getLsbD 7 = false) (hpresent : flags.getLsbD 0) {m₁ : Mmu}
    (hm₁ : m₁ = { m with frames, log := .alloc f :: m.log }.setEntry pd i ⟨f, flags⟩)
    (hm' : m' = { m₁ with mem := fill m₁.mem f fun _ => 0 }) :
    Inv (update role f (.table pd i)) m' live ∧
      TableAdded role m pd i (update role f (.table pd i)) m' := by
  have hfree : role f = .free := h.alloc.of_free hf.free
  have hpdf : pd ≠ f := by
    rintro rfl
    rw [h.dirs.dir hpd] at hfree
    cases hfree
  have hnew : NewTable role m pd i f flags m' := by
    refine ⟨hfree, by rw [hm', hm₁]; rfl, ?_, fun j hj => ?_, fun p j hp hj hpj => ?_⟩
    · rw [hm', entry_fill_of_ne hi.lt hpdf, hm₁, entry_setEntry_self hlt]
    · rw [hm']
      exact entry_fill_self (g := fun _ => .empty) hj (by decide)
    · rw [hm', entry_fill_of_ne hj hp, hm₁, entry_setEntry_of_ne hi.lt hj hpj]
      rfl
  have halloc : Alloc (update role f (.table pd i)) m' :=
    (h.alloc.alloc hf).congr (by rw [hm', hm₁]; rfl) (by rw [hm', hm₁]; rfl)
  refine ⟨⟨halloc, hnew.dirs h hpd hk hi habsent hlarge hpresent, hnew.pages h hpd⟩, ⟨?_, fun g => hnew.role_eq, ?_, ?_,
    fun i' hi' hne => hnew.entry pd i' hpdf hi' fun heq => hne heq.2, ?_, fun _ => ?_⟩⟩
  · rw [hnew.pde, Entry.has_present]
    exact hpresent
  · rw [hnew.pde]
    exact fun g hg => update_of_ne hg _ _
  · intro a ha hapd
    have hfill : m'.mem a = m₁.mem a := by
      rw [hm']
      show fill m₁.mem f (fun _ => 0) a = m₁.mem a
      exact fill_of_ne (hnew.ne ha)
    rw [hfill, hm₁]
    exact setWord_of_ne hi.lt hapd
  · intro hp
    rw [habsent] at hp
    cases hp
  · rw [hnew.pde]
    exact ⟨hfree, update_self .., hnew.empty⟩

theorem Inv.addTable (h : Inv role m live) (hpd : pd ∈ live)
    (hk : pd ≠ kernelPg ∨ (m.entry pd i).has pgPresent) (hi : User i) (hlarge : flags.getLsbD 7 = false)
    (hlog : .missing ∉ (m.addTable pd i flags).log) :
    ∃ role', Inv role' (m.addTable pd i flags) live ∧ TableAdded role m pd i role' (m.addTable pd i flags) := by
  cases hp : (m.entry pd i).has pgPresent with
  | true =>
    rw [addTable_of_present hp]
    refine ⟨role, h, hp, fun _ _ => rfl, fun _ _ => rfl, fun _ _ _ => rfl, fun _ _ _ => rfl, fun _ => ⟨rfl, rfl⟩, fun h => ?_⟩
    rw [hp] at h
    cases h
  | false =>
    unfold Mmu.addTable at hlog ⊢
    rw [if_neg (by rw [hp]; nofun)] at hlog ⊢
    dsimp only at hlog ⊢
    cases halloc : m.allocUnchecked with
    | mk addr m₀ =>
      rw [halloc] at hlog
      obtain ⟨f, rfl, hlt, hmarked, hm₀⟩ := allocUnchecked_ok h.alloc.ok halloc hlog
      refine ⟨_, h.new_table (flags ||| pgPresent ||| pgWrite) hpd (hk.resolve_right (by rw [hp]; nofun)) hi hp
        hmarked hlt ?_ ?_ rfl ?_⟩
      · rw [BitVec.getLsbD_or, BitVec.getLsbD_or, hlarge]
        rfl
      · rw [BitVec.getLsbD_or]
        simp [pgPresent]
      · rw [← hm₀, Entry.of_page, entry_setEntry_self hlt]

/-! ### Freed frames -/

theorem Alloc.free (h : Alloc role m) (hf : m.frames.Held f) :
    Alloc (update role f .free) (m.freePage f) := by
  have hcleared := h.ok.allocFreePage hf
  have hheld : ∀ g r, r ≠ .free → update role f .free g = r → (role g = r → m.frames.Held g) →
      (m.freePage f).frames.Held g := by
    intro g r hr hg hold
    have hne : g ≠ f := by
      rintro rfl
      rw [update_self] at hg
      exact hr hg.symm
    rw [update_of_ne hne] at hg
    exact (hcleared.held_iff g).mpr ⟨hold hg, hne⟩
  refine ⟨hcleared.ok, ?_, fun g pd i hg => hheld g (.table pd i) nofun hg (h.table g pd i),
    fun g i j hg => hheld g (.page i j) nofun hg (h.page g i j), freedOnce_cons h.once ?_, ?_⟩
  · intro g hg hfree
    have hne : g ≠ f := by
      rintro rfl
      exact hg (update_self ..)
    rw [update_of_ne hne] at hg
    exact h.taken g hg (((hcleared.free_iff g).mp hfree).resolve_right hne)
  · intro g hg
    cases hg
    cases hr : FrameEvent.released f m.log with
    | false => rfl
    | true => exact absurd hf (h.released f hr)
  · intro g hg hheld
    obtain ⟨hheld, hne⟩ := (hcleared.held_iff g).mp hheld
    simp only [freePage, FrameEvent.released, Bool.or_eq_true, decide_eq_true_eq] at hg
    exact h.released g (hg.resolve_left hne.symm) hheld

theorem Inv.free_page (h : Inv role m live) (hf : role f = .page i j)
    (hun : ∀ t, Active role live t i → (m.entry t j).has pgPresent → (m.entry t j).frame ≠ f) :
    Inv (update role f .free) (m.freePage f) live := by
  have hold : ∀ g, (role g).structural → update role f .free g = role g := by
    intro g hg
    refine update_of_ne ?_ _ _
    rintro rfl
    rw [hf] at hg
    cases hg
  have hnew : ∀ g, (update role f .free g).structural → update role f .free g = role g := by
    intro g hg
    refine update_of_ne ?_ _ _
    rintro rfl
    rw [update_self] at hg
    cases hg
  refine ⟨h.alloc.free (h.alloc.page f i j hf), h.dirs.congr hold hnew (fun _ _ _ _ => rfl) rfl,
    h.pages.congr ?_ hnew fun _ _ _ _ _ => rfl⟩
  intro t i' j' ht hj' hp
  refine update_of_ne ?_ _ _
  intro heq
  have hok := h.pages.page t i' j' ht hj' hp
  cases ho : (m.entry t j').has pgOwned with
  | true =>
    have hrole := hok.owned ho
    rw [heq, hf] at hrole
    cases hrole
    exact hun t ht hp heq
  | false =>
    have hrole := (hok.other ho).1
    rw [heq, hf] at hrole
    cases hrole

theorem Inv.free_table (h : Inv role m live) (hpd : pd ∈ live) (ht : role t = .table pd i) :
    Inv (update role t .free) ((m.freePage t).setEntry pd i .empty) live := by
  obtain ⟨hi, hpresent, hframe⟩ := h.dirs.table t pd hpd i ht
  have hext : ∀ g, role g ≠ .table pd i → update role t .free g = role g := by
    intro g hg
    refine update_of_ne ?_ _ _
    rintro rfl
    exact hg ht
  have hnew : ∀ g, update role t .free g ≠ .free → g ≠ t := by
    rintro g hg rfl
    exact hg (update_self ..)
  have hentry : ∀ p j, j < 1024 → ¬(p = pd ∧ j = i) →
      ((m.freePage t).setEntry pd i .empty).entry p j = m.entry p j :=
    fun p j hj hne => entry_setEntry_of_ne hi.lt hj hne
  have hpages : Pages (update role t .free) ((m.freePage t).setEntry pd i .empty) live := by
    refine h.pages.congr ?_ ?_ fun t' i' ht' j hj => hentry t' j hj fun htp => ht'.ne_dir (h.dirs.dir hpd) htp.1
    · intro t' i' j ht' hj hp
      refine hext _ fun heq => ?_
      have := (h.pages.page t' i' j ht' hj hp).not_structural
      rw [heq] at this
      cases this
    · intro g hg
      refine update_of_ne (hnew g fun heq => ?_) _ _
      rw [heq] at hg
      cases hg
  refine ⟨(h.alloc.free (h.alloc.table t pd i ht)).congr rfl rfl, h.dirs.change hpd hi (fun g _ => hext g)
    (fun g hg _ => update_of_ne (hnew g hg) _ _) rfl (fun p j _ => hentry p j) ?_ ?_ ?_, hpages⟩
  · rw [entry_setEntry_self (by decide)]
    nofun
  · intro t' ht'
    have hne := hnew t' (by rw [ht']; nofun)
    rw [update_of_ne hne] at ht'
    exact absurd ((h.dirs.table t' pd hpd i ht').2.2.symm.trans hframe) hne
  · rintro t' ht' rfl
    rw [← hframe, (h.dirs.kern t' i ht').2.2.2, ht'] at ht
    cases ht

/-! ### New directories -/

structure NewAspace (m : Mmu) (live : List Nat) (c : Nat) (m' : Mmu) : Prop where
  not_live : c ∉ live
  low : ∀ i, 256 ≤ i → i < 960 → m'.entry c i = .empty
  high : ∀ i, 960 ≤ i → i < 1023 → m'.entry c i = ⟨(m.entry kernelPg i).frame, (m.entry kernelPg i).flags &&& ~~~pgOwned⟩
  mem : ∀ a, a / 4096 ≠ c → m'.mem a = m.mem a

theorem Entry.present_disowned (e : Entry) : (⟨e.frame, e.flags &&& ~~~pgOwned⟩ : Entry).has pgPresent = e.has pgPresent := by
  rw [Entry.has_present, Entry.has_present, BitVec.getLsbD_and]
  exact Bool.and_true _

theorem newEntry_low (hlo : 256 ≤ i) (hhi : i < 960) : m.newEntry c i = .empty := by
  unfold newEntry
  rw [if_neg (by omega), if_pos hhi]

theorem newEntry_high (hlo : 960 ≤ i) (hhi : i < 1023) :
    m.newEntry c i = ⟨(m.entry kernelPg i).frame, (m.entry kernelPg i).flags &&& ~~~pgOwned⟩ := by
  unfold newEntry
  rw [if_neg (by omega), if_neg (by omega), if_pos hhi]

theorem newEntry_frame_lt (hi : i < 1023) : (m.newEntry c i).frame < 1048576 := by
  have hlt := m.entry_frame_lt kernelPg i
  unfold newEntry
  split
  · exact hlt
  · split
    · decide
    · exact hlt

structure NewDir (role : Nat → Role) (m : Mmu) (live : List Nat) (c : Nat) (m' : Mmu) : Prop where
  unused : ¬(c ∈ live ∨ ∃ t i, role t = .table c i)
  dir : role c = .dir
  pool : m'.pool = m.pool
  entry : ∀ p j, p ≠ c → j < 1024 → m'.entry p j = m.entry p j
  self : ∀ i < 1023, m'.entry c i = m.newEntry c i

namespace NewDir

variable {c : Nat} (hnew : NewDir role m live c m')
include hnew

theorem kernel (h : Inv role m live) (hi : i < 1024) : m'.entry kernelPg i = m.entry kernelPg i :=
  hnew.entry _ i (fun hk => hnew.unused (.inl (hk ▸ h.dirs.kernel))) hi

theorem active (ht : Active role (c :: live) t i) : Active role live t i := by
  obtain ht | ⟨p, hp, ht⟩ := ht
  · exact .inl ht
  · rcases mem_cons.mp hp with rfl | hp
    · exact absurd (.inr ⟨t, i, ht⟩) hnew.unused
    · exact .inr ⟨p, hp, ht⟩

theorem tableOk (h : Inv role m live) (hi : User i)
    (hp : (m'.entry c i).has pgPresent) : TableOk role c i (m'.entry c i) := by
  rw [hnew.self i hi.2] at hp ⊢
  rcases Nat.lt_or_ge i 960 with hlt | hge
  · rw [newEntry_low hi.1 hlt] at hp
    cases hp
  rw [newEntry_high hge hi.2] at hp ⊢
  rw [Entry.present_disowned] at hp
  have hsmall := (h.dirs.pde kernelPg h.dirs.kernel i hi hp).small
  rw [Entry.has_4MB] at hsmall
  refine ⟨?_, .inr ⟨h.dirs.kernPde i hge hi.2 hp, ?_⟩⟩
  · rw [Entry.has_4MB, BitVec.getLsbD_and, hsmall]
    rfl
  · rw [Entry.has_owned, BitVec.getLsbD_and, Bool.and_eq_false_iff]
    exact .inr rfl

theorem dirs (h : Inv role m live) : Dirs role m' (c :: live) where
  pool p hp := h.dirs.pool p (hnew.pool ▸ hp)
  kernel := mem_cons_of_mem _ h.dirs.kernel
  used p hp := by
    by_cases hpc : p = c
    · subst hpc
      rw [hnew.self 0 (by decide)]
      exact ⟨hnew.dir, (Entry.present_disowned _).trans (h.dirs.used kernelPg (.inl h.dirs.kernel)).2⟩
    · rw [hnew.entry p 0 hpc (by decide)]
      exact h.dirs.used p (hp.imp (fun hp => (mem_cons.mp hp).resolve_left hpc) id)
  pde p hp i hi hp' := by
    by_cases hpc : p = c
    · subst hpc
      exact hnew.tableOk h hi hp'
    · rw [hnew.entry p i hpc hi.lt] at hp' ⊢
      exact h.dirs.pde p ((mem_cons.mp hp).resolve_left hpc) i hi hp'
  kernPde i hlo hhi := by
    rw [hnew.kernel h (by omega)]
    exact h.dirs.kernPde i hlo hhi
  table t p hp i ht := by
    have hpc : p ≠ c := by
      rintro rfl
      exact hnew.unused (.inr ⟨t, i, ht⟩)
    have hok := h.dirs.table t p ((mem_cons.mp hp).resolve_left hpc) i ht
    rwa [hnew.entry p i hpc hok.1.lt]
  kern t i ht := by
    have hok := h.dirs.kern t i ht
    rwa [hnew.kernel h (by omega)]

theorem pages (h : Inv role m live) : Pages role m' (c :: live) where
  page t i j ht hj := by
    rw [hnew.entry t j ((hnew.active ht).ne_dir hnew.dir) hj]
    exact h.pages.page t i j (hnew.active ht) hj
  cow t t' i j ht ht' hj := by
    rw [hnew.entry t j ((hnew.active ht).ne_dir hnew.dir) hj, hnew.entry t' j ((hnew.active ht').ne_dir hnew.dir) hj]
    exact h.pages.cow t t' i j (hnew.active ht) (hnew.active ht') hj

end NewDir

theorem Inv.newAspace (h : Inv role m live) (hnew : m.archMmuNewAspace = some (c, m')) :
    Inv role m' (c :: live) ∧ NewAspace m live c m' := by
  obtain ⟨c', hfind, heq⟩ := Option.map_eq_some_iff.mp hnew
  cases heq
  have hzero : m.entry c 0 = .empty := by
    have hword : word m.mem c 0 = 0 := by simpa using find?_some hfind
    unfold entry
    rw [hword]
    rfl
  have hunused : ¬(c ∈ live ∨ ∃ t i, role t = .table c i) := by
    intro hused
    have hpresent := (h.dirs.used c hused).2
    rw [hzero] at hpresent
    cases hpresent
  have hdir : NewDir role m live c { m with mem := fill m.mem c fun i => (m.newEntry c i).toWord } :=
    ⟨hunused, h.dirs.pool c (mem_of_find?_eq_some hfind), rfl, fun p j hp hj => entry_fill_of_ne hj hp,
      fun i hi => entry_fill_self (by omega) (newEntry_frame_lt hi)⟩
  have hmem (a : Nat) (ha : a / 4096 ≠ c) : fill m.mem c (fun i => (m.newEntry c i).toWord) a = m.mem a := fill_of_ne ha
  exact ⟨⟨h.alloc.congr rfl rfl, hdir.dirs h, hdir.pages h⟩, fun hc => hunused (.inl hc),
    fun i hlo hhi => (hdir.self i (by omega)).trans (newEntry_low hlo hhi),
    fun i hlo hhi => (hdir.self i hhi).trans (newEntry_high hlo hhi), hmem⟩

/-! ### The page an address space maps -/

theorem pte_eq_some : m.pte pd i j = some e ↔ (m.entry pd i).has pgPresent ∧
    (m.entry (m.entry pd i).frame j).has pgPresent ∧ m.entry (m.entry pd i).frame j = e := by
  unfold pte
  split
  next h =>
    rw [Bool.and_eq_true] at h
    simp [h.1, h.2]
  next h =>
    rw [Bool.and_eq_true] at h
    refine ⟨nofun, fun h' => absurd ⟨h'.1, h'.2.1⟩ h⟩

theorem Inv.pte_ok (h : Inv role m live) (hpd : pd ∈ live) (hi : User i) (hj : j < 1024)
    (he : m.pte pd i j = some e) : PageOk role i j e := by
  obtain ⟨hp, hp', rfl⟩ := pte_eq_some.mp he
  exact h.pages.page _ i j (h.dirs.active hpd hi hp) hj hp'

theorem Inv.pte_alone {e' : Entry} (h : Inv role m live) (hpd : pd ∈ live) (hq : q ∈ live) (hi : User i)
    (hj : j < 1024) (he : m.pte pd i j = some e) (he' : m.pte q i j = some e') (ho : e.has pgOwned)
    (hw : e.has pgWrite) (hframe : e'.frame = e.frame) :
    (m.entry q i).has pgPresent ∧ (m.entry q i).frame = (m.entry pd i).frame := by
  obtain ⟨hp, hpe, rfl⟩ := pte_eq_some.mp he
  obtain ⟨hp', hpe', rfl⟩ := pte_eq_some.mp he'
  exact ⟨hp', h.pages.cow _ _ _ _ (h.dirs.active hpd hi hp) (h.dirs.active hq hi hp') hj ⟨hpe, ho, hw⟩ hpe' hframe⟩

theorem pte_congr (hdir : m'.entry pd i = m.entry pd i)
    (htable : (m.entry pd i).has pgPresent →
      m'.entry (m.entry pd i).frame j = m.entry (m.entry pd i).frame j) : m'.pte pd i j = m.pte pd i j := by
  unfold pte
  rw [hdir]
  cases hp : (m.entry pd i).has pgPresent with
  | true => rw [htable hp]
  | false => rfl

section
variable {c q : Nat} (hn : NewAspace m live c m')
include hn

theorem NewAspace.ne (hq : q ∈ live) : q ≠ c := fun h => hn.not_live (h ▸ hq)

theorem NewAspace.entry_eq (hq : q ≠ c) (hj : j < 1024) : m'.entry q j = m.entry q j :=
  entry_congr hj fun a ha => hn.mem a (by rw [ha]; exact hq)

theorem NewAspace.pte_eq (hinv : Inv role m live) (hc : role c = .dir) (hq : q ∈ live) (hi : User i) (hj : j < 1024) :
    m'.pte q i j = m.pte q i j :=
  pte_congr (hn.entry_eq (hn.ne hq) hi.lt) fun hp => hn.entry_eq ((hinv.dirs.active hq hi hp).ne_dir hc) hj

end

theorem TableAdded.pte_eq (h : Inv role m live) (hpd : pd ∈ live) (hadd : TableAdded role m pd i role' m')
    (hq : q ∈ live) (hi : User i') (hj : j < 1024) : m'.pte q i' j = m.pte q i' j := by
  by_cases hsame : q = pd ∧ i' = i
  · obtain ⟨rfl, rfl⟩ := hsame
    cases hp : (m.entry q i').has pgPresent with
    | true => rw [(hadd.old hp).2]
    | false =>
      unfold pte
      rw [hp, (hadd.new hp).2.2 j hj]
      simp [Entry.empty]
  · have hdir : m'.entry q i' = m.entry q i' := by
      by_cases hqp : q = pd
      · subst hqp
        exact hadd.dir i' hi.lt fun h => hsame ⟨rfl, h⟩
      · exact entry_congr hi.lt fun a ha => hadd.mem a (by rw [ha, h.dirs.dir hq]; nofun) (by rw [ha]; exact hqp)
    refine pte_congr hdir fun hp => entry_congr hj fun a ha => hadd.mem a ?_ ?_
    · exact ha ▸ (h.dirs.active hq hi hp).ne_free
    · exact ha ▸ (h.dirs.active hq hi hp).ne_dir (h.dirs.dir hpd)

theorem pte_setEntry (ht : Active role live t i) (hj : j < 1024) (hlt : e.frame < 1048576) (hq : role q = .dir)
    (hi : User i') (hj' : j' < 1024) :
    (m.setEntry t j e).pte q i' j' =
      if (m.entry q i').has pgPresent ∧ (m.entry q i').frame = t ∧ j' = j then
        if e.has pgPresent then some e else none
      else m.pte q i' j' := by
  have hdir : (m.setEntry t j e).entry q i' = m.entry q i' :=
    entry_setEntry_of_ne hj hi.lt fun hqt => ht.ne_dir hq hqt.1.symm
  split
  next hsame =>
    obtain ⟨hp, rfl, rfl⟩ := hsame
    unfold pte
    rw [hdir, hp, entry_setEntry_self hlt, Bool.true_and]
  next hother => refine pte_congr hdir fun hp => entry_setEntry_of_ne hj hj' fun hsame => hother ⟨hp, hsame.1, hsame.2⟩

end Mmu
end HelinKern
