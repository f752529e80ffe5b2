import HelinKern.Theorems.FrameLifetime
import HelinKern.Theorems.FrameSupply
import HelinKern.Theorems.TwinCalls

/-! Whether memory that a process obtains shows what other processes stored: two runs that differ in stored values only
    are followed side by side. -/

namespace HelinKern
open Mmu FrameEvent Lts List Option Machine

/-! ### `sys_mmap` -/

namespace Mmu

variable {role : Nat → Role} {clean : Nat → Prop} {live : List Nat} {m m' : Mmu} {pd : Nat} {addr size : Int}
  {flags : BitVec 32}

theorem toWord_lt (n : Int) : toWord n < 4294967296 := by
  unfold toWord
  omega

theorem Twin.mmapWhere (h : Twin clean live m m') (hplain : m.Plain live) (hpd : pd ∈ live)
    (hin : m.MmapInside pd addr size flags) : m'.mmapWhere pd addr size flags = m.mmapWhere pd addr size flags := by
  unfold Mmu.mmapWhere
  split
  · rfl
  split
  · rfl
  split
  · rfl
  rename_i hsize hflags hfixed
  obtain ⟨hhint, start, hquery, hlo, hhi, -⟩ := ((hin.resolve_left hsize).resolve_left hflags).resolve_left hfixed
  have hlow : Low (pageDirectoryIndex start) := by
    unfold userOffset at hlo
    unfold userStack at hhi
    unfold Low pageDirectoryIndex
    omega
  have hquery' : m'.archMmuQuery pd (if addr ≠ 0 then toWord addr else userMmapStart) (toWord size) = some start := by
    refine h.archMmuQuery hplain hpd hquery hlow ?_
    split
    next haddr =>
      have hword := toWord_lt addr
      unfold userOffset at hhint
      unfold pageDirectoryIndex
      omega
    · decide
  rw [hquery, hquery']
  by_cases haddr : addr = 0
  · have hplace : ¬flags &&& 8 = 8 := fun hf => hfixed ⟨hf, haddr⟩
    rw [if_neg fun h => hplace h.1, if_neg fun h => hplace h.1]
  rw [if_pos haddr] at hquery hquery'
  rw [hquery, hquery']

theorem Twin.sysMmap (h : Twin clean live m m') (hinv : Inv role m live) (hplain : m.Plain live) (hpd : pd ∈ live)
    (hk : pd ≠ kernelPg) (hin : m.MmapInside pd addr size flags) (hlog : .missing ∉ (m.sysMmap pd addr size flags).2.log) :
    (∃ role', Inv role' (m.sysMmap pd addr size flags).2 live) ∧
      Grown clean live pd m m' (m.sysMmap pd addr size flags).2 (m'.sysMmap pd addr size flags).2 := by
  unfold Mmu.sysMmap at hlog ⊢
  rw [h.mmapWhere hplain hpd hin]
  cases hfound : m.mmapWhere pd addr size flags with
  | error e => exact ⟨⟨role, hinv⟩, .refl h⟩
  | ok start =>
    rw [hfound] at hlog
    obtain ⟨hlo, hend⟩ := hin.range hfound
    dsimp only at hlog ⊢
    generalize (mmapPages size).toNat = n at hlog hend ⊢
    have hloop : .missing ∉ (mmapLoop pd start n 0 m).2.log → _ := h.grown_mmapLoop hinv hpd hk fun k _ hk => by
      unfold userOffset at hlo
      unfold userStack at hend
      unfold User pageDirectoryIndex wordSize
      omega
    rcases hm : mmapLoop pd start n 0 m with ⟨ok, m₁⟩
    rcases hm' : mmapLoop pd start n 0 m' with ⟨ok', m₁'⟩
    rw [hm] at hlog hloop
    rw [hm'] at hloop
    cases ok with
    | false =>
      obtain ⟨rfl, hinv', hgrown⟩ := hloop hlog
      exact ⟨hinv', hgrown⟩
    | true =>
      obtain ⟨rfl, hinv', hgrown⟩ := hloop hlog
      exact ⟨hinv', hgrown⟩

end Mmu

variable {live : List Nat} {size : Int} {vaddr pd : Nat} {s : Machine}

namespace Machine

variable {role : Nat → Role} {clean : Nat → Prop} {m m' : Mmu} {p pd vaddr : Nat} {s t t' u u' : Machine} {op : MemOp}

theorem grows_live (hexec : s.execMem op = some t) (hgrows : s.grows op = some pd) :
    pd ∈ s.live ∧ t.live = s.live ∧ ∀ vaddr, s.loses op pd vaddr = false := by
  unfold grows at hgrows
  split at hgrows
  · obtain ⟨qd, -, rfl⟩ := map_eq_some_iff.mp hexec
    exact ⟨(userDir_live hgrows).1, rfl, fun _ => rfl⟩
  · obtain ⟨qd, -, rfl⟩ := map_eq_some_iff.mp hexec
    exact ⟨(userDir_live hgrows).1, rfl, fun _ => rfl⟩
  · cases hgrows

section Supply
variable (h : s.Ok) (hexec : s.execMem op = some t) (hlog : .missing ∉ t.mmu.log) (hgrows : s.grows op = some pd)
  (hin : ∀ p addr size flags, op = .mmap p addr size flags → s.mmu.MmapInside pd addr size flags)
include h hexec hlog hgrows hin

theorem request_supplies : Request.Supplies (s.request pd op) pd s.mmu t.mmu := by
  obtain ⟨role, hinv⟩ := h.inv
  unfold grows at hgrows
  split at hgrows
  next p nBytes =>
    obtain ⟨hlive, hne⟩ := userDir_live hgrows
    obtain ⟨pd', hpd', rfl⟩ := map_eq_some_iff.mp hexec
    cases hgrows.symm.trans hpd'
    exact Request.supplies_sbrk hinv hlive hne (h.brk p pd hgrows) hlog
  next p addr size flags =>
    obtain ⟨hlive, hne⟩ := userDir_live hgrows
    obtain ⟨pd', hpd', rfl⟩ := map_eq_some_iff.mp hexec
    cases hgrows.symm.trans hpd'
    exact Request.supplies_sysMmap hinv hlive hne (hin p addr size flags rfl) hlog
  · cases hgrows

theorem translate_behind (hok : t.Ok) (hlo : userOffset ≤ vaddr) (hhi : vaddr < memoryEnd) :
    (t.mmu.translate pd vaddr).map Access.phys = s.behind op pd vaddr := by
  have hi := Cow.user_of_range hlo hhi
  obtain ⟨hpd, hlive, -⟩ := grows_live hexec hgrows
  obtain ⟨role, hinv⟩ := h.inv
  obtain ⟨role', hinv'⟩ := hok.inv
  rw [hlive] at hinv'
  unfold behind
  rw [Cow.translate_user hinv hpd hi, Cow.translate_user hinv' hpd hi, Option.map_map, Option.map_map]
  obtain ⟨r, hr, rfl, hputs⟩ | ⟨hr, hmem⟩ := request_supplies h hexec hlog hgrows hin
  · rw [hr, bind_some]
    cases hframe : r.frameAt s.mmu vaddr with
    | none =>
      rw [hputs.kept vaddr hlo hhi hframe]
      rfl
    | some a =>
      obtain ⟨f, rfl, howns⟩ := hputs.given vaddr hlo hhi a hframe
      rw [howns]
      rfl
  · rw [hr]
    unfold pte entry
    rw [hmem]
    rfl

end Supply

structure Carried (s : Machine) (m' : Mmu) (op : MemOp) (t t' : Machine) : Prop where
  ok : t.Ok
  right : t' = { t with mmu := t'.mmu }
  twin : Twin (fun _ => False) t.live t.mmu t'.mmu
  plain : t.mmu.Plain t.live
  agrees : ∀ q ∈ s.live, q ∈ t.live → s.grows op ≠ some q → ∀ w, Low (pageDirectoryIndex w) → w < memoryEnd →
    s.loses op q w = false → Agrees s.mmu m' q w → Agrees t.mmu t'.mmu q w
  supply : ∀ pd, s.grows op = some pd → ∀ w, User (pageDirectoryIndex w) → (Agrees t.mmu t'.mmu pd w ↔
    ∀ e, t.mmu.pte pd (pageDirectoryIndex w) (pageTableIndex w) = some e →
      m'.mem (4096 * e.frame + w % 4096) = s.mmu.mem (4096 * e.frame + w % 4096))

theorem plain_mono {live' : List Nat} (h : m.Plain live) (hsub : ∀ q ∈ live', q ∈ live) : m.Plain live' :=
  ⟨fun q hq => h.table q (hsub q hq), fun q hq => h.page q (hsub q hq)⟩

theorem Carried.of_kept (hok : t.Ok) (hright : t' = { t with mmu := t'.mmu }) (hsub : ∀ q ∈ t.live, q ∈ live)
    (hplain : s.mmu.Plain s.live) (h : Kept s.live live pd s.mmu m' t.mmu t'.mmu) (hgrows : s.grows op = none)
    (hloses : ∀ w, pd ∈ s.live → s.loses op pd w) : Carried s m' op t t' := by
  refine ⟨hok, hright, h.twin.mono hsub fun _ => id, plain_mono (h.plain hplain) hsub, ?_, ?_⟩
  · intro q hq _ _ w hi _ hkeeps hagree
    refine h.agrees q hq ?_ w hi hagree
    rintro rfl
    rw [hloses w hq] at hkeeps
    cases hkeeps
  · intro pd hpd
    rw [hgrows] at hpd
    cases hpd

theorem Carried.of_same (hok : t.Ok) (hright : t' = { t with mmu := m' }) (hsub : ∀ q ∈ t.live, q ∈ s.live)
    (hmmu : t.mmu = s.mmu) (hplain : s.mmu.Plain s.live) (htwin : Twin clean s.live s.mmu m')
    (hgrows : s.grows op = none) : Carried s m' op t t' := by
  subst hright
  refine ⟨hok, rfl, ?_, ?_, ?_, ?_⟩
  · rw [hmmu]
    exact htwin.mono hsub nofun
  · rw [hmmu]
    exact plain_mono hplain hsub
  · rw [hmmu]
    exact fun _ _ _ _ _ _ _ _ hagree => hagree
  · intro pd hpd
    rw [hgrows] at hpd
    cases hpd

theorem Carried.of_grown (hok : t.Ok) (hright : t' = { t with mmu := t'.mmu }) (hlive : t.live = s.live) (hpd : pd ∈ s.live)
    (hplain : s.mmu.Plain s.live) (h : Grown (fun a => m'.mem a = s.mmu.mem a) s.live pd s.mmu m' t.mmu t'.mmu)
    (hgrows : s.grows op = some pd) : Carried s m' op t t' := by
  refine ⟨hok, hright, ?_, ?_, ?_, ?_⟩
  · rw [hlive]
    exact h.twin.mono (fun _ => id) nofun
  · rw [hlive]
    exact h.steady.plain hplain
  · intro q hq _ hne w hi _ _ hagree
    refine h.toMoved.agrees hq ?_ hi hagree
    rintro rfl
    exact hne hgrows
  · intro qd hqd w hi
    rw [hgrows] at hqd
    cases hqd
    obtain ⟨role, hinv⟩ := hok.inv
    rw [hlive] at hinv
    exact h.agrees_iff hinv hpd hi

section Steps
variable (h : s.Ok) (hplain : s.mmu.Plain s.live) (htwin : Twin clean s.live s.mmu m')
include h hplain htwin

theorem carried_store {v v' : BitVec 8} (hexec : s.exec (.store p vaddr v) = some t)
    (hexec' : exec { s with mmu := m' } (.store p vaddr v') = some t') (hlog : .missing ∉ t.mmu.log) :
    Carried s m' (.space (.store p vaddr v)) t t' := by
  have hok := h.store hexec hlog
  unfold exec at hexec hexec'
  dsimp only at hexec hexec'
  split at hexec
  next hop =>
    rw [if_pos hop] at hexec'
    obtain ⟨pd, hdir, hexec⟩ := bind_eq_some_iff.mp hexec
    obtain ⟨pd', hdir', hexec'⟩ := bind_eq_some_iff.mp hexec'
    obtain rfl : pd = pd' := some.inj (hdir.symm.trans hdir')
    obtain ⟨m₁, hstore, rfl⟩ := map_eq_some_iff.mp hexec
    obtain ⟨m₁', hstore', rfl⟩ := map_eq_some_iff.mp hexec'
    obtain ⟨role, hinv⟩ := h.inv
    have hstored := htwin.userStore hinv hplain (mem_live (mem_cons_of_mem _ hop.1) hdir)
      (Cow.user_of_range hop.2.1 hop.2.2) hop.2.2 hstore hstore' hlog
    refine ⟨hok, rfl, hstored.twin, hstored.plain, ?_, nofun⟩
    intro q hq _ _ w hi hhi hkeeps
    refine hstored.agrees q hq w hi hhi ?_
    rintro ⟨rfl, rfl⟩
    unfold loses at hkeeps
    dsimp only at hkeeps
    rw [hdir, decide_eq_true rfl, decide_eq_true rfl] at hkeeps
    cases hkeeps
  · cases hexec

theorem carried_sbrk {nBytes : Int} (hexec : s.exec (.sbrk p nBytes) = some t)
    (hexec' : exec { s with mmu := m' } (.sbrk p nBytes) = some t') (hlog : .missing ∉ t.mmu.log) :
    Carried s m' (.space (.sbrk p nBytes)) t t' := by
  have hok := h.sbrk hexec hlog
  obtain ⟨pd, hpd, rfl⟩ := map_eq_some_iff.mp hexec
  obtain ⟨pd', hpd', rfl⟩ := map_eq_some_iff.mp hexec'
  obtain rfl : pd = pd' := some.inj (hpd.symm.trans hpd')
  obtain ⟨hlive, hne⟩ := userDir_live hpd
  obtain ⟨role, hinv⟩ := h.inv
  obtain ⟨hbrk, hgrown⟩ := htwin.agree.grown_sbrk hinv hlive hne (h.brk p pd hpd) hlog
  refine .of_grown hok ?_ rfl hlive hplain hgrown hpd
  dsimp only
  rw [hbrk]

theorem carried_exec (hexec : s.exec (.exec p size) = some t)
    (hexec' : exec { s with mmu := m' } (.exec p size) = some t') (hlog : .missing ∉ t.mmu.log) :
    Carried s m' (.space (.exec p size)) t t' := by
  have hok := h.exec hexec hlog
  obtain ⟨pd, hpd, rfl⟩ := map_eq_some_iff.mp hexec
  obtain ⟨pd', hpd', rfl⟩ := map_eq_some_iff.mp hexec'
  obtain rfl : pd = pd' := some.inj (hpd.symm.trans hpd')
  obtain ⟨hlive, hne⟩ := userDir_live hpd
  obtain ⟨role, hinv⟩ := h.inv
  have hd : s.destroys (.exec p size) = some (pd, false) := destroys_exec hpd
  have hex : Exclusive role s.mmu s.live pd false := exclusive_of_unshared hinv hlive nofun
  rw [destroy_of_destroys hd] at hok hlog ⊢
  rw [destroy_of_destroys (destroys_exec hpd')]
  have hdestroyed := htwin.agree.destroy hinv hlive hex
  obtain ⟨role', hinv'⟩ := hdestroyed.inv
  obtain ⟨hbrk, hgrown⟩ := hdestroyed.twin.agree.grown_sbrk hinv'.inv hlive hne brkOk_userOffset hlog
  refine .of_kept hok ?_ ?_ hplain (hdestroyed.toMoved.kept.trans hgrown.toMoved.kept fun _ => id) rfl fun w _ => ?_
  · unfold sysExec allocInitProcess
    dsimp only
    rw [hbrk]
  · exact live_subset (fun q _ => dir_modify s.kernel (fun q => { q with state := .running, substate := .exec })
      (fun _ => rfl) _ _ q) fun _ => id
  · unfold loses
    dsimp only
    rw [hd]
    exact decide_eq_true rfl

theorem carried_kill {code : Int} {reschedule : Bool} (hgood : s.Good (.kill p code reschedule))
    (hexec : s.exec (.kill p code reschedule) = some t)
    (hexec' : exec { s with mmu := m' } (.kill p code reschedule) = some t') :
    Carried s m' (.space (.kill p code reschedule)) t t' := by
  have hok := h.kill hgood hexec
  obtain ⟨hp, hmmu, -, hdir, htasks, -⟩ := kill_tasks hexec
  obtain ⟨-, hmmu', -⟩ := kill_tasks hexec'
  have hsub := live_subset (fun q _ => hdir q) htasks
  have hright : t' = { t with mmu := t'.mmu } := by
    unfold exec at hexec hexec'
    dsimp only at hexec hexec'
    rw [if_pos hp] at hexec hexec'
    obtain ⟨k, hkill, rfl⟩ := map_eq_some_iff.mp hexec
    obtain ⟨k', hkill', rfl⟩ := map_eq_some_iff.mp hexec'
    obtain rfl : k = k' := some.inj (hkill.symm.trans hkill')
    rfl
  have hd' : destroys { s with mmu := m' } (.kill p code reschedule) = s.destroys (.kill p code reschedule) := rfl
  unfold destroy at hmmu hmmu'
  rw [hd'] at hmmu'
  rcases hd : s.destroys (.kill p code reschedule) with _ | ⟨pd, all⟩
  · rw [hd] at hmmu hmmu'
    exact .of_same hok (by rw [hright, hmmu']) hsub hmmu hplain htwin rfl
  rw [hd] at hmmu hmmu'
  have hpd := destroys_live hd fun _ _ _ heq => by cases heq; exact hp
  obtain ⟨role, hinv⟩ := h.inv
  have hex : Exclusive role s.mmu s.live pd all :=
    exclusive_of_unshared hinv hpd fun hall => hgood pd (by rw [hd, hall])
  dsimp only at hmmu hmmu'
  have hkept := (htwin.agree.destroy hinv hpd hex).toMoved.kept
  rw [← hmmu, ← hmmu'] at hkept
  refine .of_kept hok hright hsub hplain hkept rfl fun w _ => ?_
  · unfold loses
    dsimp only
    rw [hd]
    exact decide_eq_true rfl

theorem carried_mmap {addr : Int} {flags : BitVec 32} (hexec : s.execMem (.mmap p addr size flags) = some t)
    (hexec' : execMem { s with mmu := m' } (.mmap p addr size flags) = some t')
    (hin : ∀ pd, s.userDir p = some pd → s.mmu.MmapInside pd addr size flags) (hlog : .missing ∉ t.mmu.log) :
    Carried s m' (.mmap p addr size flags) t t' := by
  obtain ⟨pd, hpd, rfl⟩ := map_eq_some_iff.mp hexec
  obtain ⟨pd', hpd', rfl⟩ := map_eq_some_iff.mp hexec'
  obtain rfl : pd = pd' := some.inj (hpd.symm.trans hpd')
  obtain ⟨hlive, hne⟩ := userDir_live hpd
  obtain ⟨role, hinv⟩ := h.inv
  obtain ⟨hinv', hgrown⟩ := htwin.agree.sysMmap hinv hplain hlive hne (hin pd hpd) hlog
  exact .of_grown (h.of_memory (fun _ _ => rfl) (fun _ => id) rfl hinv' h.brk) rfl rfl hlive hplain hgrown hpd

theorem twin_spawn {orig pid space pid' space' : Nat} {f : Process → Process} (horig : orig ∈ s.live)
    (hspawn : s.spawn orig f = some (pid, space, u))
    (hspawn' : spawn { s with mmu := m' } orig f = some (pid', space', u')) (hlog : .missing ∉ u.mmu.log) :
    pid' = pid ∧ space' = space ∧ u' = { u with mmu := u'.mmu } ∧
      (∃ role, Inv role u.mmu (space :: s.live)) ∧ Kept s.live (space :: s.live) space s.mmu m' u.mmu u'.mmu := by
  obtain ⟨⟨pid₁, k⟩, hcreate, hspawn⟩ := bind_eq_some_iff.mp hspawn
  obtain ⟨⟨space₁, m₁⟩, hnew, heq⟩ := map_eq_some_iff.mp hspawn
  cases heq
  obtain ⟨⟨pid₁', k'⟩, hcreate', hspawn'⟩ := bind_eq_some_iff.mp hspawn'
  obtain ⟨⟨space₁', m₁'⟩, hnew', heq'⟩ := map_eq_some_iff.mp hspawn'
  cases heq'
  cases hcreate.symm.trans hcreate'
  obtain ⟨role, hinv⟩ := h.inv
  obtain ⟨hinv', haspace⟩ := hinv.newAspace hnew
  obtain ⟨m₂, hnew₂, hkept⟩ := htwin.kept_newAspace hinv hnew
  cases hnew'.symm.trans hnew₂
  have hparent := mem_cons_of_mem space horig
  have hne := haspace.ne horig
  have hk := (haspace.ne h.kernelPg_live).symm
  obtain ⟨role', hinv'', -⟩ := (hinv'.duplicate hparent (mem_cons_self ..) hne hk hlog).inv
  have hmoved := hkept.twin.agree.duplicate hinv' (hkept.plain hplain) hparent (mem_cons_self ..) hne hk hlog
  generalize m₁.archMmuDuplicate orig space = m₂ at hinv'' hmoved ⊢
  generalize m₁'.archMmuDuplicate orig space = m₂' at hmoved ⊢
  exact ⟨rfl, rfl, rfl, ⟨role', hinv''⟩, hkept.trans hmoved.kept fun _ => mem_cons_of_mem _⟩

theorem carried_start (hexec : s.exec (.start size) = some t)
    (hexec' : exec { s with mmu := m' } (.start size) = some t') (hlog : .missing ∉ t.mmu.log) :
    Carried s m' (.space (.start size)) t t' := by
  have hok := h.start hexec hlog
  obtain ⟨⟨pid, space, u⟩, hspawn, rfl⟩ := map_eq_some_iff.mp hexec
  obtain ⟨⟨pid', space', u'⟩, hspawn', rfl⟩ := map_eq_some_iff.mp hexec'
  have hs := h.spawn (f := fun p => { p with state := .running, substate := .exec }) (fun _ => rfl) h.kernelPg_live hspawn
  obtain ⟨rfl, rfl, hu, ⟨role, hinv⟩, hkept⟩ := twin_spawn h hplain htwin h.kernelPg_live hspawn hspawn'
    ((sbrk_grows ..).not_missing hlog)
  have hne : space' ≠ kernelPg := fun heq => hs.not_live (heq ▸ h.kernelPg_live)
  obtain ⟨hbrk, hgrown⟩ := hkept.twin.agree.grown_sbrk hinv (mem_cons_self ..) hne brkOk_userOffset hlog
  refine .of_kept hok ?_ (hs.live_subset h) hplain (hkept.trans hgrown.toMoved.kept fun _ => mem_cons_of_mem _) rfl
    fun w hmem => absurd hmem hs.not_live
  unfold allocInitProcess
  dsimp only
  rw [hbrk, hu]

theorem carried_fork (hexec : s.exec .fork = some t) (hexec' : exec { s with mmu := m' } .fork = some t')
    (hlog : .missing ∉ t.mmu.log) : Carried s m' (.space .fork) t t' := by
  have hok := h.fork hexec hlog
  obtain ⟨orig, horig, hexec⟩ := bind_eq_some_iff.mp hexec
  obtain ⟨⟨pid, space, u⟩, hspawn, rfl⟩ := map_eq_some_iff.mp hexec
  obtain ⟨orig', horig', hexec'⟩ := bind_eq_some_iff.mp hexec'
  obtain rfl : orig = orig' := some.inj (horig.symm.trans horig')
  obtain ⟨⟨pid', space', u'⟩, hspawn', rfl⟩ := map_eq_some_iff.mp hexec'
  have hlive := (userDir_live horig).1
  have hs := h.spawn (f := fun p => { p with state := .running, substate := .fork, parent := some s.kernel.caller })
    (fun _ => rfl) hlive hspawn
  obtain ⟨rfl, rfl, hu, -, hkept⟩ := twin_spawn h hplain htwin hlive hspawn hspawn' hlog
  refine .of_kept hok ?_ (hs.live_subset h) hplain hkept rfl fun w hmem => absurd hmem hs.not_live
  rw [hu]

theorem carried_switch (hexec : s.exec (.switch p) = some t) (hexec' : exec { s with mmu := m' } (.switch p) = some t') :
    Carried s m' (.space (.switch p)) t t' := by
  unfold exec at hexec hexec'
  dsimp only at hexec hexec'
  split at hexec
  next hp =>
    rw [if_pos hp] at hexec'
    cases hexec
    cases hexec'
    exact .of_same (h.of_memory (fun _ _ => rfl) (fun _ => id) rfl h.inv h.brk) rfl (fun _ => id) rfl hplain htwin rfl
  · cases hexec

end Steps

end Machine

namespace Pair

variable {σ τ : Pair} {op : PairOp}

structure Shape (σ : Pair) : Prop where
  ok : σ.left.Ok
  plain : σ.left.mmu.Plain σ.left.live
  right : σ.right = { σ.left with mmu := σ.right.mmu }
  twin : Twin (fun _ => False) σ.left.live σ.left.mmu σ.right.mmu
  fresh : ∀ pd vaddr, σ.fresh pd vaddr = true → pd ∈ σ.left.live ∧ userOffset ≤ vaddr ∧ vaddr < userStack

def Agree (σ : Pair) : Prop := ∀ pd vaddr, σ.fresh pd vaddr = true → Agrees σ.left.mmu σ.right.mmu pd vaddr

theorem low_of_range (hlo : userOffset ≤ vaddr) (hhi : vaddr < userStack) : Low (pageDirectoryIndex vaddr) := by
  unfold userOffset at hlo
  unfold userStack at hhi
  unfold Low pageDirectoryIndex
  omega

theorem lt_memoryEnd (h : vaddr < userStack) : vaddr < memoryEnd := by
  unfold userStack at h
  unfold memoryEnd
  omega

theorem freshAfter_eq_true {t : Machine} {op : MemOp} {fresh : Nat → Nat → Bool}
    (h : s.freshAfter op t fresh pd vaddr) :
    pd ∈ t.live ∧ ((∃ start size, s.obtained op = some (pd, start, size) ∧ start ≤ vaddr ∧ vaddr < start + size) ∨
      fresh pd vaddr ∧ s.loses op pd vaddr = false) := by
  unfold freshAfter at h
  rw [Bool.and_eq_true, Bool.or_eq_true, decide_eq_true_eq, Bool.and_eq_true, Bool.not_eq_true'] at h
  refine ⟨h.1, h.2.imp_left fun hobtained => ?_⟩
  rcases heq : s.obtained op with _ | ⟨qd, start, size⟩
  · rw [heq] at hobtained
    cases hobtained
  · rw [heq] at hobtained
    obtain ⟨rfl, hlo, hhi⟩ := of_decide_eq_true hobtained
    exact ⟨start, size, rfl, hlo, hhi⟩

theorem grows_of_obtained {op : MemOp} {start size : Nat} (h : s.obtained op = some (pd, start, size)) :
    s.grows op = some pd := by
  unfold obtained at h
  split at h
  · obtain ⟨qd, hqd, h⟩ := bind_eq_some_iff.mp h
    obtain ⟨_, -, heq⟩ := map_eq_some_iff.mp h
    cases heq
    exact hqd
  · obtain ⟨qd, hqd, h⟩ := bind_eq_some_iff.mp h
    obtain ⟨_, -, heq⟩ := map_eq_some_iff.mp h
    cases heq
    exact hqd
  · cases h

theorem Shape.carried (h : σ.Shape) (hexec : σ.exec op = some τ) (hreg : σ.Regular op τ) :
    Machine.Carried σ.left σ.right.mmu op.left τ.left τ.right ∧
      τ.fresh = σ.left.freshAfter op.left τ.left σ.fresh := by
  obtain ⟨l, hleft, hexec⟩ := bind_eq_some_iff.mp hexec
  obtain ⟨r, hright, rfl⟩ := map_eq_some_iff.mp hexec
  refine ⟨?_, rfl⟩
  have hlog := hreg.missing
  rw [h.right] at hright
  cases op with
  | stores p vaddr v v' => exact carried_store h.ok h.plain h.twin hleft hright hlog
  | both op =>
    cases op with
    | mmap p addr size flags =>
      exact carried_mmap h.ok h.plain h.twin hleft hright (fun pd hpd => hreg.search p pd addr size flags rfl hpd) hlog
    | space op =>
      cases op with
      | start size => exact carried_start h.ok h.plain h.twin hleft hright hlog
      | switch p => exact carried_switch h.ok h.plain h.twin hleft hright
      | fork => exact carried_fork h.ok h.plain h.twin hleft hright hlog
      | store p vaddr v => exact carried_store h.ok h.plain h.twin hleft hright hlog
      | sbrk p nBytes => exact carried_sbrk h.ok h.plain h.twin hleft hright hlog
      | exec p size => exact carried_exec h.ok h.plain h.twin hleft hright hlog
      | kill p code reschedule =>
        exact carried_kill h.ok h.plain h.twin (hreg.good _ rfl) hleft hright

theorem execMem_left (h : σ.exec op = some τ) : σ.left.execMem op.left = some τ.left := by
  obtain ⟨l, hleft, h⟩ := bind_eq_some_iff.mp h
  obtain ⟨r, -, rfl⟩ := map_eq_some_iff.mp h
  exact hleft

theorem Unwritten.freshAfter {t : Machine} (h : σ.Unwritten op.left pd vaddr) (hexec : σ.left.execMem op.left = some t)
    (hgrows : σ.left.grows op.left = some pd) : σ.left.freshAfter op.left t σ.fresh pd vaddr := by
  obtain ⟨hpd, hlive, hloses⟩ := grows_live hexec hgrows
  unfold Machine.freshAfter
  rw [Bool.and_eq_true, Bool.or_eq_true, hlive, hloses, Bool.not_false, Bool.and_true]
  refine ⟨decide_eq_true hpd, h.imp_left ?_⟩
  rintro ⟨start, size, hobtained, hlo, hhi⟩
  rw [hobtained]
  exact decide_eq_true ⟨rfl, hlo, hhi⟩

theorem Shape.step (h : σ.Shape) (hagree : σ.Agree) (hexec : σ.exec op = some τ) (hreg : σ.Regular op τ) :
    τ.Shape ∧ (τ.Agree ↔ σ.Supplied op) := by
  obtain ⟨hcarried, hfresh⟩ := h.carried hexec hreg
  have hrange : ∀ pd vaddr, τ.fresh pd vaddr → pd ∈ τ.left.live ∧ userOffset ≤ vaddr ∧ vaddr < userStack := by
    intro pd vaddr hf
    rw [hfresh] at hf
    obtain ⟨hlive, ⟨start, size, hobtained, hlo, hhi⟩ | ⟨hold, -⟩⟩ := freshAfter_eq_true hf
    · obtain ⟨hstart, hend⟩ := hreg.inside pd start size hobtained
      exact ⟨hlive, by omega, by omega⟩
    · exact ⟨hlive, (h.fresh pd vaddr hold).2⟩
  have hleft := execMem_left hexec
  -- what is behind the address after the call was told before it
  have hbehind : ∀ pd, σ.left.grows op.left = some pd → ∀ vaddr, τ.fresh pd vaddr → σ.left.behind op.left pd vaddr =
      (τ.left.mmu.pte pd (pageDirectoryIndex vaddr) (pageTableIndex vaddr)).map fun e => 4096 * e.frame + vaddr % 4096 := by
    intro pd hgrows vaddr hf
    obtain ⟨hlive, hlo, hhi⟩ := hrange pd vaddr hf
    obtain ⟨role, hinv⟩ := hcarried.ok.inv
    have hsearch : ∀ p addr size flags, op.left = .mmap p addr size flags → σ.left.mmu.MmapInside pd addr size flags := by
      intro p addr size flags hop
      refine hreg.search p pd addr size flags hop ?_
      rw [hop] at hgrows
      exact hgrows
    rw [← translate_behind h.ok hleft hreg.missing hgrows hsearch hcarried.ok hlo (lt_memoryEnd hhi),
      Cow.translate_user hinv hlive (low_of_range hlo hhi).user, Option.map_map]
    rfl
  refine ⟨⟨hcarried.ok, hcarried.plain, hcarried.right, hcarried.twin, hrange⟩, fun hnew pd hgrows vaddr hun a ha => ?_,
    fun hsupplied pd vaddr hf => ?_⟩
  · have hf : τ.fresh pd vaddr := hfresh ▸ hun.freshAfter hleft hgrows
    rw [hbehind pd hgrows vaddr hf] at ha
    obtain ⟨e, he, rfl⟩ := map_eq_some_iff.mp ha
    obtain ⟨-, hlo, hhi⟩ := hrange pd vaddr hf
    exact (hcarried.supply pd hgrows vaddr (low_of_range hlo hhi).user).mp (hnew pd vaddr hf) e he
  · obtain ⟨hlive, hlo, hhi⟩ := hrange pd vaddr hf
    have hi := low_of_range hlo hhi
    by_cases hgrows : σ.left.grows op.left = some pd
    · -- what a call mapped is supplied
      refine (hcarried.supply pd hgrows vaddr hi.user).mpr fun e he => ?_
      have hun : σ.Unwritten op.left pd vaddr := (freshAfter_eq_true (hfresh ▸ hf)).2.imp_right And.left
      refine hsupplied pd hgrows vaddr hun _ ?_
      rw [hbehind pd hgrows vaddr hf, he]
      rfl
    · rw [hfresh] at hf
      obtain ⟨-, ⟨start, size, hobtained, -⟩ | ⟨hold, hkeeps⟩⟩ := freshAfter_eq_true hf
      · exact absurd (grows_of_obtained hobtained) hgrows
      · exact hcarried.agrees pd (h.fresh pd vaddr hold).1 hlive hgrows vaddr hi (lt_memoryEnd hhi) hkeeps
          (hagree pd vaddr hold)

theorem Shape.start (hok : s.Ok) (hplain : s.mmu.Plain s.live) : (Pair.start s).Shape :=
  ⟨hok, hplain, rfl, ⟨rfl, rfl, rfl, fun _ _ => rfl⟩, nofun⟩

end Pair
end HelinKern
