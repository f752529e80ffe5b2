import HelinKern.Mmap
import HelinKern.Theorems.AspaceCalls

/-! `sys_mprotect` maps each page again at the address it got for an address inside the page, so that the offset in the
    page becomes part of the flags. -/

namespace HelinKern
variable {k : Nat}

namespace Mmu
open Option

variable {role : Nat → Role} {m m' : Mmu} {live : List Nat} {pd addr len v w i n : Nat} {flags : BitVec 12} {e : Entry}

def slot (m : Mmu) (pd v : Nat) : Nat × Nat := ((m.entry pd (pageDirectoryIndex v)).frame, pageTableIndex v)

def entryAt (m : Mmu) (pd v : Nat) : Entry := m.entry (m.slot pd v).1 (m.slot pd v).2

/-- The page of an address is one of those that `[addr, addr + len)` overlaps. -/
def Overlaps (addr len v : Nat) : Prop := addr / 4096 ≤ v / 4096 ∧ v / 4096 ≤ (addr + len - 1) / 4096

/-- A range of pages of the process that it may access and that are its own. -/
structure OwnRange (m : Mmu) (pd addr len : Nat) : Prop where
  pos : 0 < len
  lo : userOffset ≤ addr
  hi : addr + len ≤ memoryEnd
  pages : ∀ v, Overlaps addr len v → ∃ e, m.pte pd (pageDirectoryIndex v) (pageTableIndex v) = some e ∧
    e.has pgUser = true ∧ e.has pgOwned = true

section
variable (h : Overlaps addr len v)
include h

theorem Overlaps.lt (hpos : 0 < len) (hhi : addr + len ≤ memoryEnd) : v < memoryEnd := by
  obtain ⟨-, h⟩ := h
  unfold memoryEnd at hhi ⊢
  omega

theorem Overlaps.user (hrange : OwnRange m pd addr len) : User (pageDirectoryIndex v) := by
  have hlt := h.lt hrange.pos hrange.hi
  have hlo := hrange.lo
  obtain ⟨h, -⟩ := h
  unfold memoryEnd at hlt
  unfold userOffset at hlo
  unfold User pageDirectoryIndex
  omega

theorem Overlaps.present (hrange : OwnRange m pd addr len) :
    (m.entry pd (pageDirectoryIndex v)).has pgPresent ∧ (m.entryAt pd v).has pgPresent := by
  obtain ⟨e, he, -⟩ := hrange.pages v h
  obtain ⟨hdir, hpage, -⟩ := pte_eq_some.mp he
  exact ⟨hdir, hpage⟩

theorem Overlaps.pte (hrange : OwnRange m pd addr len) :
    m.pte pd (pageDirectoryIndex v) (pageTableIndex v) = some (m.entryAt pd v) :=
  pte_eq_some.mpr ⟨(h.present hrange).1, (h.present hrange).2, rfl⟩

end

theorem slot_congr (h : v / 4096 = w / 4096) : m.slot pd v = m.slot pd w := by
  have hdir : pageDirectoryIndex v = pageDirectoryIndex w := by
    unfold pageDirectoryIndex
    omega
  have htable : pageTableIndex v = pageTableIndex w := by
    unfold pageTableIndex
    rw [h]
  unfold slot
  rw [hdir, htable]

theorem archMmuGetPhysical_of_present (hdir : (m.entry pd (pageDirectoryIndex v)).has pgPresent)
    (hpage : (m.entryAt pd v).has pgPresent) :
    m.archMmuGetPhysical pd v = 4096 * (m.entryAt pd v).frame + v % 4096 := by
  have hne : m.entry pd (pageDirectoryIndex v) ≠ .empty := by
    intro hempty
    rw [hempty] at hdir
    cases hdir
  unfold entryAt slot at hpage ⊢
  unfold archMmuGetPhysical
  rw [if_neg hne, hpage, if_neg fun h => Bool.false_ne_true h.1]

def protect (addr : Nat) (flags : BitVec 12) (e : Entry) : Entry := ⟨e.frame, BitVec.ofNat 12 addr ||| flags⟩

theorem of_offset (frame addr : Nat) (flags : BitVec 12) :
    Entry.of (4096 * frame + addr % 4096) flags = ⟨frame, BitVec.ofNat 12 addr ||| flags⟩ := by
  have hoffset : BitVec.ofNat 12 (4096 * frame + addr % 4096) = BitVec.ofNat 12 addr := by
    apply BitVec.eq_of_toNat_eq
    simp only [BitVec.toNat_ofNat]
    omega
  unfold Entry.of
  rw [hoffset]
  congr 1
  omega

structure Protected (m : Mmu) (pd addr : Nat) (flags : BitVec 12) (n : Nat) (m' : Mmu) : Prop where
  pages : ∀ k < n, m'.entry (m.slot pd (addr + k * 4096)).1 (m.slot pd (addr + k * 4096)).2 =
    protect addr flags (m.entryAt pd (addr + k * 4096))
  others : ∀ p j, j < 1024 → (∀ k < n, m.slot pd (addr + k * 4096) ≠ (p, j)) → m'.entry p j = m.entry p j

theorem Protected.refl (m : Mmu) (pd addr : Nat) (flags : BitVec 12) : Protected m pd addr flags 0 m :=
  ⟨fun _ hk => absurd hk (Nat.not_lt_zero _), fun _ _ _ _ => rfl⟩

theorem overlaps_add (hk : k ≤ i) (hi : i * 4096 < len) : Overlaps addr len (addr + k * 4096) := by
  unfold Overlaps
  omega

section
variable (hrange : OwnRange m pd addr len) (hdirs : Dirs role m live) (hpd : pd ∈ live)
include hrange hdirs hpd

theorem Overlaps.slot_inj (hv : Overlaps addr len v) (hw : Overlaps addr len w) (heq : m.slot pd v = m.slot pd w) :
    v / 4096 = w / 4096 := by
  obtain ⟨hframe, hindex⟩ := Prod.mk.inj heq
  have hactive := hdirs.active hpd (hv.user hrange) (hv.present hrange).1
  have hactive' := hdirs.active hpd (hw.user hrange) (hw.present hrange).1
  rw [hframe] at hactive
  have hdir := hactive.index_eq hactive'
  have hvlt := hv.lt hrange.pos hrange.hi
  have hwlt := hw.lt hrange.pos hrange.hi
  unfold memoryEnd at hvlt hwlt
  unfold pageDirectoryIndex at hdir
  unfold pageTableIndex at hindex
  omega

theorem slot_ne (hk : k < i) (hi : i * 4096 < len) : m.slot pd (addr + k * 4096) ≠ m.slot pd (addr + i * 4096) := by
  intro heq
  have := Overlaps.slot_inj hrange hdirs hpd (overlaps_add (Nat.le_of_lt hk) hi) (overlaps_add (Nat.le_refl i) hi) heq
  omega

theorem Protected.dir (h : Protected m pd addr flags n m') (hover : ∀ k < n, Overlaps addr len (addr + k * 4096))
    (hi : i < 1024) : m'.entry pd i = m.entry pd i := by
  refine h.others _ _ hi fun k hk heq => ?_
  have hactive := hdirs.active hpd ((hover k hk).user hrange) ((hover k hk).present hrange).1
  exact hactive.ne_dir (hdirs.dir hpd) (congrArg Prod.fst heq)

theorem Protected.page (h : Protected m pd addr flags i m') (hi : i * 4096 < len) :
    m'.archMmuGetPhysical pd ((addr + i * 4096) % wordSize) =
        4096 * (m.entryAt pd (addr + i * 4096)).frame + addr % 4096 ∧
      Protected m pd addr flags (i + 1) (m'.addPageToPd pd ((addr + i * 4096) % wordSize)
        (4096 * (m.entryAt pd (addr + i * 4096)).frame + addr % 4096) flags) := by
  have hover : Overlaps addr len (addr + i * 4096) := overlaps_add (Nat.le_refl i) hi
  have hword : (addr + i * 4096) % wordSize = addr + i * 4096 := by
    have hhi := hrange.hi
    unfold memoryEnd at hhi
    exact Nat.mod_eq_of_lt (by unfold wordSize; omega)
  have hpresent := hover.present hrange
  have hdir := h.dir hrange hdirs hpd (fun k hk => overlaps_add (Nat.le_of_lt hk) hi) (hover.user hrange).lt
  have hsame : m'.entryAt pd (addr + i * 4096) = m.entryAt pd (addr + i * 4096) := by
    unfold entryAt slot
    rw [hdir]
    exact h.others _ _ (Nat.mod_lt _ (by decide)) fun k hk => slot_ne hrange hdirs hpd hk hi
  rw [hword]
  constructor
  · rw [archMmuGetPhysical_of_present (hdir ▸ hpresent.1) (hsame ▸ hpresent.2), hsame]
    omega
  · have hadd : m'.addPageToPd pd (addr + i * 4096) (4096 * (m.entryAt pd (addr + i * 4096)).frame + addr % 4096) flags =
        m'.setEntry (m.slot pd (addr + i * 4096)).1 (m.slot pd (addr + i * 4096)).2
          (protect addr flags (m.entryAt pd (addr + i * 4096))) := by
      unfold addPageToPd
      dsimp only
      rw [addTable_of_present (hdir ▸ hpresent.1), hdir, of_offset]
      rfl
    have hlt : (protect addr flags (m.entryAt pd (addr + i * 4096))).frame < 1048576 := entry_frame_lt ..
    have hj : (m.slot pd (addr + i * 4096)).2 < 1024 := Nat.mod_lt _ (by decide)
    rw [hadd]
    refine ⟨fun k hk => ?_, fun p j hj' hother => ?_⟩
    · rcases Nat.lt_succ_iff_lt_or_eq.mp hk with hk | rfl
      · have hj' : (m.slot pd (addr + k * 4096)).2 < 1024 := Nat.mod_lt _ (by decide)
        rw [entry_setEntry_of_ne hj hj', h.pages k hk]
        exact fun ⟨hp, hj⟩ => slot_ne hrange hdirs hpd hk hi (Prod.ext hp hj)
      · exact entry_setEntry_self hlt
    · rw [entry_setEntry_of_ne hj hj', h.others p j hj' fun k hk => hother k (by omega)]
      rintro ⟨rfl, rfl⟩
      exact hother i (Nat.lt_succ_self i) rfl

def PhysOk (m : Mmu) (pd addr k : Nat) : Prop :=
  4096 * (m.entryAt pd (addr + k * 4096)).frame + addr % 4096 ≠ 0 ∧
    4096 * (m.entryAt pd (addr + k * 4096)).frame + addr % 4096 ≠ 0xFFFFFFFF

theorem mprotectLoop_spec (h : Protected m pd addr flags i m') (hlen : ∀ k < i + n, k * 4096 < len) :
    ((mprotectLoop pd addr flags n i m').1 = 0 ↔ ∀ k, i ≤ k → k < i + n → m.PhysOk pd addr k) ∧
      ((mprotectLoop pd addr flags n i m').1 = 0 → Protected m pd addr flags (i + n) (mprotectLoop pd addr flags n i m').2) := by
  induction n generalizing i m' with
  | zero => exact ⟨iff_of_true rfl fun k _ _ => by omega, fun _ => h⟩
  | succ n ih =>
    obtain ⟨hphys, hnext⟩ := h.page hrange hdirs hpd (hlen i (by omega))
    unfold mprotectLoop
    rw [hphys]
    by_cases hok : m.PhysOk pd addr i
    · rw [if_neg fun hbad => hbad.elim hok.1 hok.2]
      obtain ⟨hiff, hspec⟩ := ih hnext fun k hk => hlen k (by omega)
      rw [show i + 1 + n = i + (n + 1) by omega] at hiff hspec
      refine ⟨hiff.trans ⟨fun hall k hk => ?_, fun hall k hk => hall k (by omega)⟩, hspec⟩
      rcases Nat.eq_or_lt_of_le hk with rfl | hk
      · exact fun _ => hok
      · exact hall k hk
    · have hbad : 4096 * (m.entryAt pd (addr + i * 4096)).frame + addr % 4096 = 0 ∨
          4096 * (m.entryAt pd (addr + i * 4096)).frame + addr % 4096 = 0xFFFFFFFF := by
        unfold PhysOk at hok
        tauto
      rw [if_pos hbad]
      have hne : ¬-eNOMEM = 0 := by decide
      exact ⟨iff_of_false hne fun hall => hok (hall i (Nat.le_refl i) (by omega)), fun hret => absurd hret hne⟩

end

/-! ### The property -/

/-- What `sys_mprotect` should do. -/
structure Reprotects (m : Mmu) (pd addr len : Nat) (prot : BitVec 32) (r : Int × Mmu) : Prop where
  ret : r.1 = 0
  pages : ∀ v, Overlaps addr len v → ∀ e, m.pte pd (pageDirectoryIndex v) (pageTableIndex v) = some e →
    ∃ e', r.2.pte pd (pageDirectoryIndex v) (pageTableIndex v) = some e' ∧ e'.frame = e.frame ∧ e'.has pgUser = true ∧
      e'.has pgOwned = true ∧ (e'.has pgWrite = true ↔ prot &&& protWrite = protWrite)
  others : ∀ p j, j < 1024 → (∀ v, Overlaps addr len v → m.slot pd v ≠ (p, j)) → r.2.entry p j = m.entry p j

/-- The offset in the page has the bits of `PG_USER` and `PG_OWNED`, and that of `PG_WRITE` only if it is asked for; the
    pages that are not reached have the right `PG_WRITE` already; and no address is `0xFFFFFFFF`. -/
structure OffsetFits (m : Mmu) (pd addr len : Nat) (prot : BitVec 32) : Prop where
  user : addr.testBit 2 = true
  owned : addr.testBit 9 = true
  write : addr.testBit 1 = true → prot &&& protWrite = protWrite
  rest : ∀ v, Overlaps addr len v → addr / 4096 + mprotectPages len ≤ v / 4096 →
    ∀ e, m.pte pd (pageDirectoryIndex v) (pageTableIndex v) = some e →
      (e.has pgWrite = true ↔ prot &&& protWrite = protWrite)
  phys : addr % 4096 = 4095 → ∀ k < mprotectPages len, ∀ e,
    m.pte pd (pageDirectoryIndex (addr + k * 4096)) (pageTableIndex (addr + k * 4096)) = some e → e.frame ≠ 0xFFFFF

variable {prot : BitVec 32}

theorem archMmuProcessFlags_eq (h : prot &&& ~~~3#32 = 0#32) :
    archMmuProcessFlags prot = if prot &&& protWrite = protWrite then pgPresent ||| pgWrite else pgPresent := by
  have hnot (bits : BitVec 32) (hbits : bits &&& ~~~3#32 ≠ 0#32) : ¬prot &&& bits = bits := by
    intro heq
    rw [← heq, BitVec.and_comm prot, BitVec.and_assoc, h, BitVec.and_zero] at hbits
    exact hbits rfl
  have huser := hnot protUser (by decide)
  have howned := hnot protOwned (by decide)
  unfold archMmuProcessFlags
  split <;> rfl

theorem lt_of_lt_mprotectPages (hpos : 0 < len) (hk : k < mprotectPages len) : k * 4096 < len := by
  unfold mprotectPages at hk
  split at hk <;> omega

theorem protect_has (addr : Nat) (e : Entry) (h : prot &&& ~~~3#32 = 0#32) :
    let e' := protect addr (archMmuProcessFlags prot) e
    e'.has pgPresent ∧ e'.has pgUser = addr.testBit 2 ∧ e'.has pgOwned = addr.testBit 9 ∧
      (e'.has pgWrite ↔ addr.testBit 1 ∨ prot &&& protWrite = protWrite) := by
  unfold protect
  rw [archMmuProcessFlags_eq h]
  simp only [Entry.has_present, Entry.has_user, Entry.has_owned, Entry.has_write, BitVec.getLsbD_or, BitVec.getLsbD_ofNat]
  split <;> rename_i hwrite <;> simp [hwrite, pgPresent, pgWrite]

theorem Protected.pte_eq (h : Protected m pd addr (archMmuProcessFlags prot) n m')
    (hrange : OwnRange m pd addr len) (hdirs : Dirs role m live) (hpd : pd ∈ live)
    (hover : ∀ k < n, Overlaps addr len (addr + k * 4096)) (hprot : prot &&& ~~~3#32 = 0#32) (hv : Overlaps addr len v) :
    m'.pte pd (pageDirectoryIndex v) (pageTableIndex v) =
      if v / 4096 < addr / 4096 + n then some (protect addr (archMmuProcessFlags prot) (m.entryAt pd v))
      else some (m.entryAt pd v) := by
  have hdir := h.dir hrange hdirs hpd hover (hv.user hrange).lt
  have hpresent := hv.present hrange
  split
  next hlt =>
    obtain ⟨k, hk⟩ : ∃ k, v / 4096 = addr / 4096 + k := ⟨v / 4096 - addr / 4096, by have := hv.1; omega⟩
    have hslot : m.slot pd v = m.slot pd (addr + k * 4096) := slot_congr (by omega)
    have hentry : m'.entry (m.slot pd v).1 (m.slot pd v).2 = protect addr (archMmuProcessFlags prot) (m.entryAt pd v) := by
      have := h.pages k (by omega)
      rwa [← hslot, show m.entryAt pd (addr + k * 4096) = m.entryAt pd v by unfold entryAt; rw [hslot]] at this
    refine pte_eq_some.mpr ⟨hdir ▸ hpresent.1, ?_, ?_⟩
    · rw [hdir]
      exact (congrArg (Entry.has · pgPresent) hentry).trans (protect_has addr _ hprot).1
    · rw [hdir]
      exact hentry
  next hge =>
    have hentry : m'.entry (m.slot pd v).1 (m.slot pd v).2 = m.entryAt pd v := by
      refine h.others _ _ (Nat.mod_lt _ (by decide)) fun k hk heq => ?_
      have := (hover k hk).slot_inj hrange hdirs hpd hv heq
      omega
    refine pte_eq_some.mpr ⟨hdir ▸ hpresent.1, ?_, ?_⟩
    · rw [hdir]
      exact (congrArg (Entry.has · pgPresent) hentry).trans hpresent.2
    · rw [hdir]
      exact hentry

/-- `sys_mprotect` does what it should exactly if the offset of the address in its page happens to be right. -/
theorem mprotect_iff (hdirs : Dirs role m live) (hpd : pd ∈ live) (hrange : OwnRange m pd addr len) (prot : BitVec 32)
    (hprot : prot &&& ~~~3#32 = 0#32) :
    m.Reprotects pd addr len prot (m.sysMprotect pd addr len prot) ↔ m.OffsetFits pd addr len prot := by
  have hlen : ∀ k < mprotectPages len, k * 4096 < len := fun k hk => lt_of_lt_mprotectPages hrange.pos hk
  have hover : ∀ k < mprotectPages len, Overlaps addr len (addr + k * 4096) := fun k hk =>
    overlaps_add (Nat.le_refl k) (hlen k hk)
  have hfirst : 0 < mprotectPages len := by
    unfold mprotectPages
    split <;> omega
  obtain ⟨hret, hspec⟩ := mprotectLoop_spec hrange hdirs hpd (.refl m pd addr (archMmuProcessFlags prot))
    (by simpa using hlen)
  rw [Nat.zero_add] at hspec hret
  change (m.sysMprotect pd addr len prot).1 = 0 → Protected m pd addr (archMmuProcessFlags prot) (mprotectPages len)
    (m.sysMprotect pd addr len prot).2 at hspec
  constructor
  · intro h
    have hafter := hspec h.ret
    have hpages := fun v hv => hafter.pte_eq hrange hdirs hpd hover hprot (v := v) hv
    have hself : Overlaps addr len addr := by simpa using hover 0 hfirst
    obtain ⟨e', he', -, huser, howned, hwrite⟩ := h.pages addr hself _ (hself.pte hrange)
    rw [hpages addr hself, if_pos (by omega)] at he'
    cases he'
    obtain ⟨-, huser', howned', hwrite'⟩ := protect_has addr (m.entryAt pd addr) hprot
    refine ⟨huser'.symm.trans huser, howned'.symm.trans howned, fun hbit => hwrite.mp (hwrite'.mpr (.inl hbit)), ?_, ?_⟩
    · intro v hv hge e he
      obtain ⟨e', he', -, -, -, hwrite⟩ := h.pages v hv e he
      rw [hpages v hv, if_neg (by omega), ← hv.pte hrange, he] at he'
      cases he'
      exact hwrite
    · intro hoffset k hk e he hframe
      rw [(hover k hk).pte hrange] at he
      cases he
      have := (hret.mp h.ret k (Nat.zero_le k) hk).2
      omega
  · intro h
    have hbit := h.user
    rw [Nat.testBit_eq_decide_div_mod_eq, decide_eq_true_eq] at hbit
    have hphys : ∀ k, 0 ≤ k → k < mprotectPages len → m.PhysOk pd addr k := by
      intro k _ hk
      refine ⟨by omega, fun hbad => ?_⟩
      exact h.phys (by omega) k hk _ ((hover k hk).pte hrange) (by omega)
    have hafter := hspec (hret.mpr hphys)
    refine ⟨hret.mpr hphys, ?_, ?_⟩
    · intro v hv e he
      have hpage := hafter.pte_eq hrange hdirs hpd hover hprot hv
      rw [hv.pte hrange] at he
      cases he
      split at hpage
      · obtain ⟨-, huser, howned, hwrite⟩ := protect_has addr (m.entryAt pd v) hprot
        refine ⟨_, hpage, rfl, huser.trans h.user, howned.trans h.owned, hwrite.trans ?_⟩
        exact ⟨fun hor => hor.elim h.write id, .inr⟩
      next hge =>
        obtain ⟨e, he, huser, howned⟩ := hrange.pages v hv
        rw [hv.pte hrange] at he
        cases he
        exact ⟨_, hpage, rfl, huser, howned, h.rest v hv (by omega) _ (hv.pte hrange)⟩
    · intro p j hj hother
      exact hafter.others p j hj fun k hk => hother _ (hover k hk)

def onePage : Option (Nat × Mmu) := small.archMmuInit.load 1

theorem onePage_ok : ∃ pd m role e, onePage = some (pd, m) ∧ Dirs role m [pd, kernelPg] ∧ m.pte pd 256 0 = some e ∧
    e.has pgUser ∧ e.has pgOwned ∧
      ((m.sysMprotect pd userOffset 4096 3).2.pte pd 256 0).map (Entry.has · pgUser) = some false := by
  have heval : (onePage.map fun r => decide (.missing ∉ r.2.log ∧
      ((r.2.sysMprotect r.1 userOffset 4096 3).2.pte r.1 256 0).map (Entry.has · pgUser) = some false) &&
      (r.2.pte r.1 256 0).any fun e => e.has pgUser && e.has pgOwned) = some true := by decide +kernel
  obtain ⟨⟨pd, m⟩, hload, heval⟩ := map_eq_some_iff.mp heval
  obtain ⟨hstate, hpage⟩ := Bool.and_eq_true_iff.mp heval
  obtain ⟨hlog, hafter⟩ := of_decide_eq_true hstate
  obtain ⟨e, he, hflags⟩ := (any_eq_true ..).mp hpage
  obtain ⟨huser, howned⟩ := Bool.and_eq_true_iff.mp hflags
  obtain ⟨role, hinv⟩ := small_inv.load hload hlog
  exact ⟨pd, m, role, e, hload, hinv.dirs, he, huser, howned, hafter⟩

theorem ownRange_of_page (he : m.pte pd 256 0 = some e) (huser : e.has pgUser) (howned : e.has pgOwned)
    (hpos : 0 < len) (hlo : userOffset ≤ addr) (hhi : addr + len ≤ userOffset + 4096) :
    m.OwnRange pd addr len ∧ ∀ v, Overlaps addr len v → v / 4096 = addr / 4096 := by
  unfold userOffset at hlo hhi
  have hpage : ∀ v, Overlaps addr len v → v / 4096 = 262144 := by
    intro v hv
    unfold Overlaps at hv
    omega
  refine ⟨⟨hpos, hlo, by unfold memoryEnd; omega, fun v hv => ⟨e, ?_, huser, howned⟩⟩, fun v hv => ?_⟩
  · have := hpage v hv
    rw [show pageDirectoryIndex v = 256 by unfold pageDirectoryIndex; omega,
      show pageTableIndex v = 0 by unfold pageTableIndex; omega]
    exact he
  · have := hpage v hv
    omega

/-- Four bytes at the offset `0x204` of the page. -/
theorem mprotect_iff_offset : ∃ pd m, onePage = some (pd, m) ∧
    m.Reprotects pd (userOffset + 0x204) 4 3 (m.sysMprotect pd (userOffset + 0x204) 4 3) := by
  obtain ⟨pd, m, role, e, hload, hdirs, he, huser, howned, -⟩ := onePage_ok
  obtain ⟨hrange, hpage⟩ := ownRange_of_page he huser howned (by decide) (by decide)
    (show userOffset + 0x204 + 4 ≤ userOffset + 4096 by decide)
  refine ⟨pd, m, hload, (mprotect_iff hdirs (List.mem_cons_self ..) hrange 3 (by decide)).mpr ?_⟩
  refine ⟨by decide, by decide, fun _ => by decide, fun v hv hge => ?_, fun h => absurd h (by decide)⟩
  have := hpage v hv
  have hone : mprotectPages 4 = 1 := rfl
  omega

/-- The whole page: afterwards the process may not access it any more. -/
theorem mprotect_drops_user : ∃ pd m, onePage = some (pd, m) ∧ m.OwnRange pd userOffset 4096 ∧
    ((m.sysMprotect pd userOffset 4096 3).2.pte pd 256 0).map (Entry.has · pgUser) = some false ∧
    ¬m.Reprotects pd userOffset 4096 3 (m.sysMprotect pd userOffset 4096 3) := by
  obtain ⟨pd, m, role, e, hload, hdirs, he, huser, howned, hafter⟩ := onePage_ok
  obtain ⟨hrange, -⟩ := ownRange_of_page he huser howned (by decide) (Nat.le_refl _) (Nat.le_refl (userOffset + 4096))
  refine ⟨pd, m, hload, hrange, hafter, fun h => ?_⟩
  obtain ⟨e', he', -, huser', -⟩ := h.pages userOffset ⟨Nat.le_refl _, by decide⟩ e he
  have hpage : (m.sysMprotect pd userOffset 4096 3).2.pte pd 256 0 = some e' := he'
  rw [hpage, map_some, huser'] at hafter
  cases hafter

end Mmu
end HelinKern
