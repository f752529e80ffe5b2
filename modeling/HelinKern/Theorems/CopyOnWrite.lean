import HelinKern.CopyOnWrite
import HelinKern.Theorems.AspaceCalls

/-! Isolation of processes that fork and store: the pages a process owns are the memory the process would have if
    a fork copied everything at once. -/

namespace HelinKern
variable {mems' : Memories} {q i' j' child : Nat}

namespace Cow
open Mmu Paged Lts Function List Option

variable {role : Nat → Role} {m m' : Mmu} {live : List Nat} {pd i j f vaddr : Nat} {s t : Cow} {mems : Memories}

/-! ### The memories a machine stands for -/

/-- What the machine has at one place is what the memories say. -/
def RefinesAt (m : Mmu) (s : Memories) (pd i j : Nat) : Prop :=
  s.page pd i j = .of (m.backing pd i j) ∧ ∀ f b, m.backing pd i j = some (f, b) → ∀ o < 4096,
    m.mem (4096 * f + o) = if b then s.own pd (getVirtualAddress i j + o) else s.shared (4096 * f + o)

def Refines (m : Mmu) (live : List Nat) (s : Memories) : Prop :=
  ∀ pd ∈ live, ∀ i j, User i → j < 1024 → RefinesAt m s pd i j

def KernClean (m : Mmu) : Prop :=
  ∀ i j, 960 ≤ i → i < 1023 → j < 1024 → ∀ f, m.backing kernelPg i j ≠ some (f, true)

structure CowOk (m : Mmu) (live : List Nat) (s : Memories) : Prop where
  inv : ∃ role, Inv role m live
  kernShared : KernShared m live
  kernClean : KernClean m
  refines : Refines m live s

variable {v : BitVec 8} {b : Bool} {op : CowOp} {e : Entry}

theorem RefinesAt.congr (h : RefinesAt m mems pd i j) (hback : m'.backing q i j = m.backing pd i j)
    (hmem : ∀ f b, m.backing pd i j = some (f, b) → ∀ o < 4096, m'.mem (4096 * f + o) = m.mem (4096 * f + o))
    (hpage : mems'.page q = mems.page pd) (hown : mems'.own q = mems.own pd) (hshared : mems'.shared = mems.shared) :
    RefinesAt m' mems' q i j := by
  unfold RefinesAt
  rw [hback, hpage, hown, hshared]
  refine ⟨h.1, fun f b hb o ho => ?_⟩
  rw [hmem f b hb o ho]
  exact h.2 f b hb o ho

theorem backing_of_pte (he : m.pte pd i j = some e) : m.backing pd i j = some (e.frame, e.has pgOwned) := by
  unfold backing
  rw [he]
  rfl

section
variable (h : Inv role m live) (hpd : pd ∈ live) (hi : User i) (hj : j < 1024)
include h hpd hi hj

theorem backing_role (hb : m.backing pd i j = some (f, b)) : role f = if b then .page i j else .shared := by
  obtain ⟨e, he, heq⟩ := map_eq_some_iff.mp hb
  cases heq
  have hok := h.pte_ok hpd hi hj he
  cases ho : e.has pgOwned with
  | true => exact hok.owned ho
  | false => exact (hok.other ho).1

theorem backing_data (hb : m.backing pd i j = some (f, b)) : role f ≠ .free ∧ (role f).structural = false := by
  rw [backing_role h hpd hi hj hb]
  cases b
  · exact ⟨nofun, rfl⟩
  · exact ⟨nofun, rfl⟩

theorem backing_mem (hmem : ∀ a, role (a / 4096) ≠ .free → (role (a / 4096)).structural = false → m'.mem a = m.mem a) (f : Nat)
    (b : Bool) (hb : m.backing pd i j = some (f, b)) (o : Nat) (ho : o < 4096) :
    m'.mem (4096 * f + o) = m.mem (4096 * f + o) := by
  have hdata := backing_data h hpd hi hj hb
  have hpage : (4096 * f + o) / 4096 = f := by omega
  exact hmem _ (by rw [hpage]; exact hdata.1) (by rw [hpage]; exact hdata.2)

theorem backing_congr (he : ∀ p, (role p).structural → ∀ j < 1024, m'.entry p j = m.entry p j) :
    m'.backing pd i j = m.backing pd i j := by
  unfold backing
  rw [pte_congr (he pd (by rw [h.dirs.dir hpd]; rfl) i hi.lt) fun hp =>
    he _ (h.dirs.active hpd hi hp).structural j hj]

end

theorem CowOk.own_table {s : Memories} (h : CowOk m live s) (hpd : pd ∈ live) (hq : q ∈ live) (hi : User i)
    (hi' : User i') (hj : j < 1024) (hb : m.backing pd i j = some (f, true))
    (hp : (m.entry q i').has pgPresent) (hframe : (m.entry q i').frame = (m.entry pd i).frame) : q = pd ∧ i' = i := by
  obtain ⟨role, hinv⟩ := h.inv
  obtain ⟨e, he, heq⟩ := map_eq_some_iff.mp hb
  obtain ⟨hpp, hpe, hentry⟩ := pte_eq_some.mp he
  obtain ⟨rfl, hsame⟩ := hinv.same_table hpd hq hi hi' hpp hp hframe
  refine ⟨hsame.resolve_right fun ⟨hlo, hpk, hfk⟩ => ?_, rfl⟩
  refine h.kernClean i' j hlo hi.2 hj f ?_
  rw [← heq]
  exact backing_eq_some hpk (by rw [hfk]; exact hentry) (by rw [← hentry]; exact hpe)

theorem user_of_range (hlo : userOffset ≤ vaddr) (hhi : vaddr < memoryEnd) : User (pageDirectoryIndex vaddr) := by
  unfold userOffset at hlo
  unfold memoryEnd at hhi
  unfold User pageDirectoryIndex
  omega

theorem virtual_add_offset (hhi : vaddr < memoryEnd) :
    getVirtualAddress (pageDirectoryIndex vaddr) (pageTableIndex vaddr) + vaddr % 4096 = vaddr := by
  unfold memoryEnd at hhi
  unfold getVirtualAddress pageDirectoryIndex pageTableIndex
  omega

theorem virtual_inj {o o' : Nat} (hj : j < 1024) (hj' : j' < 1024) (ho : o < 4096) (ho' : o' < 4096)
    (h : getVirtualAddress i j + o = getVirtualAddress i' j' + o') : i = i' ∧ j = j' ∧ o = o' := by
  unfold getVirtualAddress at h
  omega

theorem translate_user (h : Inv role m live) (hpd : pd ∈ live) (hi : User (pageDirectoryIndex vaddr)) :
    m.translate pd vaddr = (m.pte pd (pageDirectoryIndex vaddr) (pageTableIndex vaddr)).map fun e =>
      ⟨4096 * e.frame + vaddr % 4096, (m.entry pd (pageDirectoryIndex vaddr)).has pgUser && e.has pgUser,
        (m.entry pd (pageDirectoryIndex vaddr)).has pgWrite && e.has pgWrite⟩ := by
  unfold Mmu.translate pte
  dsimp only
  cases hp : (m.entry pd (pageDirectoryIndex vaddr)).has pgPresent with
  | false => rfl
  | true =>
    rw [(h.dirs.pde pd hpd _ hi hp).small]
    cases hpe : (m.entry (m.entry pd (pageDirectoryIndex vaddr)).frame (pageTableIndex vaddr)).has pgPresent <;> rfl

theorem peek_user (h : Inv role m live) (hpd : pd ∈ live) (hi : User (pageDirectoryIndex vaddr)) :
    m.peek pd vaddr = (m.backing pd (pageDirectoryIndex vaddr) (pageTableIndex vaddr)).map fun b =>
      m.mem (4096 * b.1 + vaddr % 4096) := by
  unfold peek backing
  rw [translate_user h hpd hi]
  cases m.pte pd (pageDirectoryIndex vaddr) (pageTableIndex vaddr) <;> rfl

theorem userWrite_eq_some (h : m.userWrite pd vaddr v = some m') :
    ∃ a, m.translate pd vaddr = some a ∧ a.write ∧ m' = { m with mem := update m.mem a.phys v } := by
  unfold userWrite at h
  split at h
  · cases h
  rename_i a ha
  split at h
  next hok =>
    rw [Bool.and_eq_true] at hok
    exact ⟨a, ha, hok.2, (some.inj h).symm⟩
  · cases h

theorem userWrite_pte (h : Inv role m live) (hpd : pd ∈ live) (hi : User (pageDirectoryIndex vaddr))
    (hwrite : m.userWrite pd vaddr v = some m') :
    (m.entry pd (pageDirectoryIndex vaddr)).has pgWrite ∧
      ∃ e, m.pte pd (pageDirectoryIndex vaddr) (pageTableIndex vaddr) = some e ∧ e.has pgWrite ∧
        m' = { m with mem := update m.mem (4096 * e.frame + vaddr % 4096) v } := by
  obtain ⟨a, ha, hw, rfl⟩ := userWrite_eq_some hwrite
  rw [translate_user h hpd hi] at ha
  obtain ⟨e, he, rfl⟩ := map_eq_some_iff.mp ha
  rw [Bool.and_eq_true] at hw
  exact ⟨hw.1, e, he, hw.2, rfl⟩

/-- A store is a write, or a write after the page was copied. -/
theorem userStore_cases {parent : Option Nat} (h : Inv role m live) (hpd : pd ∈ live)
    (hi : User (pageDirectoryIndex vaddr)) (hstore : m.userStore pd parent vaddr v = some m') (hlog : .missing ∉ m'.log) :
    m.userWrite pd vaddr v = some m' ∨ m.userWrite pd vaddr v = none ∧
      ∃ m₁ e, m.pte pd (pageDirectoryIndex vaddr) (pageTableIndex vaddr) = some e ∧
        m.handleCOW pd parent vaddr = some m₁ ∧ .missing ∉ m₁.log ∧ m₁.userWrite pd vaddr v = some m' := by
  unfold userStore at hstore
  split at hstore
  next hwrite =>
    cases hstore
    exact .inl hwrite
  rename_i hfault
  split at hstore
  · cases hstore
  rename_i hpresent
  obtain ⟨m₁, hcow, hretry⟩ := bind_eq_some_iff.mp hstore
  rw [translate_user h hpd hi, isNone_map, isNone_iff_eq_none] at hpresent
  obtain ⟨e, he⟩ := ne_none_iff_exists'.mp hpresent
  refine .inr ⟨hfault, m₁, e, he, hcow, ?_, hretry⟩
  obtain ⟨_, -, -, rfl⟩ := userWrite_eq_some hretry
  exact hlog

theorem Refines.peek (h : Refines m live mems) (hinv : Inv role m live) (hpd : pd ∈ live) (hlo : userOffset ≤ vaddr)
    (hhi : vaddr < memoryEnd) : m.peek pd vaddr = mems.read pd vaddr := by
  have hi := user_of_range hlo hhi
  have hj := pageTableIndex_lt vaddr
  have ho : vaddr % 4096 < 4096 := Nat.mod_lt _ (by decide)
  rw [peek_user hinv hpd hi]
  obtain ⟨hpage, hbytes⟩ := h pd hpd _ _ hi hj
  unfold Memories.read
  rw [hpage]
  rcases hb : m.backing pd (pageDirectoryIndex vaddr) (pageTableIndex vaddr) with _ | ⟨f, _ | _⟩
  · rfl
  · exact congrArg some (hbytes f false hb _ ho)
  · have hmem := hbytes f true hb _ ho
    rw [virtual_add_offset hhi] at hmem
    exact congrArg some hmem

theorem CowOk.writer (h : CowOk m live mems) (hpd : pd ∈ live) (hq : q ∈ live) (hi : User i) (hi' : User i')
    (hj : j < 1024) (hj' : j' < 1024) (he : m.pte pd i j = some e) (hw : e.has pgWrite)
    (hb : m.backing q i' j' = some (e.frame, b)) :
    b = e.has pgOwned ∧ (b → q = pd ∧ i' = i ∧ j' = j) := by
  obtain ⟨role, hinv⟩ := h.inv
  have hbacking := backing_of_pte he
  have hrole := backing_role hinv hpd hi hj hbacking
  rw [backing_role hinv hq hi' hj' hb] at hrole
  cases ho : e.has pgOwned with
  | false =>
    rw [ho] at hrole
    cases b
    · exact ⟨rfl, nofun⟩
    · cases hrole
  | true =>
    rw [ho] at hrole hbacking
    cases b
    · cases hrole
    refine ⟨rfl, fun _ => ?_⟩
    cases hrole
    obtain ⟨e', he', heq⟩ := map_eq_some_iff.mp hb
    obtain ⟨hp', htable⟩ := hinv.pte_alone hpd hq hi hj he he' ho hw (congrArg Prod.fst heq)
    exact ⟨(h.own_table hpd hq hi hi hj hbacking hp' htable).1, rfl, rfl⟩

theorem store_owned (h : mems.page pd (pageDirectoryIndex vaddr) (pageTableIndex vaddr) = .owned) :
    mems.store pd vaddr v = { mems with own := update mems.own pd (update (mems.own pd) vaddr v) } := by
  unfold Memories.store
  rw [h]

theorem store_shared (h : mems.page pd (pageDirectoryIndex vaddr) (pageTableIndex vaddr) = .shared f) :
    mems.store pd vaddr v = { mems with shared := update mems.shared (4096 * f + vaddr % 4096) v } := by
  unfold Memories.store
  rw [h]

theorem CowOk.of_data {mem : Word.Memory} (h : CowOk m live mems) (hinv : Inv role m live)
    (hmem : ∀ a, (role (a / 4096)).structural → mem a = m.mem a)
    (hrefines : (∀ pd ∈ live, ∀ i j, User i → j < 1024 → { m with mem }.backing pd i j = m.backing pd i j) →
      Refines { m with mem } live mems') :
    CowOk { m with mem } live mems' := by
  have hentry : ∀ p, (role p).structural → ∀ j < 1024, { m with mem }.entry p j = m.entry p j :=
    fun p hp j hj => entry_congr hj fun b hb => hmem b (by rw [hb]; exact hp)
  have hdir : ∀ pd ∈ live, ∀ i < 1024, { m with mem }.entry pd i = m.entry pd i :=
    fun pd hpd => hentry pd (by rw [hinv.dirs.dir hpd]; rfl)
  have hback : ∀ pd ∈ live, ∀ i j, User i → j < 1024 → { m with mem }.backing pd i j = m.backing pd i j :=
    fun pd hpd i j hi hj => backing_congr hinv hpd hi hj hentry
  refine ⟨⟨role, hinv.write hmem⟩, ?_, ?_, hrefines hback⟩
  · intro q hq i hlo hhi
    rw [hdir q hq i (by omega), hdir kernelPg hinv.dirs.kernel i (by omega)]
    exact h.kernShared q hq i hlo hhi
  · intro i j hlo hhi hj
    rw [hback kernelPg hinv.dirs.kernel i j ⟨by omega, hhi⟩ hj]
    exact h.kernClean i j hlo hhi hj

section
variable (h : CowOk m live mems) (hpd : pd ∈ live)
include h hpd

section
variable (hi : User (pageDirectoryIndex vaddr)) (hhi : vaddr < memoryEnd)
  (he : m.pte pd (pageDirectoryIndex vaddr) (pageTableIndex vaddr) = some e) (hw : e.has pgWrite)
include hi hhi he hw

theorem CowOk.write_refines (hm' : m' = { m with mem := update m.mem (4096 * e.frame + vaddr % 4096) v })
    (hback : ∀ q ∈ live, ∀ i j, User i → j < 1024 → m'.backing q i j = m.backing q i j) :
    Refines m' live (mems.store pd vaddr v) := by
  have hj := pageTableIndex_lt vaddr
  have ho : vaddr % 4096 < 4096 := Nat.mod_lt _ (by decide)
  have hva := virtual_add_offset hhi
  have hbacking := backing_of_pte he
  have hplace := (h.refines pd hpd _ _ hi hj).1
  rw [hbacking] at hplace
  refine fun q hq i' j' hi' hj' => ?_
  obtain ⟨hpage, hbytes⟩ := h.refines q hq i' j' hi' hj'
  unfold RefinesAt
  rw [hback q hq i' j' hi' hj']
  subst hm'
  cases howned : e.has pgOwned with
  | false =>
    rw [howned] at hplace
    rw [store_shared hplace]
    refine ⟨hpage, fun g b hb o' ho' => ?_⟩
    dsimp only
    by_cases ha : 4096 * g + o' = 4096 * e.frame + vaddr % 4096
    · obtain rfl : g = e.frame := by omega
      obtain ⟨rfl, -⟩ := h.writer hpd hq hi hi' hj hj' he hw hb
      rw [howned, ha, update_self, if_neg Bool.false_ne_true, update_self]
    · rw [update_of_ne ha, update_of_ne ha]
      exact hbytes g b hb o' ho'
  | true =>
    rw [howned] at hplace hbacking
    rw [store_owned hplace]
    refine ⟨hpage, fun g b hb o' ho' => ?_⟩
    dsimp only
    by_cases ha : 4096 * g + o' = 4096 * e.frame + vaddr % 4096
    · obtain ⟨rfl, rfl⟩ : g = e.frame ∧ o' = vaddr % 4096 := by omega
      obtain ⟨rfl, hsame⟩ := h.writer hpd hq hi hi' hj hj' he hw hb
      obtain ⟨rfl, rfl, rfl⟩ := hsame howned
      rw [howned, if_pos rfl, hva, update_self, update_self, update_self]
    · rw [update_of_ne ha, hbytes g b hb o' ho']
      by_cases hqp : q = pd
      · subst hqp
        rw [update_self, update_of_ne]
        intro heq
        obtain ⟨rfl, rfl, rfl⟩ := virtual_inj hj' hj ho' ho (heq.trans hva.symm)
        rw [hbacking] at hb
        cases hb
        exact ha rfl
      · rw [update_of_ne hqp]

theorem CowOk.write_page :
    CowOk { m with mem := update m.mem (4096 * e.frame + vaddr % 4096) v } live (mems.store pd vaddr v) := by
  obtain ⟨role, hinv⟩ := h.inv
  have hdata := backing_data hinv hpd hi (Nat.mod_lt _ (by decide)) (backing_of_pte he)
  refine h.of_data hinv (fun b hb => ?_) fun hback => ?_
  · refine update_of_ne ?_ _ _
    rintro rfl
    rw [show (4096 * e.frame + vaddr % 4096) / 4096 = e.frame by omega, hdata.2] at hb
    cases hb
  · exact h.write_refines hpd hi hhi he hw rfl hback

end

theorem CowOk.write (hlo : userOffset ≤ vaddr) (hhi : vaddr < memoryEnd) (hwrite : m.userWrite pd vaddr v = some m') :
    CowOk m' live (mems.store pd vaddr v) := by
  obtain ⟨role, hinv⟩ := h.inv
  have hi := user_of_range hlo hhi
  obtain ⟨-, e, he, hw, rfl⟩ := userWrite_pte hinv hpd hi hwrite
  exact h.write_page hpd hi hhi he hw

theorem CowOk.copied {parent : Option Nat} (hi : User (pageDirectoryIndex vaddr))
    (he : m.pte pd (pageDirectoryIndex vaddr) (pageTableIndex vaddr) = some e) (ho : e.has pgOwned)
    (hcow : m.handleCOW pd parent vaddr = some m') (hlog : .missing ∉ m'.log) : CowOk m' live mems := by
  obtain ⟨role, hinv⟩ := h.inv
  have hj := pageTableIndex_lt vaddr
  obtain ⟨hp, hpe, hentry⟩ := pte_eq_some.mp he
  obtain ⟨f, hcopy, hinv'⟩ := hinv.handleCOW hpd hi hp hpe hcow hlog
  generalize pageDirectoryIndex vaddr = i at *
  generalize pageTableIndex vaddr = j at *
  have hbacking : m.backing pd i j = some (e.frame, true) := by
    unfold backing
    rw [he, map_some, ho]
  -- only the place of the fault has another frame
  have hback : ∀ q ∈ live, ∀ i' j', User i' → j' < 1024 → ¬(q = pd ∧ i' = i ∧ j' = j) →
      m'.backing q i' j' = m.backing q i' j' := by
    intro q hq i' j' hi' hj' hne
    rw [hcopy.back q hq i' j' hi' hj', if_neg]
    rintro ⟨hpq, hframe, rfl⟩
    obtain ⟨rfl, rfl⟩ := h.own_table hpd hq hi hi' hj hbacking hpq hframe
    exact hne ⟨rfl, rfl, rfl⟩
  have hself : m'.backing pd i j = some (f, true) := by
    rw [hcopy.back pd hpd i j hi hj, if_pos ⟨hp, rfl, rfl⟩]
  refine ⟨⟨_, hinv'⟩, ?_, ?_, fun q hq i' j' hi' hj' => ?_⟩
  · intro q hq i' hlo hhi
    rw [hcopy.dir q hq i' (by omega), hcopy.dir kernelPg hinv.dirs.kernel i' (by omega)]
    exact h.kernShared q hq i' hlo hhi
  · intro i' j' hlo hhi hj' g hb
    have hi' : User i' := ⟨by omega, hhi⟩
    by_cases hsame : kernelPg = pd ∧ i' = i ∧ j' = j
    · obtain ⟨rfl, rfl, rfl⟩ := hsame
      exact h.kernClean i' j' hlo hhi hj' _ hbacking
    · rw [hback kernelPg hinv.dirs.kernel i' j' hi' hj' hsame] at hb
      exact h.kernClean i' j' hlo hhi hj' g hb
  · have hat := h.refines q hq i' j' hi' hj'
    by_cases hsame : q = pd ∧ i' = i ∧ j' = j
    · obtain ⟨rfl, rfl, rfl⟩ := hsame
      obtain ⟨hpage, hbytes⟩ := hat
      unfold RefinesAt
      rw [hself]
      rw [hbacking] at hpage
      refine ⟨hpage, ?_⟩
      rintro _ _ ⟨⟩ o ho
      rw [hcopy.copy o ho, hentry]
      exact hbytes _ _ hbacking o ho
    · exact hat.congr (hback q hq i' j' hi' hj' hsame) (backing_mem hinv hq hi' hj' hcopy.mem) rfl rfl rfl

theorem CowOk.store {parent : Nat} (hlo : userOffset ≤ vaddr)
    (hhi : vaddr < memoryEnd) (huser : ∀ a, m.translate pd vaddr = some a → a.user)
    (hstore : m.userStore pd (some parent) vaddr v = some m') (hlog : .missing ∉ m'.log) :
    CowOk m' live (mems.store pd vaddr v) := by
  obtain ⟨role, hinv⟩ := h.inv
  have hi := user_of_range hlo hhi
  have hj := pageTableIndex_lt vaddr
  rcases userStore_cases hinv hpd hi hstore hlog with hwrite | ⟨hfault, m₁, e, he, hcow, hlog₁, hretry⟩
  · exact h.write hpd hlo hhi hwrite
  have htranslate := translate_user hinv hpd hi
  rw [he, map_some] at htranslate
  obtain ⟨hp, hpe, hentry⟩ := pte_eq_some.mp he
  -- the directory allows the write after the fault, so that it was the page that did not
  have hnowrite : e.has pgWrite = false := by
    obtain ⟨f, hcopy, hinv₁⟩ := hinv.handleCOW hpd hi hp hpe hcow hlog₁
    have hdir := (userWrite_pte hinv₁ hpd hi hretry).1
    rw [hcopy.dir pd hpd _ hi.lt] at hdir
    cases hw : e.has pgWrite with
    | false => rfl
    | true =>
      have hu := huser _ htranslate
      unfold userWrite at hfault
      rw [htranslate] at hfault
      dsimp only at hfault hu
      rw [hu, hdir, hw] at hfault
      cases hfault
  have howned : e.has pgOwned := by
    cases ho : e.has pgOwned with
    | true => rfl
    | false =>
      have hw := ((hinv.pte_ok hpd hi hj he).other ho).2
      rw [hnowrite] at hw
      cases hw
  exact (h.copied hpd hi he howned hcow hlog₁).write hpd hlo hhi hretry

end

theorem CowOk.new (h : CowOk m live mems) (hinv : Inv role m live) (hpd : pd ∈ live)
    (hnew : NewAspace m live child m') (hinv' : Inv role m' (child :: live)) :
    KernShared m' (child :: live) ∧ Fresh m' pd child ∧
      ∀ q ∈ live, ∀ i j, User i → j < 1024 → m'.backing q i j = m.backing q i j := by
  have hentry : ∀ q ∈ live, ∀ i < 1024, m'.entry q i = m.entry q i := fun q hq i hi => hnew.entry_eq (hnew.ne hq) hi
  have hkernel := hentry kernelPg hinv.dirs.kernel
  have hback : ∀ q ∈ live, ∀ i j, User i → j < 1024 → m'.backing q i j = m.backing q i j := by
    intro q hq i j hi hj
    unfold backing
    rw [hnew.pte_eq hinv (hinv'.dirs.dir (mem_cons_self ..)) hq hi hj]
  -- clearing `PG_OWNED` leaves the other flags
  have hpresent : ∀ i, 960 ≤ i → i < 1023 →
      (m'.entry child i).has pgPresent = (m.entry kernelPg i).has pgPresent := by
    intro i hlo hhi
    rw [hnew.high i hlo hhi, Entry.present_disowned]
  have hframe : ∀ i, 960 ≤ i → i < 1023 → (m'.entry child i).frame = (m.entry kernelPg i).frame := by
    intro i hlo hhi
    rw [hnew.high i hlo hhi]
  refine ⟨?_, ⟨?_, ?_⟩, hback⟩
  · intro q hq i hlo hhi hp
    rw [hkernel i (by omega)] at hp ⊢
    rcases mem_cons.mp hq with rfl | hq
    · exact ⟨(hpresent i hlo hhi).trans hp, hframe i hlo hhi⟩
    · rw [hentry q hq i (by omega)]
      exact h.kernShared q hq i hlo hhi hp
  · intro i j hi hj hk
    obtain ⟨hlo, hp⟩ := hk
    rw [hkernel i hi.lt] at hp
    obtain ⟨hpd', hfd⟩ := h.kernShared pd hpd i hlo hi.2 hp
    have hchildp := (hpresent i hlo hi.2).trans hp
    have hsame : (m'.entry child i).frame = (m'.entry pd i).frame := by
      rw [hframe i hlo hi.2, hentry pd hpd i hi.lt, hfd]
    unfold backing pte
    rw [hsame, hchildp, hentry pd hpd i hi.lt, hpd']
  · intro i j hi hj hk
    have hp : (m'.entry child i).has pgPresent = false := by
      rcases Nat.lt_or_ge i 960 with hlt | hge
      · rw [hnew.low i hi.1 hlt]
        rfl
      cases hp : (m'.entry child i).has pgPresent with
      | false => rfl
      | true =>
        rw [hpresent i hge hi.2, ← hkernel i hi.lt] at hp
        exact absurd ⟨hge, hp⟩ hk
    unfold backing pte
    rw [hp]
    rfl

theorem CowOk.fork {m₁ : Mmu} (h : CowOk m live mems) (hpd : pd ∈ live) (hnew : m.archMmuNewAspace = some (child, m₁))
    (hlog : .missing ∉ (m₁.archMmuDuplicate pd child).log) :
    CowOk (m₁.archMmuDuplicate pd child) (child :: live) (mems.fork pd child) := by
  obtain ⟨role, hinv⟩ := h.inv
  obtain ⟨hinv₁, haspace⟩ := hinv.newAspace hnew
  obtain ⟨hks, hfresh, hback₁⟩ := h.new hinv hpd haspace hinv₁
  have hne : ∀ q ∈ live, q ≠ child := fun q => haspace.ne
  have hchild : child ∈ child :: live := mem_cons_self ..
  have hdup := hinv₁.duplicate (mem_cons_of_mem _ hpd) hchild (hne pd hpd) (hne _ hinv.dirs.kernel).symm hlog
  generalize m₁.archMmuDuplicate pd child = m₂ at hdup hlog
  have hkernel := hinv.dirs.kernel
  -- the pages of the processes there were
  have hback : ∀ q ∈ live, ∀ i j, User i → j < 1024 → m₂.backing q i j = m.backing q i j := by
    intro q hq i j hi hj
    rw [hdup.back hks q (mem_cons_of_mem _ hq) (hne q hq) i j hi hj, hback₁ q hq i j hi hj]
  have hcopied : ∀ i j, User i → j < 1024 → m₂.backing child i j = m.backing pd i j := by
    intro i j hi hj
    rw [hdup.copied hks hfresh i j hi hj (.inl (.inl hi.2)), hback₁ pd hpd i j hi hj]
  have hmem : ∀ a, role (a / 4096) ≠ .free → (role (a / 4096)).structural = false → m₂.mem a = m.mem a := by
    intro a hfree hdata
    refine (hdup.mem a hfree hdata).trans (haspace.mem a ?_)
    rintro rfl
    rw [hinv₁.dirs.dir hchild] at hdata
    cases hdata
  -- each process has the pages of one that was there, with the same memory
  have hsource : ∀ q ∈ child :: live, ∃ p ∈ live, (∀ i j, User i → j < 1024 → m₂.backing q i j = m.backing p i j) ∧
      (mems.fork pd child).page q = mems.page p ∧ (mems.fork pd child).own q = mems.own p := by
    intro q hq
    rcases mem_cons.mp hq with rfl | hq
    · exact ⟨pd, hpd, hcopied, update_self .., update_self ..⟩
    · exact ⟨q, hq, hback q hq, update_of_ne (hne q hq) _ _, update_of_ne (hne q hq) _ _⟩
  obtain ⟨role₂, hinv₂, -⟩ := hdup.inv
  refine ⟨⟨role₂, hinv₂⟩, ?_, ?_, fun q hq i j hi hj => ?_⟩
  · intro q hq i hlo hhi hp
    have hk := hdup.dir kernelPg (mem_cons_of_mem _ hkernel) (hne _ hkernel) i (by omega)
    rw [hk] at hp ⊢
    obtain ⟨hp', hf'⟩ := hks q hq i hlo hhi hp
    rcases mem_cons.mp hq with rfl | hq'
    · rw [hdup.childDir i (by omega) hp']
      exact ⟨hp', hf'⟩
    · rw [hdup.dir q hq (hne q hq') i (by omega)]
      exact ⟨hp', hf'⟩
  · intro i j hlo hhi hj
    rw [hback kernelPg hkernel i j ⟨by omega, hhi⟩ hj]
    exact h.kernClean i j hlo hhi hj
  · obtain ⟨p, hp, hsame, hpage, hown⟩ := hsource q hq
    have hat := h.refines p hp i j hi hj
    exact hat.congr (hsame i j hi hj) (backing_mem hinv hp hi hj hmem) hpage hown rfl

/-- A machine whose frames have roles, whose kernel tables are used by everyone and owned by no one, and the
    memories read off it. -/
structure Start (s : Cow) : Prop where
  inv : ∃ role, Inv role s.mmu s.live
  kernShared : KernShared s.mmu s.live
  kernClean : KernClean s.mmu
  memories : s.memories = .of s.mmu

theorem Start.ok (h : Start s) : CowOk s.mmu s.live s.memories := by
  refine ⟨h.inv, h.kernShared, h.kernClean, fun pd _ i j hi hj => ?_⟩
  unfold RefinesAt
  rw [h.memories]
  refine ⟨if_pos hi, fun f b hb o ho => ?_⟩
  cases b with
  | false => rfl
  | true =>
    have hlt := hi.lt
    have hdi : pageDirectoryIndex (getVirtualAddress i j + o) = i := by
      unfold pageDirectoryIndex getVirtualAddress
      omega
    have hti : pageTableIndex (getVirtualAddress i j + o) = j := by
      unfold pageTableIndex getVirtualAddress
      omega
    have hoffset : (getVirtualAddress i j + o) % 4096 = o := by
      unfold getVirtualAddress
      omega
    simp only [Memories.of, hdi, hti, hb, hoffset, if_true]

theorem CowOk.step (h : CowOk s.mmu s.live s.memories) (hstep : s.Step op t) (huser : s.UserStore op) :
    CowOk t.mmu t.live t.memories := by
  obtain ⟨hexec, hlog⟩ := hstep
  cases op with
  | fork pd =>
    unfold exec at hexec
    dsimp only at hexec
    split at hexec
    next hpd =>
      obtain ⟨⟨child, m₁⟩, hnew, heq⟩ := map_eq_some_iff.mp hexec
      subst heq
      dsimp only at hlog ⊢
      exact h.fork hpd hnew hlog
    · cases hexec
  | store pd parent vaddr v =>
    unfold exec at hexec
    dsimp only at hexec
    split at hexec
    next hpd =>
      obtain ⟨m₁, hstore, rfl⟩ := map_eq_some_iff.mp hexec
      obtain ⟨hlo, hhi, huser⟩ := huser
      exact h.store hpd hlo hhi huser hstore hlog
    · cases hexec

/-- What a process finds at an address is what its own memory holds there, or the memory all share; which of both
    is what the memories say. -/
def Isolated (s : Cow) : Prop :=
  ∀ pd ∈ s.live, ∀ vaddr, userOffset ≤ vaddr → vaddr < memoryEnd →
    s.mmu.peek pd vaddr = s.memories.read pd vaddr ∧
      Backing.of (s.mmu.backing pd (pageDirectoryIndex vaddr) (pageTableIndex vaddr)) =
        s.memories.page pd (pageDirectoryIndex vaddr) (pageTableIndex vaddr)

theorem CowOk.isolated (h : CowOk s.mmu s.live s.memories) : s.Isolated := by
  intro pd hpd vaddr hlo hhi
  obtain ⟨role, hinv⟩ := h.inv
  have hi := user_of_range hlo hhi
  have hj := pageTableIndex_lt vaddr
  exact ⟨h.refines.peek hinv hpd hlo hhi, (h.refines pd hpd _ _ hi hj).1.symm⟩

/-! ### Two processes of a small machine -/

def two : Option Cow :=
  (small.archMmuInit.load 1).bind fun (pd, m) =>
    (m.load 1).map fun (pd', m) => ⟨m, [pd', pd, kernelPg], .of m⟩

theorem two_ok : (two.map fun s => decide (.missing ∉ s.mmu.log) &&
    (List.range' 960 63).all fun i => !(s.mmu.entry kernelPg i).has pgPresent) = some true := by
  decide +kernel

theorem start_of_two (h : two = some s) : Start s := by
  have hok := two_ok
  rw [h, map_some, some.injEq, Bool.and_eq_true, decide_eq_true_eq] at hok
  obtain ⟨hlog, hall⟩ := hok
  have hkern : ∀ i, 960 ≤ i → i < 1023 → (s.mmu.entry kernelPg i).has pgPresent = false := fun i hlo hhi => by
    simpa using all_eq_true.mp hall i (mem_range'_1.mpr ⟨hlo, by omega⟩)
  obtain ⟨⟨pd, m₁⟩, hload, h⟩ := bind_eq_some_iff.mp h
  obtain ⟨⟨pd', m₂⟩, hload', heq⟩ := map_eq_some_iff.mp h
  subst heq
  refine ⟨?_, ?_, ?_, rfl⟩
  · obtain ⟨role₁, h₁⟩ := small_inv.load hload ((load_grows hload').not_missing hlog)
    exact h₁.load hload' hlog
  · intro q _ i hlo hhi hp
    rw [hkern i hlo hhi] at hp
    cases hp
  · intro i j hlo hhi _ f hb
    unfold backing pte at hb
    rw [hkern i hlo hhi] at hb
    cases hb

def checkUser (s : Cow) (op : CowOp) (t : Cow) : Bool :=
  decide (.missing ∉ t.mmu.log) &&
    match op with
    | .fork _ => true
    | .store pd _ vaddr _ =>
      decide (userOffset ≤ vaddr ∧ vaddr < memoryEnd) && (s.mmu.translate pd vaddr).all (·.user)

theorem userStore_of_check (h : s.exec op = some t ∧ checkUser s op t) : s.Step op t ∧ s.UserStore op := by
  obtain ⟨hexec, h⟩ := h
  unfold checkUser at h
  rw [Bool.and_eq_true, decide_eq_true_eq] at h
  refine ⟨⟨hexec, h.1⟩, ?_⟩
  cases op with
  | fork pd => trivial
  | store pd parent vaddr v =>
    obtain ⟨hrange, huser⟩ := Bool.and_eq_true_iff.mp h.2
    have hrange := of_decide_eq_true hrange
    exact ⟨hrange.1, hrange.2, fun a ha => Option.all_eq_true .. |>.mp huser a ha⟩

/-- In every run of forks and of stores to pages of user processes the processes are isolated from each other. -/
theorem cow_isolation {s₀ : Cow} {ops : List CowOp} (hstart : Start s₀)
    (hrun : Run (fun s op t => s.Step op t ∧ s.UserStore op) s₀ ops s) : s.Isolated :=
  (hrun.invariant (fun s => CowOk s.mmu s.live s.memories) hstart.ok fun h hstep => h.step hstep.1 hstep.2).isolated

/-- After a fork the parent stores to the page both map: it gets the copy, and the child still finds the old byte. -/
theorem cow_isolation_fork : ∃ s₀ s, Start s₀ ∧
    Run (fun s op t => s.Step op t ∧ s.UserStore op) s₀ [.fork 514, .store 514 1 userOffset 7] s ∧ s.Isolated ∧
    s.mmu.peek 514 userOffset = some 7 ∧ s.mmu.peek 516 userOffset = some 0 := by
  have heval : ((two.bind (Run.execAll exec checkUser · [.fork 514, .store 514 1 userOffset 7])).any fun s =>
      s.mmu.peek 514 userOffset = some 7 ∧ s.mmu.peek 516 userOffset = some 0) = true := by decide +kernel
  obtain ⟨s₀, s, htwo, hrun, hpeek⟩ := Run.of_any id userStore_of_check heval
  have hstart := start_of_two htwo
  exact ⟨s₀, s, hstart, hrun, cow_isolation hstart hrun, of_decide_eq_true hpeek⟩

/-- Every directory maps the first memory with `PG_USER` and `PG_WRITE`, so that a process can store to the frame of
    another one: the page of the process 515 is the frame 778, and 514 stores to the address `4096 * 778`. -/
theorem cow_isolation_fails : ∃ s₀ s, Start s₀ ∧ Run Step s₀ [.store 514 1 (4096 * 778) 7] s ∧ ¬s.Isolated := by
  have heval : ((two.bind (Run.execAll exec (fun _ _ t => decide (.missing ∉ t.mmu.log)) ·
      [.store 514 1 (4096 * 778) 7])).any fun s =>
        515 ∈ s.live ∧ s.mmu.peek 515 userOffset = some 7 ∧ s.memories.read 515 userOffset = some 0) = true := by
    decide +kernel
  obtain ⟨s₀, s, htwo, hrun, hend⟩ :=
    Run.of_any (R := Step) id (fun hstep => ⟨hstep.1, of_decide_eq_true hstep.2⟩) heval
  obtain ⟨hlive, hpeek, hread⟩ := of_decide_eq_true hend
  refine ⟨s₀, s, start_of_two htwo, hrun, fun hisolated => ?_⟩
  have h := (hisolated 515 hlive userOffset (by decide) (by decide)).1
  rw [hpeek, hread] at h
  cases h

end Cow
end HelinKern
