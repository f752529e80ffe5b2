import HelinKern.Mapping
import HelinKern.Theorems.Mmap
import HelinKern.Theorems.Query
import HelinKern.Theorems.ShmSizes

/-! Which pages the calls map, beyond those that the search for free memory promised. -/

namespace HelinKern
open Bitmap List

namespace Frames

/-- The frames that `alloc_getPage` can still find. -/
def freeFrames (s : Frames) : Nat := s.managed - count s.physMap s.managed

variable {s t : Frames}

theorem count_le_managed (s : Frames) : count s.physMap s.managed ≤ s.managed := by
  exact countP_le_length.trans (by simp)

theorem freeFrames_of_some {addr : Nat} (hm : s.mapped) (h : s.allocGetPage = (some addr, t)) :
    t.freeFrames + 1 = s.freeFrames ∧ t.mapped := by
  obtain ⟨i, hi, hclear, -, rfl⟩ := allocGetPage_eq_some hm h
  have hcount := count_setBit hi hclear
  have hle := count_le_managed
    { s with physMap := setBit s.physMap i, usedPhysMem := (s.usedPhysMem + 4096) % wordSize }
  unfold freeFrames
  change s.managed - count (setBit s.physMap i) s.managed + 1 = _ ∧ _
  change count (setBit s.physMap i) s.managed ≤ s.managed at hle
  exact ⟨by omega, hm⟩

theorem freeFrames_of_none (hm : s.mapped) (h : s.allocGetPage.1 = none) : s.freeFrames = 0 := by
  have hall := (allocGetPage_none_iff hm).mp h
  have hcount : count s.physMap s.managed = s.managed := by
    unfold Bitmap.count
    rw [countP_eq_length.mpr fun i hi => hall i (mem_range.mp hi), length_range]
  unfold freeFrames
  omega

theorem allocGetPage_early (hm : s.mapped = false) : ∃ addr t, s.allocGetPage = (some addr, t) ∧ t.mapped = false := by
  unfold allocGetPage
  rw [if_pos (by simp [hm])]
  exact ⟨_, _, rfl, hm⟩

end Frames

namespace Mmu
open Frames

variable {m m' : Mmu} {pd start i j n : Nat} {pages : List Nat}

theorem allocPage_some {page : Nat} (hm : m.frames.mapped) (h : m.allocPage = (some page, m')) :
    m'.frames.freeFrames + 1 = m.frames.freeFrames ∧ m'.frames.mapped :=
  freeFrames_of_some hm (allocPage_get h)

theorem allocPage_eq_none (hm : m.frames.mapped) (h : m.allocPage = (none, m')) : m.frames.freeFrames = 0 ∧ m' = m :=
  ⟨freeFrames_of_none hm (by rw [allocPage_get h]), allocPage_none h⟩

theorem addPageToPd_freeFrames (hm : m.frames.mapped) (pd vaddr pAddr : Nat) (flags : BitVec 12) :
    (m.addPageToPd pd vaddr pAddr flags).frames.freeFrames + (m.newTable pd vaddr).length = m.frames.freeFrames ∧
      (m.addPageToPd pd vaddr pAddr flags).frames.mapped := by
  unfold newTable addPageToPd addTable
  split
  · exact ⟨rfl, hm⟩
  unfold allocUnchecked
  rcases halloc : m.allocPage with ⟨_ | page, m₁⟩
  · obtain ⟨hzero, rfl⟩ := allocPage_eq_none hm halloc
    exact ⟨rfl, hm⟩
  · obtain ⟨hfree, hm₁⟩ := allocPage_some hm halloc
    exact ⟨hfree, hm₁⟩

theorem allocPage_early (hm : m.frames.mapped = false) :
    ∃ page m', m.allocPage = (some page, m') ∧ m'.frames.mapped = false := by
  obtain ⟨addr, t, heq, ht⟩ := allocGetPage_early hm
  unfold allocPage
  rw [heq]
  exact ⟨addr, _, rfl, ht⟩

theorem addPageToPd_early (hm : m.frames.mapped = false) (pd vaddr pAddr : Nat) (flags : BitVec 12) :
    (m.addPageToPd pd vaddr pAddr flags).frames.mapped = false := by
  unfold addPageToPd addTable
  split
  · exact hm
  obtain ⟨page, m₁, halloc, hm₁⟩ := allocPage_early hm
  unfold allocUnchecked
  rw [halloc]
  exact hm₁

/-! ### The pages of a loop -/

def pageFrom (r i : Nat) : Nat := (r / 4096 + i) % 1048576

theorem page_add (r i : Nat) : (r + i * 4096) % wordSize / 4096 = pageFrom r i := by
  unfold pageFrom wordSize
  omega

def turns (pd start : Nat) : Nat → Nat → Mmu → Nat
  | 0, _, _ => 0
  | n + 1, i, m =>
    match m.allocPage with
    | (none, _) => 0
    | (some page, m) =>
      turns pd start n (i + 1)
        (m.addPageToPd pd ((start + i * 4096) % wordSize) page (pgPresent ||| pgWrite ||| pgUser ||| pgOwned)) + 1

theorem turns_le (pd start n i : Nat) (m : Mmu) : turns pd start n i m ≤ n := by
  induction n generalizing i m with
  | zero => exact Nat.le_refl 0
  | succ n ih =>
    unfold turns
    split
    · omega
    · exact Nat.succ_le_succ (ih ..)

theorem map_range_succ (start i n : Nat) :
    pageFrom start i :: (range n).map (fun j => pageFrom start (i + 1 + j)) =
      (range (n + 1)).map fun j => pageFrom start (i + j) := by
  rw [range_succ_eq_map, map_cons, map_map]
  congr 1
  refine map_congr_left fun j _ => ?_
  rw [Function.comp_apply, Nat.add_assoc, Nat.add_comm 1 j]

theorem anonLoop_pages (pd start n i : Nat) (m : Mmu) (pages : List Nat) :
    (anonLoop pd start n i ⟨m, pages⟩).2.pages =
      pages ++ (range (turns pd start n i m)).map fun j => pageFrom start (i + j) := by
  induction n generalizing i m pages with
  | zero => exact (append_nil _).symm
  | succ n ih =>
    unfold anonLoop turns
    rcases m.allocPage with ⟨_ | page, m₁⟩
    · exact (append_nil _).symm
    · dsimp only [Mapping.mapPage]
      rw [ih, page_add, append_assoc, singleton_append, map_range_succ]

theorem fileLoop_pages (pd start n i : Nat) (m : Mmu) (pages : List Nat) :
    (fileLoop pd start n i ⟨m, pages⟩).pages = pages ++ (range n).map fun j => pageFrom start (i + j) := by
  induction n generalizing i m pages with
  | zero => exact (append_nil _).symm
  | succ n ih =>
    unfold fileLoop
    dsimp only [Mapping.mapPage]
    rw [ih, page_add, append_assoc, singleton_append, map_range_succ]

theorem fbLoop_pages (pd start paddr n i : Nat) (m : Mmu) (pages : List Nat) :
    (fbLoop pd start paddr n i ⟨m, pages⟩).pages = pages ++ (range n).map fun j => pageFrom start (i + j) := by
  induction n generalizing i m pages with
  | zero => exact (append_nil _).symm
  | succ n ih =>
    unfold fbLoop
    dsimp only [Mapping.mapPage]
    rw [ih, page_add, append_assoc, singleton_append, map_range_succ]

theorem mapPages_eq (pd : Nat) (maps : List (Nat × Nat)) (s : Mapping) :
    (maps.foldl (fun s (page : Nat × Nat) => s.mapPage pd page.1 page.2 (pgPresent ||| pgWrite ||| pgUser)) s).pages =
      s.pages ++ maps.map fun page => page.1 / 4096 := by
  induction maps generalizing s with
  | nil => exact (append_nil _).symm
  | cons page maps ih =>
    rw [foldl_cons, ih]
    simp [Mapping.mapPage]

/-- The free frames do not suffice for the page `i` and the pages and page tables before it. -/
def OutOfFrames (m : Mmu) (pd r i : Nat) : Prop :=
  m.frames.mapped = true ∧ m.frames.freeFrames ≤ i + (newTables pd r i 0 m).length

theorem lt_turns_iff (hm : m.frames.mapped) (hj : j < n) :
    j < turns pd start n i m ↔ j + (newTables pd start j i m).length < m.frames.freeFrames := by
  induction n generalizing i j m with
  | zero => omega
  | succ n ih =>
    unfold turns
    rcases halloc : m.allocPage with ⟨_ | page, m₁⟩
    · obtain ⟨hzero, -⟩ := allocPage_eq_none hm halloc
      simp [hzero]
    obtain ⟨hfree, hm₁⟩ := allocPage_some hm halloc
    cases j with
    | zero =>
      simp only [newTables, length_nil]
      omega
    | succ j =>
      obtain ⟨htable, hm₂⟩ := addPageToPd_freeFrames hm₁ pd ((start + i * 4096) % wordSize) page
        (pgPresent ||| pgWrite ||| pgUser ||| pgOwned)
      have hrest := ih hm₂ (Nat.lt_of_succ_lt_succ hj) (i := i + 1)
      rw [newTables, halloc]
      dsimp only
      rw [length_append]
      omega

theorem turns_early (hm : m.frames.mapped = false) : turns pd start n i m = n := by
  induction n generalizing i m with
  | zero => rfl
  | succ n ih =>
    obtain ⟨page, m₁, halloc, hm₁⟩ := allocPage_early hm
    unfold turns
    rw [halloc]
    exact congrArg (· + 1) (ih (addPageToPd_early hm₁ _ _ _ _))

theorem lt_turns (hj : j < n) : j < turns pd start n 0 m ↔ ¬m.OutOfFrames pd start j := by
  unfold OutOfFrames
  cases hm : m.frames.mapped with
  | true =>
    rw [lt_turns_iff hm hj]
    simp
  | false =>
    rw [turns_early hm]
    simp [hj]

/-! ### What was free -/

/-- The pages that `arch_mmu_query` looks for. -/
def promised (size : Nat) : Nat := max 1 (size / 4096)

def FreeFrom (m : Mmu) (pd r n : Nat) : Prop := ∀ i < n, m.Unmapped pd (pageFrom r i)

def ReplacesNothing (m : Mmu) (pd : Nat) (pages : List Nat) : Prop := ∀ page ∈ pages, m.Unmapped pd page

theorem replacesNothing_range {r : Nat} :
    m.ReplacesNothing pd ((range n).map fun j => pageFrom r (0 + j)) ↔ ∀ i < n, m.Unmapped pd (pageFrom r i) := by
  unfold ReplacesNothing
  simp

theorem replacesNothing_nil : m.ReplacesNothing pd [] := by
  intro page hpage
  cases hpage

section
variable {query : Nat → Nat → Option Nat} {addr size : Int} {flags : BitVec 32}

/-! ### `sys_mmap` without a file -/

theorem anonWhere_ok {r : Nat} (h : anonWhere query addr size flags = .ok r) : ∃ start, query start (toWord size) = some r := by
  unfold anonWhere at h
  split at h
  · cases h
  split at h
  · cases h
  split at h
  · cases h
  split at h
  · cases h
  next start heq =>
    cases h
    exact ⟨_, heq⟩

/-- The pages behind those that the search promised are free, or are not reached. -/
def AnonFits (m : Mmu) (pd : Nat) (query : Nat → Nat → Option Nat) (addr size : Int) (flags : BitVec 32) : Prop :=
  ∀ r, anonWhere query addr size flags = .ok r → ∀ i, promised (toWord size) ≤ i → i < toWord size / 4096 + 2 →
    m.Unmapped pd (pageFrom r i) ∨ m.OutOfFrames pd r i

variable (hquery : ∀ start size r, query start size = some r → m.FreeFrom pd r (promised size))
include hquery

theorem anon_replacesNothing_iff (hpos : 0 < size) (hint : size < 2147483648) :
    m.ReplacesNothing pd (m.sysMmapAnon pd query addr size flags).2.pages ↔ m.AnonFits pd query addr size flags := by
  have hpages : (mmapPages size).toNat = toWord size / 4096 + 2 := by
    unfold mmapPages toWord
    dsimp only
    rw [Int.tdiv_eq_ediv_of_nonneg (Int.le_of_lt hpos)]
    split <;> omega
  unfold sysMmapAnon AnonFits
  cases hwhere : anonWhere query addr size flags with
  | error e => exact iff_of_true replacesNothing_nil fun r hr => by cases hr
  | ok r =>
    obtain ⟨start, hstart⟩ := anonWhere_ok hwhere
    have hfree := hquery start _ r hstart
    have hle := turns_le pd r (mmapPages size).toNat 0 m
    rw [anonLoop_pages, nil_append, replacesNothing_range, hpages]
    rw [hpages] at hle
    constructor
    · intro h r' hr' i hlo hhi
      cases hr'
      by_cases hout : m.OutOfFrames pd r i
      · exact .inr hout
      · exact .inl (h i ((lt_turns hhi).mpr hout))
    · intro h i hi
      by_cases hlo : promised (toWord size) ≤ i
      · exact (h r rfl i hlo (by omega)).resolve_right ((lt_turns (by omega)).mp hi)
      · exact hfree i (by omega)

/-! ### `sys_mmap` with a file -/

/-- The page behind those that the search promised is free. -/
def FileFits (m : Mmu) (pd : Nat) (query : Nat → Nat → Option Nat) (node : VfsNode) (fb : Option Nat) (gid uid : Int)
    (addr size : Int) (flags : BitVec 32) : Prop :=
  mmapRefuses size flags = false → node.hasPerm .write gid uid = true → fb = none →
    ∀ i, promised (toWord (fileSize node size)) ≤ i → i < ((fileSize node size).tdiv 4096 + 1).toNat →
      m.Unmapped pd (pageFrom (fileWhere query addr (fileSize node size)) i)

theorem file_replacesNothing_iff {node : VfsNode} {fb : Option Nat} {gid uid : Int}
    (hfound : query (if addr ≠ 0 then toWord addr else userMmapStart) (toWord (fileSize node size)) ≠ none)
    (hpos : 0 < size) (hint : size < 2147483648) :
    m.ReplacesNothing pd (m.sysMmapFile pd query node fb gid uid addr size flags).2.pages ↔
      m.FileFits pd query node fb gid uid addr size flags := by
  unfold sysMmapFile FileFits
  cases hrefuses : mmapRefuses size flags with
  | true => exact iff_of_true replacesNothing_nil fun h => by cases h
  | false =>
    cases hperm : node.hasPerm .write gid uid with
    | false => exact iff_of_true replacesNothing_nil fun _ h => by cases h
    | true =>
      cases fb with
      | some paddr =>
        refine iff_of_true ?_ fun _ _ h => by cases h
        show m.ReplacesNothing pd (m.fbdevMmap pd query paddr size).2.pages
        unfold fbdevMmap
        cases hwhere : query userMmapStart (toWord size) with
        | none => exact replacesNothing_nil
        | some r =>
          rw [fbLoop_pages, nil_append, replacesNothing_range]
          intro i hi
          refine hquery _ _ r hwhere i ?_
          rw [Int.tdiv_eq_ediv_of_nonneg (Int.le_of_lt hpos)] at hi
          unfold promised toWord
          omega
      | none =>
        obtain ⟨r, hr⟩ := Option.ne_none_iff_exists'.mp hfound
        have hwhere : fileWhere query addr (fileSize node size) = r := by
          unfold fileWhere
          rw [hr]
          rfl
        simp only [Bool.false_eq_true, if_false, Bool.not_true, true_implies]
        rw [fileLoop_pages, nil_append, replacesNothing_range, hwhere]
        constructor
        · exact fun h i _ hi => h i hi
        · intro h i hi
          by_cases hlo : promised (toWord (fileSize node size)) ≤ i
          · exact h i hlo hi
          · exact hquery _ _ r hr i (by omega)

/-! ### `shmat` -/

theorem shmat_replacesNothing {k : Shm} {id : Int} {o : Nat} {r : Int × Shm × Mapping} (hk : k.Reachable) (ho : (k.find id).1 = some o)
    (hint : (k.obj o).size < 2147483648) (hfound : query userMmapStart (toWord ((k.obj o).size + 4096)) ≠ none)
    (h : m.sysShmat pd query k id = some r) : m.ReplacesNothing pd r.2.2.pages := by
  obtain ⟨start, hstart⟩ := Option.ne_none_iff_exists'.mp hfound
  have hwhere : shmatWhere query (k.obj o) = start := by
    unfold shmatWhere
    rw [hstart]
    rfl
  obtain ⟨⟨ret, maps, k'⟩, hshmat, rfl⟩ := Option.map_eq_some_iff.mp h
  rw [mapPages_eq]
  unfold Shm.shmat at hshmat
  have hobj : (k.find id).2.obj = k.obj := by
    obtain ⟨visited, -, heq⟩ := Shm.walk_snd k (fun b => decide (b.id = id)) k.queue
    rw [show k.find id = k.walk (fun b => decide (b.id = id)) k.queue from rfl, heq]
  rw [show k.find id = (some o, (k.find id).2) from Prod.ext ho rfl] at hshmat
  obtain ⟨pages, hpages, heq⟩ := Option.map_eq_some_iff.mp hshmat
  cases heq
  rw [hobj] at hpages
  obtain ⟨hpos, hlength⟩ := hk.sized o (Shm.mem_queue_of_walk ho) pages hpages
  rintro page hpage
  obtain ⟨p, hp, rfl⟩ := mem_map.mp hpage
  obtain ⟨i, hi, rfl⟩ := mem_mapIdx.mp hp
  rw [Option.map_some, hwhere, Nat.mul_comm, show 4294967296 = wordSize from rfl, page_add]
  refine hquery _ _ start hstart i ?_
  unfold promised toWord
  omega

end

/-- If the search keeps its promise, a call replaces no mapping exactly if the pages that it maps beyond the promise are
    free too: one or two for `sys_mmap` without a file, one for a file, and none for `shmat`. -/
theorem mmap_replaces_nothing_iff (m : Mmu) (pd : Nat) (query : Nat → Nat → Option Nat)
    (hquery : ∀ start size r, query start size = some r → m.FreeFrom pd r (promised size)) :
    (∀ (addr size : Int) (flags : BitVec 32), 0 < size → size < 2147483648 →
      (m.ReplacesNothing pd (m.sysMmapAnon pd query addr size flags).2.pages ↔ m.AnonFits pd query addr size flags)) ∧
    (∀ (node : VfsNode) (fb : Option Nat) (gid uid addr size : Int) (flags : BitVec 32), 0 < size → size < 2147483648 →
      query (if addr ≠ 0 then toWord addr else userMmapStart) (toWord (fileSize node size)) ≠ none →
      (m.ReplacesNothing pd (m.sysMmapFile pd query node fb gid uid addr size flags).2.pages ↔
        m.FileFits pd query node fb gid uid addr size flags)) ∧
    (∀ (k : Shm) (id : Int) (o : Nat) (r : Int × Shm × Mapping), k.Reachable → (k.find id).1 = some o →
      (k.obj o).size < 2147483648 → query userMmapStart (toWord ((k.obj o).size + 4096)) ≠ none →
      m.sysShmat pd query k id = some r → m.ReplacesNothing pd r.2.2.pages) := by
  refine ⟨fun addr size flags hpos hint => anon_replacesNothing_iff hquery hpos hint, ?_, ?_⟩
  · intro node fb gid uid addr size flags hpos hint hfound
    exact file_replacesNothing_iff hquery hfound hpos hint
  · intro k id o r hk ho hint hfound h
    exact shmat_replacesNothing hquery hk ho hint hfound h

/-- A process without any page: a byte is mapped with two pages, and there was none before. -/
theorem mmap_replaces_nothing_iff_byte :
    let query := fun (_ size : Nat) => if size < 8192 then some userMmapStart else none
    oneAspace.ReplacesNothing 514 (oneAspace.sysMmapAnon 514 query 0 1 0).2.pages := by
  intro query
  have hdir : oneAspace.entry 514 512 = .empty := by decide +kernel
  have hfree : ∀ i, i < 1024 → oneAspace.Unmapped 514 (pageFrom userMmapStart i) := by
    intro i hi
    have hpage : pageFrom userMmapStart i / 1024 = 512 := by
      unfold pageFrom userMmapStart
      omega
    exact .inl (hpage ▸ hdir)
  have hquery : ∀ start size r, query start size = some r → oneAspace.FreeFrom 514 r (promised size) := by
    intro start size r hr
    simp only [query] at hr
    split at hr
    · cases hr
      intro i hi
      refine hfree i ?_
      unfold promised at hi
      omega
    · cases hr
  refine ((mmap_replaces_nothing_iff oneAspace 514 query hquery).1 0 1 0 (by decide) (by decide)).mpr ?_
  intro r hr i _ hi
  cases hr
  have hword : toWord 1 = 1 := rfl
  exact .inl (hfree i (by omega))

def secondPage : Mmu := oneAspace.addPageToPd 514 (userMmapStart + 4096) 0x308000 (pgPresent ||| pgWrite ||| pgUser ||| pgOwned)

/-- It maps a byte. The search returns the first page, which is free, and the call maps the second one as well. -/
theorem mmap_replaces_page :
    secondPage.archMmuQuery 514 userMmapStart 1 = some userMmapStart ∧
      secondPage.FreeFrom 514 userMmapStart (promised 1) ∧
      ¬secondPage.ReplacesNothing 514 (secondPage.sysMmapAnon 514 (secondPage.archMmuQuery 514) 0 1 0).2.pages ∧
      (secondPage.translate 514 (userMmapStart + 4096)).map Access.phys ≠
        ((secondPage.sysMmap 514 0 1 0).2.translate 514 (userMmapStart + 4096)).map Access.phys := by
  have hused : ¬secondPage.Unmapped 514 0x80001 := by decide +kernel
  refine ⟨by decide +kernel, by unfold FreeFrom; decide +kernel, fun h => ?_, by decide +kernel⟩
  exact hused (h 0x80001 (by decide))

end Mmu
end HelinKern
