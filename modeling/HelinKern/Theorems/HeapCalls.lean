import HelinKern.Theorems.Heap

/-! `kmalloc` when the heap cannot grow, and `krealloc`. -/

namespace HelinKern
variable {h h' : Heap} {a x i : Nat}

namespace Heap
open Chunks Function List
open Word (Memory)

/-! ### A full heap -/

/-- The headers that `findChunk` reads, in this order. -/
def headersRead : Nat → Heap → (chunk realsize : Nat) → List Nat
  | 0, _, _, _ => []
  | fuel + 1, h, chunk, realsize =>
    let c := header h.mem chunk
    if c.used ∨ c.size < realsize then
      if c.size = 0 then [chunk]
      else
        let next := (chunk + c.size) % wordSize
        if next = h.mKheap then
          match h.ksbrkPage (realsize / pageSize + 2) with
          | .error _ => [chunk]
          | .ok (_, h) => chunk :: headersRead fuel h next realsize
        else if h.mKheap < next then [chunk]
        else chunk :: headersRead fuel h next realsize
    else [chunk]

/-- The headers that `kmalloc(size)` reads in its search. -/
def kmallocReads (h : Heap) (size : Int) : List Nat :=
  headersRead (h.mKheap - kernHeapBegin + 2) h kernHeapBegin (realsize size)

/-- `kmalloc(size)` returns NULL, leaves the heap as it is and looks at no header outside of it. -/
def ReportsExhaustion (h : Heap) (size : Int) : Prop :=
  ∃ h', h.kmalloc size = .ok (none, h') ∧ h'.mKheap = h.mKheap ∧ h'.heapUsed = h.heapUsed ∧
    (∀ a, header h'.mem a = header h.mem a) ∧ ∀ a ∈ h.kmallocReads size, a < h.mKheap

theorem mem_headersRead_self (h : Heap) (a r fuel : Nat) : a ∈ headersRead (fuel + 1) h a r := by
  rw [headersRead]
  simp only
  split
  · split
    · exact mem_singleton_self a
    split
    · split
      · exact mem_singleton_self a
      · exact mem_cons_self
    · split
      · exact mem_singleton_self a
      · exact mem_cons_self
  · exact mem_singleton_self a

theorem mKheap_mem_headersRead {c : Chunk} {cs : List Chunk} {r fuel : Nat}
    (ht : Tiles (header h.mem) kmallocMinsize a (c :: cs) h.mKheap) (htop : h.mKheap ≤ kernHeapEnd)
    (hfuel : cs.length + 2 ≤ fuel) (hfull : ∀ d ∈ c :: cs, ¬Fits r d)
    (hrefused : h.ksbrkPage (r / pageSize + 2) = .ok (none, h)) : h.mKheap ∈ headersRead fuel h a r := by
  induction cs generalizing c a fuel with
  | nil =>
    obtain ⟨fuel, rfl⟩ : ∃ k, fuel = k + 2 := ⟨fuel - 2, by simp at hfuel; omega⟩
    obtain ⟨hhead, hmin, htail⟩ := Tiles.cons_iff.mp ht
    rw [Tiles.nil_iff] at htail
    have hgo := not_fits_iff.mp (hfull c mem_cons_self)
    have hmod : (a + c.size) % wordSize = h.mKheap := by
      rw [htail]
      refine Nat.mod_eq_of_lt ?_
      unfold kernHeapEnd at htop
      unfold wordSize
      omega
    have hpos : c.size ≠ 0 := (Nat.lt_of_lt_of_le (by decide) hmin).ne'
    rw [headersRead]
    simp only [hhead, if_pos hgo, if_neg hpos, hmod, hrefused]
    exact mem_cons_of_mem _ (mem_headersRead_self ..)
  | cons e cs ih =>
    obtain ⟨fuel, rfl⟩ : ∃ k, fuel = k + 1 := ⟨fuel - 1, by omega⟩
    obtain ⟨hhead, hmin, htail⟩ := Tiles.cons_iff.mp ht
    have hgo := not_fits_iff.mp (hfull c mem_cons_self)
    have hpos : c.size ≠ 0 := (Nat.lt_of_lt_of_le (by decide) hmin).ne'
    have hlt : a + c.size < h.mKheap := htail.lt_end (by decide)
    have hmod : (a + c.size) % wordSize = a + c.size := by
      unfold kernHeapEnd at htop
      unfold wordSize
      omega
    rw [headersRead]
    simp only [hhead, if_pos hgo, if_neg hpos, hmod, if_neg (Nat.ne_of_lt hlt), if_neg (Nat.not_lt.mpr (Nat.le_of_lt hlt))]
    refine mem_cons_of_mem _ (ih htail ?_ fun d hd => hfull d (mem_cons_of_mem _ hd))
    simp only [length_cons] at hfuel
    omega

theorem kmalloc_ne_none {size : Int} (hsize : size ≠ 0) : h.kmalloc size ≠ .ok (none, h') := by
  intro hnone
  unfold kmalloc at hnone
  rw [if_neg hsize] at hnone
  cases hfound : findChunk (h.mKheap - kernHeapBegin + 2) h kernHeapBegin (realsize size) with
  | error e =>
    rw [hfound] at hnone
    cases hnone
  | ok r =>
    rw [hfound] at hnone
    cases hnone

/-- A heap that may not grow is not reported as full: `kmalloc` does not return NULL, and if no chunk of the
    heap fits it reads the header behind the last one. -/
theorem exhaustion_not_reported (h : Heap) {size : Int} (hpos : 0 < size)
    (hrefused : h.ksbrkPage (realsize size / pageSize + 2) = .ok (none, h)) :
    ¬ReportsExhaustion h size ∧
      ∀ cs, Chain h cs → (∀ c ∈ cs, ¬Fits (realsize size) c) → h.mKheap ∈ h.kmallocReads size := by
  constructor
  · rintro ⟨h', hnone, -⟩
    exact kmalloc_ne_none (by omega) hnone
  · intro cs hc hfull
    obtain ⟨c, cs, rfl⟩ := exists_cons_of_ne_nil hc.ne_nil
    refine mKheap_mem_headersRead hc.tiles hc.top ?_ hfull hrefused
    have := hc.length_le
    rw [length_cons] at this
    omega

theorem zeroedInit_full :
    Chain zeroedInit [⟨pageSize, false⟩] ∧ (∀ c ∈ [⟨pageSize, false⟩], ¬Fits (realsize 0x3E000000) c) ∧
      zeroedInit.ksbrkPage (realsize 0x3E000000 / pageSize + 2) = .ok (none, zeroedInit) := by
  have hbig : ¬realsize 0x3E000000 ≤ pageSize := by decide +kernel
  have hinit : zeroed.kheapInit = .ok zeroedInit := rfl
  refine ⟨(HeapInv.init hinit).chain, ?_, ?_⟩
  · intro c hc hfit
    obtain rfl := mem_singleton.mp hc
    exact hbig hfit.2
  · unfold ksbrkPage
    rw [if_pos (by decide +kernel)]

theorem exhaustion_not_reported_first :
    ¬ReportsExhaustion zeroedInit 0x3E000000 ∧ zeroedInit.mKheap ∈ zeroedInit.kmallocReads 0x3E000000 := by
  obtain ⟨hchain, hfull, hrefused⟩ := zeroedInit_full
  have hpos : (0 : Int) < 0x3E000000 := by decide
  have hmain := exhaustion_not_reported zeroedInit hpos hrefused
  exact ⟨hmain.1, hmain.2 _ hchain hfull⟩

/-- The search reads a header of zeros behind the heap and panics. -/
theorem exhaustion_panics :
    Chain zeroedInit [⟨pageSize, false⟩] ∧ (∀ c ∈ [⟨pageSize, false⟩], ¬Fits (realsize 0x3E000000) c) ∧
      zeroedInit.ksbrkPage (realsize 0x3E000000 / pageSize + 2) = .ok (none, zeroedInit) ∧
      (zeroedInit.kmalloc 0x3E000000).toOption.isNone ∧ ¬ReportsExhaustion zeroedInit 0x3E000000 := by
  obtain ⟨hchain, hfull, hrefused⟩ := zeroedInit_full
  refine ⟨hchain, hfull, hrefused, by decide +kernel, ?_⟩
  rintro ⟨h', hnone, -⟩
  exact kmalloc_ne_none (by decide) hnone

theorem eq_of_header_eq {m m' : Memory} (h : header m' a = header m a) (hlo : a ≤ x) (hhi : x < a + 4) :
    m' x = m x := by
  refine Word.eq_of_read_eq ?_ hlo hhi
  have := Word.read_lt m a
  have := Word.read_lt m' a
  unfold header at h
  rw [Chunk.mk.injEq, decide_eq_decide] at h
  omega

/-! ### `memcpy` -/

section Memcpy
variable {m : Memory} {d s n : Nat}

theorem memcpy_of_outside (hd : d + n < wordSize) (hx : x < d ∨ d + n ≤ x) : memcpy m d s n x = m x := by
  induction n generalizing m d s with
  | zero => rfl
  | succ n ih =>
    rw [memcpy, Nat.mod_eq_of_lt (by omega : d + 1 < wordSize), ih (by omega) (by omega)]
    exact update_of_ne (by omega) _ _

theorem memcpy_at (hd : d + n < wordSize) (hs : s + n < wordSize) (hapart : d ≤ s ∨ s + n ≤ d) (hi : i < n) :
    memcpy m d s n (d + i) = m (s + i) := by
  induction n generalizing m d s i with
  | zero => omega
  | succ n ih =>
    rw [memcpy, Nat.mod_eq_of_lt (by omega : d + 1 < wordSize), Nat.mod_eq_of_lt (by omega : s + 1 < wordSize)]
    cases i with
    | zero =>
      rw [memcpy_of_outside (by omega) (by omega)]
      exact update_self ..
    | succ i =>
      have hnext := ih (m := update m d (m s)) (d := d + 1) (s := s + 1) (i := i) (by omega) (by omega)
        (by omega) (by omega)
      rw [show d + (i + 1) = d + 1 + i by omega, hnext, show s + (i + 1) = s + 1 + i by omega]
      exact update_of_ne (by omega) _ _

end Memcpy

/-! ### `krealloc` -/

/-- `h'` is what `krealloc` is to make of the heap `h`, whose chunk `c` at `a` holds the old block, if `kmalloc`
    hands out the block `q` and leaves `g`: the data is in the new block, every other byte is as `kmalloc` and
    `kfree` leave it, and of the used chunks only `c` went and only that of `q` came. -/
structure Reallocated (h : Heap) (cs : List Chunk) (a : Nat) (c : Chunk) (size : Int) (g : Heap) (q : Nat) (h' : Heap) :
    Prop where
  data : ∀ i, i < min (c.size - 4) size.toNat → h'.mem (q + i) = h.mem (a + 4 + i)
  rest : ∃ f, g.kfree (a + 4) = .ok f ∧ h'.mKheap = f.mKheap ∧ h'.heapUsed = f.heapUsed ∧
    ∀ x, x < q ∨ q - 4 + (header g.mem (q - 4)).size ≤ x → h'.mem x = f.mem x
  frame : ∀ x, (x < q - 4 ∨ q + (header g.mem (q - 4)).size ≤ x) → (x < a ∨ a + 4 ≤ x) → h'.mem x = h.mem x
  tiling : ∃ cs', Chain h' cs' ∧
    ∀ {b d}, UsedAt cs' b d ↔ UsedAt cs b d ∧ b ≠ a ∨ b = q - 4 ∧ d = header g.mem (q - 4)
  others : ∀ {b d}, UsedAt cs b d → b ≠ a → ∀ x, b ≤ x → x < b + d.size → h'.mem x = h.mem x

/-- The copy of `c.size` bytes stays in the new block, or changes nothing behind it. -/
def CopyStays (a : Nat) (c : Chunk) (g : Heap) (q : Nat) : Prop :=
  ∀ i, (header g.mem (q - 4)).size - 4 ≤ i → i < c.size → g.mem (a + 4 + i) = g.mem (q + i)

def copied (g : Heap) (a : Nat) (c : Chunk) (q : Nat) : Heap := { g with mem := memcpy g.mem q (a + 4) c.size }

section Krealloc
variable {h g k : Heap} {cs cs' : List Chunk} {a b q : Nat} {c e : Chunk} {size : Int}

theorem krealloc_eq (hok : h.kmalloc size = .ok (some (b + 4), g)) (ha : a < 2 ^ 31) (hold : header g.mem a = c) :
    h.krealloc (a + 4) size = ((copied g a c (b + 4)).kfree (a + 4)).map fun h' => (some (b + 4), h') := by
  have hheader : (a + 4 + (wordSize - headerSize)) % wordSize = a := by
    unfold wordSize headerSize
    omega
  unfold krealloc copied
  rw [hok]
  simp only [bind, Except.bind, hheader, hold]
  generalize kfree _ (a + 4) = r
  cases r with
  | error e => rfl
  | ok h' => rfl

theorem UsedAt.end_le (hu : UsedAt cs a c) (hc : Chain h cs) :
    16 ≤ c.size ∧ a + c.size ≤ 2 ^ 30 ∧ header h.mem a = c := by
  obtain ⟨xs, ys, rfl, rfl⟩ := usedAt_split hu
  exact ⟨hc.bounds.1, hc.end_le, hc.header_eq⟩

theorem kfree_agree (hg : Chain g cs) (hk : Chain k cs) (hu : UsedAt cs a c) (hused : k.heapUsed = g.heapUsed) :
    ∃ f h' cs', g.kfree (a + 4) = .ok f ∧ k.kfree (a + 4) = .ok h' ∧ f.mKheap = g.mKheap ∧ h'.mKheap = k.mKheap ∧
      h'.heapUsed = f.heapUsed ∧ (∀ x, k.mem x = g.mem x → h'.mem x = f.mem x) ∧
      (∀ x, x < a ∨ a + 4 ≤ x → h'.mem x = k.mem x) ∧ Chain h' cs' ∧
      ∀ {b d}, UsedAt cs' b d ↔ UsedAt cs b d ∧ b ≠ a := by
  obtain ⟨hmin, hend, -⟩ := hu.end_le hg
  obtain ⟨xs, ys, rfl, rfl⟩ := usedAt_split hu
  obtain ⟨mf, hf, hfchain⟩ := hg.kfree_cases hu.2
  obtain ⟨mh, hh, hhchain⟩ := hk.kfree_cases hu.2
  have hlt : kernHeapBegin + total xs + 4 < wordSize - 1 := by
    unfold wordSize
    omega
  obtain ⟨hfmem, -⟩ := kfree_ok hlt hf
  obtain ⟨hhmem, -⟩ := kfree_ok hlt hh
  refine ⟨_, _, _, hf, hh, rfl, rfl, by rw [hused], ?_, hhmem, { hhchain with },
    usedAt_merged hk⟩
  intro x hx
  by_cases hin : x < kernHeapBegin + total xs ∨ kernHeapBegin + total xs + 4 ≤ x
  · rw [hhmem x hin, hfmem x hin, hx]
  · exact eq_of_header_eq (hhchain.header_eq.trans hfchain.header_eq.symm) (by omega) (by omega)

namespace Taken

theorem new (ht : Taken h cs b e g cs') : UsedAt cs' b e := ht.used.mpr (.inr ⟨rfl, rfl⟩)

variable (ht : Taken h cs b e g cs') (hp : UsedAt cs a c)
include ht hp

theorem old : UsedAt cs' a c := ht.used.mpr (.inl hp)

theorem apart : a + c.size ≤ b ∨ b + e.size ≤ a := by
  refine HeapInv.chunks_disjoint (ht.old hp) ht.new ?_
  rintro rfl
  exact ht.fresh c hp

theorem copied_at (hi : i < c.size) : (copied g a c (b + 4)).mem (b + 4 + i) = g.mem (a + 4 + i) := by
  have hapart := ht.apart hp
  obtain ⟨-, ha, -⟩ := (ht.old hp).end_le ht.chain
  obtain ⟨-, hb, -⟩ := ht.new.end_le ht.chain
  refine memcpy_at ?_ ?_ (by omega) hi
  · unfold wordSize
    omega
  · unfold wordSize
    omega

theorem copied_of_outside (hx : x < b + 4 ∨ b + 4 + c.size ≤ x) :
    (copied g a c (b + 4)).mem x = g.mem x := by
  obtain ⟨-, ha, -⟩ := (ht.old hp).end_le ht.chain
  obtain ⟨-, hb, -⟩ := ht.new.end_le ht.chain
  refine memcpy_of_outside ?_ hx
  unfold wordSize
  omega

theorem copied_eq (hstay : CopyStays a c g (b + 4)) (hx : x < b + 4 ∨ b + e.size ≤ x) :
    (copied g a c (b + 4)).mem x = g.mem x := by
  obtain ⟨hmin, -, hhead⟩ := ht.new.end_le ht.chain
  by_cases hin : x < b + 4 ∨ b + 4 + c.size ≤ x
  · exact ht.copied_of_outside hp hin
  obtain ⟨i, rfl⟩ : ∃ i, x = b + 4 + i := ⟨x - (b + 4), by omega⟩
  rw [ht.copied_at hp (by omega)]
  refine hstay i ?_ (by omega)
  rw [Nat.add_sub_cancel, hhead]
  omega

theorem copied_chain (hstay : CopyStays a c g (b + 4)) : Chain (copied g a c (b + 4)) cs' := by
  have hu := ht.new
  refine ⟨ht.chain.tiles.congr ?_, ht.chain.bottom, ht.chain.top⟩
  rintro ⟨y, d⟩ hd
  have hdmin := (ht.chain.tiles.bounds hd).2
  refine header_congr fun x hlo hhi => ht.copied_eq hp hstay ?_
  by_cases hy : (y, d) = (b, e)
  · cases hy
    exact .inl hhi
  rcases disjoint_of_spans hd hu.1 hy with h | h
  · simp only at h hdmin hhi
    omega
  · simp only at h hlo
    omega

theorem reallocated (hstay : CopyStays a c g (b + 4)) (hsize : size.toNat + 4 ≤ e.size) :
    ∃ h', (copied g a c (b + 4)).kfree (a + 4) = .ok h' ∧ Reallocated h cs a c size g (b + 4) h' := by
  have hu := ht.new
  have ha := ht.old hp
  obtain ⟨hmin, -, hhead⟩ := hu.end_le ht.chain
  obtain ⟨hamin, -, -⟩ := ha.end_le ht.chain
  have hapart := ht.apart hp
  have hne : b ≠ a := by
    rintro rfl
    exact ht.fresh c hp
  obtain ⟨f, h', cs'', hf, hh, hftop, hhtop, hused, hagree, hmem, hchain, hiff⟩ :=
    kfree_agree ht.chain (ht.copied_chain hp hstay) ha rfl
  refine ⟨h', hh, ?_, ⟨f, hf, ?_, hused, ?_⟩, ?_, ⟨cs'', hchain, ?_⟩, ?_⟩
  · intro i hi
    rw [hmem _ (by omega), ht.copied_at hp (by omega)]
    exact ht.others hp _ (by omega) (by omega)
  · rw [hhtop, hftop]
    rfl
  · intro x hx
    rw [Nat.add_sub_cancel, hhead] at hx
    exact hagree x (ht.copied_eq hp hstay hx)
  · intro x hx hxa
    rw [Nat.add_sub_cancel, hhead] at hx
    rw [hmem x hxa, ht.copied_eq hp hstay (by omega)]
    exact ht.frame x (by omega)
  · intro y d
    rw [Nat.add_sub_cancel, hhead, hiff, ht.used]
    constructor
    · rintro ⟨hd | hd, hya⟩
      · exact .inl ⟨hd, hya⟩
      · exact .inr hd
    · rintro (⟨hd, hya⟩ | ⟨rfl, rfl⟩)
      · exact ⟨.inl hd, hya⟩
      · exact ⟨.inr ⟨rfl, rfl⟩, hne⟩
  · intro y d hd hya x hlo hhi
    have hdb := ht.apart hd
    rw [hmem x ?_, ht.copied_eq hp hstay (by omega), ht.others hd x hlo hhi]
    rcases HeapInv.chunks_disjoint hd hp hya with hda | hda
    · exact .inl (by omega)
    · exact .inr (by omega)

theorem copyStays {f : Heap} (hh : (copied g a c (b + 4)).kfree (a + 4) = .ok h') (hf : g.kfree (a + 4) = .ok f)
    (hused : h'.heapUsed = f.heapUsed) (hmem : ∀ x, b + e.size ≤ x → h'.mem x = f.mem x) :
    CopyStays a c g (b + 4) := by
  obtain ⟨-, -, hhead⟩ := ht.new.end_le ht.chain
  have ha := ht.old hp
  obtain ⟨hmin, hend, hold⟩ := ha.end_le ht.chain
  have hlt : a + 4 < wordSize - 1 := by
    unfold wordSize
    omega
  obtain ⟨hhmem, hhcase⟩ := kfree_ok hlt hh
  obtain ⟨hfmem, hfcase⟩ := kfree_ok hlt hf
  -- The old block is used, so its size is taken off `heap_used`.
  have hfused : f.heapUsed = (g.heapUsed + (wordSize - c.size)) % wordSize := by
    rw [hold] at hfcase
    rcases hfcase with ⟨hfree, -⟩ | ⟨-, hfused⟩
    · rw [ha.2] at hfree
      cases hfree
    · exact hfused
  intro i hlo hi
  rw [Nat.add_sub_cancel, hhead] at hlo
  rw [← ht.copied_at hp hi]
  by_cases hin : b + 4 + i < a ∨ a + 4 ≤ b + 4 + i
  · rw [← hhmem _ hin, ← hfmem _ hin]
    exact hmem _ (by omega)
  -- A header of the old block that was overwritten shows in `heap_used`.
  refine eq_of_header_eq (a := a) ?_ (by omega) (by omega)
  rw [hold]
  rcases hhcase with ⟨-, rfl⟩ | ⟨hu, hhused⟩
  · have : (copied g a c (b + 4)).heapUsed = g.heapUsed := rfl
    rw [hfused] at hused
    unfold wordSize at hused
    omega
  · have hsame : (header (copied g a c (b + 4)).mem a).size = c.size := by
      rw [hhused, hfused] at hused
      have : (copied g a c (b + 4)).heapUsed = g.heapUsed := rfl
      unfold wordSize at hused
      omega
    rw [← ha.2] at hu
    cases c
    exact Chunk.mk.injEq .. ▸ ⟨hsame, hu⟩

end Taken

/-- `krealloc` is safe exactly if the bytes it copies past the new block are the ones that lie there. -/
theorem krealloc_safe_iff (hc : Chain h cs) (hp : UsedAt cs a c) (hpos : 0 < size) (hmax : size < 2 ^ 31)
    (hroom : h.Room size) (hok : h.kmalloc size = .ok (some q, g)) :
    (∃ h', h.krealloc (a + 4) size = .ok (some q, h') ∧ Reallocated h cs a c size g q h') ↔ CopyStays a c g q := by
  rcases hc.kmalloc hpos.ne' hmax hroom with herr | ⟨b, e, g', cs', hok', ht, hsize⟩
  · rw [herr] at hok
    cases hok
  rw [hok'] at hok
  cases hok
  obtain ⟨-, hend, hold⟩ := (ht.old hp).end_le ht.chain
  obtain ⟨-, -, hhead⟩ := ht.new.end_le ht.chain
  rw [krealloc_eq hok' (by omega) hold]
  constructor
  · rintro ⟨h', hre, hsafe⟩
    cases hh : (copied g a c (b + 4)).kfree (a + 4) with
    | error e =>
      rw [hh] at hre
      cases hre
    | ok h'' =>
      rw [hh] at hre
      cases hre
      obtain ⟨f, hf, -, hused, hmem⟩ := hsafe.rest
      refine ht.copyStays hp hh hf hused fun x hx => hmem x (.inr ?_)
      rw [Nat.add_sub_cancel, hhead]
      exact hx
  · intro hstay
    obtain ⟨h', hh, hsafe⟩ := ht.reallocated hp hstay hsize
    exact ⟨h', by rw [hh]; rfl, hsafe⟩

end Krealloc

def after (h : Heap) (r : Except HeapPanic (Option Nat × Heap)) : Heap := (r.toOption.map Prod.snd).getD h

theorem eq_ok_after {r : Except HeapPanic (Option Nat × Heap)} {p : Option Nat}
    (hr : r.toOption.map Prod.fst = some p) : r = .ok (p, after h r) := by
  cases r with
  | error e => cases hr
  | ok r => exact congrArg Except.ok (Prod.ext (Option.some.inj hr) rfl)

def oneBlock : Heap := after zeroedInit (zeroedInit.kmalloc 12)

theorem oneBlock_chain : Chain oneBlock [⟨16, true⟩, ⟨4080, false⟩] := by
  refine ⟨Tiles.cons_iff.mpr ⟨?_, by decide, Tiles.cons_iff.mpr ⟨?_, by decide, Tiles.nil_iff.mpr ?_⟩⟩, ?_, ?_⟩
  all_goals decide +kernel

theorem oneBlock_used : UsedAt [⟨16, true⟩, ⟨4080, false⟩] 0x2000000 ⟨16, true⟩ := by
  refine ⟨?_, rfl⟩
  decide

/-- The block grows from 12 to 100 bytes. -/
theorem krealloc_safe_iff_grows :
    ∃ g h', oneBlock.kmalloc 100 = .ok (some 0x2000014, g) ∧ oneBlock.krealloc 0x2000004 100 = .ok (some 0x2000014, h') ∧
      Reallocated oneBlock [⟨16, true⟩, ⟨4080, false⟩] 0x2000000 ⟨16, true⟩ 100 g 0x2000014 h' := by
  have hok : oneBlock.kmalloc 100 = .ok (some 0x2000014, after oneBlock (oneBlock.kmalloc 100)) :=
    eq_ok_after (by decide +kernel)
  have hroom : oneBlock.Room 100 := .inr (by decide +kernel)
  have hsize : (header (after oneBlock (oneBlock.kmalloc 100)).mem 0x2000010).size = 104 := by decide +kernel
  have hstay : CopyStays 0x2000000 ⟨16, true⟩ (after oneBlock (oneBlock.kmalloc 100)) 0x2000014 := by
    intro i hlo hi
    rw [show 0x2000014 - 4 = 0x2000010 from rfl] at hlo
    simp only at hi
    omega
  obtain ⟨h', hre, hsafe⟩ :=
    (krealloc_safe_iff oneBlock_chain oneBlock_used (by decide) (by decide) hroom hok).mpr hstay
  exact ⟨_, h', hok, hre, hsafe⟩

/-- The block is given the size it has: the copy puts the header of the new chunk over that of the chunk behind,
    and the headers lay out the heap no more. -/
theorem krealloc_breaks_tiling :
    Chain oneBlock [⟨16, true⟩, ⟨4080, false⟩] ∧ UsedAt [⟨16, true⟩, ⟨4080, false⟩] 0x2000000 ⟨16, true⟩ ∧
      oneBlock.Room 12 ∧
      ∃ q h', oneBlock.krealloc 0x2000004 12 = .ok (some q, h') ∧
        ∀ cs, ¬Tiles (header h'.mem) kmallocMinsize kernHeapBegin cs h'.mKheap := by
  have hok : oneBlock.krealloc 0x2000004 12 = .ok (some 0x2000014, after oneBlock (oneBlock.krealloc 0x2000004 12)) :=
    eq_ok_after (by decide +kernel)
  have hnew : header (after oneBlock (oneBlock.krealloc 0x2000004 12)).mem 0x2000010 = ⟨16, true⟩ := by decide +kernel
  have hover : header (after oneBlock (oneBlock.krealloc 0x2000004 12)).mem 0x2000020 = ⟨16, true⟩ := by decide +kernel
  refine ⟨oneBlock_chain, oneBlock_used, .inr (by decide +kernel), _, _, hok, fun cs ht => ?_⟩
  obtain ⟨-, cs, ht⟩ := ht.next (by decide)
  obtain ⟨-, cs, ht⟩ := Tiles.next (a := 0x2000010) ht (by decide)
  rw [hnew] at ht
  obtain ⟨-, cs, ht⟩ := Tiles.next (a := 0x2000020) ht (by decide)
  rw [hover] at ht
  have hmin := (Tiles.next ht (by decide)).1
  exact absurd hmin (by decide)

end Heap
end HelinKern
