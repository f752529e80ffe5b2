import HelinKern.Heap
import HelinKern.Theorems.Frames

/-! The kernel heap over whole runs: the headers lay out a chain of chunks, of which `kmalloc` and `kfree` lay out a part anew. -/

namespace HelinKern
namespace Heap
open Chunks Lts List
open Word (Memory)

variable {x n top a fuel b : Nat} {h h₀ : Heap} {c : Chunk} {cs : List Chunk} {size : Int} {m : Memory}

section Headers
variable {m m' : Memory} {a b size : Nat} {used : Bool}

theorem header_congr (h : ∀ x, a ≤ x → x < a + 4 → m' x = m x) : header m' a = header m a := by
  unfold header
  rw [Word.read_congr h]

theorem header_write (h : size < 2 ^ 31) :
    header (Word.write m a (size + if used then 2 ^ 31 else 0)) a = ⟨size, used⟩ := by
  unfold header
  rw [Word.read_write_self]
  cases used
  · rw [if_neg Bool.false_ne_true, Chunk.mk.injEq, decide_eq_false_iff_not]
    omega
  · rw [if_pos rfl, Chunk.mk.injEq, decide_eq_true_eq]
    omega

theorem header_size_lt : (header m a).size < 2 ^ 31 := Nat.mod_lt _ (by decide)

@[simp] theorem header_setSize : header (setSize m a size) a = ⟨size % 2 ^ 31, (header m a).used⟩ :=
  header_write (Nat.mod_lt _ (by decide))

@[simp] theorem header_setUsed : header (setUsed m a used) a = ⟨(header m a).size, used⟩ :=
  header_write header_size_lt

theorem setSize_of_outside (h : x < a ∨ a + 4 ≤ x) : setSize m a size x = m x :=
  Word.write_of_outside h

theorem setUsed_of_outside (h : x < a ∨ a + 4 ≤ x) : setUsed m a used x = m x :=
  Word.write_of_outside h

theorem header_setSize_of_outside (h : b + 4 ≤ a ∨ a + 4 ≤ b) : header (setSize m a size) b = header m b :=
  header_congr fun _ _ _ => setSize_of_outside (by omega)

theorem header_setUsed_of_outside (h : b + 4 ≤ a ∨ a + 4 ≤ b) : header (setUsed m a used) b = header m b :=
  header_congr fun _ _ _ => setUsed_of_outside (by omega)

end Headers

/-- The headers of `h` lay out the chunks `cs`, up to `m_kheap`. -/
structure Chain (h : Heap) (cs : List Chunk) : Prop where
  tiles : Tiles (header h.mem) kmallocMinsize kernHeapBegin cs h.mKheap
  bottom : kernHeapBegin < h.mKheap
  top : h.mKheap ≤ kernHeapEnd

namespace Chain
variable {h h' : Heap} {cs xs ys zs : List Chunk} {c : Chunk}

theorem replace (hc : Chain h (xs ++ (ys ++ zs))) (ys' : List Chunk) (htop : h'.mKheap = h.mKheap)
    (hmid : Tiles (header h'.mem) kmallocMinsize (kernHeapBegin + total xs) ys'
      (kernHeapBegin + total xs + total ys))
    (hmem : ∀ x, x < kernHeapBegin + total xs ∨ kernHeapBegin + total xs + total ys ≤ x → h'.mem x = h.mem x) :
    Chain h' (xs ++ (ys' ++ zs)) := by
  refine ⟨htop ▸ hc.tiles.replace hmid ?_ ?_, htop ▸ hc.bottom, htop ▸ hc.top⟩
  · intro p hp
    obtain ⟨hle, hmin⟩ := hc.tiles.left.bounds hp
    refine header_congr fun x _ hx => hmem x (.inl ?_)
    unfold kmallocMinsize at hmin
    omega
  · intro p hp
    exact header_congr fun x hx _ => hmem x (.inr (Nat.le_trans (bounds_of_spans hp).1 hx))

theorem mem_lt (hc : Chain h cs) (hm : c ∈ cs) : c.size < 2 ^ 30 := by
  obtain ⟨xs, ys, rfl⟩ := append_of_mem hm
  have hends := hc.tiles.ends
  have htop := hc.top
  rw [total_append, total_cons] at hends
  unfold kernHeapBegin at hends
  unfold kernHeapEnd at htop
  omega

theorem length_le (hc : Chain h cs) : cs.length ≤ h.mKheap - kernHeapBegin := by
  have := hc.tiles.length_le (by decide)
  omega

theorem ne_nil (hc : Chain h cs) : cs ≠ [] := by
  rintro rfl
  exact Nat.ne_of_lt hc.bottom (Tiles.nil_iff.mp hc.tiles)

theorem header_eq (hc : Chain h (xs ++ c :: ys)) : header h.mem (kernHeapBegin + total xs) = c :=
  hc.tiles.heads (kernHeapBegin + total xs, c) (mem_spans_iff.mpr ⟨xs, ys, rfl, rfl⟩)

theorem bounds (hc : Chain h (xs ++ c :: ys)) :
    kmallocMinsize ≤ c.size ∧ kernHeapBegin + total xs + c.size ≤ h.mKheap := by
  exact (hc.tiles.bounds (mem_spans_iff.mpr ⟨xs, ys, rfl, rfl⟩)).symm

end Chain

structure Grown (h : Heap) (n : Nat) (h' : Heap) : Prop where
  top : h'.mKheap = h.mKheap + n * pageSize
  heapUsed : h'.heapUsed = h.heapUsed
  head : header h'.mem h.mKheap = ⟨n * pageSize, false⟩
  mem : ∀ x, x < h.mKheap ∨ h.mKheap + 4 ≤ x → h'.mem x = h.mem x

theorem sbrkPages_cases (hroom : h.mKheap + n * pageSize ≤ kernHeapEnd) :
    h.sbrkPages n = .error .noFrame ∨
      ∃ phys, h.sbrkPages n = .ok { h with phys, mKheap := h.mKheap + n * pageSize } := by
  induction n generalizing h with
  | zero => exact .inr ⟨h.phys, by simp [sbrkPages]⟩
  | succ n ih =>
    unfold sbrkPages
    cases hg : h.phys.allocGetPage with
    | mk got phys =>
      cases got with
      | none => exact .inl rfl
      | some f =>
        have hnext : (h.mKheap + pageSize) % wordSize = h.mKheap + pageSize := by
          simp only [pageSize, kernHeapEnd, wordSize] at hroom ⊢
          omega
        have hsum : h.mKheap + pageSize + n * pageSize = h.mKheap + (n + 1) * pageSize := by
          unfold pageSize
          omega
        simp only [hnext]
        rcases ih (h := { h with phys, mKheap := h.mKheap + pageSize }) (hsum ▸ hroom) with herr | ⟨phys', hok⟩
        · exact .inl herr
        · exact .inr ⟨phys', by rw [hok, hsum]⟩

theorem ksbrkPage_cases (hroom : h.mKheap + n * pageSize ≤ kernHeapEnd) :
    h.ksbrkPage n = .error .noFrame ∨ ∃ h', h.ksbrkPage n = .ok (some h.mKheap, h') ∧ Grown h n h' := by
  have hlimit : ¬kernHeapEnd < (h.mKheap + n * pageSize) % wordSize := by
    have := Nat.mod_le (h.mKheap + n * pageSize) wordSize
    omega
  have hsize : pageSize * n % 2 ^ 31 = n * pageSize := by
    rw [Nat.mul_comm]
    unfold kernHeapEnd at hroom
    omega
  unfold ksbrkPage
  rw [if_neg hlimit]
  rcases sbrkPages_cases hroom with herr | ⟨phys, hok⟩
  · exact .inl (by rw [herr]; rfl)
  let h' : Heap :=
    { h with
      mem := setUsed (setSize h.mem h.mKheap (pageSize * n)) h.mKheap false
      mKheap := h.mKheap + n * pageSize
      kheapPages := (h.kheapPages + n) % wordSize
      phys }
  refine .inr ⟨h', by rw [hok]; rfl, rfl, rfl, ?_, ?_⟩
  · simp only [h', header_setUsed, header_setSize, hsize]
  · intro x hx
    exact (setUsed_of_outside hx).trans (setSize_of_outside hx)

theorem kheapInit_grown (hinit : h₀.kheapInit = .ok h) : Grown { h₀ with mKheap := kernHeapBegin } 1 h := by
  have hroom : kernHeapBegin + 1 * pageSize ≤ kernHeapEnd := by decide
  rcases ksbrkPage_cases (h := { h₀ with mKheap := kernHeapBegin }) hroom with herr | ⟨h', hok, hg⟩
  · rw [kheapInit, herr] at hinit
    cases hinit
  · rw [kheapInit, hok] at hinit
    cases hinit
    exact hg

namespace Chain
variable {h h' : Heap} {cs : List Chunk}

theorem grown (hc : Chain h cs) (hg : Grown h n h') (hn : n ≠ 0) (hroom : h.mKheap + n * pageSize ≤ kernHeapEnd) :
    Chain h' (cs ++ [⟨n * pageSize, false⟩]) := by
  have hbottom : kernHeapBegin < h.mKheap + n * pageSize := Nat.lt_add_right _ hc.bottom
  refine ⟨Tiles.append (hc.tiles.congr ?_) ?_, hg.top ▸ hbottom, hg.top ▸ hroom⟩
  · intro p hp
    obtain ⟨hle, hmin⟩ := hc.tiles.bounds hp
    refine header_congr fun x _ hx => hg.mem x (.inl ?_)
    unfold kmallocMinsize at hmin
    omega
  · rw [Tiles.cons_iff, Tiles.nil_iff, hg.top]
    refine ⟨hg.head, ?_, rfl⟩
    show 16 ≤ n * 4096
    omega

end Chain

/-! ### The walk of `kmalloc` -/

theorem mod_of_le_top (htop : top ≤ kernHeapEnd) (h : n ≤ top) : n % wordSize = n :=
  Nat.mod_eq_of_lt (Nat.lt_of_le_of_lt (Nat.le_trans h htop) (by decide))

/-- A chunk that the walk stops at. -/
def Fits (r : Nat) (c : Chunk) : Prop := c.used = false ∧ r ≤ c.size

variable {r : Nat}

theorem not_fits_iff : ¬Fits r c ↔ c.used ∨ c.size < r := by
  unfold Fits
  cases c.used <;> simp

theorem findChunk_of_fits (hf : Fits r (header h.mem a)) :
    findChunk (fuel + 1) h a r = .ok (a, h) := by
  unfold findChunk
  rw [if_neg fun hgo => not_fits_iff.mpr hgo hf]

theorem findChunk_next (hf : ¬Fits r (header h.mem a)) (hpos : (header h.mem a).size ≠ 0)
    (hlt : a + (header h.mem a).size < h.mKheap) (htop : h.mKheap ≤ kernHeapEnd) :
    findChunk (fuel + 1) h a r = findChunk fuel h (a + (header h.mem a).size) r := by
  have hmod := mod_of_le_top htop (Nat.le_of_lt hlt)
  rw [findChunk]
  simp only [if_pos (not_fits_iff.mp hf), if_neg hpos, hmod, if_neg (Nat.ne_of_lt hlt), if_neg (Nat.not_lt.mpr (Nat.le_of_lt hlt))]

theorem findChunk_last (hf : ¬Fits r (header h.mem a)) (hpos : (header h.mem a).size ≠ 0)
    (hlast : a + (header h.mem a).size = h.mKheap) (hroom : h.mKheap + (r / pageSize + 2) * pageSize ≤ kernHeapEnd) :
    findChunk (fuel + 2) h a r = .error .noFrame ∨
      ∃ h', findChunk (fuel + 2) h a r = .ok (h.mKheap, h') ∧ Grown h (r / pageSize + 2) h' := by
  have hmod : (a + (header h.mem a).size) % wordSize = h.mKheap := by
    unfold kernHeapEnd at hroom
    unfold wordSize
    omega
  rw [findChunk]
  simp only [if_pos (not_fits_iff.mp hf), if_neg hpos, hmod]
  rcases ksbrkPage_cases hroom with herr | ⟨h', hok, hg⟩
  · exact .inl (by rw [herr]; rfl)
  refine .inr ⟨h', ?_, hg⟩
  rw [hok]
  refine findChunk_of_fits ?_
  rw [hg.head]
  refine ⟨rfl, ?_⟩
  show r ≤ (r / pageSize + 2) * pageSize
  unfold pageSize
  omega

theorem findChunk_cases (ht : Tiles (header h.mem) kmallocMinsize a (c :: cs) h.mKheap)
    (htop : h.mKheap ≤ kernHeapEnd) (hfuel : cs.length + 2 ≤ fuel)
    (hroom : (∃ d ∈ c :: cs, Fits r d) ∨ h.mKheap + (r / pageSize + 2) * pageSize ≤ kernHeapEnd) :
    (∃ xs d ys, c :: cs = xs ++ d :: ys ∧ Fits r d ∧ (∀ x ∈ xs, ¬Fits r x) ∧
        findChunk fuel h a r = .ok (a + total xs, h)) ∨
      findChunk fuel h a r = .error .noFrame ∨
      h.mKheap + (r / pageSize + 2) * pageSize ≤ kernHeapEnd ∧ (∀ x ∈ c :: cs, ¬Fits r x) ∧
        ∃ h', findChunk fuel h a r = .ok (h.mKheap, h') ∧ Grown h (r / pageSize + 2) h' := by
  obtain ⟨fuel, rfl⟩ : ∃ k, fuel = k + 1 := ⟨fuel - 1, by omega⟩
  induction cs generalizing c a fuel with
  | nil =>
    obtain ⟨hhead, hmin, htail⟩ := Tiles.cons_iff.mp ht
    rw [Tiles.nil_iff] at htail
    by_cases hf : Fits r c
    · exact .inl ⟨[], c, [], rfl, hf, nofun, findChunk_of_fits (hhead ▸ hf)⟩
    have hgrow := hroom.resolve_left (by simpa using hf)
    obtain ⟨fuel, rfl⟩ : ∃ k, fuel = k + 1 := ⟨fuel - 1, by simp at hfuel; omega⟩
    refine .inr ((findChunk_last (hhead ▸ hf) ?_ (hhead ▸ htail) hgrow).imp_right fun hnew =>
      ⟨hgrow, forall_mem_singleton.mpr hf, hnew⟩)
    rw [hhead]
    exact (Nat.lt_of_lt_of_le (by decide) hmin).ne'
  | cons e cs ih =>
    obtain ⟨hhead, hmin, htail⟩ := Tiles.cons_iff.mp ht
    by_cases hf : Fits r c
    · exact .inl ⟨[], c, e :: cs, rfl, hf, nofun, findChunk_of_fits (hhead ▸ hf)⟩
    have hroom' : (∃ d ∈ e :: cs, Fits r d) ∨ h.mKheap + (r / pageSize + 2) * pageSize ≤ kernHeapEnd := by
      rcases hroom with ⟨d, hd, hfit⟩ | hgrow
      · rcases mem_cons.mp hd with rfl | hd
        · exact absurd hfit hf
        · exact .inl ⟨d, hd, hfit⟩
      · exact .inr hgrow
    have hlt : a + c.size < h.mKheap := htail.lt_end (by decide)
    have hnext : findChunk (fuel + 1) h a r = findChunk fuel h (a + c.size) r := by
      rw [findChunk_next (hhead ▸ hf) ?_ (hhead ▸ hlt) htop, hhead]
      rw [hhead]
      exact (Nat.lt_of_lt_of_le (by decide) hmin).ne'
    rw [hnext]
    obtain ⟨fuel, rfl⟩ : ∃ k, fuel = k + 1 := ⟨fuel - 1, by simp at hfuel; omega⟩
    rcases ih htail hroom' fuel (by simp at hfuel ⊢; omega) with ⟨xs, d, ys, hsplit, hfit, hfirst, hfound⟩ | h
    · exact .inl ⟨c :: xs, d, ys, by rw [hsplit]; rfl, hfit, forall_mem_cons.mpr ⟨hf, hfirst⟩,
        by rw [hfound, total_cons, Nat.add_assoc]⟩
    · exact .inr (h.imp_right fun ⟨hgrow, hnone, hnew⟩ => ⟨hgrow, forall_mem_cons.mpr ⟨hf, hnone⟩, hnew⟩)

/-! ### Taking a chunk -/

def taken (c : Chunk) (r : Nat) : List Chunk :=
  if c.size - r < kmallocMinsize then [⟨c.size, true⟩] else [⟨r, true⟩, ⟨c.size - r, false⟩]

def given (c : Chunk) (r : Nat) : Chunk := ⟨if c.size - r < kmallocMinsize then c.size else r, true⟩

theorem le_given (hr : r ≤ c.size) : r ≤ (given c r).size := by
  unfold given
  split
  · exact hr
  · exact Nat.le_refl r

theorem total_taken (hr : r ≤ c.size) : total (taken c r) = c.size := by
  unfold taken
  split
  · simp
  · simp only [total_cons, total_nil]
    omega

theorem takeChunk_of_outside (hroom : b + r < wordSize) (hr : r ≤ (header h.mem b).size) (hx : x < b ∨ b + 4 ≤ x)
    (hrest : kmallocMinsize ≤ (header h.mem b).size - r → x < b + r ∨ b + r + 4 ≤ x) :
    (h.takeChunk b r).mem x = h.mem x := by
  have hlt : (header h.mem b).size < 2 ^ 31 := header_size_lt
  have hsub : ((header h.mem b).size + (wordSize - r)) % wordSize = (header h.mem b).size - r := by
    unfold wordSize
    omega
  simp only [Heap.takeChunk, hsub, Nat.mod_eq_of_lt hroom]
  split
  · exact setUsed_of_outside hx
  next hsplit =>
    have hx' := hrest (Nat.le_of_not_lt hsplit)
    rw [setUsed_of_outside hx, setSize_of_outside hx, setUsed_of_outside hx', setSize_of_outside hx']

namespace Chain
variable {h : Heap} {xs ys : List Chunk} {c : Chunk}

theorem end_le (hc : Chain h (xs ++ c :: ys)) : kernHeapBegin + total xs + c.size ≤ 2 ^ 30 :=
  Nat.le_trans hc.bounds.2 hc.top

theorem takeChunk (hc : Chain h (xs ++ c :: ys)) (hr : kmallocMinsize ≤ r) (hfit : Fits r c) :
    Chain (h.takeChunk (kernHeapBegin + total xs) r) (xs ++ (taken c r ++ ys)) := by
  have hend := hc.end_le
  have hle := hfit.2
  have hmin := hc.bounds.1
  have hhead := hc.header_eq
  have hrest : (c.size + (wordSize - r)) % wordSize = c.size - r := by
    unfold wordSize
    omega
  have hother : kernHeapBegin + total xs + r < wordSize := by
    unfold wordSize
    omega
  have hc' : Chain h (xs ++ ([c] ++ ys)) := hc
  refine hc'.replace (taken c r) rfl ?_ ?_
  · simp only [Heap.takeChunk, hhead, hrest, Nat.mod_eq_of_lt hother, taken, total_cons, total_nil]
    split
    · exact Tiles.cons_iff.mpr ⟨by rw [header_setUsed, hhead], hmin, Tiles.nil_iff.mpr rfl⟩
    rename_i hsplit
    -- the rest's header is written first; it lies behind the chunk's own
    have hfar : kernHeapBegin + total xs + 4 ≤ kernHeapBegin + total xs + r := by
      unfold kmallocMinsize at hr
      omega
    refine Tiles.cons_iff.mpr ⟨?_, hr, Tiles.cons_iff.mpr ⟨?_, Nat.le_of_not_lt hsplit, Tiles.nil_iff.mpr ?_⟩⟩
    · rw [header_setUsed, header_setSize]
      simp only [Chunk.mk.injEq, and_true]
      omega
    · rw [header_setUsed_of_outside (.inr hfar), header_setSize_of_outside (.inr hfar), header_setUsed,
        header_setSize]
      simp only [Chunk.mk.injEq, and_true]
      omega
    · show kernHeapBegin + total xs + r + (c.size - r) = _
      omega
  · intro x hx
    simp only [total_cons] at hx
    unfold kmallocMinsize at hmin
    refine takeChunk_of_outside hother (hhead ▸ hle) (by omega) fun hsplit => ?_
    rw [hhead] at hsplit
    unfold kmallocMinsize at hsplit
    omega

end Chain

/-! ### `kmalloc` -/

theorem realsize_bounds (hmax : size < 2 ^ 31) :
    kmallocMinsize ≤ realsize size ∧ size.toNat + 4 ≤ realsize size := by
  unfold realsize headerSize kmallocMinsize wordSize
  dsimp only
  split <;> omega

/-- The heap can serve the request without growing past its end: a chunk of the chain fits, or the
    pages `ksbrk_page` is asked for lie below `KERN_HEAP_END`. -/
def Room (h : Heap) (size : Int) : Prop :=
  (∃ cs, Tiles (header h.mem) kmallocMinsize kernHeapBegin cs h.mKheap ∧ ∃ c ∈ cs, Fits (realsize size) c) ∨
    h.mKheap + (realsize size / pageSize + 2) * pageSize ≤ kernHeapEnd

def Served (cs cs' : List Chunk) : Prop := cs' = cs ∨ ∃ c, c.used = false ∧ cs' = cs ++ [c]

/-- The heap `g`, which is `h` or `h` with a free chunk appended, and in it the chunk `c` that `kmalloc` takes for `r`
    bytes: the first of `cs` that fits, or the one appended, which is larger by some pages. -/
structure Found (h : Heap) (cs : List Chunk) (r : Nat) (g : Heap) (xs : List Chunk) (c : Chunk) (ys : List Chunk) :
    Prop where
  served : Served cs (xs ++ c :: ys)
  chain : Chain g (xs ++ c :: ys)
  fits : Fits r c
  mem : ∀ x, x < kernHeapBegin + total xs ∨ kernHeapBegin + total xs + 4 ≤ x → g.mem x = h.mem x
  heapUsed : g.heapUsed = h.heapUsed
  first : (cs = xs ++ c :: ys ∧ ∀ x ∈ xs, ¬Fits r x) ∨ ((∀ x ∈ cs, ¬Fits r x) ∧ r + kmallocMinsize ≤ c.size)

theorem Chain.kmalloc_cases (hc : Chain h cs) (hne : size ≠ 0) (hroom : h.Room size) :
    h.kmalloc size = .error .noFrame ∨
      ∃ g xs c ys, h.kmalloc size =
          .ok (some (kernHeapBegin + total xs + 4), g.takeChunk (kernHeapBegin + total xs) (realsize size)) ∧
        Found h cs (realsize size) g xs c ys := by
  have hroom' : (∃ d ∈ cs, Fits (realsize size) d) ∨
      h.mKheap + (realsize size / pageSize + 2) * pageSize ≤ kernHeapEnd := by
    rcases hroom with ⟨cs', ht, hfit⟩ | hgrow
    · exact .inl (hc.tiles.unique (by decide) ht ▸ hfit)
    · exact .inr hgrow
  have hptr : ∀ {h' : Heap} {xs ys : List Chunk} {c : Chunk}, Chain h' (xs ++ c :: ys) →
      (kernHeapBegin + total xs + headerSize) % wordSize = kernHeapBegin + total xs + 4 := by
    intro h' xs ys c hc'
    have hend := hc'.end_le
    unfold headerSize wordSize
    omega
  obtain ⟨c, cs, rfl⟩ := exists_cons_of_ne_nil hc.ne_nil
  have hfuel : cs.length + 2 ≤ h.mKheap - kernHeapBegin + 2 := by
    have := hc.length_le
    rw [length_cons] at this
    omega
  unfold kmalloc
  rw [if_neg hne]
  rcases findChunk_cases hc.tiles hc.top hfuel hroom' with
    ⟨xs, d, ys, hsplit, hfit, hfirst, hfound⟩ | herr | ⟨hgrow, hnone, g, hfound, hg⟩
  · rw [hsplit] at hc ⊢
    refine .inr ⟨h, xs, d, ys, ?_, .inl rfl, hc, hfit, fun _ _ => rfl, rfl, .inl ⟨rfl, hfirst⟩⟩
    rw [hfound, ← hptr hc]
    rfl
  · exact .inl (by rw [herr]; rfl)
  · have hnew := hc.grown hg (Nat.succ_ne_zero _) hgrow
    have hfit : Fits (realsize size) ⟨(realsize size / pageSize + 2) * pageSize, false⟩ := by
      refine ⟨rfl, ?_⟩
      show realsize size ≤ (realsize size / pageSize + 2) * pageSize
      unfold pageSize
      omega
    refine .inr ⟨g, c :: cs, _, [], ?_, .inr ⟨_, rfl, rfl⟩, hnew, hfit, ?_, hg.heapUsed, .inr ⟨hnone, ?_⟩⟩
    · rw [hfound, ← hptr hnew, hc.tiles.ends]
      rfl
    · rw [hc.tiles.ends]
      exact hg.mem
    · show realsize size + 16 ≤ (realsize size / pageSize + 2) * pageSize
      unfold pageSize
      omega

/-! ### `kfree` -/

def free (c : Chunk) : Bool := !c.used

section Merge
variable {m : Memory} {top b fuel : Nat}

theorem mergeChunks_stop (htop : top ≤ kernHeapEnd) (hin : b + (header m b).size ≤ top)
    (h : b + (header m b).size = top ∨ (header m (b + (header m b).size)).used) :
    mergeChunks (fuel + 1) m top b = .ok m := by
  unfold mergeChunks
  rw [mod_of_le_top htop hin, if_neg]
  rintro ⟨-, hlt, hfree⟩
  rcases h with h | h
  · exact Nat.ne_of_lt hlt h
  · rw [hfree] at h
    cases h

theorem mergeChunks_next (htop : top ≤ kernHeapEnd) (hlt : b + (header m b).size < top)
    (hfree : (header m (b + (header m b).size)).used = false) (hb : b ≠ 0)
    (hpos : (header m (b + (header m b).size)).size ≠ 0) :
    mergeChunks (fuel + 1) m top b =
      mergeChunks fuel (setSize m b ((header m b).size + (header m (b + (header m b).size)).size)) top b := by
  rw [mergeChunks, mod_of_le_top htop (Nat.le_of_lt hlt), if_pos ⟨by omega, hlt, hfree⟩, if_neg hpos]

end Merge

namespace Chain
variable {h : Heap} {xs ys : List Chunk}

theorem merge {size : Nat} {y : Chunk} (hc : Chain { h with mem := m } (xs ++ ⟨size, false⟩ :: y :: ys)) :
    Chain { h with mem := setSize m (kernHeapBegin + total xs) (size + y.size) }
      (xs ++ ⟨size + y.size, false⟩ :: ys) := by
  have hsum : (size + y.size) % 2 ^ 31 = size + y.size := by
    have hx : size < 2 ^ 30 := hc.mem_lt (c := ⟨size, false⟩) (by simp)
    have hy : y.size < 2 ^ 30 := hc.mem_lt (by simp)
    omega
  have hmin : kmallocMinsize ≤ size := hc.bounds.1
  have hhead : header m (kernHeapBegin + total xs) = ⟨size, false⟩ := hc.header_eq
  have hpair : Chain { h with mem := m } (xs ++ ([⟨size, false⟩, y] ++ ys)) := hc
  refine hpair.replace [⟨size + y.size, false⟩] rfl
    (Tiles.cons_iff.mpr ⟨?_, Nat.le_add_right_of_le hmin, Tiles.nil_iff.mpr (by simp)⟩) ?_
  · rw [header_setSize, hhead, hsum]
  · intro x hx
    simp only [total_cons] at hx
    unfold kmallocMinsize at hmin
    exact setSize_of_outside (by omega)

theorem mergeChunks_cases {size : Nat} (hc : Chain { h with mem := m } (xs ++ ⟨size, false⟩ :: ys))
    (hfuel : ys.length < fuel) :
    ∃ m', mergeChunks fuel m h.mKheap (kernHeapBegin + total xs) = .ok m' ∧
      Chain { h with mem := m' } (xs ++ ⟨size + total (ys.takeWhile free), false⟩ :: ys.dropWhile free) := by
  induction ys generalizing m size fuel with
  | nil =>
    obtain ⟨fuel, rfl⟩ : ∃ k, fuel = k + 1 := ⟨fuel - 1, by omega⟩
    have hhead : header m (kernHeapBegin + total xs) = ⟨size, false⟩ := hc.header_eq
    have hlast : kernHeapBegin + total xs + size = h.mKheap := by
      have hends : kernHeapBegin + total (xs ++ [⟨size, false⟩]) = h.mKheap := hc.tiles.ends
      simpa [Nat.add_assoc] using hends
    exact ⟨m, mergeChunks_stop hc.top (by rw [hhead]; exact Nat.le_of_eq hlast)
      (.inl (by rw [hhead]; exact hlast)), hc⟩
  | cons y ys ih =>
    obtain ⟨fuel, rfl⟩ : ∃ k, fuel = k + 1 := ⟨fuel - 1, by omega⟩
    have hhead : header m (kernHeapBegin + total xs) = ⟨size, false⟩ := hc.header_eq
    have hstart : kernHeapBegin + total (xs ++ [⟨size, false⟩]) = kernHeapBegin + total xs + size := by
      simp [Nat.add_assoc]
    have hnext : Chain { h with mem := m } ((xs ++ [⟨size, false⟩]) ++ y :: ys) := by simpa using hc
    have hheady : header m (kernHeapBegin + total xs + size) = y := hstart ▸ hnext.header_eq
    have hminy : kmallocMinsize ≤ y.size := hnext.bounds.1
    have hiny : kernHeapBegin + total xs + size + y.size ≤ h.mKheap := hstart ▸ hnext.bounds.2
    unfold kmallocMinsize at hminy
    cases hu : y.used with
    | true =>
      rw [takeWhile_cons_of_neg (by simp [free, hu]), dropWhile_cons_of_neg (by simp [free, hu])]
      refine ⟨m, mergeChunks_stop hc.top ?_ (.inr ?_), hc⟩
      · rw [hhead]
        exact Nat.le_of_add_right_le hiny
      · rw [hhead, hheady, hu]
    | false =>
      rw [takeWhile_cons_of_pos (by simp [free, hu]), dropWhile_cons_of_pos (by simp [free, hu])]
      obtain ⟨m', hok, hchain⟩ := ih hc.merge (by simpa using hfuel)
      refine ⟨m', ?_, by simpa [Nat.add_assoc] using hchain⟩
      rw [mergeChunks_next hc.top, hhead, hheady]
      · exact hok
      · rw [hhead]
        show kernHeapBegin + total xs + size < h.mKheap
        omega
      · rw [hhead, hheady, hu]
      · unfold kernHeapBegin
        omega
      · rw [hhead, hheady]
        omega

theorem kfree_cases (hc : Chain h (xs ++ c :: ys)) (hu : c.used) :
    ∃ m', h.kfree (kernHeapBegin + total xs + 4) =
        .ok { h with mem := m', heapUsed := (h.heapUsed + (wordSize - c.size)) % wordSize } ∧
      Chain { h with mem := m' } (xs ++ ⟨c.size + total (ys.takeWhile free), false⟩ :: ys.dropWhile free) := by
  have hhead := hc.header_eq
  have hmin := hc.bounds.1
  have hend := hc.end_le
  unfold kmallocMinsize at hmin
  have hchunk : (kernHeapBegin + total xs + 4 + (wordSize - headerSize)) % wordSize = kernHeapBegin + total xs := by
    unfold wordSize headerSize
    omega
  have hfreed : Chain { h with mem := setUsed h.mem (kernHeapBegin + total xs) false } (xs ++ ⟨c.size, false⟩ :: ys) := by
    have hone : Chain h (xs ++ ([c] ++ ys)) := hc
    refine hone.replace [⟨c.size, false⟩] rfl (Tiles.cons_iff.mpr ⟨?_, hmin, Tiles.nil_iff.mpr (by simp)⟩) ?_
    · rw [header_setUsed, hhead]
    · intro x hx
      simp only [total_cons] at hx
      exact setUsed_of_outside (by omega)
  have hfuel : ys.length < h.mKheap - kernHeapBegin + 1 := by
    have := hc.length_le
    simp only [length_append, length_cons] at this
    omega
  obtain ⟨m', hok, hchain⟩ := hfreed.mergeChunks_cases hfuel
  refine ⟨m', ?_, hchain⟩
  unfold kfree
  rw [if_neg (by unfold wordSize; omega)]
  simp only [hchunk, header_setUsed, hhead, hu]
  rw [hok]
  rfl

end Chain

theorem mergeChunks_of_outside {m' : Memory} (h : mergeChunks fuel m top b = .ok m') (hx : x < b ∨ b + 4 ≤ x) :
    m' x = m x := by
  induction fuel generalizing m with
  | zero => cases h
  | succ fuel ih =>
    rw [mergeChunks] at h
    split at h
    · split at h
      · cases h
      · exact (ih h).trans (setSize_of_outside hx)
    · cases h
      rfl

theorem kfree_ok {h' : Heap} (ha : a + 4 < wordSize - 1) (hok : h.kfree (a + 4) = .ok h') :
    (∀ x, x < a ∨ a + 4 ≤ x → h'.mem x = h.mem x) ∧
      (((header h.mem a).used = false ∧ h' = h) ∨
        ((header h.mem a).used ∧
          h'.heapUsed = (h.heapUsed + (wordSize - (header h.mem a).size)) % wordSize)) := by
  have hchunk : (a + 4 + (wordSize - headerSize)) % wordSize = a := by
    unfold wordSize headerSize at *
    omega
  unfold kfree at hok
  rw [if_neg (by omega)] at hok
  simp only [hchunk] at hok
  cases hu : (header h.mem a).used with
  | false =>
    rw [if_pos hu] at hok
    cases hok
    exact ⟨fun _ _ => rfl, .inl ⟨rfl, rfl⟩⟩
  | true =>
    rw [if_neg (by simp [hu])] at hok
    cases hm : mergeChunks (h.mKheap - kernHeapBegin + 1) (setUsed h.mem a false) h.mKheap a with
    | error e =>
      rw [hm] at hok
      cases hok
    | ok m' =>
      rw [hm] at hok
      cases hok
      exact ⟨fun x hx => (mergeChunks_of_outside hm hx).trans (setUsed_of_outside hx),
        .inr ⟨rfl, by simp only [header_setUsed]⟩⟩

/-! ### Used chunks -/

def UsedAt (cs : List Chunk) (a : Nat) (c : Chunk) : Prop := (a, c) ∈ spans kernHeapBegin cs ∧ c.used = true

section UsedAt
variable {cs cs' xs ys : List Chunk} {a : Nat} {c d : Chunk}

theorem usedAt_served (h : Served cs cs') : UsedAt cs' a d ↔ UsedAt cs a d := by
  rcases h with rfl | ⟨c, hc, rfl⟩
  · exact Iff.rfl
  unfold UsedAt
  rw [spans_append, mem_append, spans_cons, spans_nil, mem_singleton]
  constructor
  · rintro ⟨h | ⟨rfl, rfl⟩, hu⟩
    · exact ⟨h, hu⟩
    · rw [hc] at hu
      cases hu
  · rintro ⟨h, hu⟩
    exact ⟨.inl h, hu⟩

theorem used_taken : (a, d) ∈ spans b (taken c r) ∧ d.used ↔ a = b ∧ d = given c r := by
  unfold taken given
  split
  · simp only [spans_cons, spans_nil, mem_singleton, Prod.mk.injEq]
    refine ⟨And.left, ?_⟩
    rintro ⟨rfl, rfl⟩
    exact ⟨⟨rfl, rfl⟩, rfl⟩
  · simp only [spans_cons, spans_nil, mem_cons, not_mem_nil, or_false, Prod.mk.injEq]
    constructor
    · rintro ⟨⟨rfl, rfl⟩ | ⟨-, rfl⟩, hu⟩
      · exact ⟨rfl, rfl⟩
      · cases hu
    · rintro ⟨rfl, rfl⟩
      exact ⟨.inl ⟨rfl, rfl⟩, rfl⟩

theorem usedAt_taken (xs ys : List Chunk) (hfit : Fits r c) :
    UsedAt (xs ++ (taken c r ++ ys)) a d ↔
      UsedAt (xs ++ c :: ys) a d ∨ a = kernHeapBegin + total xs ∧ d = given c r := by
  have hfree : ¬((a, d) = (kernHeapBegin + total xs, c) ∧ d.used) := by
    rintro ⟨heq, hu⟩
    cases heq
    rw [hfit.1] at hu
    cases hu
  unfold UsedAt
  simp only [spans_append, total_taken hfit.2, mem_append, spans_cons, mem_cons, or_and_right, used_taken, hfree, false_or]
  rw [or_left_comm, or_comm]

theorem usedAt_merged (hc : Chain h (xs ++ c :: ys)) :
    UsedAt (xs ++ ⟨c.size + total (ys.takeWhile free), false⟩ :: ys.dropWhile free) a d ↔
      UsedAt (xs ++ c :: ys) a d ∧ a ≠ kernHeapBegin + total xs := by
  have hmin := hc.bounds.1
  unfold kmallocMinsize at hmin
  have hfree : ∀ z ∈ ys.takeWhile free, z.used = false := fun z hz => by
    simpa [free] using all_eq_true.mp all_takeWhile z hz
  have hsplit : spans (kernHeapBegin + total xs + c.size) ys =
      spans (kernHeapBegin + total xs + c.size) (ys.takeWhile free) ++
        spans (kernHeapBegin + total xs + c.size + total (ys.takeWhile free)) (ys.dropWhile free) := by
    rw [← spans_append, takeWhile_append_dropWhile]
  unfold UsedAt
  simp only [spans_append, mem_append, spans_cons, mem_cons, Prod.mk.injEq, ← Nat.add_assoc, hsplit]
  constructor
  · rintro ⟨h | ⟨-, rfl⟩ | h, hu⟩
    · obtain ⟨hle, hpos⟩ := hc.tiles.left.bounds h
      unfold kmallocMinsize at hpos
      exact ⟨⟨.inl h, hu⟩, by omega⟩
    · cases hu
    · have hlo : _ ≤ a := (bounds_of_spans h).1
      exact ⟨⟨.inr (.inr (.inr h)), hu⟩, by omega⟩
  · rintro ⟨⟨h | ⟨ha, -⟩ | h | h, hu⟩, hne⟩
    · exact ⟨.inl h, hu⟩
    · exact absurd ha hne
    · rw [hfree d (chunk_mem_of_spans h)] at hu
      cases hu
    · exact ⟨.inr (.inr h), hu⟩

theorem usedAt_split (h : UsedAt cs a c) : ∃ xs ys, cs = xs ++ c :: ys ∧ a = kernHeapBegin + total xs :=
  mem_spans_iff.mp h.1

end UsedAt

/-! ### What the calls change -/

structure Taken (h : Heap) (cs : List Chunk) (b : Nat) (e : Chunk) (g : Heap) (cs' : List Chunk) : Prop where
  chain : Chain g cs'
  used : ∀ {a d}, UsedAt cs' a d ↔ UsedAt cs a d ∨ a = b ∧ d = e
  fresh : ∀ d, ¬UsedAt cs b d
  others : ∀ {a d}, UsedAt cs a d → ∀ x, a ≤ x → x < a + d.size → g.mem x = h.mem x
  frame : ∀ x, x < b ∨ b + e.size + 4 ≤ x → g.mem x = h.mem x

namespace Chain
variable {h : Heap} {cs : List Chunk}

theorem kmalloc (hc : Chain h cs) (hne : size ≠ 0) (hmax : size < 2 ^ 31) (hroom : h.Room size) :
    h.kmalloc size = .error .noFrame ∨
      ∃ b e g cs', h.kmalloc size = .ok (some (b + 4), g) ∧ Taken h cs b e g cs' ∧ size.toNat + 4 ≤ e.size := by
  obtain ⟨hmin, hsize⟩ := realsize_bounds hmax
  rcases hc.kmalloc_cases hne hroom with herr | ⟨g, xs, c, ys, hok, hserved, hfound, hfit, hmem, -, -⟩
  · exact .inl herr
  have hle := hfit.2
  have hhead := hfound.header_eq
  have hend := hfound.end_le
  have hunused : ∀ {d : Chunk}, UsedAt (xs ++ c :: ys) (kernHeapBegin + total xs) d → False := by
    rintro d ⟨hd, hu⟩
    obtain rfl : c = d := hhead.symm.trans (hfound.tiles.heads _ hd)
    rw [hfit.1] at hu
    cases hu
  -- Outside both headers that are written memory is as it was.
  have hkept : ∀ x, x < kernHeapBegin + total xs ∨ kernHeapBegin + total xs + 4 ≤ x →
      (kmallocMinsize ≤ c.size - realsize size →
        x < kernHeapBegin + total xs + realsize size ∨ kernHeapBegin + total xs + realsize size + 4 ≤ x) →
      (g.takeChunk (kernHeapBegin + total xs) (realsize size)).mem x = h.mem x := by
    intro x hx hrest
    refine (takeChunk_of_outside ?_ (hhead ▸ hle) hx (hhead ▸ hrest)).trans (hmem x hx)
    unfold wordSize
    omega
  refine .inr ⟨_, given c (realsize size), _, _, hok, ⟨hfound.takeChunk hmin hfit, ?_, ?_, ?_, ?_⟩,
    Nat.le_trans hsize (le_given hle)⟩
  · intro a d
    rw [usedAt_taken xs ys hfit, usedAt_served hserved]
  · exact fun d hd => hunused ((usedAt_served hserved).mpr hd)
  · intro a d hd x hlo hhi
    have hd := (usedAt_served hserved).mpr hd
    have hne : (a, d) ≠ (kernHeapBegin + total xs, c) := by
      rintro heq
      cases heq
      exact hunused hd
    have hdis := disjoint_of_spans hd.1 (mem_spans_iff.mpr ⟨xs, ys, rfl, rfl⟩) hne
    simp only at hdis
    refine hkept x (by omega) fun hsplit => ?_
    unfold kmallocMinsize at hsplit
    omega
  · intro x hx
    have hgiven := le_given hle
    refine hkept x (by omega) fun _ => by omega

theorem kfree (hc : Chain h cs) (hu : UsedAt cs a c) :
    ∃ h' cs', h.kfree (a + 4) = .ok h' ∧ Chain h' cs' ∧ ∀ {b d}, UsedAt cs' b d ↔ UsedAt cs b d ∧ b ≠ a := by
  obtain ⟨xs, ys, rfl, rfl⟩ := usedAt_split hu
  obtain ⟨m', hok, hchain⟩ := hc.kfree_cases hu.2
  exact ⟨_, _, hok, { hchain with }, usedAt_merged hc⟩

end Chain

/-! ### Live blocks -/

/-- The heap with the blocks its callers hold: the pointer they got and the size they asked for. -/
structure LiveHeap where
  heap : Heap
  live : List (Nat × Nat)

inductive HeapOp
  | kmalloc (size : Int)
  | kfree (p : Nat)
  | store (a : Nat) (byte : BitVec 8)
  | frames (phys : Frames)

/-- Callers ask for blocks, free those they hold and write into them; the rest of the kernel takes and
    gives back frames in between. -/
inductive HeapStep : LiveHeap → HeapOp → LiveHeap → Prop
  | kmalloc {s : LiveHeap} {size : Int} {p : Nat} {h : Heap} (hpos : 0 < size) (hmax : size < 2 ^ 31)
      (hroom : s.heap.Room size) (hok : s.heap.kmalloc size = .ok (some p, h)) :
      HeapStep s (.kmalloc size) ⟨h, (p, size.toNat) :: s.live⟩
  | kfree {s : LiveHeap} {p size : Nat} {h : Heap} (hlive : (p, size) ∈ s.live) (hok : s.heap.kfree p = .ok h) :
      HeapStep s (.kfree p) ⟨h, s.live.erase (p, size)⟩
  | store {s : LiveHeap} {p size a : Nat} {byte : BitVec 8} (hlive : (p, size) ∈ s.live) (hlo : p ≤ a)
      (hhi : a < p + size) : HeapStep s (.store a byte) ⟨{ s.heap with mem := Function.update s.heap.mem a byte }, s.live⟩
  | frames {s : LiveHeap} (phys : Frames) : HeapStep s (.frames phys) ⟨{ s.heap with phys }, s.live⟩

/-- The used chunks are the live blocks, each with room for what was asked for. -/
structure Owned (cs : List Chunk) (live : List (Nat × Nat)) : Prop where
  live_of_used : ∀ {a c}, UsedAt cs a c → ∃ size, (a + 4, size) ∈ live
  used_of_live : ∀ {p size}, (p, size) ∈ live → ∃ a c, p = a + 4 ∧ UsedAt cs a c ∧ size + 4 ≤ c.size
  nodup : (live.map Prod.fst).Nodup

structure HeapInv (s : LiveHeap) (cs : List Chunk) : Prop where
  chain : Chain s.heap cs
  owned : Owned cs s.live

namespace HeapInv
variable {s t : LiveHeap} {cs : List Chunk} {p q size : Nat} {h : Heap}

theorem chunks_disjoint {d : Chunk} (hc : UsedAt cs a c) (hd : UsedAt cs b d) (hne : a ≠ b) :
    a + c.size ≤ b ∨ b + d.size ≤ a :=
  disjoint_of_spans hc.1 hd.1 fun he => hne (congrArg Prod.fst he)

theorem blocks_disjoint {m : Nat} (inv : HeapInv s cs) (hp : (p, m) ∈ s.live) (hq : (q, n) ∈ s.live) (hne : p ≠ q) :
    p + m ≤ q ∨ q + n ≤ p := by
  obtain ⟨a, c, rfl, hc, hm⟩ := inv.owned.used_of_live hp
  obtain ⟨b, d, rfl, hd, hn⟩ := inv.owned.used_of_live hq
  rcases chunks_disjoint hc hd (by omega) with h | h
  · exact .inl (by omega)
  · exact .inr (by omega)

theorem init (hinit : h₀.kheapInit = .ok h) : HeapInv ⟨h, []⟩ [⟨pageSize, false⟩] := by
  have hgrown := kheapInit_grown hinit
  have htop : h.mKheap = kernHeapBegin + pageSize := by simpa using hgrown.top
  have hhead : header h.mem kernHeapBegin = ⟨pageSize, false⟩ := by simpa using hgrown.head
  refine ⟨⟨?_, ?_, ?_⟩, ?_, ?_, nodup_nil⟩
  · exact Tiles.cons_iff.mpr ⟨hhead, by decide, Tiles.nil_iff.mpr htop.symm⟩
  · rw [htop]
    decide
  · rw [htop]
    decide
  · rintro a c ⟨hm, hu⟩
    obtain ⟨-, rfl⟩ : a = kernHeapBegin ∧ c = ⟨pageSize, false⟩ := by simpa using hm
    cases hu
  · intro p size hp
    cases hp

theorem kmalloc (inv : HeapInv s cs) {size : Int} (hne : size ≠ 0) (hmax : size < 2 ^ 31) (hroom : s.heap.Room size) :
    s.heap.kmalloc size = .error .noFrame ∨
      ∃ p h cs', s.heap.kmalloc size = .ok (some p, h) ∧ HeapInv ⟨h, (p, size.toNat) :: s.live⟩ cs' := by
  rcases inv.chain.kmalloc hne hmax hroom with herr | ⟨b, e, g, cs', hok, htaken, hsize⟩
  · exact .inl herr
  refine .inr ⟨_, g, cs', hok, htaken.chain, ?_, ?_, ?_⟩
  · intro a d hd
    rcases htaken.used.mp hd with hd | ⟨rfl, -⟩
    · obtain ⟨n, hn⟩ := inv.owned.live_of_used hd
      exact ⟨n, mem_cons_of_mem _ hn⟩
    · exact ⟨size.toNat, mem_cons_self⟩
  · intro p n hp
    rcases mem_cons.mp hp with heq | hp
    · cases heq
      exact ⟨b, e, rfl, htaken.used.mpr (.inr ⟨rfl, rfl⟩), hsize⟩
    · obtain ⟨a, d, rfl, hd, hn⟩ := inv.owned.used_of_live hp
      exact ⟨a, d, rfl, htaken.used.mpr (.inl hd), hn⟩
  · rw [map_cons, nodup_cons]
    refine ⟨fun hmem => ?_, inv.owned.nodup⟩
    obtain ⟨⟨p, n⟩, hp, hpe⟩ := mem_map.mp hmem
    obtain ⟨a, d, rfl, hd, -⟩ := inv.owned.used_of_live hp
    obtain rfl : a = b := by simpa using hpe
    exact htaken.fresh d hd

theorem kfree (inv : HeapInv s cs) (hp : (p, size) ∈ s.live) :
    ∃ h cs', s.heap.kfree p = .ok h ∧ HeapInv ⟨h, s.live.erase (p, size)⟩ cs' := by
  obtain ⟨a, c, rfl, hc, -⟩ := inv.owned.used_of_live hp
  obtain ⟨h, cs', hok, hchain, hused⟩ := inv.chain.kfree hc
  have hnodup := List.Nodup.of_map _ inv.owned.nodup
  refine ⟨h, cs', hok, hchain, ?_, ?_, inv.owned.nodup.sublist (erase_sublist.map _)⟩
  · intro b d hd
    obtain ⟨hd, hne⟩ := hused.mp hd
    obtain ⟨n, hn⟩ := inv.owned.live_of_used hd
    exact ⟨n, (hnodup.mem_erase_iff).mpr ⟨fun he => hne (by simpa using congrArg Prod.fst he), hn⟩⟩
  · intro q n hq
    obtain ⟨hne, hlive⟩ := hnodup.mem_erase_iff.mp hq
    obtain ⟨b, d, rfl, hd, hn⟩ := inv.owned.used_of_live hlive
    refine ⟨b, d, rfl, hused.mpr ⟨hd, ?_⟩, hn⟩
    -- a second live block at the freed pointer would be the freed one
    rintro rfl
    exact hne (inj_on_of_nodup_map inv.owned.nodup hlive hp rfl)

theorem store (inv : HeapInv s cs) {byte : BitVec 8} (hp : (p, size) ∈ s.live) (hlo : p ≤ x) (hhi : x < p + size) :
    HeapInv ⟨{ s.heap with mem := Function.update s.heap.mem x byte }, s.live⟩ cs := by
  obtain ⟨a, c, rfl, hc, hsize⟩ := inv.owned.used_of_live hp
  refine ⟨⟨inv.chain.tiles.congr ?_, inv.chain.bottom, inv.chain.top⟩, inv.owned⟩
  rintro ⟨b, d⟩ hd
  have hmin := (inv.chain.tiles.bounds hd).2
  refine header_congr fun y hylo hyhi => Function.update_of_ne (fun hyx => ?_) _ _
  by_cases hab : (b, d) = (a, c)
  · cases hab
    omega
  rcases disjoint_of_spans hd hc.1 hab with h | h
  · simp only at h hmin hylo hyhi
    omega
  · simp only at h hylo
    omega

theorem step {op : HeapOp} (inv : HeapInv s cs) (hs : HeapStep s op t) : ∃ cs', HeapInv t cs' := by
  cases hs with
  | kmalloc hpos hmax hroom hok =>
    rcases inv.kmalloc hpos.ne' hmax hroom with herr | ⟨p, h, cs', hok', inv'⟩
    · rw [herr] at hok
      cases hok
    · rw [hok'] at hok
      cases hok
      exact ⟨cs', inv'⟩
  | kfree hlive hok =>
    obtain ⟨h, cs', hok', inv'⟩ := inv.kfree hlive
    rw [hok'] at hok
    cases hok
    exact ⟨cs', inv'⟩
  | store hlive hlo hhi => exact ⟨cs, inv.store hlive hlo hhi⟩
  | frames phys => exact ⟨cs, { inv.chain with }, inv.owned⟩

theorem of_run {ops : List HeapOp} (hinit : h₀.kheapInit = .ok h) (hrun : Run HeapStep ⟨h, []⟩ ops s) :
    ∃ cs, HeapInv s cs :=
  Run.invariant (fun s => ∃ cs, HeapInv s cs) ⟨_, init hinit⟩ (fun ⟨_, inv⟩ hs => inv.step hs) hrun

end HeapInv

/-- The heap is sound in every state its callers can bring it to. -/
theorem heap_sound {h₀ h : Heap} (hinit : h₀.kheapInit = .ok h) {ops : List HeapOp} {s : LiveHeap}
    (hrun : Run HeapStep ⟨h, []⟩ ops s) :
    ∃ cs, Tiles (header s.heap.mem) kmallocMinsize kernHeapBegin cs s.heap.mKheap ∧
      (∀ a, (∃ c, (a, c) ∈ spans kernHeapBegin cs ∧ c.used = true) ↔ ∃ size, (a + 4, size) ∈ s.live) ∧
      (∀ p size, (p, size) ∈ s.live → ∃ a c, p = a + 4 ∧ (a, c) ∈ spans kernHeapBegin cs ∧ size + 4 ≤ c.size) ∧
      (s.live.Pairwise fun b b' => b.1 + b.2 ≤ b'.1 ∨ b'.1 + b'.2 ≤ b.1) ∧
      (∀ size : Int, 0 < size → size < 2 ^ 31 → s.heap.Room size →
        s.heap.kmalloc size = .error .noFrame ∨
          ∃ p h', s.heap.kmalloc size = .ok (some p, h') ∧
            (∃ a c, p = a + 4 ∧ header h'.mem a = c ∧ c.used = true ∧ size.toNat + 4 ≤ c.size ∧
              a + c.size ≤ h'.mKheap) ∧
            ∀ q n, (q, n) ∈ s.live → p + size.toNat ≤ q ∨ q + n ≤ p) ∧
      ∀ p size, (p, size) ∈ s.live → ∃ h', s.heap.kfree p = .ok h' := by
  obtain ⟨cs, inv⟩ := HeapInv.of_run hinit hrun
  refine ⟨cs, inv.chain.tiles, ?_, ?_, ?_, ?_, ?_⟩
  · intro a
    constructor
    · rintro ⟨c, hc, hu⟩
      exact inv.owned.live_of_used ⟨hc, hu⟩
    · rintro ⟨size, hp⟩
      obtain ⟨b, c, hb, hc, -⟩ := inv.owned.used_of_live hp
      obtain rfl : a = b := by omega
      exact ⟨c, hc.1, hc.2⟩
  · intro p size hp
    obtain ⟨a, c, rfl, hc, hsize⟩ := inv.owned.used_of_live hp
    exact ⟨a, c, rfl, hc.1, hsize⟩
  · have hne : s.live.Pairwise fun b b' => b.1 ≠ b'.1 := pairwise_map.mp inv.owned.nodup
    exact hne.imp_of_mem fun hb hb' hne => inv.blocks_disjoint hb hb' hne
  · intro size hpos hmax hroom
    rcases inv.kmalloc hpos.ne' hmax hroom with herr | ⟨p, h', cs', hok, inv'⟩
    · exact .inl herr
    refine .inr ⟨p, h', hok, ?_, ?_⟩
    · obtain ⟨a, c, rfl, hc, hsize⟩ := inv'.owned.used_of_live mem_cons_self
      have hb := inv'.chain.tiles.bounds hc.1
      exact ⟨a, c, rfl, inv'.chain.tiles.heads _ hc.1, hc.2, hsize, hb.1⟩
    · intro q n hq
      refine inv'.blocks_disjoint mem_cons_self (mem_cons_of_mem _ hq) ?_
      rintro rfl
      exact (nodup_cons.mp inv'.owned.nodup).1 (mem_map.mpr ⟨_, hq, rfl⟩)
  · intro p size hp
    obtain ⟨h', _, hok, -⟩ := inv.kfree hp
    exact ⟨h', hok⟩

def zeroed : Heap where
  mem _ := 0#8
  mKheap := 0
  heapUsed := 0
  kheapPages := 0
  phys := Frames.booted (fun _ => 0#8) 0x150000 0x100000 0

def zeroedInit : Heap := (zeroed.kheapInit.toOption).getD zeroed

theorem heap_sound_zeroed :
    zeroed.kheapInit = .ok zeroedInit ∧
      ∃ s, Run HeapStep ⟨zeroedInit, []⟩ [.kmalloc 100] s ∧ s.live = [(0x2000004, 100)] ∧
        ∃ cs, Tiles (header s.heap.mem) kmallocMinsize kernHeapBegin cs s.heap.mKheap := by
  have hinit : zeroed.kheapInit = .ok zeroedInit := rfl
  have hroom : zeroedInit.Room 100 := .inr (by decide +kernel)
  have hgot : (zeroedInit.kmalloc 100).toOption.map Prod.fst = some (some 0x2000004) := by decide +kernel
  obtain ⟨h, hok⟩ : ∃ h, zeroedInit.kmalloc 100 = .ok (some 0x2000004, h) := by
    cases hk : zeroedInit.kmalloc 100 with
    | error e => simp [hk, Except.toOption] at hgot
    | ok r =>
      rw [hk] at hgot
      exact ⟨r.2, congrArg Except.ok (Prod.ext (Option.some.inj hgot) rfl)⟩
  have hrun : Run HeapStep ⟨zeroedInit, []⟩ [.kmalloc 100] ⟨h, [(0x2000004, 100)]⟩ :=
    .single (.kmalloc (by decide) (by decide) hroom hok)
  obtain ⟨cs, ht, -⟩ := heap_sound hinit hrun
  exact ⟨hinit, _, hrun, rfl, cs, ht⟩

end Heap
end HelinKern
