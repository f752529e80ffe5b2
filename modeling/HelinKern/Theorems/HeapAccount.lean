import HelinKern.Theorems.HeapCalls

/-! The kernel's account of its heap, `alloc_getUsedSize`, against the headers. -/

namespace HelinKern
namespace Heap
open Chunks Lts List

variable {h h' : Heap} {cs cs' : List Chunk} {c : Chunk} {size : Int}

def usedSize (cs : List Chunk) : Nat := total (cs.filter (·.used))

section UsedSize
variable {cs cs' xs ys : List Chunk} {c : Chunk} {r : Nat}

@[simp] theorem usedSize_nil : usedSize [] = 0 := rfl

@[simp] theorem usedSize_cons : usedSize (c :: cs) = (if c.used then c.size else 0) + usedSize cs := by
  unfold usedSize
  cases hu : c.used with
  | true => simp [hu]
  | false => simp [hu]

@[simp] theorem usedSize_append : usedSize (xs ++ ys) = usedSize xs + usedSize ys := by
  simp [usedSize]

theorem usedSize_le (cs : List Chunk) : usedSize cs ≤ total cs := by
  induction cs with
  | nil => simp
  | cons c cs ih =>
    rw [usedSize_cons, total_cons]
    split <;> omega

theorem usedSize_eq_zero (h : ∀ c ∈ cs, c.used = false) : usedSize cs = 0 := by
  induction cs with
  | nil => rfl
  | cons c cs ih =>
    rw [forall_mem_cons] at h
    rw [usedSize_cons, h.1, ih h.2]
    simp

theorem usedSize_served (h : Served cs cs') : usedSize cs' = usedSize cs := by
  rcases h with rfl | ⟨c, hc, rfl⟩
  · rfl
  · simp [hc]

theorem usedSize_taken (xs ys : List Chunk) (hfit : Fits r c) :
    usedSize (xs ++ (taken c r ++ ys)) = usedSize (xs ++ c :: ys) + (given c r).size := by
  unfold taken given
  split
  · simp [hfit.1]
    omega
  · simp [hfit.1]
    omega

theorem usedSize_merged (xs ys : List Chunk) (hu : c.used) :
    usedSize (xs ++ ⟨c.size + total (ys.takeWhile free), false⟩ :: ys.dropWhile free) + c.size =
      usedSize (xs ++ c :: ys) := by
  have hfree : usedSize (ys.takeWhile free) = 0 := by
    refine usedSize_eq_zero fun z hz => ?_
    simpa [free] using all_eq_true.mp all_takeWhile z hz
  have hsplit : usedSize ys = usedSize (ys.takeWhile free) + usedSize (ys.dropWhile free) := by
    rw [← usedSize_append, takeWhile_append_dropWhile]
  simp [hu]
  omega

theorem given_size_eq_iff (hr : r ≤ c.size) : (given c r).size = r ↔ c.size = r ∨ r + kmallocMinsize ≤ c.size := by
  unfold given kmallocMinsize
  dsimp only
  split <;> omega

end UsedSize

def Exact (h : Heap) (cs : List Chunk) : Prop := h.allocGetUsedSize = usedSize cs

section Exact
variable {h h' : Heap} {cs cs' : List Chunk} {n : Nat}

theorem Exact.add (hx : Exact h cs) (hlt : usedSize cs + n < 2 ^ 31) (hused : h'.heapUsed = (h.heapUsed + n) % wordSize) :
    h'.allocGetUsedSize = usedSize cs + n := by
  unfold Exact allocGetUsedSize wordSize at *
  rw [Int.bmod_def] at hx ⊢
  split at hx <;> split <;> omega

theorem Exact.sub (hx : Exact h cs) (hcs : usedSize cs' + n = usedSize cs) (hlt : usedSize cs < 2 ^ 31)
    (hused : h'.heapUsed = (h.heapUsed + (wordSize - n)) % wordSize) : Exact h' cs' := by
  unfold Exact allocGetUsedSize wordSize at *
  rw [Int.bmod_def] at hx ⊢
  split at hx <;> split <;> omega

end Exact

theorem Chain.usedSize_le (hc : Chain h cs) : usedSize cs ≤ 2 ^ 30 := by
  have hle := Heap.usedSize_le cs
  have hends := hc.tiles.ends
  have htop := hc.top
  unfold kernHeapEnd at htop
  omega

/-- The first chunk that fits the request, if there is one, leaves no rest or a rest that is worth a chunk. -/
def Snug (h : Heap) (size : Int) : Prop :=
  ∀ xs c ys, Tiles (header h.mem) kmallocMinsize kernHeapBegin (xs ++ c :: ys) h.mKheap → Fits (realsize size) c →
    (∀ x ∈ xs, ¬Fits (realsize size) x) → c.size = realsize size ∨ realsize size + kmallocMinsize ≤ c.size

theorem Found.given_iff {g : Heap} {xs ys : List Chunk} (hc : Chain h cs) (hf : Found h cs (realsize size) g xs c ys) :
    (given c (realsize size)).size = realsize size ↔ h.Snug size := by
  rw [given_size_eq_iff hf.fits.2]
  rcases hf.first with ⟨rfl, hfirst⟩ | ⟨hnone, hlarge⟩
  · refine ⟨?_, fun hs => hs xs c ys hc.tiles hf.fits hfirst⟩
    intro hsize xs' c' ys' ht hfit hfirst'
    have heq := ht.unique (by decide) hc.tiles
    -- both are the first chunk that fits
    obtain rfl : c = c' := by
      rcases append_eq_append_iff.mp heq with ⟨zs, rfl, hzs⟩ | ⟨zs, rfl, hzs⟩
      · cases zs with
        | nil => exact (List.cons.inj hzs).1
        | cons z zs =>
          obtain ⟨rfl, -⟩ := List.cons.inj hzs
          exact absurd hf.fits (hfirst' c (by simp))
      · cases zs with
        | nil => exact (List.cons.inj hzs).1.symm
        | cons z zs =>
          obtain ⟨rfl, -⟩ := List.cons.inj hzs
          exact absurd hfit (hfirst c' (by simp))
    exact hsize
  · refine ⟨fun _ xs' c' ys' ht hfit _ => ?_, fun _ => .inr hlarge⟩
    have heq := ht.unique (by decide) hc.tiles
    exact absurd hfit (hnone c' (by rw [heq]; simp))

theorem Chain.exact_kmalloc_iff {p : Option Nat} (hc : Chain h cs) (hx : Exact h cs) (hne : size ≠ 0)
    (hmax : size < 2 ^ 31) (hroom : h.Room size) (hok : h.kmalloc size = .ok (p, h')) (hc' : Chain h' cs') :
    Exact h' cs' ↔ h.Snug size := by
  rcases hc.kmalloc_cases hne hroom with herr | ⟨g, xs, c, ys, hok', hf⟩
  · rw [herr] at hok
    cases hok
  rw [hok'] at hok
  cases hok
  have htaken := hf.chain.takeChunk (realsize_bounds hmax).1 hf.fits
  obtain rfl := htaken.tiles.unique (by decide) hc'.tiles
  have hused := usedSize_taken xs ys hf.fits
  have hle := hc'.usedSize_le
  have hgiven := le_given hf.fits.2
  rw [usedSize_served hf.served] at hused
  rw [← hf.given_iff hc, Exact, hx.add (n := realsize size) (by omega) (by rw [← hf.heapUsed]; rfl)]
  omega

theorem Chain.exact_kfree {a : Nat} (hc : Chain h cs) (hx : Exact h cs) (hu : UsedAt cs a c)
    (hok : h.kfree (a + 4) = .ok h') (hc' : Chain h' cs') : Exact h' cs' := by
  have hle := hc.usedSize_le
  obtain ⟨xs, ys, rfl, rfl⟩ := usedAt_split hu
  obtain ⟨m', hok', hchain⟩ := hc.kfree_cases hu.2
  rw [hok'] at hok
  cases hok
  obtain rfl := hchain.tiles.unique (by decide) hc'.tiles
  exact hx.sub (usedSize_merged xs ys hu.2) (by omega) rfl

/-- One step of the callers and of the rest of the kernel, with every `int` as a request. A panic ends the run. -/
def LiveHeap.exec (s : LiveHeap) : HeapOp → Option LiveHeap
  | .kmalloc size =>
    if -2 ^ 31 ≤ size ∧ size < 2 ^ 31 then
      match s.heap.kmalloc size with
      | .ok (p, h) => some ⟨h, (p.map fun p => (p, size.toNat)).toList ++ s.live⟩
      | .error _ => none
    else none
  | .kfree p =>
    match s.live.find? fun b => b.1 = p, s.heap.kfree p with
    | some b, .ok h => some ⟨h, s.live.erase b⟩
    | _, _ => none
  | .store a byte =>
    if ∃ b ∈ s.live, b.1 ≤ a ∧ a < b.1 + b.2 then
      some ⟨{ s.heap with mem := Function.update s.heap.mem a byte }, s.live⟩
    else none
  | .frames phys => some ⟨{ s.heap with phys }, s.live⟩

def LiveHeap.HasRoom (s : LiveHeap) : HeapOp → Prop
  | .kmalloc size => size = 0 ∨ s.heap.Room size
  | _ => True

def LiveHeap.Thrifty (s : LiveHeap) : HeapOp → Prop
  | .kmalloc size => size = 0 ∨ s.heap.Snug size
  | _ => True

/-- `alloc_getUsedSize` is the sum of the sizes of the used chunks, so it is never negative and 0 when no block is
    live. -/
structure Accounted (s : LiveHeap) : Prop where
  sum : ∃ cs, Tiles (header s.heap.mem) kmallocMinsize kernHeapBegin cs s.heap.mKheap ∧
    s.heap.allocGetUsedSize = total (cs.filter (·.used))
  nonneg : 0 ≤ s.heap.allocGetUsedSize
  zero : s.live = [] → s.heap.allocGetUsedSize = 0

namespace HeapInv
variable {s t : LiveHeap} {cs : List Chunk} {op : HeapOp}

theorem accounted_iff (inv : HeapInv s cs) : Accounted s ↔ Exact s.heap cs := by
  constructor
  · rintro ⟨⟨cs', ht, hsum⟩, -, -⟩
    obtain rfl := inv.chain.tiles.unique (by decide) ht
    exact hsum
  · intro hx
    refine ⟨⟨cs, inv.chain.tiles, hx⟩, ?_, fun hlive => ?_⟩
    · rw [hx]
      exact Int.natCast_nonneg _
    · rw [hx, usedSize_eq_zero, Nat.cast_zero]
      intro c hm
      obtain ⟨xs, ys, rfl⟩ := append_of_mem hm
      cases hu : c.used with
      | false => rfl
      | true =>
        obtain ⟨size, hp⟩ := inv.owned.live_of_used ⟨mem_spans_iff.mpr ⟨xs, ys, rfl, rfl⟩, hu⟩
        rw [hlive] at hp
        cases hp

theorem exec_account (inv : HeapInv s cs) (hx : Exact s.heap cs) (hroom : s.HasRoom op) (hexec : s.exec op = some t) :
    ∃ cs', HeapInv t cs' ∧ (Exact t.heap cs' ↔ s.Thrifty op) := by
  cases op with
  | kmalloc size =>
    simp only [LiveHeap.exec] at hexec
    split at hexec
    next hint =>
      by_cases hzero : size = 0
      · subst hzero
        cases hexec
        exact ⟨cs, inv, fun _ => .inl rfl, fun _ => hx⟩
      have hroom := hroom.resolve_left hzero
      rcases inv.kmalloc hzero hint.2 hroom with herr | ⟨p, h, cs', hok, inv'⟩
      · rw [herr] at hexec
        cases hexec
      rw [hok] at hexec
      cases hexec
      refine ⟨cs', inv', ?_⟩
      rw [inv.chain.exact_kmalloc_iff hx hzero hint.2 hroom hok inv'.chain]
      exact ⟨.inr, fun ht => ht.resolve_left hzero⟩
    · cases hexec
  | kfree p =>
    simp only [LiveHeap.exec] at hexec
    split at hexec
    next b h hfind hok =>
      obtain ⟨q, size⟩ := b
      cases hexec
      obtain rfl : q = p := by simpa using find?_some hfind
      have hlive := mem_of_find?_eq_some hfind
      obtain ⟨h', cs', hok', inv'⟩ := inv.kfree hlive
      obtain ⟨a, c, rfl, hu, -⟩ := inv.owned.used_of_live hlive
      rw [hok] at hok'
      cases hok'
      exact ⟨cs', inv', fun _ => trivial, fun _ => inv.chain.exact_kfree hx hu hok inv'.chain⟩
    · cases hexec
  | store a byte =>
    simp only [LiveHeap.exec] at hexec
    split at hexec
    next hin =>
      obtain ⟨⟨p, size⟩, hlive, hlo, hhi⟩ := hin
      cases hexec
      exact ⟨cs, inv.store hlive hlo hhi, fun _ => trivial, fun _ => hx⟩
    · cases hexec
  | frames phys =>
    cases hexec
    exact ⟨cs, ⟨{ inv.chain with }, inv.owned⟩, fun _ => trivial, fun _ => hx⟩

end HeapInv

/-- From `kheap_init` on, as long as the heap can serve what it is asked for, the account is exact after every call
    exactly if no request is given a chunk with a rest of 1 to 15 bytes. -/
theorem used_size_exact_iff {h₀ h : Heap} (hboot : h₀.heapUsed = 0) (hinit : h₀.kheapInit = .ok h) (ops : List HeapOp)
    (hroom : Along LiveHeap.exec (fun s op _ => s.HasRoom op) ⟨h, []⟩ ops) :
    Accounted ⟨h, []⟩ ∧ (Along LiveHeap.exec (fun _ _ t => Accounted t) ⟨h, []⟩ ops ↔
      Along LiveHeap.exec (fun s op _ => s.Thrifty op) ⟨h, []⟩ ops) := by
  have inv := HeapInv.init hinit
  have hx : Exact h [⟨pageSize, false⟩] := by
    have hused : h.heapUsed = 0 := (kheapInit_grown hinit).heapUsed.trans hboot
    unfold Exact allocGetUsedSize
    rw [hused]
    decide
  refine ⟨inv.accounted_iff.mpr hx, ?_⟩
  have hboth : Along LiveHeap.exec (fun s op t => s.HasRoom op ∧ Accounted t) ⟨h, []⟩ ops ↔
      Along LiveHeap.exec (fun s op _ => s.HasRoom op ∧ s.Thrifty op) ⟨h, []⟩ ops := by
    refine along_iff (fun s => ∃ cs, HeapInv s cs ∧ Exact s.heap cs) ⟨_, inv, hx⟩ ?_ ?_ ops
    · rintro s op t ⟨cs, inv, hx⟩ hexec
      refine and_congr_right fun hroom => ?_
      obtain ⟨cs', inv', hiff⟩ := inv.exec_account hx hroom hexec
      rw [inv'.accounted_iff, hiff]
    · rintro s op t ⟨cs, inv, hx⟩ hexec ⟨hroom, ht⟩
      obtain ⟨cs', inv', hiff⟩ := inv.exec_account hx hroom hexec
      exact ⟨cs', inv', hiff.mpr ht⟩
  rw [along_and, along_and] at hboth
  exact ⟨fun ha => (hboth.mp ⟨hroom, ha⟩).2, fun ha => (hboth.mpr ⟨hroom, ha⟩).2⟩

/-- A first block of 100 bytes and its release. -/
theorem used_size_exact_iff_oneBlock :
    Along LiveHeap.exec (fun _ _ t => Accounted t) ⟨zeroedInit, []⟩ [.kmalloc 100, .kfree 0x2000004] := by
  have hinit : zeroed.kheapInit = .ok zeroedInit := rfl
  have hroom : zeroedInit.Room 100 := .inr (by decide +kernel)
  have hsnug : zeroedInit.Snug 100 := by
    intro xs c ys ht hfit hfirst
    have heq := (HeapInv.init hinit).chain.tiles.unique (by decide) ht
    obtain ⟨rfl, hc⟩ | ⟨rfl, -⟩ := append_eq_singleton_iff.mp heq
    · obtain ⟨rfl, -⟩ := List.cons.inj hc
      exact .inr (by decide)
    · cases heq
  refine ((used_size_exact_iff rfl hinit _ ?_).2.mpr ?_)
  · exact fun s _ => ⟨.inr hroom, fun t _ => ⟨trivial, trivial⟩⟩
  · exact fun s _ => ⟨.inr hsnug, fun t _ => ⟨trivial, trivial⟩⟩

/-- The first chunk has 4096 bytes, and a request of 4084 takes all of it: 4088 bytes are added to the account, and
    4096 taken away again. -/
theorem used_size_drifts :
    zeroed.heapUsed = 0 ∧ zeroed.kheapInit = .ok zeroedInit ∧
      ∃ s t, LiveHeap.exec ⟨zeroedInit, []⟩ (.kmalloc 4084) = some s ∧ s.exec (.kfree 0x2000004) = some t ∧
        Tiles (header s.heap.mem) kmallocMinsize kernHeapBegin [⟨4096, true⟩] s.heap.mKheap ∧
        s.heap.allocGetUsedSize = 4088 ∧ ¬Accounted s ∧ t.live = [] ∧ t.heap.allocGetUsedSize = -8 ∧ ¬Accounted t := by
  have heval : ((LiveHeap.exec ⟨zeroedInit, []⟩ (.kmalloc 4084)).bind fun s => (s.exec (.kfree 0x2000004)).map fun t =>
      (header s.heap.mem kernHeapBegin, s.heap.mKheap, s.heap.allocGetUsedSize, t.live.length, t.heap.allocGetUsedSize)) =
        some (⟨4096, true⟩, kernHeapBegin + 4096, 4088, 0, -8) := by decide +kernel
  obtain ⟨s, hs, ht⟩ := Option.bind_eq_some_iff.mp heval
  obtain ⟨t, ht, heq⟩ := Option.map_eq_some_iff.mp ht
  obtain ⟨hhead, htop, hused, hlive, hnegative⟩ : _ ∧ _ ∧ _ ∧ _ ∧ _ := by simpa only [Prod.mk.injEq] using heq
  have htiles : Tiles (header s.heap.mem) kmallocMinsize kernHeapBegin [⟨4096, true⟩] s.heap.mKheap :=
    Tiles.cons_iff.mpr ⟨hhead, by decide, Tiles.nil_iff.mpr htop.symm⟩
  refine ⟨rfl, rfl, s, t, hs, ht, htiles, hused, ?_, length_eq_zero_iff.mp hlive, hnegative, ?_⟩
  · rintro ⟨⟨cs, hcs, hsum⟩, -, -⟩
    obtain rfl := htiles.unique (by decide) hcs
    rw [hused] at hsum
    revert hsum
    decide
  · rintro ⟨-, hnonneg, -⟩
    rw [hnegative] at hnonneg
    revert hnonneg
    decide

end Heap
end HelinKern
