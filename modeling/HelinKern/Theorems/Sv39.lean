import HelinKern.Lib.Lts
import HelinKern.Sv39

/-! `arch_mmu_mapPage` on RISC-V builds tables whose three-level walk leads every page to where it was mapped last. -/

namespace HelinKern

theorem toNat_entry (phys : BitVec 64) {b : BitVec 64} (hb : b.toNat < 1024) :
    ((phys >>> 12) <<< 10 ||| b).toNat = 1024 * (phys.toNat / 4096) + b.toNat := by
  have hshift : ((phys >>> 12) <<< 10).toNat = (phys.toNat / 4096) <<< 10 := by
    rw [BitVec.toNat_shiftLeft, BitVec.toNat_ushiftRight]
    omega
  rw [BitVec.toNat_or, hshift, ← Nat.shiftLeft_add_eq_or_of_lt hb]
  omega

def permissions (read write exec user : Bool) : BitVec 64 :=
  pteV ||| ((if read then pteR else 0) |||
    ((if write then pteW else 0) ||| ((if exec then pteX else 0) ||| if user then pteU else 0)))

theorem permissions_lt : ∀ read write exec user, (permissions read write exec user).toNat < 1024 := by decide

theorem createPte_eq (phys : BitVec 64) (read write exec user : Bool) :
    createPte phys read write exec user = (phys >>> 12) <<< 10 ||| permissions read write exec user := by
  unfold createPte permissions
  simp only [BitVec.or_assoc]

theorem toNat_createPte (phys : BitVec 64) (read write exec user : Bool) :
    (createPte phys read write exec user).toNat = 1024 * (phys.toNat / 4096) + (permissions read write exec user).toNat := by
  rw [createPte_eq, toNat_entry _ (permissions_lt ..)]

theorem toNat_createPteWithFlags (phys : BitVec 64) {flags : BitVec 32} (h : flags.toNat < 1024) :
    (createPteWithFlags phys flags).toNat = 1024 * (phys.toNat / 4096) + flags.toNat := by
  have hmsb : flags.msb = false := by
    rw [BitVec.msb_eq_false_iff_two_mul_lt]
    omega
  have hflags : (flags.signExtend 64).toNat = flags.toNat := by
    rw [BitVec.signExtend_eq_setWidth_of_msb_false hmsb, BitVec.toNat_setWidth]
    omega
  unfold createPteWithFlags
  rw [toNat_entry _ (by omega), hflags]

theorem sv39Convert_createPte {p : BitVec 64} (haligned : p.toNat % 4096 = 0) (read write exec user : Bool) :
    sv39Convert (createPte p read write exec user) = p := by
  have hflags := permissions_lt read write exec user
  apply BitVec.eq_of_toNat_eq
  unfold sv39Convert
  rw [BitVec.toNat_shiftLeft, BitVec.toNat_ushiftRight, toNat_createPte]
  omega

namespace Mmu39
open Tables List Option

variable {m m' : Mmu39} {path : List Nat} {t u f i j v w a b c : Nat} {e : BitVec 64}

theorem toNat_addr (h : f < 17592186044416) : (addr f).toNat = 4096 * f := by
  unfold addr
  rw [BitVec.toNat_ofNat]
  omega

def table (e : BitVec 64) : Option Nat := if valid e && !reserved e && !isLeaf e && !pageBits e then some (ppn e) else none

theorem table_zero : table 0 = none := rfl

theorem table_of_invalid (h : valid e = false) : table e = none := by
  unfold table
  rw [h]
  rfl

def leaf (e : BitVec 64) : Option Leaf := if valid e && !reserved e && isLeaf e then some ⟨ppn e, flags e⟩ else none

theorem leaf_zero : leaf 0 = none := rfl

/-! Entries by their parts. -/

structure Made (e : BitVec 64) (f : Nat) (b : BitVec 10) : Prop where
  ppn : ppn e = f
  flags : flags e = b
  low : e.toNat < 18014398509481984

theorem made_of_toNat {b : BitVec 10} (hf : f < 17592186044416) (h : e.toNat = 1024 * f + b.toNat) : Made e f b where
  ppn := by
    unfold Mmu39.ppn
    omega
  flags := by
    apply BitVec.eq_of_toNat_eq
    unfold Mmu39.flags
    rw [BitVec.toNat_setWidth]
    omega
  low := by omega

theorem Made.getLsbD {b : BitVec 10} (h : Made e f b) (hi : i < 10) : e.getLsbD i = b.getLsbD i := by
  rw [← h.flags]
  unfold Mmu39.flags
  simp [hi]

theorem made_createPte (hf : f < 17592186044416) (read write exec user : Bool) :
    Made (createPte (addr f) read write exec user) f ((permissions read write exec user).setWidth 10) := by
  have hflags := permissions_lt read write exec user
  refine made_of_toNat hf ?_
  rw [toNat_createPte, toNat_addr hf, BitVec.toNat_setWidth]
  omega

section
variable {b : BitVec 10}

theorem Made.valid (h : Made e f b) : valid e = b.getLsbD 0 := h.getLsbD (by decide)

theorem Made.reserved (h : Made e f b) : reserved e = (!b.getLsbD 1 && b.getLsbD 2) := by
  have hlow : decide (18014398509481984 ≤ e.toNat) = false := decide_eq_false (Nat.not_le.mpr h.low)
  unfold Mmu39.reserved
  rw [hlow, h.getLsbD (by decide), h.getLsbD (by decide), Bool.false_or]

theorem Made.isLeaf (h : Made e f b) : isLeaf e = (b.getLsbD 1 || b.getLsbD 3) := by
  unfold Mmu39.isLeaf
  rw [h.getLsbD (by decide), h.getLsbD (by decide)]

theorem Made.pageBits (h : Made e f b) : pageBits e = (b.getLsbD 4 || b.getLsbD 6 || b.getLsbD 7) := by
  unfold Mmu39.pageBits
  rw [h.getLsbD (by decide), h.getLsbD (by decide), h.getLsbD (by decide)]

theorem Made.leaf (h : Made e f b) (hv : b.getLsbD 0) (hr : (!b.getLsbD 1 && b.getLsbD 2) = false)
    (hl : (b.getLsbD 1 || b.getLsbD 3)) : leaf e = some ⟨f, b⟩ := by
  unfold Mmu39.leaf
  rw [h.valid, h.reserved, h.isLeaf, hv, hr, hl, h.ppn, h.flags]
  rfl

end

theorem table_createPte (hf : f < 17592186044416) : table (createPte (addr f) false false false false) = some f := by
  have h := made_createPte hf false false false false
  unfold table
  rw [h.valid, h.reserved, h.isLeaf, h.pageBits, h.ppn]
  rfl

theorem leaf_createPte (hf : f < 17592186044416) : leaf (createPte (addr f) true true false false) = some ⟨f, 7⟩ :=
  (made_createPte hf true true false false).leaf rfl rfl rfl

/-! ### The walk -/

def walk (m : Mmu39) (path : List Nat) : Option Nat := Tables.walk table m.mem m.root path

def Path (path : List Nat) : Prop := path.length ≤ 2 ∧ ∀ i ∈ path, i < 512

theorem index_two (v : Nat) : index 2 v = vpn2Indx v := by
  unfold index vpn2Indx
  rw [Nat.div_div_eq_div_mul]
  rfl

theorem index_one (v : Nat) : index 1 v = vpn1Indx v := by
  unfold index vpn1Indx
  rw [Nat.div_div_eq_div_mul]
  rfl

theorem index_zero (v : Nat) : index 0 v = vpn0Indx v := by
  unfold index vpn0Indx
  rw [Nat.div_div_eq_div_mul]
  rfl

section
variable {mem : Nat → Nat → BitVec 64} {next : Nat → Option Leaf} {level : Nat}

theorem walkStep_of_table (h : table (mem t (index level v)) = some u) : walkStep mem v level t next = next u := by
  unfold table at h
  split at h
  case isFalse => cases h
  rename_i hcond
  obtain rfl := some.inj h
  simp only [Bool.and_eq_true, Bool.not_eq_true'] at hcond
  unfold walkStep
  dsimp only
  rw [hcond.1.1.1, hcond.1.1.2, hcond.1.2, hcond.2]
  rfl

theorem walkStep_of_invalid (h : valid (mem t (index level v)) = false) : walkStep mem v level t next = none := by
  unfold walkStep
  dsimp only
  rw [h]
  rfl

theorem walkFrom_zero : walkFrom mem v 0 t = leaf (mem t (vpn0Indx v)) := by
  unfold walkFrom walkStep leaf
  rw [index_zero]
  dsimp only
  rw [Nat.pow_zero, Nat.mod_one, Nat.mod_one]
  cases valid (mem t (vpn0Indx v)) <;> cases reserved (mem t (vpn0Indx v)) <;> cases isLeaf (mem t (vpn0Indx v)) <;>
    simp

end

theorem walkFrom_of_walk (h : m.walk [vpn2Indx v, vpn1Indx v] = some t) :
    walkFrom m.mem v 2 m.root = leaf (m.mem t (vpn0Indx v)) := by
  obtain ⟨t₁, h₁, h⟩ := bind_eq_some_iff.mp h
  obtain ⟨t₀, h₀, h⟩ := bind_eq_some_iff.mp h
  obtain rfl : t₀ = t := some.inj h
  rw [← index_two] at h₁
  rw [← index_one] at h₀
  rw [walkFrom, walkStep_of_table h₁, walkFrom, walkStep_of_table h₀, walkFrom_zero]

/-! ### The windows -/

def window (s : Nat) : Nat := 0x80200000 + 4096 * s

/-- The page at the entry `s` of the kernel's page table `w` shows the page `u`. -/
structure Shown (m : Mmu39) (w s u : Nat) : Prop where
  slot : s < 512
  kernel : m.walk [2, 1] = some w
  entry : m.mem w s = createPte (addr u) true true false false
  low : u < 17592186044416

variable {s : Nat} {mem mem' : Nat → Nat → BitVec 64} {root : Nat} {frames : List Nat}

theorem Shown.translate {o : Nat} (h : Shown m w s u) (ho : o < 4096) : m.translate (window s + o) = some ⟨u, 7⟩ := by
  have hs := h.slot
  have h₂ : vpn2Indx (window s + o) = 2 := by
    unfold vpn2Indx window
    omega
  have h₁ : vpn1Indx (window s + o) = 1 := by
    unfold vpn1Indx window
    omega
  have h₀ : vpn0Indx (window s + o) = s := by
    unfold vpn0Indx window
    omega
  have hcanonical : Canonical (window s + o) := by
    unfold Canonical window
    omega
  unfold Mmu39.translate
  rw [if_pos hcanonical, walkFrom_of_walk (by rw [h₂, h₁]; exact h.kernel), h₀, h.entry, leaf_createPte h.low]

theorem window_offset (s : Nat) (hi : i < 512) : (window s + 8 * i) % 4096 / 8 = i := by
  unfold window
  omega

theorem Shown.load (h : Shown m w s u) (hi : i < 512) : m.load (window s + 8 * i) = some (m.mem u i) := by
  unfold Mmu39.load
  rw [h.translate (by omega), bind_some]
  dsimp only
  rw [if_pos (by decide), window_offset s hi]

theorem Shown.store (h : Shown ⟨mem, root, frames⟩ w s u) (hi : i < 512) (e : BitVec 64) :
    Mmu39.store ⟨mem, root, frames⟩ (window s + 8 * i) e = some ⟨Tables.set mem u i e, root, frames⟩ := by
  unfold Mmu39.store
  rw [h.translate (by omega), bind_some]
  dsimp only
  rw [if_pos (by decide), window_offset s hi]

theorem clear_window (h : ∀ mem', (∀ t, t ≠ u → mem' t = mem t) → Shown ⟨mem', root, frames⟩ w s u) :
    Mmu39.clear ⟨mem, root, frames⟩ (window s) = some ⟨filled mem u 512 0, root, frames⟩ := by
  have hfilled := foldlM_filled (f := fun m i => m.store (window s + 8 * i) 0) (Mmu39.mk · root frames)
    fun mem' _ hi hsame => (h mem' hsame).store hi 0
  exact hfilled

/-! ### Tables that are there -/

/-- The tables form a tree, and the kernel's page table `w` shows itself and the root. -/
structure Tabled (m : Mmu39) (w : Nat) : Prop where
  tree : Tables.Tree table m.mem m.root Path
  entry : ∀ path i t, Path (path ++ [i]) → m.walk path = some t →
    valid (m.mem t i) = false ∨ ∃ f < 17592186044416, m.mem t i = createPte (addr f) false false false false
  self : Shown m w 508 w
  top : Shown m w 509 m.root

/-- Frames that `alloc_getPage` may hand out: they are different and none of them is a table. -/
def Fresh (m : Mmu39) (frames : List Nat) : Prop :=
  (∀ f ∈ frames, f < 17592186044416) ∧ Tables.Fresh table m.mem m.root Path frames

def Turned (w u j : Nat) : Prop := u = w ∧ 510 ≤ j

structure Grown (w : Nat) (m m' : Mmu39) : Prop where
  start : Tabled m w
  tabled : Tabled m' w
  ext : Extends table Path m.mem m.root m.frames m'.mem m'.root m'.frames
  old : ∀ a b t, Path [a, b] → m.walk [a, b] = some t → ∀ j, ¬Turned w t j → m'.mem t j = m.mem t j
  new : ∀ a b t, Path [a, b] → m.walk [a, b] = none → m'.walk [a, b] = some t → ∀ j < 512, m'.mem t j = 0

theorem Path.closed (path : List Nat) (i : Nat) (h : Path (path ++ [i])) : Path path := by
  refine ⟨?_, fun j hj => h.2 j (mem_append_left _ hj)⟩
  have hlen := h.1
  rw [length_append] at hlen
  omega

theorem Path.last_lt (h : Path (path ++ [i])) : i < 512 := h.2 i (by simp)

theorem Path.length_lt (h : Path (path ++ [i])) : path.length < 2 := by
  have hlen := h.1
  rw [length_append, length_singleton] at hlen
  omega

theorem path_pair (ha : a < 512) (hb : b < 512) : Path [a, b] := by
  refine ⟨Nat.le_refl 2, ?_⟩
  simp [ha, hb]

theorem Tabled.with_frames (h : Tabled m w) (frames : List Nat) : Tabled { m with frames } w :=
  { h with self := { h.self with }, top := { h.top with } }

theorem Tabled.path_eq {path' : List Nat} (h : Tabled m w) (hpath : Path path) (hpath' : Path path') (ht : m.walk path = some t)
    (ht' : m.walk path' = some t) : path = path' := h.tree.inj path path' t hpath hpath' ht ht'

theorem Tabled.ne_leaf (h : Tabled m w) (hpath : Path (path ++ [i])) (ht : m.walk path = some t) (hab : Path [a, b])
    (hu : m.walk [a, b] = some u) : u ≠ t := by
  rintro rfl
  have hlen := hpath.length_lt
  rw [h.path_eq (Path.closed _ _ hpath) hab ht hu] at hlen
  exact absurd hlen (Nat.lt_irrefl 2)

theorem Tabled.ne_kernel (h : Tabled m w) (hpath : Path (path ++ [i])) (ht : m.walk path = some t) : w ≠ t :=
  h.ne_leaf hpath ht (path_pair (by decide) (by decide)) h.self.kernel

theorem Tabled.unused_turned (h : Tabled m w) : Unused table m.mem m.root Path (Turned w) :=
  fun _ _ _ hpath hu hat => h.ne_kernel hpath hu hat.1.symm

theorem Grown.walk (h : Grown w m m') (hpath : Path path) (ht : m.walk path = some t) : m'.walk path = some t :=
  h.ext.walk path t hpath ht

theorem Fresh.head (h : Fresh m m.frames) (hframes : m.frames = f :: frames) :
    f < 17592186044416 ∧ ∀ path, Path path → m.walk path ≠ some f := by
  have hmem : f ∈ m.frames := by
    rw [hframes]
    exact mem_cons_self ..
  exact ⟨h.1 f hmem, h.2.2 f hmem⟩

theorem Grown.fresh (h : Grown w m m') (hf : Fresh m m.frames) : Fresh m' m'.frames :=
  ⟨fun f hmem => hf.1 f (h.ext.left.subset hmem), h.ext.fresh hf.2⟩

theorem Grown.trans {m₁ m₂ : Mmu39} (h : Grown w m m₁) (h' : Grown w m₁ m₂) : Grown w m m₂ := by
  refine ⟨h.start, h'.tabled, h.ext.trans h'.ext,
    fun a b t hab ht j hj => (h'.old a b t hab (h.walk hab ht) j hj).trans (h.old a b t hab ht j hj),
    fun a b t hab hnone hsome j hj => ?_⟩
  cases hmid : m₁.walk [a, b] with
  | none => exact h'.new a b t hab hmid hsome j hj
  | some u =>
    obtain rfl : u = t := some.inj ((h'.walk hab hmid).symm.trans hsome)
    -- a table made by the first step is not the kernel's, which was there before
    have hne : u ≠ w := by
      rintro rfl
      have hkernel := h.tabled.path_eq hab (path_pair (by decide) (by decide)) hmid h.tabled.self.kernel
      rw [hkernel, h.start.self.kernel] at hnone
      cases hnone
    rw [h'.old a b u hab hmid j fun hat => hne hat.1]
    exact h.new a b u hab hnone hmid j hj

/-! ### New tables -/

theorem Tabled.link (frames : List Nat) (h : Tabled m w) (hpath : Path (path ++ [i])) (ht : m.walk path = some t)
    (habsent : valid (m.mem t i) = false) (hframes : m.frames = f :: frames) (hf : Fresh m m.frames)
    (hb : Beside m.mem (Turned w) t i f mem') (hat : mem' t i = createPte (addr f) false false false false)
    (hrow : ∀ j < 512, mem' f j = 0) :
    Grown w m ⟨mem', m.root, frames⟩ := by
  obtain ⟨hlt, hfresh⟩ := hf.head hframes
  have htable : table (mem' t i) = some f := by rw [hat, table_createPte hlt]
  have hlinked : Linked table m.mem m.root Path path i f mem' := by
    refine hb.linked h.tree h.unused_turned hfresh hpath ht (table_of_invalid habsent) htable fun j hj => ?_
    rw [hrow j hj.last_lt, table_zero]
  have hwalk {path' : List Nat} (hpath' : Path path') : Mmu39.walk ⟨mem', m.root, frames⟩ path' =
      if path' = path ++ [i] then some f else m.walk path' := hlinked.walk_eq h.tree hpath'
  have hext : Extends table Path m.mem m.root m.frames mem' m.root frames := by
    rw [hframes]
    exact hlinked.extends h.tree
  have hkernel : Path [2, 1] := path_pair (by decide) (by decide)
  have hwf : w ≠ f := fun heq => hfresh _ hkernel (heq ▸ h.self.kernel)
  have hwt := h.ne_kernel hpath ht
  have hshown : ∀ s u, s < 510 → Shown m w s u → Shown ⟨mem', m.root, frames⟩ w s u := by
    intro s u hs hshown
    refine ⟨hshown.slot, hext.walk _ _ hkernel hshown.kernel, ?_, hshown.low⟩
    show mem' w s = _
    rw [hb w s hwf (fun hat => hwt hat.1) fun hturned => absurd hturned.2 (by omega), hshown.entry]
  refine ⟨h, ⟨hlinked.tree h.tree, fun path' j u hpath' hu => ?_,
    hshown 508 w (by decide) h.self, hshown 509 m.root (by decide) h.top⟩, hext, fun a b u hab hu j hj => ?_,
    fun a b u hab hnone hsome => ?_⟩
  · -- the entries of the tables
    rw [hwalk (Path.closed _ _ hpath')] at hu
    split at hu
    · obtain rfl : f = u := some.inj hu
      refine .inl ?_
      show valid (mem' f j) = false
      rw [hrow j hpath'.last_lt]
      rfl
    · by_cases hut : u = t ∧ j = i
      · rw [hut.1, hut.2]
        exact .inr ⟨f, hlt, hat⟩
      have hsame : mem' u j = m.mem u j := hb.same h.tree h.unused_turned hfresh hpath' hu hut
      show valid (mem' u j) = false ∨ ∃ f < _, mem' u j = _
      rw [hsame]
      exact h.entry path' j u hpath' hu
  · have hut := h.ne_leaf hpath ht hab hu
    exact hb u j (fun huf => hfresh _ hab (huf ▸ hu)) (fun hat => hut hat.1) hj
  · rw [hwalk hab] at hsome
    split at hsome
    · obtain rfl : f = u := some.inj hsome
      exact hrow
    · rw [hnone] at hsome
      cases hsome

/-- A store to a table of pages, but not to the entries through which the tables are found. -/
theorem Tabled.set_leaf (h : Tabled m w) (hab : Path [a, b]) (ht : m.walk [a, b] = some t)
    (hkept : ∀ s, s = 508 ∨ s = 509 → ¬(w = t ∧ s = i)) (e : BitVec 64) :
    Tabled { m with mem := Tables.set m.mem t i e } w ∧
      ∀ path, Path path → Mmu39.walk { m with mem := Tables.set m.mem t i e } path = m.walk path := by
  have hE : Unused table m.mem m.root Path fun u j => u = t ∧ j = i :=
    fun _ _ _ hpath hu hat => h.ne_leaf hpath hu hab ht hat.1.symm
  have hwalk : ∀ path, Path path → Mmu39.walk { m with mem := Tables.set m.mem t i e } path = m.walk path :=
    fun path hpath => hE.walk_set h.tree e hpath
  have hshown : ∀ s u, s = 508 ∨ s = 509 → Shown m w s u → Shown { m with mem := Tables.set m.mem t i e } w s u := by
    intro s u hs hshown
    refine ⟨hshown.slot, (hwalk _ (path_pair (by decide) (by decide))).trans hshown.kernel, ?_, hshown.low⟩
    show Tables.set m.mem t i e w s = _
    rw [set_of_ne (hkept s hs), hshown.entry]
  refine ⟨⟨hE.tree_set h.tree e, fun path' j u hpath' hu => ?_, hshown 508 w (.inl rfl) h.self,
    hshown 509 m.root (.inr rfl) h.top⟩, hwalk⟩
  rw [hwalk path' (Path.closed _ _ hpath')] at hu
  show valid (Tables.set m.mem t i e u j) = false ∨ ∃ f < _, Tables.set m.mem t i e u j = _
  rw [hE.same_set e hpath' hu]
  exact h.entry path' j u hpath' hu

theorem Tabled.turn (h : Tabled m w) (hs : 510 ≤ s) (e : BitVec 64) : Grown w m { m with mem := Tables.set m.mem w s e } := by
  obtain ⟨htabled, hwalk⟩ := h.set_leaf (path_pair (by decide) (by decide)) h.self.kernel (i := s) (by omega) e
  refine ⟨h, htabled, .of_walk_eq hwalk, fun a b u hab hu j hj => set_of_ne fun hat => hj ⟨hat.1, hat.2 ▸ hs⟩,
    fun a b u hab hnone hsome => ?_⟩
  rw [hwalk _ hab, hnone] at hsome
  cases hsome

theorem Tabled.shown_beside (frames : List Nat) (h : Tabled m w) (habsent : valid (m.mem t i) = false)
    (hf : ∀ path, Path path → m.walk path ≠ some f) (hb : Beside m.mem (Turned w) t i f mem') (hs : s < 512)
    (hentry : mem' w s = createPte (addr u) true true false false) (hu : u < 17592186044416) :
    Shown ⟨mem', m.root, frames⟩ w s u where
  slot := hs
  kernel := hb.walk_of_some h.tree h.unused_turned hf (table_of_invalid habsent) (path_pair (by decide) (by decide))
    h.self.kernel
  entry := hentry
  low := hu

/-! ### The two levels -/

theorem and_pteV : e &&& pteV = 0 ↔ valid e = false := by
  unfold pteV valid
  rw [show (0x1 : BitVec 64) = 1#64 from rfl, BitVec.and_one_eq_setWidth_ofBool_getLsbD]
  cases e.getLsbD 0 <;> decide

theorem valid_createPte (hf : f < 17592186044416) : valid (createPte (addr f) false false false false) :=
  (made_createPte hf false false false false).valid

theorem sv39Convert_addr (hf : f < 17592186044416) (read write exec user : Bool) :
    sv39Convert (createPte (addr f) read write exec user) = addr f := by
  refine sv39Convert_createPte ?_ read write exec user
  rw [toNat_addr hf]
  omega

theorem allocGetPage_cons (h : m.frames = f :: frames) : m.allocGetPage = (addr f, { m with frames }) := by
  unfold allocGetPage
  rw [h]

theorem tmpVpn0_eq : tmpVpn0 = window 508 := rfl

section
variable {slot : Nat} (h : Tabled m w) (hpath : Path (path ++ [i])) (ht : m.walk path = some t) (hsource : Shown m w s t)
  (hlo : 510 ≤ slot) (hhi : slot < 512)
include h hpath ht hsource hlo hhi

theorem Tabled.turnTo (hu : u < 17592186044416) (hentry : m.mem t i = createPte (addr u) false false false false) :
    ∃ m', ((m.load (window s + 8 * i)).bind fun e =>
        m.store (tmpVpn0 + 8 * slot) (createPte (sv39Convert e) true true false false)) = some m' ∧
      m'.walk (path ++ [i]) = some u ∧ Shown m' w slot u ∧ Grown w m m' ∧ m'.frames = m.frames := by
  have hgrown := h.turn hlo (createPte (addr u) true true false false)
  have hwalk : m.walk (path ++ [i]) = some u := (walk_concat_of_some ht).trans (by rw [hentry, table_createPte hu])
  refine ⟨_, ?_, hgrown.walk hpath hwalk, ⟨hhi, hgrown.tabled.self.kernel, set_self .., hu⟩, hgrown, rfl⟩
  rw [hsource.load hpath.last_lt, bind_some, hentry, sv39Convert_addr hu, tmpVpn0_eq, h.self.store hhi]

variable (hne : s ≠ slot) (hf : Fresh m m.frames)
include hne hf

theorem Tabled.makeTable (hframes : m.frames = f :: frames) (habsent : valid (m.mem t i) = false) :
    ∃ mem', ((Mmu39.store { m with frames } (window s + 8 * i) (createPte (addr f) false false false false)).bind fun m =>
        (m.store (tmpVpn0 + 8 * slot) (createPte (addr f) true true false false)).bind fun m => m.clear (window slot)) =
        some ⟨mem', m.root, frames⟩ ∧
      Shown ⟨mem', m.root, frames⟩ w s t ∧ mem' t i = createPte (addr f) false false false false ∧
      Grown w m ⟨mem', m.root, frames⟩ := by
  obtain ⟨hlt, hfresh⟩ := hf.head hframes
  have hwt := h.ne_kernel hpath ht
  have htf : t ≠ f := fun heq => hfresh path (Path.closed _ _ hpath) (heq ▸ ht)
  have hwf : w ≠ f := fun heq => hfresh _ (path_pair (by decide) (by decide)) (heq ▸ h.self.kernel)
  have hsource₀ : Shown { m with frames } w s t := { hsource with }
  -- the entry of the new table
  generalize hE : createPte (addr f) false false false false = E
  have hb₁ := beside_set m.mem (Turned w) t i f E
  have hkept₁ : ∀ j, Tables.set m.mem t i E w j = m.mem w j := fun j => set_of_ne fun hat => hwt hat.1
  have hself := h.shown_beside frames habsent hfresh hb₁ (by decide) ((hkept₁ 508).trans h.self.entry) h.self.low
  -- the window is turned to it
  have hstore₂ := hself.store hhi (createPte (addr f) true true false false)
  have hb₂ := hb₁.trans_set ⟨rfl, hlo⟩ (createPte (addr f) true true false false)
  have hclear := clear_window fun mem' hsame => h.shown_beside frames habsent hfresh (hb₂.trans_page hsame) hhi
    ((congrFun (hsame w hwf) slot).trans (set_self ..)) hlt
  have hb₃ := hb₂.trans_page fun u hu => filled_of_ne (n := 512) (e := 0) hu
  have hat : filled (Tables.set (Tables.set m.mem t i E) w slot (createPte (addr f) true true false false)) f 512 0 t i = E := by
    rw [filled_of_ne htf, set_of_ne fun hat => hwt hat.1.symm, set_self]
  refine ⟨_, ?_, h.shown_beside frames habsent hfresh hb₃ hsource.slot ?_ hsource.low, hat,
    h.link frames hpath ht habsent hframes hf hb₃ (hat.trans hE.symm) fun j hj => filled_self hj⟩
  · rw [hsource₀.store hpath.last_lt, bind_some, tmpVpn0_eq, hstore₂, bind_some, hclear]
  · rw [filled_of_ne hwf, set_of_ne fun hat => hne hat.2, hkept₁, hsource.entry]

theorem Tabled.enterTable (hroom : m.frames ≠ []) :
    ∃ m' u, m.enterTable (window s) i slot (window slot) = some m' ∧ m'.walk (path ++ [i]) = some u ∧ Shown m' w slot u ∧
      Grown w m m' ∧ m.frames.length ≤ m'.frames.length + 1 := by
  unfold Mmu39.enterTable
  rw [hsource.load hpath.last_lt, bind_eq_bind, bind_some]
  rcases h.entry path i t hpath ht with habsent | ⟨u, hu, hentry⟩
  · obtain ⟨f, frames, hframes⟩ := exists_cons_of_ne_nil hroom
    obtain ⟨mem', hmade, hshown, hentry, hgrown⟩ := h.makeTable hpath ht hsource hlo hhi hne hf hframes habsent
    obtain ⟨m', hm', hwalk, hshown', hgrown', hleft⟩ := hgrown.tabled.turnTo hpath
      (hgrown.walk (Path.closed _ _ hpath) ht) hshown hlo hhi (hf.head hframes).1 hentry
    refine ⟨m', f, ?_, hwalk, hshown', hgrown.trans hgrown', by rw [hleft, hframes]; exact Nat.le_refl _⟩
    rw [if_pos (and_pteV.mpr habsent), allocGetPage_cons hframes]
    obtain ⟨m₁, h₁, hmade⟩ := bind_eq_some_iff.mp hmade
    obtain ⟨m₂, h₂, h₃⟩ := bind_eq_some_iff.mp hmade
    dsimp only [bind_eq_bind]
    rw [h₁, bind_some, h₂, bind_some, h₃]
    exact hm'
  · obtain ⟨m', hm', hwalk, hshown, hgrown, hleft⟩ := h.turnTo hpath ht hsource hlo hhi hu hentry
    refine ⟨m', u, ?_, hwalk, hshown, hgrown, by rw [hleft]; exact Nat.le_succ _⟩
    rw [if_neg (by rw [and_pteV, hentry, valid_createPte hu]; nofun)]
    exact hm'

end

theorem vpn2Indx_lt (v : Nat) : vpn2Indx v < 512 := Nat.mod_lt _ (by decide)

theorem vpn1Indx_lt (v : Nat) : vpn1Indx v < 512 := Nat.mod_lt _ (by decide)

theorem vpn0Indx_lt (v : Nat) : vpn0Indx v < 512 := Nat.mod_lt _ (by decide)

def lookup (m : Mmu39) (v : Nat) : Option Leaf :=
  match m.walk [vpn2Indx v, vpn1Indx v] with
  | none => none
  | some t => leaf (m.mem t (vpn0Indx v))

theorem Tabled.step (h : Tabled m w) (hpath : Path (path ++ [i])) (ht : m.walk path = some t) :
    valid (m.mem t i) = false ∧ m.walk (path ++ [i]) = none ∨
      ∃ u, table (m.mem t i) = some u ∧ m.walk (path ++ [i]) = some u := by
  have hwalk : m.walk (path ++ [i]) = table (m.mem t i) := walk_concat_of_some ht
  rcases h.entry path i t hpath ht with habsent | ⟨u, hu, hentry⟩
  · exact .inl ⟨habsent, hwalk.trans (table_of_invalid habsent)⟩
  · have htable : table (m.mem t i) = some u := by rw [hentry, table_createPte hu]
    exact .inr ⟨u, htable, hwalk.trans htable⟩

theorem Tabled.translate_eq (h : Tabled m w) (hv : Canonical v) : m.translate v = m.lookup v := by
  have h₂ : Path ([] ++ [vpn2Indx v]) := Path.closed _ _ (path_pair (vpn2Indx_lt v) (vpn1Indx_lt v))
  have h₁ : Path ([vpn2Indx v] ++ [vpn1Indx v]) := path_pair (vpn2Indx_lt v) (vpn1Indx_lt v)
  have hroot : m.walk [] = some m.root := rfl
  unfold translate lookup
  rw [if_pos hv]
  rcases h.step h₂ hroot with ⟨hinvalid, hnone⟩ | ⟨u, htable, hu⟩
  · have hnone' : m.walk [vpn2Indx v, vpn1Indx v] = none := by
      show Tables.walk table m.mem m.root ([vpn2Indx v] ++ [vpn1Indx v]) = none
      rw [walk_append, show Tables.walk table m.mem m.root [vpn2Indx v] = none from hnone]
      rfl
    rw [hnone', walkFrom, walkStep_of_invalid]
    rw [index_two, hinvalid]
  · rcases h.step h₁ hu with ⟨hinvalid, hnone⟩ | ⟨t, -, ht⟩
    · rw [show m.walk [vpn2Indx v, vpn1Indx v] = none from hnone, walkFrom, walkStep_of_table (by rw [index_two, htable]),
        walkFrom, walkStep_of_invalid]
      rw [index_one, hinvalid]
    · rw [show m.walk [vpn2Indx v, vpn1Indx v] = some t from ht, walkFrom_of_walk ht]

def Window (v : Nat) : Prop := 0x803fc000 ≤ v ∧ v < 0x80400000

instance : DecidablePred Window := fun _ => inferInstanceAs (Decidable (_ ∧ _))

theorem Canonical.page_eq (hv : Canonical v) (hw : Canonical w) (h₂ : vpn2Indx w = vpn2Indx v) (h₁ : vpn1Indx w = vpn1Indx v)
    (h₀ : vpn0Indx w = vpn0Indx v) : w / 4096 = v / 4096 := by
  unfold Canonical at hv hw
  unfold vpn2Indx at h₂
  unfold vpn1Indx at h₁
  unfold vpn0Indx at h₀
  omega

theorem Canonical.window (hv : Canonical v) (h₂ : vpn2Indx v = 2) (h₁ : vpn1Indx v = 1) (h₀ : 508 ≤ vpn0Indx v) : Window v := by
  unfold Canonical at hv
  unfold vpn2Indx at h₂
  unfold vpn1Indx at h₁
  unfold vpn0Indx at h₀
  unfold Window
  omega

theorem Tabled.indexes_eq (h : Tabled m w) (ht : m.walk [vpn2Indx v, vpn1Indx v] = some w) :
    vpn2Indx v = 2 ∧ vpn1Indx v = 1 := by
  have hpath := h.path_eq (path_pair (vpn2Indx_lt v) (vpn1Indx_lt v)) (path_pair (by decide) (by decide)) ht h.self.kernel
  injection hpath with h₂ hpath
  injection hpath with h₁
  exact ⟨h₂, h₁⟩

theorem Grown.lookup (h : Grown w m m') (hv : Canonical v) (hwindow : ¬Window v) : m'.lookup v = m.lookup v := by
  have hpath := path_pair (vpn2Indx_lt v) (vpn1Indx_lt v)
  unfold Mmu39.lookup
  cases hold : m.walk [vpn2Indx v, vpn1Indx v] with
  | none =>
    cases hnew : m'.walk [vpn2Indx v, vpn1Indx v] with
    | none => rfl
    | some t =>
      dsimp only
      rw [h.new _ _ t hpath hold hnew _ (vpn0Indx_lt v), leaf_zero]
  | some t =>
    rw [h.walk hpath hold]
    dsimp only
    rw [h.old _ _ t hpath hold]
    rintro ⟨rfl, hturned⟩
    obtain ⟨h₂, h₁⟩ := h.start.indexes_eq hold
    exact hwindow (hv.window h₂ h₁ (by omega))

theorem Tabled.storePage (h : Tabled m w) (hv : Canonical v) (hwindow : ¬Window v)
    (ht : m.walk [vpn2Indx v, vpn1Indx v] = some t) (e : BitVec 64) :
    Tabled { m with mem := Tables.set m.mem t (vpn0Indx v) e } w ∧
      ∀ path, Path path → Mmu39.walk { m with mem := Tables.set m.mem t (vpn0Indx v) e } path = m.walk path := by
  refine h.set_leaf (path_pair (vpn2Indx_lt v) (vpn1Indx_lt v)) ht ?_ e
  rintro s hs ⟨rfl, rfl⟩
  obtain ⟨h₂, h₁⟩ := h.indexes_eq ht
  exact hwindow (hv.window h₂ h₁ (by omega))

theorem curVpn2_eq : curVpn2 = window 509 := rfl

theorem curVpn1_eq : curVpn1 = window 510 := rfl

theorem curVpn0_eq : curVpn0 = window 511 := rfl

section
variable (h : Tabled m w) (hv : Canonical v) (hwindow : ¬Window v) (hroom : 2 ≤ m.frames.length) (hf : Fresh m m.frames)
  (p : BitVec 64) (flags : BitVec 32)
include h hv hwindow hroom hf p flags

theorem Tabled.mapPage :
    ∃ m' m₂ t, m.archMmuMapPage v p flags = some m' ∧ Tabled m' w ∧ Grown w m m₂ ∧ m₂.walk [vpn2Indx v, vpn1Indx v] = some t ∧
      m' = { m₂ with mem := Tables.set m₂.mem t (vpn0Indx v) (createPteWithFlags p flags) } := by
  have hpath : Path ([vpn2Indx v] ++ [vpn1Indx v]) := path_pair (vpn2Indx_lt v) (vpn1Indx_lt v)
  obtain ⟨m₁, t₁, he₁, hw₁, hs₁, hg₁, hr₁⟩ := h.enterTable (show Path ([] ++ [vpn2Indx v]) from Path.closed _ _ hpath) rfl h.top
    (Nat.le_refl 510) (by decide) (by decide) hf (ne_nil_of_length_pos (by omega))
  obtain ⟨m₂, t₀, he₀, hw₀, hs₀, hg₀, hr₀⟩ := hg₁.tabled.enterTable hpath hw₁ hs₁ (show 510 ≤ 511 by decide) (by decide)
    (by decide) (hg₁.fresh hf) (ne_nil_of_length_pos (by omega))
  refine ⟨_, m₂, t₀, ?_, (hg₀.tabled.storePage hv hwindow hw₀ _).1, hg₁.trans hg₀, hw₀, rfl⟩
  unfold archMmuMapPage
  rw [curVpn2_eq, curVpn1_eq, curVpn0_eq, he₁, bind_eq_bind, bind_some, he₀, bind_some,
    hs₀.store (vpn0Indx_lt v)]

theorem Tabled.mapPage_lookup : ∃ m', m.archMmuMapPage v p flags = some m' ∧ Tabled m' w ∧
      Extends table Path m.mem m.root m.frames m'.mem m'.root m'.frames ∧
      ∀ x, Canonical x → ¬Window x →
        m'.translate x = if x / 4096 = v / 4096 then leaf (createPteWithFlags p flags) else m.translate x := by
  obtain ⟨m', m₂, t, hm', htabled, hgrown, ht, rfl⟩ := h.mapPage hv hwindow hroom hf p flags
  have hwalk := (hgrown.tabled.storePage hv hwindow ht (createPteWithFlags p flags)).2
  refine ⟨_, hm', htabled, hgrown.ext.trans (.of_walk_eq hwalk), fun x hx hxwindow => ?_⟩
  have hpath := path_pair (vpn2Indx_lt x) (vpn1Indx_lt x)
  rw [htabled.translate_eq hx, h.translate_eq hx, ← hgrown.lookup hx hxwindow]
  unfold Mmu39.lookup
  rw [hwalk _ hpath]
  by_cases hpage : x / 4096 = v / 4096
  · rw [if_pos hpage]
    have hsame : vpn2Indx x = vpn2Indx v ∧ vpn1Indx x = vpn1Indx v ∧ vpn0Indx x = vpn0Indx v := by
      unfold vpn2Indx vpn1Indx vpn0Indx
      omega
    rw [hsame.1, hsame.2.1, hsame.2.2, ht]
    dsimp only
    rw [set_self]
  · rw [if_neg hpage]
    cases hu : m₂.walk [vpn2Indx x, vpn1Indx x] with
    | none => rfl
    | some u =>
      dsimp only
      rw [set_of_ne]
      rintro ⟨rfl, hindex⟩
      have heq := hgrown.tabled.path_eq hpath (path_pair (vpn2Indx_lt v) (vpn1Indx_lt v)) hu ht
      injection heq with h₂ heq
      injection heq with h₁
      exact hpage (hv.page_eq hx h₂ h₁ hindex)

end

/-- The kernel lies in its 2 MiB below the windows, and its three tables are different pages of it. -/
structure Boot39.Ok (k : Boot39) : Prop where
  bounds : 0x80200000 ≤ k.kernelStart ∧ k.kernelStart < 0x803fc000 ∧ k.kernelEnd ≤ 0x803fc000
  distinct : [k.vpn0, k.vpn1, k.vpn2].Nodup
  inside : ∀ t ∈ [k.vpn0, k.vpn1, k.vpn2], k.kernelStart ≤ 4096 * t ∧ 4096 * t + 4096 ≤ k.kernelEnd

/-- The tables are zero when the kernel is loaded, and `alloc_getPage` has frames that are no tables. -/
structure Loaded (k : Boot39) (m : Mmu39) : Prop where
  zero : ∀ t ∈ [k.vpn0, k.vpn1, k.vpn2], ∀ j < 512, m.mem t j = 0
  room : 2 ≤ m.frames.length
  nodup : m.frames.Nodup
  frames : ∀ f ∈ m.frames, f < 17592186044416 ∧ f ∉ [k.vpn0, k.vpn1, k.vpn2]

section
variable {k : Boot39} {mem : Nat → Nat → BitVec 64}

theorem bootTables_of_ne (hu : u ≠ k.vpn0) :
    bootTables k mem u =
      Tables.set (Tables.set mem k.vpn2 (vpn2Indx k.kernelStart) (createPte (addr k.vpn1) false false false false)) k.vpn1
        (vpn1Indx k.kernelStart) (createPte (addr k.vpn0) false false false false) u := by
  have hset : ∀ (mem : Nat → Nat → BitVec 64) i e, Tables.set mem k.vpn0 i e u = mem u :=
    fun _ _ _ => Function.update_of_ne hu ..
  unfold bootTables
  rw [hset, hset, hset, hset]
  generalize Tables.set (Tables.set mem k.vpn2 _ _) k.vpn1 _ _ = mem₁
  exact Loop.foldl_range (fun _ (mem' : Nat → Nat → BitVec 64) => mem' u = mem₁ u) rfl fun _ _ _ hsame => (hset ..).trans hsame

theorem bootTables_self : bootTables k mem k.vpn0 508 = createPte (addr k.vpn0) true true false false := by
  unfold bootTables
  rw [set_of_ne (by omega), set_of_ne (by omega), set_of_ne (by omega), set_self]

theorem bootTables_top : bootTables k mem k.vpn0 509 = createPte (addr k.vpn2) true true false false := by
  unfold bootTables
  rw [set_of_ne (by omega), set_of_ne (by omega), set_self]

theorem Boot39.Ok.ne (hk : k.Ok) : k.vpn0 ≠ k.vpn1 ∧ k.vpn0 ≠ k.vpn2 ∧ k.vpn1 ≠ k.vpn2 := by
  simpa [and_assoc] using hk.distinct

theorem Boot39.Ok.low (hk : k.Ok) (ht : t ∈ [k.vpn0, k.vpn1, k.vpn2]) : t < 17592186044416 := by
  have hbounds := hk.bounds
  have hinside := hk.inside t ht
  omega

theorem Boot39.Ok.indexes (hk : k.Ok) : vpn2Indx k.kernelStart = 2 ∧ vpn1Indx k.kernelStart = 1 := by
  have hbounds := hk.bounds
  unfold vpn2Indx vpn1Indx
  omega

theorem bootTables_vpn2 (hk : k.Ok) (hm : Loaded k m) (hj : j < 512) :
    bootTables k m.mem k.vpn2 j = if j = 2 then createPte (addr k.vpn1) false false false false else 0 := by
  have hne := hk.ne
  rw [bootTables_of_ne (by omega), set_of_ne (by omega), hk.indexes.1]
  split
  next htwo => rw [htwo, set_self]
  next htwo => rw [set_of_ne fun hat => htwo hat.2, hm.zero _ (by simp) j hj]

theorem bootTables_vpn1 (hk : k.Ok) (hm : Loaded k m) (hj : j < 512) :
    bootTables k m.mem k.vpn1 j = if j = 1 then createPte (addr k.vpn0) false false false false else 0 := by
  have hne := hk.ne
  rw [bootTables_of_ne (by omega), hk.indexes.2]
  split
  next hone => rw [hone, set_self]
  next hone => rw [set_of_ne fun hat => hone hat.2, set_of_ne (by omega), hm.zero _ (by simp) j hj]

theorem walk_boot (frames : List Nat) (hk : k.Ok) (hm : Loaded k m) :
    ∀ path, Path path → Mmu39.walk ⟨bootTables k m.mem, k.vpn2, frames⟩ path = some t →
      path = [] ∧ t = k.vpn2 ∨ path = [2] ∧ t = k.vpn1 ∨ path = [2, 1] ∧ t = k.vpn0
  | [], _, ht => .inl ⟨rfl, (some.inj ht).symm⟩
  | [a], hpath, ht => by
    have ha : a < 512 := hpath.2 a (by simp)
    change (table (bootTables k m.mem k.vpn2 a)).bind some = some t at ht
    rw [bootTables_vpn2 hk hm ha] at ht
    split at ht
    next htwo =>
      rw [table_createPte (hk.low (by simp))] at ht
      exact .inr (.inl ⟨by rw [htwo], (some.inj ht).symm⟩)
    · cases ht
  | [a, b], hpath, ht => by
    have ha : a < 512 := hpath.2 a (by simp)
    have hb : b < 512 := hpath.2 b (by simp)
    change (table (bootTables k m.mem k.vpn2 a)).bind (fun u => (table (bootTables k m.mem u b)).bind some) = some t at ht
    rw [bootTables_vpn2 hk hm ha] at ht
    split at ht
    next htwo =>
      rw [table_createPte (hk.low (by simp)), bind_some, bootTables_vpn1 hk hm hb] at ht
      split at ht
      next hone =>
        rw [table_createPte (hk.low (by simp))] at ht
        exact .inr (.inr ⟨by rw [htwo, hone], (some.inj ht).symm⟩)
      · cases ht
    · cases ht
  | _ :: _ :: _ :: _, hpath, _ => absurd hpath.1 (by simp)

theorem kernel_boot (frames : List Nat) (hk : k.Ok) (hm : Loaded k m) :
    Mmu39.walk ⟨bootTables k m.mem, k.vpn2, frames⟩ [2, 1] = some k.vpn0 := by
  show (table (bootTables k m.mem k.vpn2 2)).bind (fun u => (table (bootTables k m.mem u 1)).bind some) = some k.vpn0
  rw [bootTables_vpn2 hk hm (by decide), if_pos rfl, table_createPte (hk.low (by simp)), bind_some,
    bootTables_vpn1 hk hm (by decide), if_pos rfl, table_createPte (hk.low (by simp)), bind_some]

theorem tabled_boot (frames : List Nat) (hk : k.Ok) (hm : Loaded k m) : Tabled ⟨bootTables k m.mem, k.vpn2, frames⟩ k.vpn0 := by
  have hne := hk.ne
  have hkernel := kernel_boot frames hk hm
  refine ⟨⟨⟨by decide, by simp⟩, Path.closed, fun path path' t hpath hpath' ht ht' => ?_⟩, fun path i t hpath ht => ?_,
    ⟨by decide, hkernel, bootTables_self, hk.low (by simp)⟩, ⟨by decide, hkernel, bootTables_top, hk.low (by simp)⟩⟩
  · rcases walk_boot frames hk hm path hpath ht with ⟨rfl, h⟩ | ⟨rfl, h⟩ | ⟨rfl, h⟩ <;>
      rcases walk_boot frames hk hm path' hpath' ht' with ⟨rfl, h'⟩ | ⟨rfl, h'⟩ | ⟨rfl, h'⟩ <;>
        first
        | rfl
        | omega
  · -- the third table is a page table, whose entries are not looked at
    rcases walk_boot frames hk hm path (Path.closed _ _ hpath) ht with ⟨-, rfl⟩ | ⟨-, rfl⟩ | ⟨rfl, -⟩
    · rw [show Mmu39.mem _ k.vpn2 i = _ from bootTables_vpn2 hk hm hpath.last_lt]
      split
      · exact .inr ⟨k.vpn1, hk.low (by simp), rfl⟩
      · exact .inl rfl
    · rw [show Mmu39.mem _ k.vpn1 i = _ from bootTables_vpn1 hk hm hpath.last_lt]
      split
      · exact .inr ⟨k.vpn0, hk.low (by simp), rfl⟩
      · exact .inl rfl
    · exact absurd hpath.length_lt (by decide)

theorem fresh_boot (hk : k.Ok) (hm : Loaded k m) : Fresh ⟨bootTables k m.mem, k.vpn2, m.frames⟩ m.frames := by
  refine ⟨fun f hf => (hm.frames f hf).1, hm.nodup, fun f hf path hpath ht => (hm.frames f hf).2 ?_⟩
  rcases walk_boot m.frames hk hm path hpath ht with ⟨-, rfl⟩ | ⟨-, rfl⟩ | ⟨-, rfl⟩ <;> simp

theorem archMmuInit_tabled (hk : k.Ok) (hm : Loaded k m) :
    ∃ m', archMmuInit k m = some m' ∧ Tabled m' k.vpn0 ∧
      ∀ path t, Path path → m'.walk path = some t → t ∈ [k.vpn0, k.vpn1, k.vpn2] ++ m.frames := by
  obtain ⟨m', hm', htabled, hext, -⟩ := (tabled_boot m.frames hk hm).mapPage_lookup (v := 0x10000000) (by decide) (by decide)
    hm.room (fresh_boot hk hm) 0x10000000 7
  refine ⟨m', hm', htabled, fun path t hpath ht => ?_⟩
  rcases hext.reached path t hpath ht with hold | hnew
  · refine mem_append_left _ ?_
    rcases walk_boot m.frames hk hm path hpath hold with ⟨-, rfl⟩ | ⟨-, rfl⟩ | ⟨-, rfl⟩ <;> simp
  · exact mem_append_right _ hnew

end

/-- A call of `arch_mmu_mapPage`, with the frames that `alloc_getPage` hands out during the call. -/
structure MapCall where
  v : Nat
  p : BitVec 64
  flags : BitVec 32
  frames : List Nat

variable {call : MapCall}

/-- A call for a page outside the windows and a frame of memory, with flags below bit 10 that have V, R or X, and W only with
    R. -/
structure MapCall.Ok (call : MapCall) : Prop where
  v : Canonical call.v ∧ call.v % 4096 = 0 ∧ ¬Window call.v
  p : call.p.toNat % 4096 = 0 ∧ call.p.toNat < 72057594037927936
  small : call.flags.toNat < 1024
  valid : call.flags.getLsbD 0 = true
  leaf : (call.flags.getLsbD 1 || call.flags.getLsbD 3) = true
  write : (!call.flags.getLsbD 1 && call.flags.getLsbD 2) = false

def MapCall.target (call : MapCall) : Leaf := ⟨call.p.toNat / 4096, call.flags.setWidth 10⟩

theorem MapCall.Ok.leaf_eq (h : call.Ok) :
    Mmu39.leaf (createPteWithFlags call.p call.flags) = some call.target := by
  have hp := h.p
  have hbit : ∀ i < 10, (call.flags.setWidth 10).getLsbD i = call.flags.getLsbD i := by
    intro i hi
    simp [hi]
  have hmade : Made (createPteWithFlags call.p call.flags) (call.p.toNat / 4096) (call.flags.setWidth 10) := by
    refine made_of_toNat (by omega) ?_
    rw [toNat_createPteWithFlags _ h.small, BitVec.toNat_setWidth, Nat.mod_eq_of_lt h.small]
  refine hmade.leaf ?_ ?_ ?_
  · rw [hbit 0 (by decide), h.valid]
  · rw [hbit 1 (by decide), hbit 2 (by decide), h.write]
  · rw [hbit 1 (by decide), hbit 3 (by decide), h.leaf]

def mapCall (m : Mmu39) (call : MapCall) : Option Mmu39 :=
  { m with frames := call.frames }.archMmuMapPage call.v call.p call.flags

def mapAll (m : Mmu39) (calls : List MapCall) : Option Mmu39 := calls.foldlM mapCall m

/-- In every call `alloc_getPage` has two frames that are in use for no table. -/
def Supplied : Mmu39 → List MapCall → Prop
  | _, [] => True
  | m, call :: calls => (2 ≤ call.frames.length ∧ Fresh m call.frames) ∧ ∀ m', m.mapCall call = some m' → Supplied m' calls

def lastCall (calls : List MapCall) (x : Nat) : Option MapCall := calls.reverse.find? fun call => x / 4096 = call.v / 4096

theorem lastCall_cons (call : MapCall) (calls : List MapCall) (x : Nat) :
    lastCall (call :: calls) x = (lastCall calls x).or (if x / 4096 = call.v / 4096 then some call else none) := by
  unfold lastCall
  rw [reverse_cons, find?_append, find?_singleton]
  simp only [decide_eq_true_eq]

theorem Tabled.mapCall (h : Tabled m w) (hok : call.Ok) (hroom : 2 ≤ call.frames.length) (hf : Fresh m call.frames) :
    ∃ m', m.mapCall call = some m' ∧ Tabled m' w ∧ ∀ x, Canonical x → ¬Window x →
      m'.translate x = if x / 4096 = call.v / 4096 then some call.target else m.translate x := by
  obtain ⟨m', hm', htabled, -, hwalk⟩ := (h.with_frames call.frames).mapPage_lookup hok.v.1 hok.v.2.2 hroom hf call.p call.flags
  rw [hok.leaf_eq] at hwalk
  exact ⟨m', hm', htabled, hwalk⟩

theorem Tabled.mapAll {calls : List MapCall} (h : Tabled m w) (hok : ∀ call ∈ calls, call.Ok) (hsupplied : Supplied m calls) :
    ∃ m', m.mapAll calls = some m' ∧ ∀ x, Canonical x → ¬Window x →
      m'.translate x = (lastCall calls x).elim (m.translate x) fun call => some call.target := by
  induction calls generalizing m with
  | nil => exact ⟨m, rfl, fun _ _ _ => rfl⟩
  | cons call calls ih =>
    obtain ⟨⟨hroom, hf⟩, hrest⟩ := hsupplied
    obtain ⟨m₁, hm₁, htabled, hstep⟩ := h.mapCall (hok call (mem_cons_self ..)) hroom hf
    obtain ⟨m', hm', hwalk⟩ := ih htabled (fun c hc => hok c (mem_cons_of_mem _ hc)) (hrest m₁ hm₁)
    refine ⟨m', ?_, fun x hx hwindow => ?_⟩
    · unfold Mmu39.mapAll
      rw [foldlM_cons, hm₁]
      exact hm'
    · rw [hwalk x hx hwindow, lastCall_cons, hstep x hx hwindow]
      cases lastCall calls x with
      | some last => rfl
      | none =>
        split <;> rfl

/-- After `arch_mmu_init` and any calls, the walk of an address outside the windows leads where the last call for its page
    said, and where it led if there was none. -/
theorem walk_last_call {k : Boot39} (hk : k.Ok) (hm : Loaded k m) :
    (∃ m₀, archMmuInit k m = some m₀ ∧ ∀ calls : List MapCall, (∀ call ∈ calls, call.Ok) → Supplied m₀ calls →
      ∃ m', m₀.mapAll calls = some m' ∧ ∀ x, Canonical x → ¬Window x →
        m'.translate x = (lastCall calls x).elim (m₀.translate x) fun call => some call.target) ∧
    ∀ (p : BitVec 64) read write exec user, p.toNat % 4096 = 0 → p.toNat < 72057594037927936 →
      sv39Convert (createPte p read write exec user) = p := by
  refine ⟨?_, fun p read write exec user haligned _ => sv39Convert_createPte haligned read write exec user⟩
  obtain ⟨m₀, hm₀, htabled, -⟩ := archMmuInit_tabled hk hm
  exact ⟨m₀, hm₀, fun calls hok hsupplied => htabled.mapAll hok hsupplied⟩

def usual : Boot39 := ⟨0x802fd, 0x802fe, 0x802ff, 0x80200000, 0x80300000⟩

theorem usual_ok : usual.Ok := ⟨by decide, by decide, by decide⟩

def loaded : Mmu39 := ⟨fun _ _ => 0, 0, [0x81000, 0x81001]⟩

theorem loaded_usual : Loaded usual loaded := ⟨fun _ _ _ _ => rfl, by decide, by decide, by decide⟩

def userPage : MapCall := ⟨0x40000000, 0x90000000, 0x17, [0x81002, 0x81003]⟩

theorem userPage_ok : userPage.Ok := ⟨by decide, by decide, by decide, by decide, by decide, by decide⟩

theorem supplied_usual {m₀ : Mmu39} (hm₀ : archMmuInit usual loaded = some m₀) :
    2 ≤ userPage.frames.length ∧ Fresh m₀ userPage.frames := by
  obtain ⟨m₁, hm₁, -, hreached⟩ := archMmuInit_tabled usual_ok loaded_usual
  obtain rfl : m₁ = m₀ := some.inj (hm₁.symm.trans hm₀)
  have hunused : ∀ f ∈ userPage.frames, f ∉ [usual.vpn0, usual.vpn1, usual.vpn2] ++ loaded.frames := by decide
  exact ⟨by decide, by decide, by decide, fun f hf path hpath ht => hunused f hf (hreached path f hpath ht)⟩

theorem walk_last_call_userPage : usual.Ok ∧ Loaded usual loaded ∧ userPage.Ok ∧
    ∃ m₀ m', archMmuInit usual loaded = some m₀ ∧ Supplied m₀ [userPage] ∧ m₀.mapAll [userPage] = some m' ∧
      m'.translate 0x40000000 = some ⟨0x90000, 0x17⟩ := by
  refine ⟨usual_ok, loaded_usual, userPage_ok, ?_⟩
  obtain ⟨⟨m₀, hm₀, hcalls⟩, -⟩ := walk_last_call usual_ok loaded_usual
  have hsupplied : Supplied m₀ [userPage] := ⟨supplied_usual hm₀, fun _ _ => trivial⟩
  obtain ⟨m', hm', hwalk⟩ := hcalls [userPage] (by simpa using userPage_ok) hsupplied
  exact ⟨m₀, m', hm₀, hsupplied, hm', hwalk 0x40000000 (by decide) (by decide)⟩

/-- W without R is reserved: the walk of a page that is mapped with V and W faults. -/
theorem walk_write_only : ∃ m₀ m', archMmuInit usual loaded = some m₀ ∧
    m₀.mapCall ⟨0x40000000, 0x90000000, 5, [0x81002, 0x81003]⟩ = some m' ∧ Fresh m₀ [0x81002, 0x81003] ∧
      m'.translate 0x40000000 = none := by
  obtain ⟨m₀, hm₀, htabled, -⟩ := archMmuInit_tabled usual_ok loaded_usual
  obtain ⟨hroom, hf⟩ := supplied_usual hm₀
  have htabled' : Tabled { m₀ with frames := [0x81002, 0x81003] } usual.vpn0 := htabled.with_frames _
  obtain ⟨m', hm', -, -, hwalk⟩ := htabled'.mapPage_lookup (v := 0x40000000) (by decide) (by decide) hroom hf 0x90000000 5
  refine ⟨m₀, m', hm₀, hm', hf, ?_⟩
  rw [hwalk _ (by decide) (by decide), if_pos rfl]
  decide

end Mmu39
end HelinKern
