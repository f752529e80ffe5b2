import HelinKern.Fat

/-! The FAT of a volume: the chains of the files in it, what the part in memory has to do with the device, and how
    `fat_nextCluster` and `fat_allocateCluster` read and change it. -/

namespace HelinKern
variable {g n : Nat}

namespace Fat
open Word List Function

/-! ### The image on the device -/

def Bpb.clusters (b : Bpb) : Nat := 2 + (b.sectors - b.firstDataBlock) / 8

/-- A boot block for which the first FAT has an entry for every cluster. -/
structure Bpb.Geometry (b : Bpb) : Prop where
  tables : 0 < b.tableCount
  data : b.firstDataBlock ≤ b.sectors
  sectors : b.sectors < wordSize
  entries : 4 * b.clusters ≤ 512 * b.tableSize32
  numbers : b.clusters ≤ 0x0FFFFFF7

abbrev IsEnd (entry : Nat) : Prop := 0x0FFFFFF8 ≤ entry % 0x10000000

namespace Image

def fatAddr (im : Image) (c : Nat) : Nat := 512 * im.bpb.reservedSectorCount + 4 * c

def entry (im : Image) (c : Nat) : Nat := read im.disk (im.fatAddr c)

def dataAddr (im : Image) (c : Nat) : Nat := 512 * (im.bpb.firstDataBlock + 8 * (c - 2))

abbrev Valid (im : Image) (c : Nat) : Prop := 2 ≤ c ∧ c < im.bpb.clusters

def chainFrom (im : Image) : Nat → Nat → List Nat
  | 0, _ => []
  | n + 1, c => c :: if IsEnd (im.entry c) then [] else im.chainFrom n (im.entry c)

/-- The clusters of a file, as the FAT links them. -/
def chain (im : Image) (f : Nat) : List Nat :=
  if (im.files f).firstCluster = 0 then [] else im.chainFrom im.bpb.clusters (im.files f).firstCluster

def byteAt (im : Image) (cs : List Nat) (p : Nat) : BitVec 8 := im.disk (im.dataAddr (cs.getD (p / 4096) 0) + p % 4096)

def contents (im : Image) (f : Nat) : List (BitVec 8) := (range (im.files f).size).map (im.byteAt (im.chain f))

def setEntry (im : Image) (c w : Nat) : Image := { im with disk := write im.disk (im.fatAddr c) w }

def setFile (im : Image) (f : Nat) (file : FatFile) : Image := { im with files := Function.update im.files f file }

def setData (im : Image) (c lo hi : Nat) (src : Nat → BitVec 8) : Image :=
  { im with disk := fun a => if im.dataAddr c + lo ≤ a ∧ a < im.dataAddr c + hi then src (a - im.dataAddr c) else im.disk a }

/-- Each cluster has the next one for its entry, and the last one an end mark. -/
def Linked (im : Image) (cs : List Nat) : Prop :=
  ∀ i c, cs[i]? = some c → (∀ d, cs[i + 1]? = some d → im.entry c = d) ∧ (cs[i + 1]? = none → IsEnd (im.entry c))

/-- The chains of the files are `cs`, no two of them have a cluster in common, and none has the cluster of a directory
    entry. -/
structure Chains (im : Image) (cs : Nat → List Nat) : Prop where
  first : ∀ f, (cs f).head? = if (im.files f).firstCluster = 0 then none else some (im.files f).firstCluster
  linked : ∀ f, im.Linked (cs f)
  valid : ∀ f, ∀ c ∈ cs f, im.Valid c
  nodup : ∀ f, (cs f).Nodup
  disjoint : ∀ f g, f ≠ g → ∀ c ∈ cs f, c ∉ cs g
  directory : ∀ f, im.Valid (im.files f).dirCluster ∧ im.entry (im.files f).dirCluster ≠ 0 ∧ (im.files f).dirOffset + 32 ≤ 4096
  apart : ∀ f g, (im.files f).dirCluster ∉ cs g

variable {im im' : Image} {c d f lo hi w : Nat} {cs : Nat → List Nat} {l : List Nat} {src : Nat → BitVec 8}

@[simp] theorem files_setFile_self (im : Image) (f : Nat) (file : FatFile) : (im.setFile f file).files f = file :=
  update_self ..

theorem files_setFile_of_ne (h : g ≠ f) (im : Image) (file : FatFile) : (im.setFile f file).files g = im.files g :=
  update_of_ne h ..

theorem fatAddr_eq (im : Image) (c : Nat) :
    im.fatAddr c = 512 * (im.bpb.reservedSectorCount + 8 * (c / 1024)) + 4 * (c % 1024) := by
  unfold fatAddr
  omega

theorem fatAddr_lt (hb : im.bpb.Geometry) (hc : c < im.bpb.clusters) : im.fatAddr c + 4 ≤ 512 * im.bpb.firstDataBlock := by
  have hentries := hb.entries
  have htables := Nat.le_mul_of_pos_left im.bpb.tableSize32 hb.tables
  unfold fatAddr Bpb.firstDataBlock
  omega

theorem entry_setEntry_self (im : Image) (c w : Nat) : (im.setEntry c w).entry c = w % 4294967296 := read_write_self _ _ _

theorem entry_setEntry_of_ne (h : d ≠ c) : (im.setEntry c w).entry d = im.entry d := by
  refine read_write_of_outside ?_
  show im.fatAddr d + 4 ≤ im.fatAddr c ∨ im.fatAddr c + 4 ≤ im.fatAddr d
  unfold fatAddr
  omega

theorem entry_setData (hb : im.bpb.Geometry) (hd : d < im.bpb.clusters) : (im.setData c lo hi src).entry d = im.entry d := by
  refine read_congr fun a _ ha => if_neg ?_
  have := fatAddr_lt hb hd
  change a < im.fatAddr d + 4 at ha
  unfold dataAddr
  omega

theorem byteAt_setEntry (hb : im.bpb.Geometry) (hc : c < im.bpb.clusters) (p : Nat) :
    (im.setEntry c w).byteAt l p = im.byteAt l p := by
  refine write_of_outside (.inr ?_)
  have := fatAddr_lt hb hc
  show im.fatAddr c + 4 ≤ im.dataAddr _ + p % 4096
  unfold dataAddr
  omega

theorem Linked.congr (h : im.Linked l) (heq : ∀ c ∈ l, im'.entry c = im.entry c) : im'.Linked l := by
  intro i c hc
  rw [heq c (mem_of_getElem? hc)]
  exact h i c hc

theorem Linked.tail (h : im.Linked (c :: l)) : im.Linked l := fun i d hd => h (i + 1) d (by simpa using hd)

theorem Linked.entry_ne_zero (h : im.Linked l) (hv : ∀ c ∈ l, im.Valid c) (hc : c ∈ l) : im.entry c ≠ 0 := by
  obtain ⟨i, hi⟩ := getElem?_of_mem hc
  obtain ⟨hlink, hend⟩ := h i c hi
  cases hnext : l[i + 1]? with
  | none =>
    have := hend hnext
    omega
  | some d =>
    rw [hlink d hnext]
    have := hv d (mem_of_getElem? hnext)
    omega

theorem chainFrom_eq (hb : im.bpb.Geometry) (h : im.Linked (c :: l)) (hv : ∀ d ∈ c :: l, im.Valid d)
    (hn : l.length < n) : im.chainFrom n c = c :: l := by
  induction n generalizing c l with
  | zero => cases hn
  | succ n ih =>
    obtain ⟨hlink, hend⟩ := h 0 c rfl
    unfold chainFrom
    cases l with
    | nil => rw [if_pos (hend rfl)]
    | cons d l =>
      have hd : im.entry c = d := hlink d rfl
      have hvalid := hv d (by simp)
      have hnumbers := hb.numbers
      rw [hd, if_neg (by omega), ih h.tail (fun x hx => hv x (mem_cons_of_mem c hx)) (by simpa using hn)]

namespace Chains

theorem length_le (h : Chains im cs) (f : Nat) : (cs f).length ≤ im.bpb.clusters := by
  have hsub : cs f ⊆ range im.bpb.clusters := fun c hc => mem_range.mpr (h.valid f c hc).2
  simpa using ((h.nodup f).subperm hsub).length_le

theorem chain_eq (hb : im.bpb.Geometry) (h : Chains im cs) : im.chain = cs := by
  funext f
  have hfirst := h.first f
  have hlength := h.length_le f
  have hlinked := h.linked f
  have hvalid := h.valid f
  unfold chain
  cases hcs : cs f with
  | nil =>
    rw [hcs] at hfirst
    split
    · rfl
    next hne =>
      rw [if_neg hne] at hfirst
      cases hfirst
  | cons c l =>
    rw [hcs] at hfirst hlength hlinked hvalid
    split at hfirst
    · cases hfirst
    next hne =>
      rw [if_neg hne, ← Option.some.inj hfirst]
      exact chainFrom_eq hb hlinked hvalid hlength

theorem congr (h : Chains im cs) (hbpb : im'.bpb = im.bpb) (hentry : ∀ c, im.Valid c → im'.entry c = im.entry c)
    (hfirst : ∀ f, (im'.files f).firstCluster = (im.files f).firstCluster)
    (hdir : ∀ f, (im'.files f).dirCluster = (im.files f).dirCluster ∧ (im'.files f).dirOffset = (im.files f).dirOffset) :
    Chains im' cs where
  first f := by
    rw [hfirst]
    exact h.first f
  linked f := (h.linked f).congr fun c hc => hentry c (h.valid f c hc)
  valid f c hc := by
    rw [Valid, hbpb]
    exact h.valid f c hc
  nodup := h.nodup
  disjoint := h.disjoint
  directory f := by
    rw [(hdir f).1, (hdir f).2, hentry _ (h.directory f).1, Valid, hbpb]
    exact h.directory f
  apart f g := by
    rw [(hdir f).1]
    exact h.apart f g

theorem notMem_of_free (h : Chains im cs) (hd : im.entry d = 0) (g : Nat) : d ∉ cs g :=
  fun hmem => (h.linked g).entry_ne_zero (h.valid g) hmem hd

end Chains

/-! ### A new cluster -/

theorem entry_link (hd : d < wordSize) (x : Nat) :
    ((im.setEntry d endMark).setEntry c d).entry x = if x = c then d else if x = d then endMark else im.entry x := by
  by_cases hc : x = c
  · rw [if_pos hc, hc, entry_setEntry_self]
    exact Nat.mod_eq_of_lt hd
  rw [if_neg hc, entry_setEntry_of_ne hc]
  by_cases hx : x = d
  · rw [if_pos hx, hx, entry_setEntry_self]
    rfl
  · rw [if_neg hx, entry_setEntry_of_ne hx]

theorem Linked.append (h : im.Linked l) (hnodup : l.Nodup) (hlast : l.getLast? = some c)
    (hc : im'.entry c = d) (hend : im'.entry d = endMark) (heq : ∀ x ∈ l, x ≠ c → im'.entry x = im.entry x) :
    im'.Linked (l ++ [d]) := by
  intro i x hx
  rw [getLast?_eq_getElem?] at hlast
  obtain hi | hi | hi : i + 1 < l.length ∨ i + 1 = l.length ∨ l.length ≤ i := by omega
  · -- in front of the last cluster nothing has changed
    rw [getElem?_append_left (by omega)] at hx
    have hne : x ≠ c := by
      intro heq
      rw [heq, ← hlast] at hx
      have := (getElem?_inj (by omega) hnodup).mp hx
      omega
    rw [heq x (mem_of_getElem? hx) hne, getElem?_append_left hi]
    exact h i x hx
  · rw [getElem?_append_left (by omega)] at hx
    rw [show l.length - 1 = i by omega, hx] at hlast
    rw [Option.some.inj hlast, hc, hi]
    simp
  · obtain rfl : i = l.length := by
      obtain ⟨hlt, -⟩ := List.getElem?_eq_some_iff.mp hx
      simp at hlt
      omega
    simp at hx
    rw [← hx, hend]
    simp [endMark]

theorem mem_extended {x : Nat} : x ∈ update cs f (cs f ++ [d]) g ↔ x ∈ cs g ∨ x = d ∧ g = f := by
  by_cases hg : g = f
  · subst hg
    simp
  · simp [hg]

theorem Chains.extend (h : Chains im cs) (hd : im.Valid d) (hfree : im.entry d = 0) (hbpb : im'.bpb = im.bpb)
    (hhead : (cs f ++ [d]).head? = some (im'.files f).firstCluster ∧ (im'.files f).firstCluster ≠ 0)
    (hfirst : ∀ g, g ≠ f → (im'.files g).firstCluster = (im.files g).firstCluster)
    (hdir : ∀ g, (im'.files g).dirCluster = (im.files g).dirCluster ∧ (im'.files g).dirOffset = (im.files g).dirOffset)
    (hlinked : im'.Linked (cs f ++ [d])) (hothers : ∀ g, g ≠ f → ∀ x ∈ cs g, im'.entry x = im.entry x)
    (hentry : ∀ g, im'.entry (im.files g).dirCluster ≠ 0) : Chains im' (update cs f (cs f ++ [d])) where
  first g := by
    by_cases hg : g = f
    · rw [hg, update_self, if_neg hhead.2, hhead.1]
    · rw [update_of_ne hg, hfirst g hg]
      exact h.first g
  linked g := by
    by_cases hg : g = f
    · rw [hg, update_self]
      exact hlinked
    · rw [update_of_ne hg]
      exact (h.linked g).congr (hothers g hg)
  valid g x hx := by
    rw [Valid, hbpb]
    obtain hx | ⟨rfl, -⟩ := mem_extended.mp hx
    · exact h.valid g x hx
    · exact hd
  nodup g := by
    by_cases hg : g = f
    · rw [hg, update_self, ← concat_eq_append]
      exact (h.nodup f).concat (h.notMem_of_free hfree f)
    · rw [update_of_ne hg]
      exact h.nodup g
  disjoint g g' hne x hx hx' := by
    rw [mem_extended] at hx hx'
    obtain hx | ⟨rfl, hg⟩ := hx
    · obtain hx' | ⟨rfl, -⟩ := hx'
      · exact h.disjoint g g' hne x hx hx'
      · exact h.notMem_of_free hfree g hx
    · obtain hx' | ⟨-, hg'⟩ := hx'
      · exact h.notMem_of_free hfree g' hx'
      · exact hne (hg.trans hg'.symm)
  directory g := by
    obtain ⟨hvalid, -, hoffset⟩ := h.directory g
    rw [(hdir g).1, (hdir g).2, Valid, hbpb]
    exact ⟨hvalid, hentry g, hoffset⟩
  apart g g' hx := by
    rw [(hdir g).1] at hx
    obtain hx | ⟨hx, -⟩ := mem_extended.mp hx
    · exact h.apart g g' hx
    · rw [← hx] at hfree
      exact (h.directory g).2.1 hfree

theorem Chains.append (h : Chains im cs) (hb : im.bpb.Geometry) (hlast : (cs f).getLast? = some c) (hd : im.Valid d)
    (hfree : im.entry d = 0) :
    Chains ((im.setEntry d endMark).setEntry c d) (update cs f (cs f ++ [d])) := by
  have hmem : c ∈ cs f := mem_of_getLast? hlast
  have hnot := h.notMem_of_free hfree
  have hne : c ≠ d := by
    rintro rfl
    exact hnot f hmem
  have hlt : d < wordSize := by
    have := hb.numbers
    unfold wordSize
    omega
  have hfirst : (cs f).head? = some (im.files f).firstCluster ∧ (im.files f).firstCluster ≠ 0 := by
    have hfirst := h.first f
    split at hfirst
    · rw [head?_eq_none_iff] at hfirst
      rw [hfirst] at hmem
      cases hmem
    next hne => exact ⟨hfirst, hne⟩
  refine h.extend hd hfree rfl ⟨?_, hfirst.2⟩ (fun _ _ => rfl) (fun _ => ⟨rfl, rfl⟩) ?_ (fun g hg x hx => ?_) fun g => ?_
  · rw [head?_append_of_ne_nil _ (ne_nil_of_mem hmem)]
    exact hfirst.1
  · refine (h.linked f).append (h.nodup f) hlast ?_ ?_ fun x hx hxc => ?_
    · rw [entry_link hlt, if_pos rfl]
    · rw [entry_link hlt, if_neg hne.symm, if_pos rfl]
    · rw [entry_link hlt, if_neg hxc, if_neg (by rintro rfl; exact hnot f hx)]
  · rw [entry_link hlt, if_neg (by rintro rfl; exact h.disjoint f g hg.symm x hmem hx),
      if_neg (by rintro rfl; exact hnot g hx)]
  · rw [entry_link hlt]
    split
    · omega
    · split
      · decide
      · exact (h.directory g).2.1

theorem Chains.allocateFirst {file : FatFile} (h : Chains im cs) (hempty : cs f = []) (hd : im.Valid d)
    (hfree : im.entry d = 0) (hfirst : file.firstCluster = d) (hdir : file.dirCluster = (im.files f).dirCluster)
    (hoffset : file.dirOffset = (im.files f).dirOffset) :
    Chains ((im.setEntry d endMark).setFile f file) (update cs f (cs f ++ [d])) := by
  have hfiles {g : Nat} (hg : g ≠ f) : ((im.setEntry d endMark).setFile f file).files g = im.files g :=
    files_setFile_of_ne hg ..
  have hentry (x : Nat) : ((im.setEntry d endMark).setFile f file).entry x = if x = d then endMark else im.entry x := by
    split
    next hx =>
      rw [hx]
      exact entry_setEntry_self im d endMark
    next hx => exact entry_setEntry_of_ne hx
  refine h.extend hd hfree rfl ⟨?_, ?_⟩ (fun g hg => ?_) (fun g => ?_) (fun i x hx => ?_) (fun g hg x hx => ?_) fun g => ?_
  · rw [hempty, files_setFile_self, hfirst]
    rfl
  · rw [files_setFile_self]
    omega
  · rw [hfiles hg]
  · by_cases hg : g = f
    · subst hg
      rw [files_setFile_self]
      exact ⟨hdir, hoffset⟩
    · rw [hfiles hg]
      exact ⟨rfl, rfl⟩
  · rw [hempty] at hx ⊢
    cases i with
    | zero =>
      obtain rfl : d = x := by simpa using hx
      refine ⟨fun y hy => by simp at hy, fun _ => ?_⟩
      rw [hentry, if_pos rfl]
      decide
    | succ i => simp at hx
  · rw [hentry, if_neg (by rintro rfl; exact h.notMem_of_free hfree g hx)]
  · rw [hentry]
    split
    · decide
    · exact (h.directory g).2.1

/-! ### Free clusters -/

/-- Where a search from `c` on has to end: behind it there are no clusters, or the next 8 sectors of the FAT begin. -/
def searchEnd (im : Image) (c : Nat) : Nat := min im.bpb.clusters (1024 * (c / 1024 + 1))

/-- The number of free clusters behind `c` whose entries are in the same 8 sectors. -/
def freeAfter (im : Image) (c : Nat) : Nat :=
  (range' (c + 1) (im.searchEnd c - (c + 1))).countP fun d => im.entry d = 0

/-- `d` is the first free cluster that a search from `c` on finds. -/
structure FirstFree (im : Image) (c d : Nat) : Prop where
  lt : c < d
  valid : d < im.bpb.clusters
  group : d / 1024 = c / 1024
  free : im.entry d = 0
  before : ∀ x, c < x → x < d → im.entry x ≠ 0

structure FreeFrom (im : Image) (c d : Nat) : Prop where
  le : c ≤ d
  free : im.entry d = 0
  before : ∀ x, c ≤ x → x < d → im.entry x ≠ 0

theorem exists_first_countP {p : Nat → Bool} {k : Nat} (h : k < (range' (c + 1) n).countP p) :
    ∃ d, c < d ∧ d ≤ c + n ∧ p d ∧ (∀ x, c < x → x < d → p x = false) ∧
      k ≤ (range' (d + 1) (c + n - d)).countP p := by
  induction n generalizing c with
  | zero => cases h
  | succ n ih =>
    rw [range'_succ, countP_cons] at h
    cases hp : p (c + 1) with
    | true =>
      refine ⟨c + 1, by omega, by omega, hp, fun x _ _ => by omega, ?_⟩
      rw [hp] at h
      rw [show c + (n + 1) - (c + 1) = n by omega]
      simp only [if_true] at h
      omega
    | false =>
      rw [hp] at h
      obtain ⟨d, hlt, hle, hd, hbefore, hcount⟩ := ih (by simpa using h)
      refine ⟨d, by omega, by omega, hd, fun x hx hxd => ?_, ?_⟩
      · by_cases heq : x = c + 1
        · rw [heq, hp]
        · exact hbefore x (by omega) hxd
      · rwa [show c + (n + 1) - d = c + 1 + n - d by omega]

theorem exists_firstFree {k : Nat} (h : k < im.freeAfter c) : ∃ d, im.FirstFree c d ∧ k ≤ im.freeAfter d := by
  obtain ⟨d, hlt, hle, hfree, hbefore, hcount⟩ := exists_first_countP h
  have hend : d < im.searchEnd c := by
    omega
  have hgroup : d / 1024 = c / 1024 := by
    unfold searchEnd at hend
    omega
  refine ⟨d, ⟨hlt, by unfold searchEnd at hend; omega, hgroup, by simpa using hfree, fun x hx hxd => ?_⟩, ?_⟩
  · simpa using hbefore x hx hxd
  · unfold freeAfter
    rwa [show im.searchEnd d = im.searchEnd c by unfold searchEnd; rw [hgroup],
      show im.searchEnd c - (d + 1) = c + (im.searchEnd c - (c + 1)) - d by omega]

theorem freeAfter_congr (hbpb : im'.bpb = im.bpb)
    (h : ∀ x, c < x → x < im.bpb.clusters → im'.entry x = im.entry x) : im'.freeAfter c = im.freeAfter c := by
  unfold freeAfter
  rw [show im'.searchEnd c = im.searchEnd c by unfold searchEnd; rw [hbpb]]
  refine countP_congr fun x hx => ?_
  have hend : im.searchEnd c ≤ im.bpb.clusters := Nat.min_le_left _ _
  rw [mem_range'_1] at hx
  rw [h x (by omega) (by omega)]

end Image

/-! ### The part of the FAT in memory -/

/-- A cluster whose entry is found at any time: the 128 entries behind the part in memory count as a part of it. -/
abbrev Safe (c : Nat) : Prop := c < 1024 ∨ 128 ≤ c % 1024

namespace Volume
variable {v : Volume} {c d g i w n s : Nat}

/-- The part in memory is the `g`-th one of the device. -/
structure CacheAt (v : Volume) (g : Nat) : Prop where
  sector : v.fatSector = v.bpb.reservedSectorCount + 8 * g
  bytes : ∀ x < 4096, 4096 * g + x < 512 * v.bpb.tableSize32 →
    v.fat x = v.disk (512 * v.bpb.reservedSectorCount + 4096 * g + x)

def Coherent (v : Volume) : Prop := ∃ g, v.CacheAt g

theorem cacheAt_loadFat (v : Volume) (g : Nat) : (v.loadFat (v.bpb.reservedSectorCount + 8 * g)).CacheAt g where
  sector := rfl
  bytes x _ _ := by
    show v.disk (512 * (v.bpb.reservedSectorCount + 8 * g) + x) = v.disk (512 * v.bpb.reservedSectorCount + 4096 * g + x)
    congr 1
    omega

theorem CacheAt.fatWord (h : v.CacheAt (c / 1024)) (hb : v.bpb.Geometry) (hc : c < v.bpb.clusters) :
    v.fatWord (c % 1024) = v.entry c := by
  have hentries := hb.entries
  unfold Volume.fatWord Image.entry
  rw [Image.fatAddr_eq, Nat.mul_add, ← Nat.mul_assoc]
  exact read_shift fun x _ _ => h.bytes x (by omega) (by omega)

/-- The part in memory is what stands on the device from `sector` on. -/
def Shows (v : Volume) (sector : Nat) : Prop := ∀ x < 4096, v.fat x = v.disk (512 * sector + x)

theorem index_eq (hc : c < 0x10000000) : c * 4 % wordSize = 4 * c ∧ 4 * c / 512 = c / 128 := by
  unfold wordSize
  omega

theorem Shows.fatWord (h : v.Shows (v.bpb.reservedSectorCount + 8 * (c / 1024))) : v.fatWord (c % 1024) = v.entry c := by
  unfold Volume.fatWord Image.entry
  rw [Image.fatAddr_eq]
  exact read_shift fun x _ _ => h x (by omega)

theorem fatNextCluster_eq (h : v.Coherent) (hb : v.bpb.Geometry) (hc : c < v.bpb.clusters) (hsafe : Safe c) :
    ∃ v', v.fatNextCluster c = (v.entry c, v') ∧ v'.toImage = v.toImage ∧ v'.CacheAt (c / 1024) := by
  have hnumbers := hb.numbers
  simp only [fatNextCluster, (index_eq (by omega : c < 0x10000000)).1]
  rw [show 4 * c / 4 % 1024 = c % 1024 by omega]
  split
  · rw [show (4 * c - 4 * c % 4096) / 512 + v.bpb.reservedSectorCount = v.bpb.reservedSectorCount + 8 * (c / 1024) by omega]
    have hcache := cacheAt_loadFat v (c / 1024)
    exact ⟨_, Prod.ext (hcache.fatWord hb hc) rfl, rfl, hcache⟩
  next hmiss =>
    obtain ⟨g, hg⟩ := h
    simp only [cacheMiss, hg.sector, decide_eq_true_eq] at hmiss
    obtain rfl : g = c / 1024 := by omega
    exact ⟨v, Prod.ext (hg.fatWord hb hc) rfl, rfl, hg⟩

theorem findFree_eq (hi : i < 1024) (hn : 1024 - n ≤ i) (hn' : n ≤ 1024) (hfree : v.fatWord i = 0)
    (hbefore : ∀ x, 1024 - n ≤ x → x < i → v.fatWord x ≠ 0) : v.findFree n = some i := by
  induction n with
  | zero => omega
  | succ n ih =>
    unfold findFree
    by_cases heq : 1024 - (n + 1) = i
    · rw [heq, if_pos hfree]
    · rw [if_neg (hbefore _ (Nat.le_refl _) (by omega))]
      exact ih (by omega) (by omega) fun x hx hxi => hbefore x (by omega) hxi

theorem findFree_eq_none (h : ∀ x, 1024 - n ≤ x → x < 1024 → v.fatWord x ≠ 0) : v.findFree n = none := by
  induction n with
  | zero => rfl
  | succ n ih =>
    unfold findFree
    rw [if_neg (h _ (Nat.le_refl _) (by omega))]
    exact ih fun x hx => h x (by omega)

def writeBack (v : Volume) (c w : Nat) : Volume :=
  (v.setFatWord (c % 1024) w).vfsWriteBlock (v.bpb.reservedSectorCount + 8 * (c / 1024)) (v.setFatWord (c % 1024) w).fat

theorem Shows.toImage_writeBack (h : v.Shows (v.bpb.reservedSectorCount + 8 * (c / 1024))) :
    (v.writeBack c w).toImage = v.setEntry c w := by
  have hdisk : (v.writeBack c w).disk = write v.disk (v.fatAddr c) w := by
    have haddr := v.fatAddr_eq c
    funext a
    unfold writeBack vfsWriteBlock setFatWord
    dsimp only
    split
    · obtain ⟨x, rfl⟩ : ∃ x, a = 512 * (v.bpb.reservedSectorCount + 8 * (c / 1024)) + x :=
        ⟨a - 512 * (v.bpb.reservedSectorCount + 8 * (c / 1024)), by omega⟩
      rw [haddr, Nat.add_sub_cancel_left]
      exact write_shift (h x (by omega))
    · rw [write_of_outside (by omega)]
  unfold Image.setEntry
  rw [← hdisk]
  rfl

theorem shows_vfsWriteBlock (v : Volume) (sector : Nat) : (v.vfsWriteBlock sector v.fat).Shows sector := by
  intro x hx
  simp [vfsWriteBlock, hx]

/-- Behind the last entry in memory the search goes on 8 sectors further, which is the next part of the FAT only if it
    started in the first sector of a part. -/
theorem searchFree_eq {k : Nat} (h : v.Shows (v.bpb.reservedSectorCount + 8 * g)) (hs : s / 8 = g) (hk : k ≤ 1024)
    (hd : v.FreeFrom (1024 * g + k) d) (hpart : d / 1024 = g ∨ s % 8 = 0)
    (hdev : v.bpb.reservedSectorCount + 8 * (d / 1024) + 8 ≤ v.bpb.sectors) (hn : d / 1024 < g + n) :
    ∃ v', searchFree n s k (1024 * g + k) v = (some d, v') ∧ v'.toImage = v.setEntry d endMark ∧ v'.fatSector = v.fatSector := by
  induction n generalizing v g s k with
  | zero => exact absurd hd.le (by omega)
  | succ n ih =>
    have hle := hd.le
    have hword : ∀ x, k ≤ x → x < 1024 → 1024 * g + x < d → v.fatWord x ≠ 0 := by
      intro x hx hlt hxd
      obtain ⟨y, rfl, rfl, hy⟩ : ∃ y, y / 1024 = g ∧ y % 1024 = x ∧ 1024 * g + x = y := ⟨1024 * g + x, by omega, by omega, rfl⟩
      rw [Shows.fatWord h]
      exact hd.before y (by omega) (by omega)
    unfold searchFree
    by_cases hin : d / 1024 = g
    · subst hin
      have hfind : v.findFree (1024 - k) = some (d % 1024) :=
        findFree_eq (by omega) (by omega) (by omega) (h.fatWord.trans hd.free) fun x hx hxd => hword x (by omega) (by omega) (by omega)
      refine ⟨v.writeBack d endMark, ?_, h.toImage_writeBack, rfl⟩
      rw [hfind]
      simp only [writeBack, show 1024 * (d / 1024) + k + (d % 1024 - k) = d by omega]
      rw [show s - s % 8 = 8 * (d / 1024) by omega, Nat.add_comm (8 * _)]
      rfl
    · have halign : s % 8 = 0 := hpart.resolve_left hin
      rw [findFree_eq_none fun x hx hxlt => hword x (by omega) hxlt (by omega)]
      dsimp only
      rw [if_neg (by omega), show 1024 * g + k + (1024 - k) = 1024 * (g + 1) + 0 by omega]
      refine @ih { v with fat := v.vfsReadBlock (s + 8 + v.bpb.reservedSectorCount) } (g + 1) (s + 8) 0 ?_ (by omega)
        (by omega) ⟨by omega, hd.free, fun x hx => hd.before x (by omega)⟩ (.inr (by omega)) hdev (by omega)
      intro x _
      rw [show v.bpb.reservedSectorCount + 8 * (g + 1) = s + 8 + v.bpb.reservedSectorCount by omega]
      rfl

theorem fatAllocateCluster_hit (h : v.Shows v.fatSector) (hsector : v.fatSector = v.bpb.reservedSectorCount + 8 * (c / 1024))
    (hc : c < 0x10000000) (hd : v.FreeFrom (c + 1) d) (hpart : d / 1024 = c / 1024 ∨ c / 128 % 8 = 0)
    (hdev : v.bpb.reservedSectorCount + 8 * (d / 1024) + 8 ≤ v.bpb.sectors) (update : Bool) :
    ∃ v', v.fatAllocateCluster c update = (d, v') ∧ v'.Shows v'.fatSector ∧ v'.fatSector = v.fatSector ∧
      v'.toImage = if update then (v.setEntry d endMark).setEntry c d else v.setEntry d endMark := by
  have hmiss : v.cacheMiss (c / 128 + v.bpb.reservedSectorCount) = false := by
    simp only [cacheMiss, hsector, decide_eq_false_iff_not]
    omega
  have hindex : c + 1 = 1024 * (c / 1024) + (c % 1024 + 1) := by omega
  obtain ⟨u, hsearch, himage, hkept⟩ := searchFree_eq (s := c / 128) (n := v.bpb.sectors) (hsector ▸ h) (by omega) (by omega)
    (hindex ▸ hd) hpart hdev (by omega)
  simp only [fatAllocateCluster, index_eq hc, hmiss, show 4 * c / 4 % 1024 = c % 1024 by omega, Nat.add_sub_cancel, hindex ▸ hsearch,
    Bool.false_eq_true, if_false]
  -- the part in memory is read again
  let u' := { u with fat := u.vfsReadBlock v.fatSector }
  have hbpb : u.bpb = v.bpb := by
    rw [himage]
    rfl
  have hshows : u'.Shows (u'.bpb.reservedSectorCount + 8 * (c / 1024)) := by
    rw [hbpb, ← hsector]
    exact fun _ _ => rfl
  cases update with
  | false => exact ⟨u', rfl, hkept ▸ fun _ _ => rfl, hkept, himage⟩
  | true =>
    refine ⟨u'.writeBack c d, ?_, ?_, hkept, ?_⟩
    · rw [if_pos rfl, writeBack, hbpb, ← hsector]
    · show Shows _ u.fatSector
      rw [hkept, writeBack, hbpb, ← hsector]
      exact shows_vfsWriteBlock _ _
    · rw [hshows.toImage_writeBack]
      exact congrArg (Image.setEntry · c d) himage

theorem fatAllocateCluster_eq (h : v.CacheAt (c / 1024)) (hb : v.bpb.Geometry) (hc : c < v.bpb.clusters)
    (hgroup : 8 * (c / 1024 + 1) ≤ v.bpb.tableSize32) (hd : v.FirstFree c d) (update : Bool) :
    ∃ v', v.fatAllocateCluster c update = (d, v') ∧ v'.CacheAt (c / 1024) ∧
      v'.toImage = if update then (v.setEntry d endMark).setEntry c d else v.setEntry d endMark := by
  have hnumbers := hb.numbers
  have hdgroup := hd.group
  have hdev : v.bpb.reservedSectorCount + 8 * (d / 1024) + 8 ≤ v.bpb.sectors := by
    have := hb.data
    have := Nat.le_mul_of_pos_left v.bpb.tableSize32 hb.tables
    unfold Bpb.firstDataBlock at *
    omega
  obtain ⟨v', halloc, hshows, hsector, himage⟩ := fatAllocateCluster_hit
    (fun x hx => by rw [h.bytes x hx (by omega), h.sector]; congr 1; omega) h.sector (by omega)
    ⟨hd.lt, hd.free, hd.before⟩ (.inl hdgroup) hdev update
  have hbpb : v'.bpb = v.bpb := by
    rw [himage]
    cases update <;> rfl
  refine ⟨v', halloc, ⟨by rw [hsector, hbpb, h.sector], fun x hx _ => ?_⟩, himage⟩
  rw [hshows x hx, hsector, h.sector, hbpb]
  congr 1
  omega

end Volume
end Fat
end HelinKern
