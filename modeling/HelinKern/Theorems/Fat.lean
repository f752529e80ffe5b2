import HelinKern.Lib.Mealy
import HelinKern.Theorems.FatTable

/-! What `fat_read` and `fat_write` do to the files of a volume, where a file is the list of the bytes along its chain. -/

namespace HelinKern
namespace Fat
open Word Function List

variable {n j : Nat} {file : FatFile} {v' : Volume}

theorem int32_of_lt (h : n < 2147483648) : int32 n = n := by
  exact Int.bmod_eq_of_le (by omega) (by omega)

theorem mod_word (h : n < 4294967296) : n % wordSize = n := Nat.mod_eq_of_lt h

namespace FatFile

def grow (file : FatFile) (n : Nat) : FatFile := if file.size < n then file.setSize n else file

theorem firstCluster_setSize (file : FatFile) (n : Nat) : (file.setSize n).firstCluster = file.firstCluster := by
  unfold firstCluster firstClusterHigh firstClusterLow setSize Elf.half
  dsimp only
  rw [write_of_outside (.inl (by decide)), write_of_outside (.inl (by decide)), write_of_outside (.inl (by decide)),
    write_of_outside (.inl (by decide))]

theorem size_grow (file : FatFile) (n : Nat) : (file.grow n).size = max file.size n := by
  unfold grow
  split
  next h => exact (Nat.max_eq_right (Nat.le_of_lt h)).symm
  next h => exact (Nat.max_eq_left (Nat.le_of_not_lt h)).symm

theorem firstCluster_setFirstClusterLow (h : file.firstCluster = 0) (hn : n < 65536) :
    (file.setFirstClusterLow n).firstCluster = n := by
  have hhigh : (file.setFirstClusterLow n).firstClusterHigh = 0 := by
    change file.firstClusterHigh = 0
    unfold firstCluster at h
    omega
  have hlow : (file.setFirstClusterLow n).firstClusterLow = n := by
    simp [firstClusterLow, setFirstClusterLow, Elf.half]
    omega
  unfold firstCluster
  omega

end FatFile

/-! ### Changes of one file -/

namespace Image
variable {im im' im₁ im₂ : Image} {c d f i lo mid hi p n : Nat} {cs cs' cs₁ cs₂ : Nat → List Nat} {l : List Nat}
  {src dst : Nat → BitVec 8}

/-- The bytes of the file `f` from `lo` on and before `hi` are replaced, and its chain may have become longer. -/
structure Patched (im im' : Image) (cs cs' : Nat → List Nat) (f lo hi : Nat) (src : Nat → BitVec 8) : Prop where
  bpb : im'.bpb = im.bpb
  files : im'.files = im.files
  longer : cs f <+: cs' f
  same : ∀ g, g ≠ f → cs' g = cs g
  others : ∀ g, g ≠ f → ∀ p < 4096 * (cs g).length, im'.byteAt (cs g) p = im.byteAt (cs g) p
  inside : ∀ p, lo ≤ p → p < hi → im'.byteAt (cs' f) p = src p
  outside : ∀ p < 4096 * (cs f).length, ¬(lo ≤ p ∧ p < hi) → im'.byteAt (cs' f) p = im.byteAt (cs f) p

theorem Patched.refl (im : Image) (cs : Nat → List Nat) (f lo : Nat) (src : Nat → BitVec 8) : Patched im im cs cs f lo lo src where
  bpb := rfl
  files := rfl
  longer := prefix_refl _
  same _ _ := rfl
  others _ _ _ _ := rfl
  inside p hlo hhi := by omega
  outside _ _ _ := rfl

theorem Patched.trans (h₁ : Patched im im₁ cs cs₁ f lo mid src) (h₂ : Patched im₁ im₂ cs₁ cs₂ f mid hi src)
    (hlo : lo ≤ mid) (hhi : mid ≤ hi) (hlen : lo < mid → mid ≤ 4096 * (cs₁ f).length) :
    Patched im im₂ cs cs₂ f lo hi src where
  bpb := h₂.bpb.trans h₁.bpb
  files := h₂.files.trans h₁.files
  longer := h₁.longer.trans h₂.longer
  same g hg := (h₂.same g hg).trans (h₁.same g hg)
  others g hg p hp := by
    have h := h₂.others g hg p (by rwa [h₁.same g hg])
    rw [h₁.same g hg] at h
    exact h.trans (h₁.others g hg p hp)
  inside p hp hp' := by
    by_cases hmid : mid ≤ p
    · exact h₂.inside p hmid hp'
    · rw [h₂.outside p (by omega) (by omega)]
      exact h₁.inside p hp (by omega)
  outside p hp hout := by
    have hle := h₁.longer.length_le
    rw [h₂.outside p (by omega) (by omega)]
    exact h₁.outside p hp (by omega)

theorem getD_of_getElem? (h : l[i]? = some c) : l.getD i 0 = c := by
  rw [getD_eq_getElem?_getD, h]
  rfl

theorem byteAt_of_getElem? (h : l[p / 4096]? = some c) : im.byteAt l p = im.disk (im.dataAddr c + p % 4096) := by
  unfold byteAt
  rw [getD_of_getElem? h]

theorem byteAt_setData (hd : l[p / 4096]? = some d) (hd2 : 2 ≤ d) (hc2 : 2 ≤ c) (hhi : hi ≤ 4096) :
    (im.setData c lo hi src).byteAt l p =
      if d = c ∧ lo ≤ p % 4096 ∧ p % 4096 < hi then src (p % 4096) else im.byteAt l p := by
  rw [byteAt_of_getElem? hd, byteAt_of_getElem? hd]
  show (if im.dataAddr c + lo ≤ im.dataAddr d + p % 4096 ∧ im.dataAddr d + p % 4096 < im.dataAddr c + hi then
    src (im.dataAddr d + p % 4096 - im.dataAddr c) else _) = _
  have hiff : (im.dataAddr c + lo ≤ im.dataAddr d + p % 4096 ∧ im.dataAddr d + p % 4096 < im.dataAddr c + hi) ↔
      (d = c ∧ lo ≤ p % 4096 ∧ p % 4096 < hi) := by
    unfold dataAddr
    omega
  rw [if_congr hiff rfl rfl]
  split
  next h => rw [h.1, Nat.add_sub_cancel_left]
  · rfl

theorem Chains.setData (h : Chains im cs) (hb : im.bpb.Geometry) : Chains (im.setData c lo hi src) cs :=
  h.congr rfl (fun _ hd => entry_setData hb hd.2) (fun _ => rfl) fun _ => ⟨rfl, rfl⟩

theorem Chains.byteAt_setData_of_ne {g : Nat} (h : Chains im cs) (hc : 2 ≤ c) (hhi : hi ≤ 4096) (hp : p < 4096 * (cs g).length)
    (hne : (cs g)[p / 4096]? = some c → ¬(lo ≤ p % 4096 ∧ p % 4096 < hi)) :
    (im.setData c lo hi src).byteAt (cs g) p = im.byteAt (cs g) p := by
  have hd := getElem?_eq_getElem (show p / 4096 < (cs g).length by omega)
  rw [byteAt_setData hd (h.valid g _ (mem_of_getElem? hd)).1 hc hhi, if_neg]
  intro heq
  rw [heq.1] at hd
  exact hne hd heq.2

theorem Chains.patched_setData (h : Chains im cs) (hc : (cs f)[i]? = some c) (hhi : hi ≤ 4096)
    (hsrc : ∀ x, lo ≤ x → x < hi → src x = dst (4096 * i + x)) :
    Patched im (im.setData c lo hi src) cs cs f (4096 * i + lo) (4096 * i + hi) dst where
  bpb := rfl
  files := rfl
  longer := prefix_refl _
  same _ _ := rfl
  others g hg p hp := by
    have hmem := mem_of_getElem? hc
    exact h.byteAt_setData_of_ne (h.valid f c hmem).1 hhi hp fun hd =>
      absurd (mem_of_getElem? hd) (h.disjoint f g hg.symm c hmem)
  inside p hp hp' := by
    have hp4 : p / 4096 = i := by omega
    have hvalid := h.valid f c (mem_of_getElem? hc)
    rw [byteAt_setData (by rw [hp4]; exact hc) hvalid.1 hvalid.1 hhi, if_pos ⟨rfl, by omega, by omega⟩,
      hsrc _ (by omega) (by omega)]
    congr 1
    omega
  outside p hp hout := by
    refine h.byteAt_setData_of_ne (h.valid f c (mem_of_getElem? hc)).1 hhi hp fun hd => ?_
    have := (getElem?_inj (by omega) (h.nodup f)).mp (hd.trans hc.symm)
    omega

theorem Chains.patched_apart {x y : Nat} (h : Chains im cs) (hc : 2 ≤ c) (hapart : ∀ g, c ∉ cs g) (hy : y ≤ 4096) (f lo : Nat)
    (dst : Nat → BitVec 8) : Patched im (im.setData c x y src) cs cs f lo lo dst := by
  have hbyte (g p : Nat) (hp : p < 4096 * (cs g).length) : (im.setData c x y src).byteAt (cs g) p = im.byteAt (cs g) p :=
    h.byteAt_setData_of_ne hc hy hp fun hd => absurd (mem_of_getElem? hd) (hapart g)
  exact ⟨rfl, rfl, prefix_refl _, fun _ _ => rfl, fun g _ => hbyte g, fun p hp hp' => by omega, fun p hp _ => hbyte f p hp⟩

theorem patched_append (hb : im.bpb.Geometry) (hc : im.Valid c) (hd : im.Valid d) (cs : Nat → List Nat) (f lo : Nat)
    (src : Nat → BitVec 8) :
    Patched im ((im.setEntry d endMark).setEntry c d) cs (update cs f (cs f ++ [d])) f lo lo src := by
  have hbyte (l : List Nat) (p : Nat) : ((im.setEntry d endMark).setEntry c d).byteAt l p = im.byteAt l p := by
    have hb' : (im.setEntry d endMark).bpb.Geometry := hb
    rw [byteAt_setEntry hb' hc.2, byteAt_setEntry hb hd.2]
  refine ⟨rfl, rfl, ?_, fun g hg => update_of_ne hg .., fun g _ p _ => hbyte _ p, fun p hp hp' => by omega,
    fun p hp _ => ?_⟩
  · rw [update_self]
    exact prefix_append ..
  · rw [hbyte, update_self]
    have hcluster := getElem?_eq_getElem (show p / 4096 < (cs f).length by omega)
    rw [byteAt_of_getElem? hcluster, byteAt_of_getElem? (by rwa [getElem?_append_left (by omega)])]

/-- The chain `l` can become `n` clusters long with free clusters whose entries are in the same 8 sectors of the FAT. -/
def Room (im : Image) (l : List Nat) (n : Nat) : Prop :=
  l.length < n → ∃ c, l.getLast? = some c ∧ n - l.length ≤ im.freeAfter c ∧ 8 * (c / 1024 + 1) ≤ im.bpb.tableSize32

theorem Room.congr (h : im.Room l n) (hbpb : im'.bpb = im.bpb)
    (hentry : ∀ x < im.bpb.clusters, im'.entry x = im.entry x) : im'.Room l n := by
  intro hlt
  obtain ⟨c, hc, hfree, hgroup⟩ := h hlt
  rw [← freeAfter_congr hbpb fun x _ hx => hentry x hx] at hfree
  rw [← hbpb] at hgroup
  exact ⟨c, hc, hfree, hgroup⟩

end Image

/-! ### Clusters of a chain -/

namespace Volume
open Image
variable {v : Volume} {c d f i lo hi n : Nat} {cs : Nat → List Nat} {src dst : Nat → BitVec 8}

structure Inv (v : Volume) (cs : Nat → List Nat) : Prop where
  geometry : v.bpb.Geometry
  cache : v.Coherent
  chains : Chains v.toImage cs

theorem Inv.congr (h : v.Inv cs) (himage : v'.toImage = v.toImage) (hcache : v'.Coherent) : v'.Inv cs where
  geometry := by
    rw [himage]
    exact h.geometry
  cache := hcache
  chains := by
    rw [himage]
    exact h.chains

theorem Inv.fatGetOrCreateCluster (h : v.Inv cs) (hsmall : v.bpb.clusters ≤ 0xffffff) (hsafe : ∀ x ∈ cs f, Safe x)
    (hc : (cs f)[i]? = some c) (hroom : v.Room (cs f) n) (hn : i + 2 ≤ n) (lo : Nat) (src : Nat → BitVec 8) :
    ∃ r v' cs', v.fatGetOrCreateCluster c = (r, v') ∧ v'.Inv cs' ∧ Patched v.toImage v'.toImage cs cs' f lo lo src ∧
      (cs' f)[i + 1]? = some r ∧ (∀ x ∈ cs' f, Safe x) ∧ v'.Room (cs' f) n := by
  have hmem := mem_of_getElem? hc
  have hvalid := h.chains.valid f c hmem
  obtain ⟨hlink, hend⟩ := h.chains.linked f i c hc
  obtain ⟨v₁, hnext, himage, hcache⟩ := fatNextCluster_eq h.cache h.geometry hvalid.2 (hsafe c hmem)
  have h₁ : v₁.Inv cs := h.congr himage ⟨_, hcache⟩
  rw [← himage] at hroom ⊢
  unfold Volume.fatGetOrCreateCluster
  rw [hnext]
  cases hd : (cs f)[i + 1]? with
  | some d =>
    have hdvalid := h.chains.valid f d (mem_of_getElem? hd)
    rw [hlink d hd]
    refine ⟨d, v₁, cs, if_neg (by omega), h₁, .refl _ _ _ _ _, hd, hsafe, hroom⟩
  | none =>
    have hlen : (cs f).length = i + 1 := by
      have := (List.getElem?_eq_some_iff.mp hc).1
      have := getElem?_eq_none_iff.mp hd
      omega
    have hlast : (cs f).getLast? = some c := by
      rw [getLast?_eq_getElem?, hlen]
      exact hc
    have hmark := hend hd
    obtain ⟨c', hc', hfree, hgroup⟩ := hroom (by omega)
    obtain rfl : c = c' := Option.some.inj (hlast.symm.trans hc')
    have hsome : n - (cs f).length - 1 < v₁.freeAfter c := by omega
    obtain ⟨d, hfirst, hrest⟩ := exists_firstFree hsome
    have hdvalid : v₁.Valid d := ⟨by have := hfirst.lt; omega, hfirst.valid⟩
    rw [← himage] at hvalid
    obtain ⟨⟨im₂, fat, sector⟩, halloc, hcache', himage'⟩ :=
      fatAllocateCluster_eq hcache h₁.geometry hvalid.2 hgroup hfirst true
    let w : Image := (v₁.setEntry d endMark).setEntry c d
    obtain rfl : im₂ = w := himage'
    refine ⟨d, ⟨w, fat, sector⟩, update cs f (cs f ++ [d]), ?_,
      ⟨h₁.geometry, ⟨_, hcache'⟩, h₁.chains.append h₁.geometry hlast hdvalid hfirst.free⟩,
      patched_append h₁.geometry hvalid hdvalid cs f lo src, ?_, ?_, ?_⟩
    · dsimp only
      rw [if_pos (by omega), halloc]
      have := hfirst.valid
      rw [himage] at this
      exact if_neg (by unfold endMark; omega)
    · rw [← hlen]
      simp
    · intro x hx
      obtain hx | ⟨rfl, -⟩ := mem_extended.mp hx
      · exact hsafe x hx
      have := hsafe c hmem
      have := hfirst.lt
      have := hfirst.group
      omega
    · rw [update_self]
      intro hlt
      rw [length_append] at hlt ⊢
      have hfree' : w.freeAfter d = v₁.freeAfter d := by
        refine freeAfter_congr rfl fun x hx _ => ?_
        have := hfirst.lt
        rw [entry_setEntry_of_ne (by omega), entry_setEntry_of_ne (by omega)]
      refine ⟨d, by simp, ?_, ?_⟩
      · rw [hfree']
        omega
      · rw [hfirst.group]
        exact hgroup

/-! ### Writing to clusters -/

theorem CacheAt.setData {g : Nat} (h : v.CacheAt g) (hb : v.bpb.Geometry) :
    Volume.CacheAt ⟨v.setData c lo hi src, v.fat, v.fatSector⟩ g where
  sector := h.sector
  bytes x hx hlt := by
    rw [h.bytes x hx hlt]
    refine (if_neg ?_).symm
    change 4096 * g + x < 512 * v.bpb.tableSize32 at hlt
    have := Nat.le_mul_of_pos_left v.bpb.tableSize32 hb.tables
    show ¬(v.dataAddr c + lo ≤ 512 * v.bpb.reservedSectorCount + 4096 * g + x ∧ _)
    unfold Image.dataAddr Bpb.firstDataBlock
    omega

theorem Inv.setData (h : v.Inv cs) : Inv ⟨v.setData c lo hi src, v.fat, v.fatSector⟩ cs where
  geometry := h.geometry
  cache := h.cache.imp fun _ hg => hg.setData h.geometry
  chains := h.chains.setData h.geometry

theorem clusterToLba_eq (hb : v.bpb.Geometry) (hc : v.Valid c) : 512 * v.clusterToLba c = v.dataAddr c := by
  have hsectors := hb.sectors
  have hlt : v.bpb.firstDataBlock + 8 * (c - 2) < wordSize := by
    have := hc.2
    unfold Bpb.clusters at this
    omega
  unfold clusterToLba Image.dataAddr
  rw [show (c + (wordSize - 2)) * 8 + v.bpb.firstDataBlock = v.bpb.firstDataBlock + 8 * (c - 2) + wordSize * 8 by
    unfold wordSize
    omega, Nat.add_mul_mod_self_left, Nat.mod_eq_of_lt hlt]

theorem fatReadCluster_eq (hb : v.bpb.Geometry) (hc : v.Valid c) (x : Nat) :
    v.fatReadCluster c x = v.disk (v.dataAddr c + x) := by
  unfold fatReadCluster vfsReadBlock
  rw [clusterToLba_eq hb hc]

theorem modifyCluster_eq (hb : v.bpb.Geometry) (hc : v.Valid c) (hhi : hi ≤ 4096) :
    v.modifyCluster c lo hi src = ⟨v.setData c lo hi src, v.fat, v.fatSector⟩ := by
  unfold modifyCluster fatWriteCluster vfsWriteBlock Image.setData
  congr 2
  funext a
  rw [clusterToLba_eq hb hc]
  by_cases hblock : v.dataAddr c ≤ a ∧ a < v.dataAddr c + 4096
  · rw [if_pos hblock]
    dsimp only
    by_cases hpart : v.dataAddr c + lo ≤ a ∧ a < v.dataAddr c + hi
    · rw [if_pos hpart, if_pos (by omega)]
    · rw [if_neg hpart, if_neg (by omega), fatReadCluster_eq hb hc]
      congr 1
      omega
  · rw [if_neg hblock, if_neg (by omega)]

theorem Inv.modifyCluster (h : v.Inv cs) (hc : (cs f)[i]? = some c) (hhi : hi ≤ 4096)
    (hsrc : ∀ x, lo ≤ x → x < hi → src x = dst (4096 * i + x)) :
    (v.modifyCluster c lo hi src).Inv cs ∧
      Patched v.toImage (v.modifyCluster c lo hi src).toImage cs cs f (4096 * i + lo) (4096 * i + hi) dst ∧
      ∀ n, v.Room (cs f) n → (v.modifyCluster c lo hi src).Room (cs f) n := by
  rw [modifyCluster_eq h.geometry (h.chains.valid f c (mem_of_getElem? hc)) hhi]
  exact ⟨h.setData, h.chains.patched_setData hc hhi hsrc, fun n hroom =>
    hroom.congr rfl fun x hx => entry_setData h.geometry hx⟩

/-! ### `fat_write` -/

variable {off clstr : Nat} {data : List (BitVec 8)}

def written (off : Nat) (data : List (BitVec 8)) (p : Nat) : BitVec 8 := data.getD (p - off) 0

def turnStart (off j : Nat) : Nat := if j = 0 then off else 4096 * (off / 4096 + j)

theorem turnStart_zero (off : Nat) : turnStart off 0 = off := if_pos rfl

theorem Inv.writeLoop (h : v.Inv cs) (data : List (BitVec 8)) (turns : Nat) (hsmall : v.bpb.clusters ≤ 0xffffff)
    (hsafe : ∀ x ∈ cs f, Safe x) (hc : (cs f)[off / 4096 + j]? = some c) (hroom : v.Room (cs f) n)
    (hn : off / 4096 + j + turns + 1 ≤ n) :
    ∃ c' v' cs', Volume.writeLoop off data turns j c v = (c', v') ∧ v'.Inv cs' ∧
      Patched v.toImage v'.toImage cs cs' f (turnStart off j) (max (turnStart off j) (4096 * (off / 4096 + j + turns)))
        (written off data) ∧ (cs' f)[off / 4096 + j + turns]? = some c' := by
  induction turns generalizing v cs c j with
  | zero =>
    refine ⟨c, v, cs, rfl, h, ?_, hc⟩
    rw [Nat.max_eq_left (by unfold turnStart; split <;> omega)]
    exact .refl _ _ _ _ _
  | succ turns ih =>
    let lo := if j = 0 then off % 4096 else 0
    have hlo : turnStart off j = 4096 * (off / 4096 + j) + lo := by
      unfold turnStart lo
      split <;> omega
    have hlo' : lo < 4096 := by
      unfold lo
      split <;> omega
    have hsrc (x : Nat) (_ : lo ≤ x) (_ : x < 4096) :
        data.getD (4096 * j + x - off % 4096) 0 = written off data (4096 * (off / 4096 + j) + x) := by
      congr 1
      omega
    obtain ⟨h₁, hpatch₁, hroom₁⟩ := h.modifyCluster hc (Nat.le_refl 4096) hsrc
    obtain ⟨r, v₂, cs₂, hnext, h₂, hpatch₂, hr, hsafe₂, hroom₂⟩ :=
      h₁.fatGetOrCreateCluster (by rw [hpatch₁.bpb]; exact hsmall) hsafe hc (hroom₁ n hroom) (by omega)
        (4096 * (off / 4096 + j) + 4096) (written off data)
    change (cs₂ f)[off / 4096 + (j + 1)]? = some r at hr
    obtain ⟨c', v₃, cs₃, hloop, h₃, hpatch₃, hc'⟩ :=
      ih h₂ (by rw [hpatch₂.bpb, hpatch₁.bpb]; exact hsmall) hsafe₂ hr hroom₂ (by omega)
    have hstart : turnStart off (j + 1) = 4096 * (off / 4096 + j) + 4096 := by
      unfold turnStart
      rw [if_neg (by omega)]
      omega
    have hlen := (List.getElem?_eq_some_iff.mp hc).1
    have hlen₂ := hpatch₂.longer.length_le
    refine ⟨c', v₃, cs₃, ?_, h₃, ?_, ?_⟩
    · simp only [Volume.writeLoop]
      rw [hnext]
      exact hloop
    · rw [hstart] at hpatch₃
      rw [hlo, Nat.max_eq_right (by omega)]
      rw [Nat.max_eq_right (by omega), show off / 4096 + (j + 1) + turns = off / 4096 + j + (turns + 1) by omega] at hpatch₃
      refine (hpatch₁.trans hpatch₂ (by omega) (Nat.le_refl _) fun _ => by omega).trans hpatch₃ (by omega) (by omega) ?_
      omega
    · rwa [show off / 4096 + (j + 1) + turns = off / 4096 + j + (turns + 1) by omega] at hc'

theorem Inv.writeData (h : v.Inv cs) (hsmall : v.bpb.clusters ≤ 0xffffff) (hsafe : ∀ x ∈ cs f, Safe x)
    (hc : (cs f)[off / 4096]? = some (clstr + off / 4096)) (hwrap : off + data.length < 2147483648)
    (hroom : v.Room (cs f) n) (hn : off / 4096 < (off + data.length) / 4096 → (off + data.length) / 4096 + 1 ≤ n) :
    ∃ v' cs', v.writeData clstr off data = ((data.length : Int), v') ∧ v'.Inv cs' ∧
      Patched v.toImage v'.toImage cs cs' f off (off + data.length) (written off data) ∧
      off + data.length ≤ 4096 * (cs' f).length := by
  have hvalid := h.chains.valid f _ (mem_of_getElem? hc)
  have hstart := mod_word (n := clstr + off / 4096) (by omega)
  have hfull := mod_word (n := off + data.length) (by omega)
  have hend := mod_word (n := clstr + (off + data.length) / 4096) (by omega)
  have hsize : (off + data.length + (wordSize - off)) % wordSize = data.length := by
    unfold wordSize
    omega
  simp only [Volume.writeData, hstart, hfull, hend, hsize]
  by_cases heq : clstr + off / 4096 = clstr + (off + data.length) / 4096
  · -- all bytes go to one cluster
    have hlen := (List.getElem?_eq_some_iff.mp hc).1
    have hsrc (x : Nat) (_ : off % 4096 ≤ x) (_ : x < off % 4096 + data.length) :
        data.getD (x - off % 4096) 0 = written off data (4096 * (off / 4096) + x) := by
      unfold written
      congr 1
      omega
    obtain ⟨h₁, hpatch, -⟩ := h.modifyCluster hc (by omega) hsrc
    refine ⟨_, cs, if_pos heq, h₁, ?_, by omega⟩
    rwa [Nat.div_add_mod, show 4096 * (off / 4096) + (off % 4096 + data.length) = off + data.length by omega] at hpatch
  · rw [if_neg heq, Nat.add_sub_add_left]
    obtain ⟨c', v₁, cs₁, hloop, h₁, hpatch₁, hc'⟩ :=
      h.writeLoop (j := 0) data ((off + data.length) / 4096 - off / 4096) hsmall hsafe hc hroom (by omega)
    rw [show off / 4096 + 0 + ((off + data.length) / 4096 - off / 4096) = (off + data.length) / 4096 by omega] at hc' hpatch₁
    rw [turnStart_zero, Nat.max_eq_right (by omega)] at hpatch₁
    have hlen := (List.getElem?_eq_some_iff.mp hc').1
    rw [hloop]
    dsimp only
    split
    · have hsrc (x : Nat) (_ : 0 ≤ x) (_ : x < (off + data.length) % 4096) :
          data.getD (4096 * ((off + data.length) / 4096 - off / 4096) + x - off % 4096) 0 =
            written off data (4096 * ((off + data.length) / 4096) + x) := by
        unfold written
        congr 1
        omega
      obtain ⟨h₂, hpatch₂, -⟩ := h₁.modifyCluster hc' (by omega) hsrc
      refine ⟨_, cs₁, rfl, h₂, ?_, by omega⟩
      rw [Nat.add_zero, Nat.div_add_mod] at hpatch₂
      exact hpatch₁.trans hpatch₂ (by omega) (by omega) fun _ => by omega
    · refine ⟨v₁, cs₁, rfl, h₁, ?_, by omega⟩
      rwa [show 4096 * ((off + data.length) / 4096) = off + data.length by omega] at hpatch₁

theorem Inv.setFile (h : v.Inv cs) (hfirst : file.firstCluster = (v.files f).firstCluster)
    (hdir : file.dirCluster = (v.files f).dirCluster ∧ file.dirOffset = (v.files f).dirOffset) :
    (v.setFile f file).Inv cs := by
  have hfiles (g : Nat) : (v.setFile f file).files g = if g = f then file else v.files g := update_apply ..
  refine ⟨h.geometry, h.cache.imp fun g hg => ⟨hg.sector, hg.bytes⟩, h.chains.congr rfl (fun _ _ => rfl) (fun g => ?_) fun g => ?_⟩
  · rw [hfiles]
    split
    next hg => rw [hfirst, hg]
    · rfl
  · rw [hfiles]
    split
    next hg =>
      rw [hdir.1, hdir.2, hg]
      exact ⟨rfl, rfl⟩
    · exact ⟨rfl, rfl⟩

theorem Inv.updateEntry (h : v.Inv cs) (f fullSize lo : Nat) (src : Nat → BitVec 8) :
    (v.updateEntry f fullSize).Inv cs ∧
      Patched (v.toImage.setFile f ((v.files f).setSize fullSize)) (v.updateEntry f fullSize).toImage cs cs f lo lo src ∧
      ∀ n, v.Room (cs f) n → (v.updateEntry f fullSize).Room (cs f) n := by
  have hu : (v.setFile f ((v.files f).setSize fullSize)).Inv cs :=
    h.setFile (FatFile.firstCluster_setSize _ _) ⟨rfl, rfl⟩
  have hdir : v.Valid ((v.files f).setSize fullSize).dirCluster ∧ v.entry ((v.files f).setSize fullSize).dirCluster ≠ 0 ∧
      ((v.files f).setSize fullSize).dirOffset + 32 ≤ 4096 := h.chains.directory f
  unfold Volume.updateEntry
  rw [modifyCluster_eq hu.geometry hdir.1 hdir.2.2]
  refine ⟨hu.setData, ?_, fun n hroom => ?_⟩
  · dsimp only
    exact hu.chains.patched_apart hdir.1.1 (fun g => h.chains.apart f g) hdir.2.2 f lo src
  · have hroom' : (v.setFile f ((v.files f).setSize fullSize)).Room (cs f) n := hroom
    exact hroom'.congr rfl fun x hx => entry_setData hu.geometry hx

/-- The number of clusters that `fat_write` makes the chain of a file have at least: if it begins behind the first
    cluster, one behind that in which it begins, and if it writes to the end of a cluster, one behind that. -/
def clustersNeeded (off length : Nat) : Nat :=
  max (if 0 < off / 4096 then off / 4096 + 2 else 1) (if off / 4096 < (off + length) / 4096 then (off + length) / 4096 + 1 else 1)

theorem Inv.writeFrom (h : v.Inv cs) (hsmall : v.bpb.clusters ≤ 0xffffff) (hsafe : ∀ x ∈ cs f, Safe x)
    (hc : (cs f)[off / 4096]? = some ((v.files f).firstCluster + off / 4096)) (hwrap : off + data.length < 2147483648)
    (hroom : v.Room (cs f) (clustersNeeded off data.length)) :
    ∃ v' cs', v.writeFrom f off data = ((data.length : Int), v') ∧ v'.Inv cs' ∧
      Patched (v.toImage.setFile f ((v.files f).grow (off + data.length))) v'.toImage cs cs' f off (off + data.length)
        (written off data) ∧ off + data.length ≤ 4096 * (cs' f).length := by
  have hvalid := h.chains.valid f _ (mem_of_getElem? hc)
  have hstart := mod_word (n := (v.files f).firstCluster + off / 4096) (by omega)
  have hfull := mod_word (n := off + data.length) (by omega)
  -- the directory entry
  obtain ⟨u, hu, h₁, hpatch₁, hroom₁⟩ : ∃ u, (if ((v.files f).size : Int) < int32 (off + data.length) then
      v.updateEntry f (off + data.length) else v) = u ∧ u.Inv cs ∧
      Patched (v.toImage.setFile f ((v.files f).grow (off + data.length))) u.toImage cs cs f off off (written off data) ∧
      u.Room (cs f) (clustersNeeded off data.length) := by
    refine ⟨_, rfl, ?_⟩
    rw [int32_of_lt hwrap]
    unfold FatFile.grow
    by_cases hlt : (v.files f).size < off + data.length
    · rw [if_pos (by omega), if_pos hlt]
      obtain ⟨h₁, hpatch₁, hroom₁⟩ := h.updateEntry f (off + data.length) off (written off data)
      exact ⟨h₁, hpatch₁, hroom₁ _ hroom⟩
    · rw [if_neg (by omega), if_neg hlt]
      refine ⟨h, ?_, hroom⟩
      rw [show v.toImage.setFile f (v.files f) = v.toImage by unfold Image.setFile; rw [update_eq_self]]
      exact .refl _ _ _ _ _
  simp only [Volume.writeFrom]
  rw [hstart, hfull, hu]
  have hsmall₁ : u.bpb.clusters ≤ 0xffffff := by
    rw [hpatch₁.bpb]
    exact hsmall
  -- the cluster behind that of the offset
  obtain ⟨r, v₂, cs₂, hnext, hr, h₂, hpatch₂, hc₂, hsafe₂, hroom₂⟩ : ∃ r v₂ cs₂,
      u.createBehind (v.files f).firstCluster ((v.files f).firstCluster + off / 4096) = (r, v₂) ∧ r ≠ 0 ∧ v₂.Inv cs₂ ∧
      Patched u.toImage v₂.toImage cs cs₂ f off off (written off data) ∧
      (cs₂ f)[off / 4096]? = some ((v.files f).firstCluster + off / 4096) ∧ (∀ x ∈ cs₂ f, Safe x) ∧
      v₂.Room (cs₂ f) (clustersNeeded off data.length) := by
    by_cases hlate : (v.files f).firstCluster < (v.files f).firstCluster + off / 4096
    · obtain ⟨r, v₂, cs₂, hnext, h₂, hpatch₂, hr, hsafe₂, hroom₂⟩ :=
        h₁.fatGetOrCreateCluster hsmall₁ hsafe hc hroom₁ (by unfold clustersNeeded; rw [if_pos (by omega)]; omega) off
          (written off data)
      have hr2 := (h₂.chains.valid f r (mem_of_getElem? hr)).1
      refine ⟨r, v₂, cs₂, (if_pos hlate).trans hnext, by omega, h₂, hpatch₂, ?_, hsafe₂, hroom₂⟩
      obtain ⟨t, ht⟩ := hpatch₂.longer
      rw [← ht, getElem?_append_left (List.getElem?_eq_some_iff.mp hc).1]
      exact hc
    · exact ⟨1, u, cs, if_neg hlate, Nat.one_ne_zero, h₁, .refl _ _ _ _ _, hc, hsafe, hroom₁⟩
  obtain ⟨v₃, cs₃, hdata, h₃, hpatch₃, hlen⟩ :=
    h₂.writeData (by rw [hpatch₂.bpb]; exact hsmall₁) hsafe₂ hc₂ hwrap hroom₂ fun hlt => by
      unfold clustersNeeded
      rw [if_pos hlt]
      omega
  rw [hnext, if_neg hr, hdata]
  exact ⟨v₃, cs₃, rfl, h₃, (hpatch₁.trans hpatch₂ (Nat.le_refl _) (Nat.le_refl _) (by omega)).trans hpatch₃
    (Nat.le_refl _) (by omega) (by omega), hlen⟩

end Volume

/-! ### The contents of the files -/

namespace Image
variable {im im' : Image} {f g off : Nat} {data : List (BitVec 8)}

theorem getElem?_contents (im : Image) (f p : Nat) :
    (im.contents f)[p]? = if p < (im.files f).size then some (im.byteAt (im.chain f) p) else none := by
  unfold contents
  rw [getElem?_map]
  split
  next h =>
    rw [getElem?_range h]
    rfl
  next h =>
    rw [getElem?_eq_none (by simpa using h)]
    rfl

@[simp] theorem length_contents (im : Image) (f : Nat) : (im.contents f).length = (im.files f).size := by
  simp [contents]

theorem contents_congr (hsize : (im'.files g).size = (im.files g).size)
    (hbyte : ∀ p < (im.files g).size, im'.byteAt (im'.chain g) p = im.byteAt (im.chain g) p) :
    im'.contents g = im.contents g := by
  unfold contents
  rw [hsize]
  exact map_congr_left fun p hp => hbyte p (mem_range.mp hp)

/-- `data` replaces what is in a file from `off` on. -/
def overwrite (bytes : List (BitVec 8)) (off : Nat) (data : List (BitVec 8)) : List (BitVec 8) :=
  bytes.take off ++ data ++ bytes.drop (off + data.length)

theorem getElem?_overwrite {bytes : List (BitVec 8)} (h : off ≤ bytes.length) (p : Nat) :
    (overwrite bytes off data)[p]? = if off ≤ p ∧ p < off + data.length then data[p - off]? else bytes[p]? := by
  unfold overwrite
  rw [append_assoc]
  by_cases hlo : p < off
  · rw [getElem?_append_left (by simp; omega), getElem?_take_of_lt hlo, if_neg (by omega)]
  rw [getElem?_append_right (by simp; omega), length_take, Nat.min_eq_left h]
  by_cases hhi : p < off + data.length
  · rw [getElem?_append_left (by omega), if_pos (by omega)]
  · rw [getElem?_append_right (by omega), getElem?_drop, if_neg (by omega)]
    congr 1
    omega

theorem Patched.contents (h : Patched (im.setFile f ((im.files f).grow (off + data.length))) im' (im.chain) im'.chain f off
      (off + data.length) (Volume.written off data)) (hoff : off ≤ (im.files f).size)
    (hsize : ∀ g, (im.files g).size ≤ 4096 * (im.chain g).length) :
    im'.contents = update im.contents f (overwrite (im.contents f) off data) := by
  funext g
  by_cases hg : g = f
  · subst hg
    have hfile : (im'.files g).size = max (im.files g).size (off + data.length) := by
      rw [h.files, files_setFile_self, FatFile.size_grow]
    rw [update_self]
    refine ext_getElem? fun p => ?_
    rw [getElem?_overwrite (by simpa using hoff), getElem?_contents, getElem?_contents]
    by_cases hin : off ≤ p ∧ p < off + data.length
    · rw [if_pos (by omega), if_pos hin, h.inside p hin.1 hin.2]
      unfold Volume.written
      rw [getD_eq_getElem?_getD, getElem?_eq_getElem (by omega)]
      rfl
    · rw [if_neg hin]
      by_cases hp : p < (im.files g).size
      · rw [if_pos (by omega), if_pos hp, h.outside p (by have := hsize g; omega) hin]
        rfl
      · rw [if_neg (by omega), if_neg hp]
  · have hfile : im'.files g = im.files g := by
      rw [h.files, files_setFile_of_ne hg]
    rw [update_of_ne hg]
    refine contents_congr (congrArg FatFile.size hfile) fun p hp => ?_
    rw [h.same g hg]
    exact h.others g hg p (by have := hsize g; omega)

end Image

namespace Volume
open Image
variable {v : Volume} {c d f off n : Nat} {cs : Nat → List Nat} {data : List (BitVec 8)}

/-- A well-formed volume: the FAT has an entry for each cluster, the chains in it end and are pairwise disjoint, the clusters
    of a file have room for its bytes, and the part of the FAT in memory is that on the device. -/
structure WellFormed (v : Volume) : Prop where
  geometry : v.bpb.Geometry
  cache : v.Coherent
  chains : v.Chains v.chain
  size : ∀ f, (v.files f).size ≤ 4096 * (v.chain f).length ∧ (v.files f).size < 2147483648

theorem WellFormed.inv (h : v.WellFormed) : v.Inv v.chain := ⟨h.geometry, h.cache, h.chains⟩

theorem WellFormed.congr (h : v.WellFormed) (himage : v'.toImage = v.toImage) (hcache : v'.Coherent) :
    v'.WellFormed := by
  obtain ⟨im, fat, sector⟩ := v'
  obtain rfl : im = v.toImage := himage
  exact ⟨h.geometry, hcache, h.chains, h.size⟩

theorem chain_of_first (hfirst : (v.files f).firstCluster = 0) : v.chain f = [] := if_pos hfirst

theorem WellFormed.ensureFirstCluster (h : v.WellFormed) (hfirst : (v.files f).firstCluster = 0)
    (hsector : v.fatSector = v.bpb.reservedSectorCount) (hfree : n < v.freeAfter 4) (hgroup : 8 ≤ v.bpb.tableSize32) :
    ∃ d v', v.ensureFirstCluster f = v' ∧ v'.WellFormed ∧ v'.contents = v.contents ∧ v'.chain f = [d] ∧ d < 1024 ∧
      (v'.files f).firstCluster = d ∧ v'.bpb = v.bpb ∧ (v'.files f).size = (v.files f).size ∧ n ≤ v'.freeAfter d := by
  obtain ⟨g, hcache⟩ := h.cache
  obtain rfl : g = 0 := by
    have := hcache.sector
    omega
  obtain ⟨d, hd, hrest⟩ := exists_firstFree hfree
  have hvalid : v.Valid d := ⟨by have := hd.lt; omega, hd.valid⟩
  have hlt : d < 1024 := by
    have := hd.group
    omega
  obtain ⟨⟨im, fat, sector⟩, halloc, hcache₁, himage⟩ := fatAllocateCluster_eq hcache h.geometry
    (Nat.lt_trans hd.lt hd.valid) hgroup hd false
  obtain rfl : im = v.setEntry d endMark := himage
  have hlow : (v.files f).firstClusterLow = 0 := by
    unfold FatFile.firstCluster at hfirst
    omega
  have hfirst' := FatFile.firstCluster_setFirstClusterLow hfirst (Nat.lt_trans hlt (by decide) : d < 65536)
  have hempty := chain_of_first hfirst
  let w : Image := (v.setEntry d endMark).setFile f ((v.files f).setFirstClusterLow d)
  have hchains : Chains w _ := h.chains.allocateFirst hempty hvalid hd.free hfirst' rfl rfl
  have hchain := hchains.chain_eq (show w.bpb.Geometry from h.geometry)
  have hsize (g : Nat) : (w.files g).size = (v.files g).size := by
    by_cases hg : g = f
    · rw [hg, files_setFile_self]
      rfl
    · rw [files_setFile_of_ne hg]
      rfl
  refine ⟨d, ⟨w, fat, sector⟩, ?_, ⟨h.geometry, ⟨0, hcache₁.sector, hcache₁.bytes⟩, ?_, fun g => ?_⟩, ?_, ?_, hlt, ?_, rfl,
    hsize f, ?_⟩
  · unfold Volume.ensureFirstCluster
    rw [if_pos hlow, halloc]
    rfl
  · rw [hchain]
    exact hchains
  · rw [hchain, hsize]
    obtain ⟨hle, hlt⟩ := h.size g
    refine ⟨?_, hlt⟩
    by_cases hg : g = f
    · subst hg
      rw [hempty] at hle
      exact Nat.le_trans hle (Nat.zero_le _)
    · rwa [update_of_ne hg]
  · funext g
    refine contents_congr (hsize g) fun p hp => ?_
    rw [hchain]
    by_cases hg : g = f
    · subst hg
      have hle := (h.size g).1
      rw [hempty, length_nil] at hle
      omega
    · rw [update_of_ne hg]
      exact byteAt_setEntry h.geometry hd.valid p
  · rw [hchain, update_self, hempty]
    rfl
  · rw [files_setFile_self]
    exact hfirst'
  · have hfree' : w.freeAfter d = v.freeAfter d :=
      freeAfter_congr rfl fun x hx _ => entry_setEntry_of_ne (Nat.ne_of_gt hx)
    rwa [hfree']

/-- When `fat_write` does what it is for. The cluster at which it begins is `offset / 4096` behind the first one by its number,
    and free clusters are only looked for behind the last one, in the part of the FAT with its entry. -/
structure WriteOk (v : Volume) (f off : Nat) (data : List (BitVec 8)) : Prop where
  inside : off ≤ (v.files f).size
  nowrap : off + data.length < 2147483648
  small : v.bpb.clusters ≤ 0xffffff
  safe : ∀ c ∈ v.chain f, Safe c
  room : if (v.files f).firstCluster = 0 then
      v.fatSector = v.bpb.reservedSectorCount ∧ clustersNeeded off data.length ≤ v.freeAfter 4 ∧ 8 ≤ v.bpb.tableSize32
    else (v.files f).firstClusterLow ≠ 0 ∧ (v.chain f)[off / 4096]? = some ((v.files f).firstCluster + off / 4096) ∧
      v.Room (v.chain f) (clustersNeeded off data.length)

theorem WellFormed.writeFrom (h : v.WellFormed) (hoff : off ≤ (v.files f).size) (hwrap : off + data.length < 2147483648)
    (hsmall : v.bpb.clusters ≤ 0xffffff) (hsafe : ∀ c ∈ v.chain f, Safe c)
    (hc : (v.chain f)[off / 4096]? = some ((v.files f).firstCluster + off / 4096))
    (hroom : v.Room (v.chain f) (clustersNeeded off data.length)) :
    ∃ v', v.writeFrom f off data = ((data.length : Int), v') ∧ v'.WellFormed ∧
      v'.contents = update v.contents f (overwrite (v.contents f) off data) := by
  obtain ⟨v', cs', hwrite, hinv, hpatch, hlen⟩ := h.inv.writeFrom hsmall hsafe hc hwrap hroom
  have hchain := hinv.chains.chain_eq hinv.geometry
  refine ⟨v', hwrite, ⟨hinv.geometry, hinv.cache, ?_, fun g => ?_⟩, ?_⟩
  · rw [hchain]
    exact hinv.chains
  · rw [hchain, hpatch.files]
    obtain ⟨hle, hlt⟩ := h.size g
    by_cases hg : g = f
    · subst hg
      have := hpatch.longer.length_le
      rw [files_setFile_self, FatFile.size_grow]
      omega
    · rw [files_setFile_of_ne hg, hpatch.same g hg]
      exact ⟨hle, hlt⟩
  · rw [← hchain] at hpatch
    exact hpatch.contents hoff fun g => (h.size g).1

theorem one_le_clustersNeeded (off length : Nat) : 1 ≤ clustersNeeded off length := by
  unfold clustersNeeded
  split <;> omega

theorem WellFormed.fatWrite (h : v.WellFormed) (hok : v.WriteOk f off data) :
    ∃ v', v.fatWrite f off data = ((data.length : Int), v') ∧ v'.WellFormed ∧
      v'.contents = update v.contents f (overwrite (v.contents f) off data) := by
  have hroom := hok.room
  unfold Volume.fatWrite
  rw [mod_word (n := off) (by have := hok.nowrap; omega)]
  split at hroom
  next hfirst =>
    obtain ⟨hsector, hfree, hgroup⟩ := hroom
    have hone := one_le_clustersNeeded off data.length
    obtain ⟨d, v₁, hv₁, h₁, hcontents, hchain, hlt, hd, hbpb, hsize, hfree₁⟩ :=
      h.ensureFirstCluster (n := clustersNeeded off data.length - 1) hfirst hsector (by omega) hgroup
    have hzero : off = 0 := by
      have := hok.inside
      have hle := (h.size f).1
      rw [chain_of_first hfirst, length_nil] at hle
      omega
    rw [hv₁, ← hcontents]
    refine h₁.writeFrom (by rw [hsize]; exact hok.inside) hok.nowrap (by rw [hbpb]; exact hok.small) (fun c hc => ?_) ?_ ?_
    · rw [hchain, mem_singleton] at hc
      omega
    · rw [hchain, hd, hzero]
      rfl
    · rw [hchain]
      intro _
      refine ⟨d, rfl, hfree₁, ?_⟩
      rw [hbpb]
      omega
  · obtain ⟨hlow, hc, hroom⟩ := hroom
    rw [show v.ensureFirstCluster f = v from if_neg hlow]
    exact h.writeFrom hok.inside hok.nowrap hok.small hok.safe hc hroom

/-! ### `fat_read` -/

theorem Inv.map_fatReadCluster {i lo : Nat} (h : v.Inv cs) (hc : (cs f)[i]? = some c) (hle : lo + n ≤ 4096) :
    (range' lo n).map (v.fatReadCluster c) = (range' (4096 * i + lo) n).map (v.byteAt (cs f)) := by
  rw [← map_add_range', map_map]
  refine map_congr_left fun x hx => ?_
  rw [mem_range'_1] at hx
  have hcluster : (cs f)[(4096 * i + x) / 4096]? = some c := by rwa [show (4096 * i + x) / 4096 = i by omega]
  rw [fatReadCluster_eq h.geometry (h.chains.valid f c (mem_of_getElem? hc)), Function.comp_apply,
    byteAt_of_getElem? hcluster, show (4096 * i + x) % 4096 = x by omega]

theorem Inv.readLoop (h : v.Inv cs) (turns : Nat) (hsafe : ∀ x ∈ cs f, Safe x)
    (hc : ∀ x, (cs f)[off / 4096 + j]? = some x → c = x) (hlen : off / 4096 + j + turns ≤ (cs f).length)
    (hmarks : ∀ i x, off / 4096 < i → i < off / 4096 + j + turns → (cs f)[i]? = some x → v.entry x ≠ endMark) :
    ∃ c' v', Volume.readLoop off turns j c v = (none, c', (range' (turnStart off j)
        (4096 * (off / 4096 + j + turns) - turnStart off j)).map (v.byteAt (cs f)), v') ∧
      v'.toImage = v.toImage ∧ v'.Coherent ∧ ∀ x, (cs f)[off / 4096 + j + turns]? = some x → c' = x := by
  induction turns generalizing v c j with
  | zero =>
    refine ⟨c, v, ?_, rfl, h.cache, hc⟩
    rw [show 4096 * (off / 4096 + j + 0) - turnStart off j = 0 by unfold turnStart; split <;> omega]
    rfl
  | succ turns ih =>
    have hcluster := getElem?_eq_getElem (show off / 4096 + j < (cs f).length by omega)
    rw [← hc _ hcluster] at hcluster
    have hmem := mem_of_getElem? hcluster
    obtain ⟨v₁, hnext, himage, hcache⟩ :=
      fatNextCluster_eq h.cache h.geometry (h.chains.valid f c hmem).2 (hsafe c hmem)
    have hmark : ¬(j ≠ 0 ∧ v.entry c = endMark) := fun hm => hmarks _ c (by omega) (by omega) hcluster hm.2
    have h₁ := h.congr himage ⟨_, hcache⟩
    have hstep : ∀ x, (cs f)[off / 4096 + (j + 1)]? = some x → v.entry c = x := (h.chains.linked f _ c hcluster).1
    obtain ⟨c', v₂, hloop, himage₂, hcoherent, hc'⟩ := ih h₁ hstep (by omega) fun i x hi hi' hx => by
      rw [himage]
      exact hmarks i x hi (by omega) hx
    rw [himage] at hloop himage₂
    rw [show off / 4096 + (j + 1) + turns = off / 4096 + j + (turns + 1) by omega] at hloop hc'
    refine ⟨c', v₂, ?_, himage₂, hcoherent, hc'⟩
    let lo := if j = 0 then off % 4096 else 0
    have hlo : turnStart off j = 4096 * (off / 4096 + j) + lo ∧ lo < 4096 := by
      unfold turnStart lo
      split <;> omega
    have hstart : turnStart off (j + 1) = turnStart off j + (4096 - lo) := by
      rw [hlo.1]
      unfold turnStart
      rw [if_neg (by omega)]
      omega
    have hsplit : 4096 * (off / 4096 + j + (turns + 1)) - turnStart off j =
        4096 - lo + (4096 * (off / 4096 + j + (turns + 1)) - turnStart off (j + 1)) := by omega
    simp only [Volume.readLoop]
    rw [show (if j = 0 then off % 4096 else 0) = lo from rfl, hnext]
    dsimp only
    rw [if_neg hmark, hloop, hsplit, ← range'_append_1, map_append, ← hstart,
      h.map_fatReadCluster hcluster (by omega), ← hlo.1]

def readLength (v : Volume) (f off n : Nat) : Nat := min n ((v.files f).size - off)

/-- When `fat_read` does what it is for. The cluster at which it begins is `offset / 4096` behind the first one by its number,
    and it must not have the mark of the driver for its entry, nor must a later one that is read to its end. -/
structure ReadOk (v : Volume) (f off n : Nat) : Prop where
  inside : off ≤ (v.files f).size
  nowrap : off + n < 18446744073709551616
  safe : ∀ c ∈ v.chain f, Safe c
  cluster : 0 < v.readLength f off n → (v.chain f)[off / 4096]? = some ((v.files f).firstCluster + off / 4096)
  entered : 0 < off / 4096 → (v.files f).firstCluster + off / 4096 < v.bpb.clusters ∧
    Safe ((v.files f).firstCluster + off / 4096) ∧ v.entry ((v.files f).firstCluster + off / 4096) ≠ endMark
  marks : ∀ i c, off / 4096 < i → i < (off + v.readLength f off n) / 4096 → (v.chain f)[i]? = some c → v.entry c ≠ endMark

theorem WellFormed.firstCluster_lt (h : v.WellFormed) (f : Nat) : (v.files f).firstCluster < 0x10000000 := by
  have hfirst := h.chains.first f
  split at hfirst
  · omega
  · have hvalid := h.chains.valid f _ (mem_of_mem_head? hfirst)
    have hnumbers := h.geometry.numbers
    omega

theorem Inv.readClusters {start stop : Nat} (h : v.Inv cs) (hsafe : ∀ x ∈ cs f, Safe x)
    (hstart : 0 < n → (cs f)[off / 4096]? = some start) (hstop : start + (off + n) / 4096 = stop + off / 4096)
    (hlt : stop < 2147483648) (hlen : off + n ≤ 4096 * (cs f).length)
    (hmarks : ∀ i c, off / 4096 < i → i < (off + n) / 4096 → (cs f)[i]? = some c → v.entry c ≠ endMark) :
    ∃ v', v.readClusters start stop off ((off + n) % 4096) n = ((n : Int), (range' off n).map (v.byteAt (cs f)), v') ∧
      v'.toImage = v.toImage ∧ v'.Coherent := by
  unfold Volume.readClusters
  by_cases heq : start = stop
  · rw [if_pos heq, if_neg (by omega), Int.toNat_natCast]
    refine ⟨v, ?_, rfl, h.cache⟩
    by_cases hn : n = 0
    · subst hn
      rfl
    · rw [h.map_fatReadCluster (hstart (by omega)) (by omega), Nat.div_add_mod]
  · have hpos : 0 < n := by
      omega
    have hle : off ≤ 4096 * ((off + n) / 4096) := by omega
    have hend : off / 4096 + 0 + ((off + n) / 4096 - off / 4096) = (off + n) / 4096 := by omega
    have hc (x : Nat) (hx : (cs f)[off / 4096 + 0]? = some x) : start = x :=
      Option.some.inj ((hstart hpos).symm.trans hx)
    obtain ⟨c', v', hloop, himage, hcoherent, hc'⟩ :=
      h.readLoop ((off + n) / 4096 - off / 4096) hsafe hc (by omega) (by rw [hend]; exact hmarks)
    rw [hend] at hloop hc'
    have h' := h.congr himage hcoherent
    have hturns : (int32 stop - int32 start).toNat = (off + n) / 4096 - off / 4096 := by
      rw [int32_of_lt hlt, int32_of_lt (by omega)]
      omega
    rw [if_neg heq, hturns, hloop, turnStart_zero]
    refine ⟨v', ?_, himage, hcoherent⟩
    dsimp only
    split
    · have hcluster := getElem?_eq_getElem (show (off + n) / 4096 < (cs f).length by omega)
      rw [← hc' _ hcluster] at hcluster
      have hsplit : 4096 * ((off + n) / 4096) - off + (off + n) % 4096 = n := by omega
      rw [h'.map_fatReadCluster hcluster (by omega), himage, ← map_append, Nat.add_zero]
      nth_rewrite 2 [show 4096 * ((off + n) / 4096) = off + (4096 * ((off + n) / 4096) - off) by omega]
      rw [range'_append_1, hsplit]
    · rw [show 4096 * ((off + n) / 4096) - off = n by omega]

theorem WellFormed.readsBehindEnd (h : v.WellFormed) (hok : v.ReadOk f off n) :
    ∃ v', v.readsBehindEnd (v.files f).firstCluster ((v.files f).firstCluster + off / 4096) = (false, v') ∧
      v'.toImage = v.toImage ∧ v'.Coherent := by
  have hfirst := h.firstCluster_lt f
  have hnumbers := h.geometry.numbers
  have hentered := hok.entered
  unfold Volume.readsBehindEnd
  rw [int32_of_lt (by omega), int32_of_lt (by omega)]
  split
  · obtain ⟨hlt, hsafe, hne⟩ := hentered (by omega)
    obtain ⟨v', hnext, himage, hcache⟩ := fatNextCluster_eq h.cache h.geometry hlt hsafe
    refine ⟨v', ?_, himage, ⟨_, hcache⟩⟩
    rw [hnext]
    exact Prod.ext (decide_eq_false hne) rfl
  · exact ⟨v, rfl, rfl, h.cache⟩

theorem WellFormed.fatRead (h : v.WellFormed) (hok : v.ReadOk f off n) :
    ∃ v', v.fatRead f off n = ((v.readLength f off n : Int),
        (range' off (v.readLength f off n)).map (v.byteAt (v.chain f)), v') ∧
      v'.toImage = v.toImage ∧ v'.Coherent := by
  have hfirst := h.firstCluster_lt f
  obtain ⟨hsize, hsize'⟩ := h.size f
  have hinside := hok.inside
  have hnowrap := hok.nowrap
  have hmle : off + v.readLength f off n ≤ (v.files f).size := by
    unfold readLength
    omega
  have hstart := mod_word (n := (v.files f).firstCluster + off / 4096) (by omega)
  have hfull : readEnd (v.files f).size off n = off + v.readLength f off n := by
    unfold readEnd readLength wordSize
    split <;> omega
  have hend := mod_word (n := (v.files f).firstCluster + (off + v.readLength f off n) / 4096) (by omega)
  have hoper : intDiff (off + v.readLength f off n) off = v.readLength f off n := by
    unfold intDiff
    rw [Nat.cast_add, add_sub_cancel_left]
    exact int32_of_lt (by omega)
  obtain ⟨v₁, htest, himage, hcoherent⟩ := h.readsBehindEnd hok
  have h₁ := h.inv.congr himage hcoherent
  have hstop : (v.files f).firstCluster + off / 4096 + (off + v.readLength f off n) / 4096 =
      (v.files f).firstCluster + (off + v.readLength f off n) / 4096 + off / 4096 := Nat.add_right_comm ..
  obtain ⟨v', hread, himage', hcoherent'⟩ := h₁.readClusters hok.safe hok.cluster hstop (by omega) (by omega)
    (by rw [himage]; exact hok.marks)
  rw [himage] at hread himage'
  refine ⟨v', ?_, himage', hcoherent'⟩
  simp only [Volume.fatRead]
  rw [hstart, htest, if_neg Bool.false_ne_true, hfull, hend, hoper, hread]

/-- Files that have nothing to do with each other: a read returns a part of one, and a write replaces a part of one. -/
def filesStep (files : Nat → List (BitVec 8)) : Op → Reply × (Nat → List (BitVec 8))
  | .read f offset size =>
    let bytes := ((files f).drop offset).take size
    ((bytes.length, bytes), files)
  | .write f offset data => ((data.length, []), update files f (overwrite (files f) offset data))

def Ok (v : Volume) : Op → Prop
  | .read f offset size => v.ReadOk f offset size
  | .write f offset data => v.WriteOk f offset data

theorem take_drop_contents (v : Volume) (f off n : Nat) :
    ((v.contents f).drop off).take n = (range' off (v.readLength f off n)).map (v.byteAt (v.chain f)) := by
  unfold Image.contents readLength
  rw [← map_drop, ← map_take, range_eq_range', drop_range', Nat.zero_add, Nat.mul_one,
    range'_eq_map_range, ← map_take, take_range, ← range'_eq_map_range]

theorem WellFormed.step (h : v.WellFormed) {op : Op} (hok : v.Ok op) :
    (v.step op).2.WellFormed ∧ (v.step op).1 = (filesStep v.contents op).1 ∧
      (v.step op).2.contents = (filesStep v.contents op).2 := by
  cases op with
  | read f off n =>
    obtain ⟨v', hread, himage, hcoherent⟩ := h.fatRead hok
    simp only [Volume.step, filesStep, hread, take_drop_contents]
    refine ⟨h.congr himage hcoherent, ?_, ?_⟩
    · rw [length_map, length_range']
    · rw [himage]
  | write f off data =>
    obtain ⟨v', hwrite, hwf, hcontents⟩ := h.fatWrite hok
    simp only [Volume.step, filesStep, hwrite]
    exact ⟨hwf, trivial, hcontents⟩

/-- As long as every call meets the conditions of the driver, reads and writes on a well-formed volume return what they would
    on files that have nothing to do with each other, leave what they would leave there, and keep the volume well-formed. -/
theorem files_refined (h : v.WellFormed) {ops : List Op} (hok : Mealy.Meets step Ok v ops) :
    (Mealy.run step v ops).2.WellFormed ∧ (Mealy.run step v ops).1 = (Mealy.run filesStep v.contents ops).1 ∧
      (Mealy.run step v ops).2.contents = (Mealy.run filesStep v.contents ops).2 :=
  Mealy.run_refines WellFormed (fun v => v.contents) (fun h hok => h.step hok) h hok

def twoFiles : Volume :=
  let disk := write (write (write (fun _ => 0) 520 0x0FFFFFFF) 524 0x0FFFFFFF) 528 0x0FFFFFFF
  let file (cluster size : Nat) : FatFile :=
    { dentry := fun x => if x = 26 then BitVec.ofNat 8 cluster else 0, dirCluster := 2, dirOffset := 0, size }
  { bpb := { reservedSectorCount := 1, tableCount := 1, tableSize32 := 8, sectors := 49 }, disk
    files := fun f => if f = 0 then file 3 4096 else if f = 1 then file 4 1 else file 0 0
    fat := fun x => disk (512 + x), fatSector := 1 }

theorem twoFiles_files (f : Nat) : (twoFiles.files f).dirCluster = 2 ∧ (twoFiles.files f).dirOffset = 0 := by
  unfold twoFiles
  dsimp only
  split
  · exact ⟨rfl, rfl⟩
  · split
    · exact ⟨rfl, rfl⟩
    · exact ⟨rfl, rfl⟩

theorem twoFiles_chains : twoFiles.Chains fun f => if f = 0 then [3] else if f = 1 then [4] else [] := by
  have hcases {P : Nat → Prop} (h0 : P 0) (h1 : P 1) (h : ∀ f, P (f + 2)) (f : Nat) : P f :=
    match f with
    | 0 => h0
    | 1 => h1
    | f + 2 => h f
  have hmem {f c : Nat} (hc : c ∈ if f = 0 then [3] else if f = 1 then [4] else []) : f = 0 ∧ c = 3 ∨ f = 1 ∧ c = 4 := by
    revert hc
    split
    · simp_all
    · split <;> simp_all
  have hlinked (c : Nat) (h : IsEnd (twoFiles.entry c)) : twoFiles.Linked [c] := by
    intro i x hx
    cases i with
    | zero =>
      obtain rfl : c = x := by simpa using hx
      exact ⟨fun y hy => by simp at hy, fun _ => h⟩
    | succ i => simp at hx
  have hrest (f : Nat) : twoFiles.files (f + 2) = twoFiles.files 2 := by simp [twoFiles]
  refine ⟨hcases (by decide +kernel) (by decide +kernel) fun f => by rw [hrest]; rfl,
    hcases (hlinked 3 (by decide +kernel)) (hlinked 4 (by decide +kernel)) fun f i x hx => ?_, fun f c hc => ?_,
    hcases (nodup_singleton 3) (nodup_singleton 4) fun f => nodup_nil, fun f g hne c hc hc' => ?_,
    fun f => ?_, fun f g hc => ?_⟩
  · simp at hx
  · obtain ⟨-, rfl⟩ | ⟨-, rfl⟩ := hmem hc
    · decide
    · decide
  · have h := hmem hc
    have h' := hmem hc'
    omega
  · rw [(twoFiles_files f).1, (twoFiles_files f).2]
    decide +kernel
  · have h := hmem hc
    rw [(twoFiles_files f).1] at h
    omega

theorem twoFiles_wellFormed : twoFiles.WellFormed := by
  have hgeometry : twoFiles.bpb.Geometry := ⟨by decide, by decide, by decide, by decide, by decide⟩
  have hchain := twoFiles_chains.chain_eq hgeometry
  refine ⟨hgeometry, ⟨0, rfl, fun x _ _ => ?_⟩, ?_, fun f => ?_⟩
  · show twoFiles.disk (512 + x) = twoFiles.disk (512 * 1 + 4096 * 0 + x)
    rfl
  · rw [hchain]
    exact twoFiles_chains
  · rw [hchain]
    match f with
    | 0 => decide
    | 1 => decide
    | f + 2 => exact ⟨Nat.le_refl 0, Nat.zero_lt_succ _⟩

def twoCalls : List Op := [.write 1 0 [7], .read 0 0 1]

theorem twoCalls_ok : Mealy.Meets step Ok twoFiles twoCalls := by
  have hwrite : twoFiles.WriteOk 1 0 [7] := by
    refine ⟨by decide, by decide, by decide, by decide +kernel, ?_⟩
    refine ⟨by decide +kernel, by decide +kernel, fun h => ?_⟩
    exact absurd h (by decide +kernel)
  have hread : (twoFiles.step (.write 1 0 [7])).2.ReadOk 0 0 1 := by
    refine ⟨by decide +kernel, by decide, by decide +kernel, fun _ => by decide +kernel, fun h => ?_, fun i c h h' => ?_⟩
    · exact absurd h (by decide)
    · exact absurd (Nat.lt_of_le_of_lt (Nat.zero_le i) h') (by decide +kernel)
  exact ⟨hwrite, hread, trivial⟩

theorem files_refined_twoFiles :
    Mealy.Meets step Ok twoFiles twoCalls ∧
      (Mealy.run step twoFiles twoCalls).1 = (Mealy.run filesStep twoFiles.contents twoCalls).1 :=
  ⟨twoCalls_ok, (files_refined twoFiles_wellFormed twoCalls_ok).2.1⟩

/-- The second cluster that the driver computes for the first file is the one of the second file. -/
theorem write_behind_cluster :
    twoFiles.WellFormed ∧ 4096 ≤ (twoFiles.files 0).size ∧
      (Mealy.run step twoFiles [.write 0 4096 [1], .read 1 0 1]).1 ≠
        (Mealy.run filesStep twoFiles.contents [.write 0 4096 [1], .read 1 0 1]).1 := by
  refine ⟨twoFiles_wellFormed, by decide, ?_⟩
  decide +kernel

end Volume
end Fat
end HelinKern
