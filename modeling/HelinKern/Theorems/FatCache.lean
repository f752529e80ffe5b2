import HelinKern.Theorems.FatTable
import HelinKern.Lib.Lts

/-! The part of the FAT in memory over a whole history of `fat_nextCluster` and `fat_allocateCluster`, and what an
    allocation does to the FAT for every position of that part. -/

namespace HelinKern
namespace Fat
open Word Image

/-- What `fat_mount` leaves. -/
def fatMount (im : Image) : Volume :=
  ⟨im, fun x => im.disk (512 * im.bpb.reservedSectorCount + x), im.bpb.reservedSectorCount⟩

inductive FatCall
  | next (c : Nat)
  | allocate (c : Nat) (update : Bool)

def FatCall.cluster : FatCall → Nat
  | next c => c
  | allocate c _ => c

/-- A cluster whose entry is in the FAT; the numbers of FAT32 have 28 bits. -/
abbrev Image.Covers (im : Image) (c : Nat) : Prop := c < 0x10000000 ∧ c < 128 * im.bpb.tableSize32

namespace Volume
variable {v v' : Volume} {c d n s k : Nat} {update : Bool} {op : FatCall}

/-! ### Histories -/

/-- A search that runs behind the device ends in a read that fails, and with it the history. -/
def call (v : Volume) (op : FatCall) : Option Volume :=
  if v.Covers op.cluster then
    match op with
    | .next c => some (v.fatNextCluster c).2
    | .allocate c update =>
      if (v.fatAllocateCluster c update).1 = endMark then none else some (v.fatAllocateCluster c update).2
  else none

def Transparent (v : Volume) (op : FatCall) (v' : Volume) : Prop :=
  (∀ c, op = .next c → (v.fatNextCluster c).1 = v.entry c) ∧ v'.Shows v'.fatSector

/-- The test of the cache is right about the sector of the entry, and an allocation does not move the part in memory. -/
def TestRight (v : Volume) : FatCall → Prop
  | .next c => c / 128 + v.bpb.reservedSectorCount ≠ v.fatSector + 8
  | .allocate c _ => v.cacheMiss (c / 128 + v.bpb.reservedSectorCount) = false

/-- What the part in memory is at all times. -/
def Aligned (v : Volume) : Prop := v.Shows v.fatSector ∧ ∃ g, v.fatSector = v.bpb.reservedSectorCount + 8 * g

theorem Aligned.next (h : v.Aligned) (hc : c < 0x10000000)
    (hright : c / 128 + v.bpb.reservedSectorCount ≠ v.fatSector + 8) :
    (v.fatNextCluster c).1 = v.entry c ∧ (v.fatNextCluster c).2.Aligned := by
  obtain ⟨hshows, g, hg⟩ := h
  simp only [fatNextCluster, index_eq hc, show 4 * c / 4 % 1024 = c % 1024 by omega]
  split
  · rw [show (4 * c - 4 * c % 4096) / 512 + v.bpb.reservedSectorCount = v.bpb.reservedSectorCount + 8 * (c / 1024) by omega]
    exact ⟨Shows.fatWord fun _ _ => rfl, fun _ _ => rfl, c / 1024, rfl⟩
  rename_i hmiss
  simp only [cacheMiss, decide_eq_true_eq] at hmiss
  obtain rfl : g = c / 1024 := by omega
  exact ⟨Shows.fatWord (hg ▸ hshows), hshows, _, hg⟩

theorem searchFree_keeps (n s k r : Nat) (v : Volume) :
    (searchFree n s k r v).2.bpb = v.bpb ∧ (searchFree n s k r v).2.fatSector = v.fatSector := by
  induction n generalizing s k r v with
  | zero => exact ⟨rfl, rfl⟩
  | succ n ih =>
    unfold searchFree
    split
    · exact ⟨rfl, rfl⟩
    dsimp only
    split
    · exact ⟨rfl, rfl⟩
    · exact ih _ _ _ _

theorem Aligned.allocate (h : v.Aligned) (hc : c < 0x10000000)
    (hright : v.cacheMiss (c / 128 + v.bpb.reservedSectorCount) = false) (hne : (v.fatAllocateCluster c update).1 ≠ endMark) :
    (v.fatAllocateCluster c update).2.Aligned := by
  obtain ⟨-, g, hg⟩ := h
  simp only [fatAllocateCluster, index_eq hc, hright, Bool.false_eq_true, if_false] at hne ⊢
  have hkeeps := searchFree_keeps v.bpb.sectors (c / 128 + v.bpb.reservedSectorCount - v.bpb.reservedSectorCount)
    (4 * c / 4 % 1024 + 1) (c + 1) v
  revert hne hkeeps
  generalize searchFree _ _ _ _ v = found
  obtain ⟨_ | d, u⟩ := found
  · exact fun hne => absurd rfl hne
  rintro - ⟨hbpb, hsector⟩
  dsimp only at hbpb hsector ⊢
  rw [← hsector]
  have hg' : u.fatSector = u.bpb.reservedSectorCount + 8 * g := by rw [hsector, hbpb, hg]
  split
  · exact ⟨shows_vfsWriteBlock _ _, g, hg'⟩
  · exact ⟨fun _ _ => rfl, g, hg'⟩

/-- `fat_nextCluster` returns what is on the device and the part in memory is what is on the device, as long as no
    cluster is asked for whose entry is in the sector right behind the part in memory, and no allocation starts from a
    cluster whose entry is not in memory. -/
theorem fat_cache_transparent (im : Image) (ops : List FatCall)
    (h : Lts.Along call (fun v op _ => v.TestRight op) (fatMount im) ops) : Lts.Along call Transparent (fatMount im) ops := by
  refine h.of_invariant Aligned ⟨fun _ _ => rfl, 0, rfl⟩ fun {v op v'} hv hcall hright => ?_
  unfold call at hcall
  split at hcall
  next hcovers =>
    cases op with
    | next c =>
      cases hcall
      obtain ⟨hentry, halign⟩ := hv.next hcovers.1 hright
      refine ⟨⟨?_, halign.1⟩, halign⟩
      rintro _ ⟨⟩
      exact hentry
    | allocate c update =>
      dsimp only at hcall
      split at hcall
      · cases hcall
      rename_i hne
      cases hcall
      have halign := hv.allocate hcovers.1 hright hne
      exact ⟨⟨nofun, halign.1⟩, halign⟩
  · cases hcall

/-- The FAT of an empty volume whose entry 1024, the first one behind the part in memory after the mount, is 7. -/
def behindImage : Image where
  bpb := ⟨1, 1, 16, 100⟩
  disk := write (fun _ => 0) 4608 7
  files _ := ⟨fun _ => 0, 0, 0, 0⟩

theorem fat_cache_transparent_behind :
    Lts.Along call Transparent (fatMount behindImage) [.next 3, .next 1200, .allocate 1200 true] := by
  refine fat_cache_transparent _ _ fun _ h => ⟨(by decide : 3 / 128 + 1 ≠ 1 + 8), ?_⟩
  cases h
  refine fun _ h => ⟨(by decide : 1200 / 128 + 1 ≠ 1 + 8), ?_⟩
  cases h
  exact fun _ _ => ⟨rfl, trivial⟩

theorem next_entry_behind : ¬ Lts.Along call Transparent (fatMount behindImage) [.next 1024] := by
  intro h
  have hentry := (h _ rfl).1.1 1024 rfl
  exact absurd hentry (by decide +kernel)

/-! ### One allocation -/

/-- What an allocation behind `c` has to do: a free entry is taken and linked, and a full FAT is reported without a use of
    what is behind it. -/
structure Allocates (v : Volume) (c : Nat) (update : Bool) : Prop where
  taken : ∀ d v', v.fatAllocateCluster c update = (d, v') → d ≠ endMark →
    d < 128 * v.bpb.tableSize32 ∧ v.entry d = 0 ∧ v'.entry d = endMark ∧ (update = true → v'.entry c = d) ∧
      ∀ x < 128 * v.bpb.tableSize32, x ≠ d → (update = true → x ≠ c) → v'.entry x = v.entry x
  full : (∀ x < 128 * v.bpb.tableSize32, v.entry x ≠ 0) → ∀ disk : Memory,
    (∀ a, v.fatAddr 0 ≤ a → a < v.fatAddr (128 * v.bpb.tableSize32) → disk a = v.disk a) →
      (Volume.fatAllocateCluster { v with disk } c update).1 = endMark ∧
      ∀ a, ¬ (v.fatAddr 0 ≤ a ∧ a < v.fatAddr (128 * v.bpb.tableSize32)) →
        (Volume.fatAllocateCluster { v with disk } c update).2.disk a = disk a

/-- The first free entry behind `c` is in the FAT, and either the entry of `c` is in memory and the search does not leave
    the part or started in its first sector, or nothing is linked and the part is read from its first sector on. -/
def InReach (v : Volume) (c : Nat) (update : Bool) : Prop :=
  ∃ d < 128 * v.bpb.tableSize32, v.FreeFrom (c + 1) d ∧
    (v.fatSector = v.bpb.reservedSectorCount + 8 * (c / 1024) ∧ (d / 1024 = c / 1024 ∨ c % 1024 < 128) ∨
      v.cacheMiss (c / 128 + v.bpb.reservedSectorCount) = true ∧ c % 1024 < 256 ∧ update = false)

theorem fatAllocateCluster_miss (hmiss : v.cacheMiss (c / 128 + v.bpb.reservedSectorCount)) (hc : c < 0x10000000)
    (hlow : c % 1024 < 256) (hd : v.FreeFrom (c + 1) d)
    (hdev : v.bpb.reservedSectorCount + 8 * (d / 1024) + 8 ≤ v.bpb.sectors) :
    ∃ v', v.fatAllocateCluster c false = (d, v') ∧ v'.toImage = v.setEntry d endMark := by
  have hindex : c + 1 = 1024 * (c / 1024) + (c % 1024 + 1) := by omega
  obtain ⟨u, hsearch, himage, -⟩ := searchFree_eq (v := v.loadFat (v.bpb.reservedSectorCount + 8 * (c / 1024)))
    (s := 8 * (c / 1024)) (n := v.bpb.sectors) (fun _ _ => rfl) (by omega) (by omega) (hindex ▸ hd) (.inr (by omega)) hdev
    (by omega)
  simp only [fatAllocateCluster, index_eq hc, hmiss, show 4 * c / 4 % 1024 = c % 1024 by omega,
    show (4 * c - 4 * c % 1024) / 512 = 8 * (c / 1024) by omega, Nat.add_comm (8 * _),
    show ∀ sector, (v.loadFat sector).bpb = v.bpb from fun _ => rfl, Nat.add_sub_cancel_left, hindex ▸ hsearch,
    Bool.false_eq_true, if_true, if_false]
  exact ⟨_, rfl, himage⟩

theorem fat_allocateCluster_frame (hshows : v.Shows v.fatSector) (htable : v.bpb.tableSize32 ≤ 0x200000)
    (hdata : v.bpb.reservedSectorCount + v.bpb.tableSize32 + 8 ≤ v.bpb.sectors) (hc : c < 128 * v.bpb.tableSize32)
    (h : v.InReach c update) : v.Allocates c update := by
  obtain ⟨d, hlt, hd, hreach⟩ := h
  have hle := hd.le
  refine ⟨fun d' v' hcall _ => ?_, fun hfull => absurd hd.free (hfull d hlt)⟩
  have hend : endMark % 4294967296 = endMark := rfl
  have heffect : d' = d ∧ v'.toImage = if update then (v.setEntry d endMark).setEntry c d else v.setEntry d endMark := by
    obtain ⟨hsector, hpart⟩ | ⟨hmiss, hlow, rfl⟩ := hreach
    · obtain ⟨u, hu, -, -, himage⟩ := fatAllocateCluster_hit hshows hsector (by omega) hd (hpart.imp_right (by omega)) (by omega) update
      cases hcall.symm.trans hu
      exact ⟨rfl, himage⟩
    · obtain ⟨u, hu, himage⟩ := fatAllocateCluster_miss hmiss (by omega) hlow hd (by omega)
      cases hcall.symm.trans hu
      exact ⟨rfl, himage⟩
  obtain ⟨rfl, himage⟩ := heffect
  rw [himage]
  cases update with
  | false =>
    refine ⟨hlt, hd.free, ?_, nofun, fun x _ hx _ => entry_setEntry_of_ne hx⟩
    exact (entry_setEntry_self _ _ _).trans hend
  | true =>
    refine ⟨hlt, hd.free, ?_, fun _ => ?_, fun x _ hx hxc => ?_⟩
    · rw [if_pos rfl, entry_setEntry_of_ne (by omega), entry_setEntry_self, hend]
    · rw [if_pos rfl, entry_setEntry_self, Nat.mod_eq_of_lt (by omega)]
    · rw [if_pos rfl, entry_setEntry_of_ne (hxc rfl), entry_setEntry_of_ne hx]

theorem fat_allocateCluster_frame_behind : (fatMount behindImage).Allocates 5 true :=
  fat_allocateCluster_frame (fun _ _ => rfl) (by decide) (by decide) (by decide)
    ⟨6, by decide, ⟨by decide, by decide +kernel, by omega⟩, .inl ⟨rfl, by decide⟩⟩

/-- The second part of the FAT is in memory: entry 1029 is linked to the cluster found instead of entry 5. -/
theorem links_other_part : ¬ ((fatMount behindImage).fatNextCluster 1200).2.Allocates 5 true := by
  intro h
  have hlink := (h.taken _ _ rfl (by decide +kernel)).2.2.2.1 rfl
  exact absurd hlink (by decide +kernel)

end Volume
end Fat
end HelinKern
