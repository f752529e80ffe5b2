import Mathlib.Tactic.SplitIfs
import HelinKern.Lib.Walk
import HelinKern.MbrParse

/-! Which partitions a scan finds, and when it comes to an end. -/

namespace HelinKern
namespace MbrParse

open List

variable {hard : Harddrive} {s : BitVec 32}

/-! ### GPT -/

def Harddrive.entries (hard : Harddrive) : List GPTPartitionEntry :=
  (range hard.header.numberOfPartitionEntries.toNat).map fun i =>
    hard.entryAt (512 * hard.header.partitionEntryLBA + .ofNat 64 (hard.header.sizeOfPartitionEntry.toNat * i))

def GPTPartitionEntry.used (e : GPTPartitionEntry) : Bool := e.partitionTypeGUID.any (· ≠ 0)

/-- The used entries are registered, each with its start and its number of sectors. -/
def EntriesRegistered (hard : Harddrive) : Prop :=
  (parseGPT hard).map (fun r => (r.lbaStart.toInt, r.sectors)) =
    (hard.entries.filter (·.used)).map fun e => ((e.startingLBA.toNat : Int), e.endingLBA - e.startingLBA + 1)

/-- `start` is the place of the array as an `int`, and `size` that of one entry or more. -/
def GPTHeader.Fits (h : GPTHeader) : Prop :=
  h.partitionEntryLBA.toNat < 4194304 ∧ 0 < h.numberOfPartitionEntries.toNat % 33554432 ∧
    h.numberOfPartitionEntries.toNat % 33554432 < 16777216

theorem room_iff (n : BitVec 32) :
    (128 : Int) ≤ (128 * n).toInt ↔ 0 < n.toNat % 33554432 ∧ n.toNat % 33554432 < 16777216 := by
  rw [BitVec.toInt_eq_toNat_cond, BitVec.toNat_mul]
  split <;> simp at * <;> omega

theorem toNat_signExtend (x : BitVec 32) : (x.signExtend 64).toNat =
    if x.toNat < 2147483648 then x.toNat else x.toNat + 18446744069414584320 := by
  have hext : (x.signExtend 64).toInt = x.toInt := BitVec.toInt_signExtend_of_le (by decide)
  rw [BitVec.toInt_eq_toNat_cond, BitVec.toInt_eq_toNat_cond] at hext
  split <;> split at hext <;> split at hext <;> omega

theorem array_zero (hard : Harddrive) : hard.array 0 =
    if (128 : Int) ≤ (128 * hard.header.numberOfPartitionEntries).toInt then
      hard.entryAt (((512 * hard.header.partitionEntryLBA).setWidth 32).signExtend 64)
    else hard.behind 0 := by
  simp [Harddrive.array]

theorem entriesRegistered_of_fits (hsig : hard.header.signature = 0x5452415020494645) (hfits : hard.header.Fits) :
    EntriesRegistered hard ↔ ∀ e ∈ hard.entries, ¬e.used := by
  have hzero : hard.array 0 = hard.entryAt (512 * hard.header.partitionEntryLBA) := by
    rw [array_zero, if_pos ((room_iff _).mpr hfits.2)]
    refine congrArg hard.entryAt (BitVec.eq_of_toNat_eq ?_)
    have hlba := hfits.1
    rw [toNat_signExtend, BitVec.toNat_setWidth, BitVec.toNat_mul]
    simp
    split <;> omega
  unfold EntriesRegistered parseGPT Harddrive.entries
  rw [if_pos hsig]
  rcases hcount : hard.header.numberOfPartitionEntries.toNat with _ | m
  · simp
  rw [range_succ_eq_map, map_cons, map_cons, hzero, Nat.mul_zero, BitVec.add_zero]
  generalize hard.entryAt _ = e
  by_cases hguid : e.partitionTypeGUID[0] = 0#8
  · simp [hguid]
  · have hused : e.used := Vector.any_iff_exists.mpr ⟨0, by decide, by simpa using hguid⟩
    simp [hguid, hused]

/-- A disk that holds nothing where the entries are, and an entry where `parseGPT` reads the first one. -/
def misread (h : GPTHeader) : Harddrive where
  readBlock _ := none
  unread _ := ⟨.replicate 4 ⟨0, 0, 0⟩, (0, 0)⟩
  header := h
  entryAt a := if 4194304 ≤ h.partitionEntryLBA.toNat ∧ a = ((512 * h.partitionEntryLBA).setWidth 32).signExtend 64 then
    ⟨.replicate 16 7, 40, 40⟩ else ⟨.replicate 16 0, 0, 0⟩
  behind _ := ⟨.replicate 16 7, 40, 40⟩

/-- For an array that lies in the first 2^63 bytes: that it is registered as it should be exactly if no entry is in use holds
    for all contents of the disk exactly if there is no entry, or the first entry is read. An entry that is registered has a
    sector less than it should have. -/
theorem entriesRegistered_iff (h : GPTHeader) (hsig : h.signature = 0x5452415020494645)
    (hdisk : 512 * h.partitionEntryLBA.toNat + h.sizeOfPartitionEntry.toNat * h.numberOfPartitionEntries.toNat ≤ 9223372036854775808) :
    (∀ hard, hard.header = h → (EntriesRegistered hard ↔ ∀ e ∈ hard.entries, ¬e.used)) ↔
      h.numberOfPartitionEntries = 0 ∨ h.Fits := by
  constructor
  · intro hall
    by_contra hno
    obtain ⟨hne, hno⟩ := not_or.mp hno
    have hunused : ∀ e ∈ (misread h).entries, ¬e.used := by
      simp only [Harddrive.entries, misread, mem_map, mem_range]
      rintro _ ⟨i, hi, rfl⟩
      rw [if_neg]
      · decide +kernel
      rintro ⟨hlba, haddr⟩
      have hlt : h.sizeOfPartitionEntry.toNat * i + h.sizeOfPartitionEntry.toNat ≤
          h.sizeOfPartitionEntry.toNat * h.numberOfPartitionEntries.toNat := Nat.mul_le_mul_left _ hi
      have haddr := congrArg BitVec.toNat haddr
      rw [toNat_signExtend, BitVec.toNat_add, BitVec.toNat_mul, BitVec.toNat_ofNat] at haddr
      have := ((512 * h.partitionEntryLBA).setWidth 32).isLt
      simp at haddr
      split at haddr <;> omega
    have hzero : (misread h).array 0 = ⟨.replicate 16 7, 40, 40⟩ := by
      rw [array_zero]
      unfold GPTHeader.Fits at hno
      rw [← room_iff] at hno
      split
      next hroom => exact if_pos ⟨Nat.not_lt.mp fun hlt => hno ⟨hlt, hroom⟩, rfl⟩
      · rfl
    have hregistered := (hall (misread h) rfl).mpr hunused
    unfold EntriesRegistered parseGPT at hregistered
    rw [if_pos (show (misread h).header.signature = _ from hsig), filter_eq_nil_iff.mpr hunused] at hregistered
    obtain ⟨m, hm⟩ : ∃ m, (misread h).header.numberOfPartitionEntries.toNat = m + 1 :=
      Nat.exists_eq_succ_of_ne_zero fun hz => hne (BitVec.eq_of_toNat_eq hz)
    rw [hm, range_succ_eq_map, map_cons, hzero] at hregistered
    simp at hregistered
  · rintro (hn | hfits) hard rfl
    · simp [EntriesRegistered, parseGPT, Harddrive.entries, hn]
    · exact entriesRegistered_of_fits hsig hfits

/-- A disk whose GPT has one entry. -/
def gptDisk (e : GPTPartitionEntry) : Harddrive :=
  ⟨fun _ => none, fun _ => ⟨.replicate 4 ⟨0, 0, 0⟩, (0, 0)⟩, ⟨0x5452415020494645, 2, 1, 128⟩, fun _ => e, fun _ => e⟩

theorem entriesRegistered_unused : EntriesRegistered (gptDisk ⟨.replicate 16 0, 0, 0⟩) :=
  ((entriesRegistered_iff ⟨0x5452415020494645, 2, 1, 128⟩ rfl (by decide)).mpr (.inr (by unfold GPTHeader.Fits; decide)) _ rfl).mpr
    (by decide +kernel)

/-- Sector 40 to sector 40 is a partition of one sector. -/
theorem gpt_sector_lost : ¬EntriesRegistered (gptDisk ⟨.replicate 16 7, 40, 40⟩) := by
  unfold EntriesRegistered
  decide +kernel

/-! ### The end of a scan -/

def leads (p : Partition) : Bool := p.sectorCount ≠ 0 && isExtended p.type

/-- The sectors that were parsed. -/
def parsed (l : List Registered) : List (BitVec 32) := (l.filter (isExtended ·.type)).map (·.lbaStart)

/-- The records of a scan, of which `none` is the first one, and those they lead to. -/
def Harddrive.record (hard : Harddrive) : Option (BitVec 32) → MbrRecord
  | none => hard.mbr
  | some s => hard.sector s

def Harddrive.links (hard : Harddrive) (u : Option (BitVec 32)) : List (BitVec 32) :=
  if (hard.record u).signature = (0x55, 0xAA) then
    ((hard.record u).partitions.toList.filter leads).map (·.lbaFirstSector + u.getD 0)
  else []

theorem parseGPT_not_extended : ∀ r ∈ parseGPT hard, isExtended r.type = false := by
  unfold parseGPT
  split <;> simp [isExtended]

section
variable {parse : BitVec 32 → Option (List Registered)} {visited : BitVec 32 → Option (List (BitVec 32))}
  (h : ∀ t, (parse t).map parsed = visited t)
include h

theorem parsePartition_parsed (hard : Harddrive) (p : Partition) : (parsePartition hard parse s p).map parsed =
    if leads p then (visited (p.lbaFirstSector + s)).map ((p.lbaFirstSector + s) :: ·) else some [] := by
  have hgpt : isExtended 0xEE = false := rfl
  have hentries : ∀ r ∈ parseGPT hard, isExtended r.type = false := parseGPT_not_extended
  rw [← h]
  unfold parsePartition
  cases parse (p.lbaFirstSector + s) <;> split_ifs <;> simp_all [leads, parsed, Partition.registered]

theorem mapM_parsed (hard : Harddrive) (ps : List Partition) :
    (ps.mapM (parsePartition hard parse s)).map (parsed ·.flatten) =
      (((ps.filter leads).map (·.lbaFirstSector + s)).mapM fun t => (visited t).map (t :: ·)).map flatten := by
  induction ps with
  | nil => rfl
  | cons p ps ih =>
    have hp := parsePartition_parsed (s := s) h hard p
    rw [mapM_cons, filter_cons]
    cases hf : parsePartition hard parse s p with
    | none =>
      rw [hf] at hp
      split at hp
      next hleads =>
        rw [if_pos hleads, map_cons, mapM_cons, ← hp]
        rfl
      · cases hp
    | some l =>
      have hleft : Option.map (fun l => parsed l.flatten) (some l >>= fun b => ps.mapM (parsePartition hard parse s) >>= fun bs =>
          pure (b :: bs)) = ((ps.mapM (parsePartition hard parse s)).map (parsed ·.flatten)).map (parsed l ++ ·) := by
        cases ps.mapM (parsePartition hard parse s) <;> simp [parsed]
      rw [hf, Option.map_some] at hp
      rw [hleft, ih]
      split at hp
      next hleads =>
        obtain ⟨lv, hv, heq⟩ := Option.map_eq_some_iff.mp hp.symm
        rw [if_pos hleads, map_cons, mapM_cons, hv, ← heq]
        cases ((ps.filter leads).map (·.lbaFirstSector + s)).mapM fun t => (visited t).map (t :: ·) <;> simp
      next hleads =>
        rw [if_neg hleads, Option.some.inj hp]
        exact Option.map_id' ..

end

theorem parse_eq_visit (hard : Harddrive) (depth : Nat) (u : Option (BitVec 32)) :
    (mbrParseMbr hard depth (u.getD 0) (hard.record u)).map parsed = Walk.visit hard.links depth u := by
  induction depth generalizing u with
  | zero => rfl
  | succ depth ih =>
    rw [mbrParseMbr, Walk.visit]
    unfold Harddrive.links
    split
    · rw [Option.map_map]
      exact mapM_parsed (fun t => ih (some t)) hard _
    · rfl

/-- A scan ends and parses no sector twice exactly if every record that it comes to is reached by one partition only. -/
theorem scan_ends_iff (hard : Harddrive) :
    (∃ depth l, mbrParttabScan hard depth = some l ∧ (parsed l).Nodup) ↔ Walk.OneWay hard.links := by
  have : Fintype (BitVec 32) := .ofEquiv (Fin (2 ^ 32)) ⟨BitVec.ofFin, BitVec.toFin, fun _ => rfl, fun _ => rfl⟩
  rw [← Walk.visit_nodup_iff]
  refine exists_congr fun depth => ?_
  rw [← parse_eq_visit hard depth none]
  simp [mbrParttabScan, Harddrive.record]

def diskOf (sector : BitVec 32 → MbrRecord) : Harddrive := { gptDisk ⟨.replicate 16 0, 0, 0⟩ with readBlock := some ∘ sector }

def recordOf (p q : Partition) : MbrRecord := ⟨#v[p, q, ⟨0, 0, 0⟩, ⟨0, 0, 0⟩], (0x55, 0xAA)⟩

/-- An extended partition at sector 10, with records there and at sector 15, which has the second entry `q`. -/
def chainDisk (q : Partition) : Harddrive := diskOf fun s =>
  if s = 0 then recordOf ⟨0x5, 10, 100⟩ ⟨0, 0, 0⟩
  else if s = 10 then recordOf ⟨0x83, 1, 4⟩ ⟨0x5, 5, 10⟩
  else recordOf ⟨0x83, 1, 4⟩ (if s = 15 then q else ⟨0, 0, 0⟩)

theorem record_diskOf (sector : BitVec 32 → MbrRecord) (u : Option (BitVec 32)) : (diskOf sector).record u = sector (u.getD 0) := by
  cases u <;> rfl

/-- The extended partition of a record starts at the record. -/
theorem scan_not_ending : ∃ hard, ∀ depth, mbrParttabScan hard depth = none := by
  refine ⟨diskOf fun _ => recordOf ⟨0x5, 0, 1⟩ ⟨0, 0, 0⟩, fun depth => ?_⟩
  have hlinks : ∀ u, (diskOf fun _ => recordOf ⟨0x5, 0, 1⟩ ⟨0, 0, 0⟩).links u = [u.getD 0] := by
    intro u
    unfold Harddrive.links
    rw [record_diskOf]
    simp [recordOf, leads, isExtended]
  have hvisit : ∀ u, Walk.visit (diskOf fun _ => recordOf ⟨0x5, 0, 1⟩ ⟨0, 0, 0⟩).links depth u = none := by
    induction depth with
    | zero => exact fun _ => rfl
    | succ depth ih =>
      intro u
      rw [Walk.visit, hlinks, mapM_cons, ih]
      rfl
  have h := parse_eq_visit (diskOf fun _ => recordOf ⟨0x5, 0, 1⟩ ⟨0, 0, 0⟩) depth none
  rw [hvisit] at h
  exact Option.map_eq_none_iff.mp h

/-! ### Chains of records -/

/-- The records at the given sectors, each with its logical partition, make a chain of the extended partition at `e`. -/
def Chained (hard : Harddrive) (e : BitVec 32) : List (BitVec 32 × Partition) → Prop
  | [] => True
  | (s, p) :: rest =>
    (hard.sector s).signature = (0x55, 0xAA) ∧ p.sectorCount ≠ 0#32 ∧ isExtended p.type = false ∧ p.type ≠ 0xEE#8 ∧
      (∃ link u v, (hard.sector s).partitions.toList = [p, link, u, v] ∧ u.sectorCount = 0#32 ∧ v.sectorCount = 0#32 ∧
        match rest with
        | [] => link.sectorCount = 0#32
        | (t, _) :: _ => leads link ∧ t = link.lbaFirstSector + e) ∧
      Chained hard e rest

/-- Every logical partition of the records is registered, once and where it should be. -/
def Placed (hard : Harddrive) (records : List (BitVec 32 × Partition)) (e : BitVec 32) : Prop :=
  ∃ depth l, mbrParseMbr hard depth e (hard.sector e) = some l ∧
    l.filter (!isExtended ·.type) = records.map fun r => r.2.registered r.1

/-- The links of two records: the first is relative to its own record as well. -/
theorem placed_of_two {e : BitVec 32} {p : Partition} {rest : List (BitVec 32 × Partition)}
    (h : Chained hard e ((e, p) :: rest)) (hlen : rest.length ≤ 1) : Placed hard ((e, p) :: rest) e := by
  obtain ⟨hsig, hcount, hext, hgpt, ⟨link, u, v, hparts, hu, hv, hlink⟩, hrest⟩ := h
  rcases rest with _ | ⟨⟨t, q⟩, _ | _⟩
  · refine ⟨1, [p.registered e], ?_, by simp [Partition.registered, hext]⟩
    simp [mbrParseMbr, parsePartition, *]
  · obtain ⟨hsig', hcount', hext', hgpt', ⟨link', u', v', hparts', hu', hv', hlink'⟩, -⟩ := hrest
    obtain ⟨hleads, rfl⟩ := hlink
    simp [leads] at hleads
    have hgpt'' : link.type ≠ 0xEE#8 := by
      intro h
      simp [h, isExtended] at hleads
    refine ⟨2, [p.registered e, link.registered e, q.registered (link.lbaFirstSector + e)], ?_, by simp [Partition.registered, *]⟩
    simp [mbrParseMbr, parsePartition, *]
  · simp at hlen

def data : Partition := ⟨0x83, 1, 4⟩

/-- Records at the given sectors, chained as those of the extended partition at `e`. -/
def recordsOf (e : BitVec 32) : List (BitVec 32) → BitVec 32 → MbrRecord
  | [], _ => ⟨.replicate 4 ⟨0, 0, 0⟩, (0, 0)⟩
  | s :: rest, x => if x = s then recordOf data (rest.head?.elim ⟨0, 0, 0⟩ fun t => ⟨0x5, t - e, 1⟩) else recordsOf e rest x

theorem chained_recordsOf {e : BitVec 32} {l : List (BitVec 32)} (hnodup : l.Nodup) (h : ∀ x ∈ l, hard.sector x = recordsOf e l x) :
    Chained hard e (l.map (·, data)) := by
  induction l with
  | nil => trivial
  | cons s rest ih =>
    obtain ⟨hs, hnodup⟩ := nodup_cons.mp hnodup
    have hsector : hard.sector s = _ := (h s mem_cons_self).trans (if_pos rfl)
    refine ⟨by rw [hsector]; rfl, by decide, rfl, by decide, ?_, ih hnodup fun x hx => ?_⟩
    · rw [hsector]
      refine ⟨_, _, _, rfl, rfl, rfl, ?_⟩
      cases rest with
      | nil => rfl
      | cons t rest => exact ⟨rfl, (BitVec.sub_add_cancel t e).symm⟩
    · rw [h x (mem_cons_of_mem _ hx)]
      exact if_neg (ne_of_mem_of_not_mem hx hs)

theorem parse_recordOf {s : BitVec 32} {q : Partition} {depth : Nat} {l : List Registered}
    (h : mbrParseMbr hard depth s (recordOf data q) = some l) : ∃ depth' r, l = data.registered s :: r ∧
      parsePartition hard (fun t => mbrParseMbr hard depth' t (hard.sector t)) s q = some r := by
  cases depth with
  | zero => cases h
  | succ depth =>
    have hdata (parse) : parsePartition hard parse s data = some [data.registered s] := rfl
    have hnone (parse) : parsePartition hard parse s ⟨0#8, 0#32, 0#32⟩ = some [] := rfl
    cases hq : parsePartition hard (fun t => mbrParseMbr hard depth t (hard.sector t)) s q with
    | none => simp [mbrParseMbr, recordOf, hq] at h
    | some r =>
      simp [mbrParseMbr, recordOf, hq, hdata, hnone] at h
      exact ⟨depth, r, h.symm, hq⟩

/-- The link of a record is followed from the record. -/
theorem parse_link {s d : BitVec 32} {depth : Nat} {l : List Registered}
    (h : mbrParseMbr hard depth s (recordOf data ⟨0x5, d, 1⟩) = some l) : ∃ depth' r,
      mbrParseMbr hard depth' (d + s) (hard.sector (d + s)) = some r ∧ l = data.registered s :: ⟨0x5, d + s, 1⟩ :: r := by
  obtain ⟨depth', r, rfl, hlink⟩ := parse_recordOf h
  obtain ⟨r, hr, rfl⟩ := Option.map_eq_some_iff.mp hlink
  exact ⟨depth', r, hr, rfl⟩

theorem parse_recordsOf {e x : BitVec 32} {l : List (BitVec 32)} {depth : Nat} {r : List Registered}
    (h : mbrParseMbr hard depth x (recordsOf e l x) = some r) : r = [] ∨ ∃ r', r = data.registered x :: r' := by
  induction l with
  | nil =>
    cases depth with
    | zero => cases h
    | succ depth => exact .inl (by simpa [mbrParseMbr, recordsOf, eq_comm] using h)
  | cons s rest ih =>
    rw [recordsOf] at h
    split at h
    · obtain ⟨depth', r', rfl, -⟩ := parse_recordOf h
      exact .inr ⟨r', rfl⟩
    · exact ih h

/-- On all disks the logical partitions of a chain at the given sectors are registered as they should be, exactly if there are at
    most two of them. -/
theorem logical_partitions_placed_iff {e : BitVec 32} {sectors : List (BitVec 32)} (hnodup : (e :: sectors).Nodup) :
    (∀ hard records, records.map Prod.fst = e :: sectors → Chained hard e records → Placed hard records e) ↔
      sectors.length ≤ 1 := by
  constructor
  · intro hall
    rcases sectors with _ | ⟨s₁, _ | ⟨s₂, rest⟩⟩
    · decide
    · exact Nat.le_refl 1
    -- the link of the second record leads behind the third one
    obtain ⟨depth, l, hl, hfilter⟩ := hall (diskOf (recordsOf e (e :: s₁ :: s₂ :: rest)))
      ((e :: s₁ :: s₂ :: rest).map (·, data)) (by simp [Function.comp_def]) (chained_recordsOf hnodup fun _ _ => rfl)
    have hne : s₁ ≠ e := fun heq => (nodup_cons.mp hnodup).1 (heq ▸ mem_cons_self)
    have hsector : ∀ x, (diskOf (recordsOf e (e :: s₁ :: s₂ :: rest))).sector x = recordsOf e (e :: s₁ :: s₂ :: rest) x :=
      fun _ => rfl
    generalize diskOf (recordsOf e (e :: s₁ :: s₂ :: rest)) = hard at *
    rw [hsector, recordsOf, if_pos rfl] at hl
    obtain ⟨depth₁, l₁, hl₁, rfl⟩ := parse_link hl
    rw [BitVec.sub_add_cancel, hsector, recordsOf, if_neg hne, recordsOf, if_pos rfl] at hl₁
    obtain ⟨depth₂, l₂, hl₂, rfl⟩ := parse_link hl₁
    rw [hsector] at hl₂
    rcases parse_recordsOf hl₂ with rfl | ⟨r, rfl⟩
    · simp [data, Partition.registered, isExtended] at hfilter
    · simp [data, Partition.registered, isExtended] at hfilter
      have heq := hfilter.1
      exact absurd (by bv_omega) hne
  · rintro hlen hard records hmap hchained
    cases records with
    | nil => cases hmap
    | cons r rest =>
      obtain ⟨rfl, rfl⟩ := cons.inj hmap
      exact placed_of_two hchained (by rwa [length_map] at hlen)

theorem logical_partitions_placed_iff_two : Placed (chainDisk ⟨0, 0, 0⟩) [(10, ⟨0x83, 1, 4⟩), (15, ⟨0x83, 1, 4⟩)] 10 :=
  (logical_partitions_placed_iff (show ((10 : BitVec 32) :: [15]).Nodup by decide)).mpr (by decide) _ _ rfl
    ⟨rfl, by decide, rfl, by decide, ⟨_, _, _, rfl, rfl, rfl, rfl, rfl⟩,
      rfl, by decide, rfl, by decide, ⟨_, _, _, rfl, rfl, rfl, rfl⟩, trivial⟩

/-- The third record is at sector 18, but looked for at sector 23. -/
theorem third_record_lost : ∃ hard e p rest, Chained hard e ((e, p) :: rest) ∧ ¬Placed hard ((e, p) :: rest) e := by
  refine ⟨chainDisk ⟨0x5, 8, 10⟩, 10, ⟨0x83, 1, 4⟩, [(15, ⟨0x83, 1, 4⟩), (18, ⟨0x83, 1, 4⟩)],
    ⟨rfl, by decide, rfl, by decide, ⟨_, _, _, rfl, rfl, rfl, rfl, rfl⟩,
      rfl, by decide, rfl, by decide, ⟨_, _, _, rfl, rfl, rfl, rfl, rfl⟩,
      rfl, by decide, rfl, by decide, ⟨_, _, _, rfl, rfl, rfl, rfl⟩, trivial⟩, ?_⟩
  rintro ⟨_ | _ | _ | depth, l, hl, hfilter⟩
  · cases hl
  · cases hl
  · cases hl
  · cases hl
    revert hfilter
    decide

end MbrParse
end HelinKern
