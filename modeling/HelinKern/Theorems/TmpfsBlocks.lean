import HelinKern.Lib.Lts
import HelinKern.Theorems.Tmpfs
import Mathlib.Data.List.Nodup

/-! Files of the temporary file system with blocks in any order and with holes: the list of the blocks, and what a read asks
    for. -/

namespace HelinKern
namespace TmpFile
open List Option

variable {f f' : TmpFile} {id i n offset size last : Nat} {pos : Int} {buff buff' : Int → BitVec 8}

/-! ### The list of blocks -/

/-- An access to a block; one that follows NULL leaves the list. -/
def access (f : TmpFile) (id : Nat) : Option TmpFile := some ((f.getOrCreateBlock id).getD f)

/-- The access finds its block, and the list has it and all others, each once. -/
def Survives (f : TmpFile) (id : Nat) (_ : TmpFile) : Prop :=
  ∃ f', f.getOrCreateBlock id = some f' ∧ (f'.dataQueue.map BlockInfo.id).Nodup ∧ (f'.getBlockPtr id).isSome ∧
    ∀ i data, f.getBlockPtr i = some data → f'.getBlockPtr i = some data

/-- The block is there, or it is block 0 of a file without blocks, or another block of a file with some. -/
def Fits (f : TmpFile) (id : Nat) (_ : TmpFile) : Prop := (f.getBlockPtr id).isSome ∨ (id = 0 ↔ f.dataQueue = [])

theorem getBlockPtr_eq_none : f.getBlockPtr id = none ↔ id ∉ f.dataQueue.map BlockInfo.id := by
  simp [getBlockPtr]

theorem getBlockPtr_append (f : TmpFile) (blocks : List BlockInfo) :
    getBlockPtr { f with dataQueue := f.dataQueue ++ blocks } id =
      (f.getBlockPtr id).or (getBlockPtr { f with dataQueue := blocks } id) := by
  unfold getBlockPtr
  rw [find?_append]
  cases f.dataQueue.find? fun b => decide (b.id = id) <;> rfl

theorem survives_append (hnodup : (f.dataQueue.map BlockInfo.id).Nodup) (hnone : f.getBlockPtr id = none)
    (h : f.getOrCreateBlock id = some { f with dataQueue := f.dataQueue ++ [⟨id, fun _ => 0⟩] }) (f' : TmpFile) :
    Survives f id f' := by
  refine ⟨_, h, ?_, ?_, fun i data hdata => ?_⟩
  · rw [List.map_append]
    exact nodup_append_comm.mp (nodup_cons.mpr ⟨getBlockPtr_eq_none.mp hnone, hnodup⟩)
  · rw [getBlockPtr_append]
    simp [getBlockPtr]
  · rw [getBlockPtr_append, hdata, some_or]

theorem survives_iff (hnodup : (f.dataQueue.map BlockInfo.id).Nodup) : Survives f id f' ↔ Fits f id f' := by
  unfold Fits
  by_cases hthere : (f.getBlockPtr id).isSome
  · exact iff_of_true ⟨f, by rw [getOrCreateBlock, if_pos hthere], hnodup, hthere, fun _ _ hdata => hdata⟩ (.inl hthere)
  have hnone : f.getBlockPtr id = none := not_isSome_iff_eq_none.mp hthere
  have hcreate : f.getOrCreateBlock id = _ := if_neg hthere
  rw [or_iff_right hthere]
  by_cases hzero : id = 0 <;> by_cases hempty : f.dataQueue = []
  · refine iff_of_true (survives_append hnodup hnone ?_ f') (by simp [hzero, hempty])
    rw [hcreate, if_pos hzero, hempty, List.nil_append]
  · -- block 0 is put in the place of the list
    refine iff_of_false ?_ (by simp [hzero, hempty])
    rintro ⟨t, ht, -, -, hkeep⟩
    obtain ⟨b, bs, hbs⟩ := exists_cons_of_ne_nil hempty
    rw [hcreate, if_pos hzero] at ht
    cases ht
    have hb : f.getBlockPtr b.id = some b.data := by simp [getBlockPtr, hbs]
    have hne : id ≠ b.id := fun heq => by rw [← heq, hnone] at hb; cases hb
    simpa [getBlockPtr, hne] using hkeep _ _ hb
  · refine iff_of_false ?_ (by simp [hzero, hempty])
    rintro ⟨t, ht, -⟩
    rw [hcreate, if_neg hzero, if_pos (by rw [hempty]; rfl)] at ht
    cases ht
  · refine iff_of_true (survives_append hnodup hnone ?_ f') (by simp [hzero, hempty])
    rw [hcreate, if_neg hzero, if_neg (by simpa using hempty)]

theorem Survives.nodup (h : Survives f id f') (haccess : f.access id = some f') : (f'.dataQueue.map BlockInfo.id).Nodup := by
  obtain ⟨t, ht, hnodup, -⟩ := h
  rw [access, ht] at haccess
  cases haccess
  exact hnodup

theorem isSome_of_copyOut (h : copyOut (f.getBlockPtr id) i n pos buff = some buff') (hn : n ≠ 0) :
    (f.getBlockPtr id).isSome := by
  unfold copyOut at h
  rw [if_neg hn] at h
  split at h
  · cases h
  · obtain ⟨data, hdata, -⟩ := map_eq_some_iff.mp h
    exact isSome_of_eq_some hdata

theorem covers_of_read {r : Nat × (Int → BitVec 8)} (hoffset : offset ≤ f.size) (hend : offset + size < 18446744073709551616)
    (h : f.read offset size buff = some r) : f.Covers offset (min (offset + size) f.size) := by
  intro j hlo hhi
  obtain ⟨last, hlast⟩ : ∃ last, last = min (offset + size) f.size := ⟨_, rfl⟩
  rw [read_eq f buff hoffset hend hlast] at h
  split at h
  next hsame =>
    obtain ⟨buff', hcopy, -⟩ := bind_eq_some_iff.mp h
    rw [show j / 4096 = offset / 4096 by omega]
    exact isSome_of_copyOut hcopy (by omega)
  obtain ⟨buff₁, hloop, h⟩ := bind_eq_some_iff.mp h
  by_cases hj : j / 4096 < last / 4096
  · obtain ⟨u, v, hturn⟩ := Loop.turn_of_foldlM hloop (i := j / 4096 - offset / 4096) (by omega)
    unfold readTurn at hturn
    split at hturn
    · rw [show j / 4096 = offset / 4096 by omega]
      exact isSome_of_copyOut hturn (by omega)
    · rw [show offset / 4096 + (j / 4096 - offset / 4096) = j / 4096 by omega] at hturn
      exact isSome_of_copyOut hturn (by omega)
  · obtain ⟨buff₂, hrest, -⟩ := bind_eq_some_iff.mp h
    unfold readRest at hrest
    rw [if_neg (by omega)] at hrest
    rw [show j / 4096 = last / 4096 by omega]
    exact isSome_of_copyOut hrest (by omega)

/-- Whatever of the range lies in no block is read as zeros. -/
def ReadsHoles (f : TmpFile) (offset size : Nat) : Prop :=
  ∀ j buff, offset ≤ j → j < offset + size → f.getBlockPtr (j / 4096) = none →
    ∃ buff', f.read offset size buff = some (size, buff') ∧ buff' ((j - offset : Nat) : Int) = 0

theorem readsHoles_iff (hend : offset + size ≤ f.size) (hsize : f.size < 2147483648) :
    ReadsHoles f offset size ↔ f.Covers offset (offset + size) := by
  refine ⟨fun h j hlo hhi => ?_, fun h j buff hlo hhi hnone => ?_⟩
  · by_contra hj
    obtain ⟨buff', hread, -⟩ := h j (fun _ => 0) hlo hhi (not_isSome_iff_eq_none.mp hj)
    exact hj (covers_of_read (by omega) (by omega) hread j hlo (by omega))
  · have hsome := h j hlo hhi
    rw [hnone] at hsome
    cases hsome

/-- From every list without a block twice, each access finds its block and loses none exactly if it fits, and the holes of a
    range of the file are read as zeros exactly if it has none. -/
theorem tmpfs_blocks_survive (hnodup : (f.dataQueue.map BlockInfo.id).Nodup) (hsize : f.size < 2147483648) (ids : List Nat) :
    (Lts.Along access Survives f ids ↔ Lts.Along access Fits f ids) ∧
      ∀ offset size, offset + size ≤ f.size → (ReadsHoles f offset size ↔ f.Covers offset (offset + size)) := by
  refine ⟨?_, fun offset size hend => readsHoles_iff hend hsize⟩
  refine Lts.along_iff (fun f => (f.dataQueue.map BlockInfo.id).Nodup) hnodup (fun hnodup _ => survives_iff hnodup) ?_ ids
  exact fun hnodup haccess hfits => ((survives_iff hnodup).mpr hfits).nodup haccess

/-- The blocks 0, 2 and 1 of a new file. -/
theorem tmpfs_blocks_survive_sparse : Lts.Along access Survives creat [0, 2, 1] := by
  refine ((tmpfs_blocks_survive (f := creat) nodup_nil (by decide) _).1).mpr ?_
  rintro f hf
  cases hf
  refine ⟨.inr (by decide), ?_⟩
  rintro f hf
  cases hf
  refine ⟨.inr (by decide), ?_⟩
  rintro f hf
  cases hf
  exact ⟨.inr (by decide), trivial⟩

/-- Block 1 of a file without blocks, and a byte between two that were written. -/
theorem sparse_write_fails :
    ¬Lts.Along access Survives creat [1] ∧
    ∃ f, creat.writeAll [⟨0, 1, fun _ => 7⟩, ⟨8192, 1, fun _ => 7⟩] = some f ∧ ¬ReadsHoles f 4096 1 := by
  refine ⟨fun h => ?_, ?_⟩
  · obtain ⟨t, ht, -⟩ := (h _ rfl).1
    cases ht
  · refine ⟨_, rfl, fun h => ?_⟩
    obtain ⟨buff', hread, -⟩ := h 4096 (fun _ => 0) (by decide) (by decide) rfl
    cases hread

/-! ### The amount that is read -/

/-- The call returns at most `size`, which is 0 behind the end, and changes no other bytes of the buffer than the first ones,
    as many as it returns. -/
def ReadsAtMost (f : TmpFile) (offset size : Nat) : Prop :=
  ∀ buff, ∃ n buff', f.read offset size buff = some (n, buff') ∧ n ≤ size ∧ (f.size ≤ offset → n = 0) ∧
    ∀ j : Int, j < 0 ∨ n ≤ j → buff' j = buff j

/-- The range begins inside the file or at its end, and the blocks it has bytes in are there. If the end of the range
    overflows, it comes to a block before the first one, of which no byte is copied, or bytes go to the start of the buffer. -/
def AsksInside (f : TmpFile) (offset size : Nat) : Prop :=
  if f.size < offset then offset + size = 18446744073709551616
  else if offset + size < 18446744073709551616 then f.Covers offset (min (offset + size) f.size)
  else
    offset < f.size ∧ (offset + size - 18446744073709551616) / 4096 < offset / 4096 ∧
      ((offset + size) % 4096 = 0 ∨
        offset % 4096 = 0 ∧ (f.getBlockPtr ((offset + size - 18446744073709551616) / 4096)).isSome)

theorem readsAtMost_of_behind (hbehind : f.size < offset) (hoffset : offset < 18446744073709551616)
    (hsize : size < 18446744073709551616) :
    ReadsAtMost f offset size ↔ offset + size = 18446744073709551616 := by
  refine ⟨fun h => ?_, fun hend buff => ?_⟩
  · obtain ⟨n, buff', hread, -, hzero, -⟩ := h fun _ => 0
    have hn : _ = _ := read_fst rfl rfl hread
    rw [if_pos hbehind] at hn
    split at hn
    · rw [if_pos (by omega)] at hn
      omega
    · omega
  · have hmod : (offset + size) % 18446744073709551616 = 0 := by omega
    refine ⟨0, buff, ?_, Nat.zero_le _, fun _ => rfl, fun _ _ => rfl⟩
    rw [read_of_end (by rw [hmod, if_neg (Nat.not_lt_zero _)]) (if_pos hbehind)]
    split
    · rw [copyOut, if_pos rfl, bind_some]
    · rw [Nat.zero_sub]
      rfl

theorem readsAtMost_of_covers (hoffset : offset ≤ f.size) (hend : offset + size < 18446744073709551616) :
    ReadsAtMost f offset size ↔ f.Covers offset (min (offset + size) f.size) := by
  refine ⟨fun h => ?_, fun h buff => ?_⟩
  · obtain ⟨n, buff', hread, -⟩ := h fun _ => 0
    exact covers_of_read hoffset hend hread
  · obtain ⟨buff', hread, hfill⟩ := h.read buff hoffset hend
    refine ⟨_, _, hread, by omega, fun hbehind => by omega, fun j hj => ?_⟩
    rw [hfill, if_neg (by omega)]

/-- The end of the range is smaller than its start, and what is left of its block goes before the start of the buffer if the
    range does not start with a block. -/
theorem readsAtMost_of_overflow (hsmall : f.size < 2147483648) (hoffset : offset ≤ f.size)
    (hsize : size < 18446744073709551616) (hlast : offset + size = 18446744073709551616 + last) :
    ReadsAtMost f offset size ↔ offset < f.size ∧ last / 4096 < offset / 4096 ∧
      (last % 4096 = 0 ∨ offset % 4096 = 0 ∧ (f.getBlockPtr (last / 4096)).isSome) := by
  have hread := read_of_end (f := f)
    (show _ = last by rw [show (offset + size) % 18446744073709551616 = last by omega, if_neg (by omega)])
    (show _ = size by rw [if_neg (Nat.not_lt.mpr hoffset)]; omega)
  have hloop : last / 4096 - offset / 4096 = 0 := by omega
  rw [hloop, range_zero] at hread
  have hlate (hbefore : last / 4096 < offset / 4096) (buff : Int → BitVec 8) :
      f.read offset size buff = (readRest f offset last buff).bind fun buff => some (size, buff) := by
    rw [hread, if_neg (by omega)]
    rfl
  refine ⟨fun h => ?_, fun ⟨hinside, hbefore, hrest⟩ buff => ?_⟩
  · have hinside : offset < f.size := by
      obtain ⟨n, buff', hn, -, hzero, -⟩ := h fun _ => 0
      have hn : n = size := read_overflow hoffset hsmall hsize (by omega) hn
      omega
    have hbefore : last / 4096 < offset / 4096 := by
      by_contra hsame
      obtain ⟨n, buff', hn, -⟩ := h fun _ => 0
      rw [hread, if_pos (by omega), copyOut, if_neg (by omega), if_pos (by unfold blockSize; omega)] at hn
      cases hn
    refine ⟨hinside, hbefore, or_iff_not_imp_left.mpr fun hrest => ?_⟩
    -- a buffer that has another byte everywhere than the block begins with
    obtain ⟨n, buff', hn, -, -, hkeep⟩ := h fun _ => f.byte (4096 * (last / 4096)) + 1
    rw [hlate hbefore, readRest, if_neg hrest, hloop] at hn
    obtain ⟨b, hb, hn⟩ := bind_eq_some_iff.mp hn
    have hthere := isSome_of_copyOut hb hrest
    refine ⟨by_contra fun hmid => ?_, hthere⟩
    rw [copyOut_eq _ _ _ _ _ (.inr hthere) (by omega)] at hb
    cases hb
    cases hn
    have hplace : place offset 0 = -((offset % 4096 : Nat) : Int) := by simp [place, blockSize]
    have hbyte := hkeep (place offset 0) (by omega)
    dsimp only at hbyte
    rw [if_pos (by omega), Int.sub_self, Nat.add_zero] at hbyte
    simp at hbyte
  · by_cases hzero : last % 4096 = 0
    · refine ⟨size, buff, ?_, le_rfl, fun hbehind => by omega, fun _ _ => rfl⟩
      rw [hlate hbefore, readRest, if_pos hzero]
      rfl
    · obtain ⟨hstart, hthere⟩ := hrest.resolve_left hzero
      have hplace : place offset 0 = 0 := by simp [place, blockSize, hstart]
      have hread : f.read offset size buff = _ := hlate hbefore buff
      rw [readRest, if_neg hzero, hloop, copyOut_eq _ _ _ _ _ (.inr hthere) (by omega)] at hread
      exact ⟨size, _, hread, le_rfl, fun hbehind => by omega, fun j hj => if_neg (by omega)⟩

/-- The kernel's reads stay within what was asked for exactly if the range begins in the file and its blocks are there; behind
    the end of the file the distance to the end is returned. -/
theorem tmpfs_read_at_most (hsmall : f.size < 2147483648) (hoffset : offset < 18446744073709551616)
    (hsize : size < 18446744073709551616) : ReadsAtMost f offset size ↔ AsksInside f offset size := by
  unfold AsksInside
  split
  · exact readsAtMost_of_behind ‹_› hoffset hsize
  split
  · exact readsAtMost_of_covers (by omega) ‹_›
  · rw [readsAtMost_of_overflow hsmall (by omega) hsize
      (show offset + size = 18446744073709551616 + (offset + size - 18446744073709551616) by omega),
      show (offset + size - 18446744073709551616) % 4096 = (offset + size) % 4096 by omega]

/-- Ten bytes at the end of a file of fourteen. -/
theorem tmpfs_read_at_most_tail : ∃ f, creat.writeAll [⟨0, 14, fun _ => 7⟩] = some f ∧ ReadsAtMost f 4 100 := by
  refine ⟨_, rfl, (tmpfs_read_at_most (by decide) (by decide) (by decide)).mpr ?_⟩
  intro j hlo hhi
  rw [show j / 4096 = 0 by omega]
  rfl

/-- The file has 10 bytes, and 4 are asked for at 100. -/
theorem read_past_end_returns_distance :
    ∃ f, creat.writeAll [⟨0, 10, fun _ => 7⟩] = some f ∧
      (∀ buff r, f.read 100 4 buff = some r → r.1 = 90) ∧ ¬ReadsAtMost f 100 4 := by
  refine ⟨_, rfl, fun buff r hr => read_fst rfl rfl hr, fun h => ?_⟩
  obtain ⟨n, buff', hread, hle, -⟩ := h fun _ => 0
  have hn : n = 90 := read_fst rfl rfl hread
  omega

end TmpFile
end HelinKern
