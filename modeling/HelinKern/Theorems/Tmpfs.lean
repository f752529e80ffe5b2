import HelinKern.Lib.Loop
import HelinKern.Tmpfs

/-! A file of the temporary file system is a flat array of bytes. The blocks of the list are numbered from 0 in order, and
    both calls split their range along them. -/

namespace HelinKern
variable {written last : Nat} {r : Nat × (Int → BitVec 8)}

namespace TmpFile
open List Option

variable {f f' : TmpFile} {n id i m offset size : Nat} {pos : Int} {buff ptr : Int → BitVec 8}
  {l : List (BitVec 8)}

def Ordered (f : TmpFile) (n : Nat) : Prop := f.dataQueue.map BlockInfo.id = range n

def byte (f : TmpFile) (j : Nat) : BitVec 8 := (f.getBlockPtr (j / 4096)).elim 0 fun data => data (j % 4096)

namespace Ordered

variable (h : Ordered f n)
include h

theorem length : f.dataQueue.length = n := by
  rw [← length_map, h, length_range]

theorem id_eq {b : BlockInfo} (hb : f.dataQueue[i]? = some b) : b.id = i := by
  have hid : (f.dataQueue.map BlockInfo.id)[i]? = some b.id := by rw [getElem?_map, hb, map_some]
  rw [h, getElem?_range (by rw [← h.length]; exact (List.getElem?_eq_some_iff.mp hb).1)] at hid
  exact (some.inj hid).symm

theorem find (id : Nat) : f.dataQueue.find? (fun b => b.id = id) = f.dataQueue[id]? := by
  cases hb : f.dataQueue[id]? with
  | none =>
    rw [find?_eq_none]
    intro b hmem
    obtain ⟨j, hj⟩ := mem_iff_getElem?.mp hmem
    have hjd := h.id_eq hj
    rintro heq
    rw [decide_eq_true_eq] at heq
    rw [← heq, hjd, hj] at hb
    cases hb
  | some b =>
    obtain ⟨hlt, rfl⟩ := List.getElem?_eq_some_iff.mp hb
    rw [find?_eq_some_iff_getElem]
    refine ⟨by simpa using h.id_eq hb, id, hlt, rfl, fun j hj => ?_⟩
    have hjd := h.id_eq (getElem?_eq_getElem (i := j) (by omega))
    simp [hjd]
    omega

theorem getBlockPtr (id : Nat) : f.getBlockPtr id = f.dataQueue[id]?.map BlockInfo.data := by
  unfold TmpFile.getBlockPtr
  rw [h.find]

theorem isSome_getBlockPtr (id : Nat) : (f.getBlockPtr id).isSome = decide (id < n) := by
  rw [h.getBlockPtr, ← h.length, Bool.eq_iff_iff]
  simp

theorem findIdx (hid : id < n) : f.dataQueue.findIdx (fun b => b.id = id) = id := by
  have hlt : id < f.dataQueue.length := by rwa [h.length]
  rw [findIdx_eq hlt]
  refine ⟨by simpa using h.id_eq (getElem?_eq_getElem hlt), fun j hj => ?_⟩
  have hjd := h.id_eq (getElem?_eq_getElem (i := j) (by omega))
  simp [hjd]
  omega

theorem getOrCreateBlock (hid : id ≤ n) :
    ∃ f', f.getOrCreateBlock id = some f' ∧ Ordered f' (max n (id + 1)) ∧ f'.size = f.size ∧ f'.byte = f.byte := by
  unfold TmpFile.getOrCreateBlock
  rw [h.isSome_getBlockPtr]
  by_cases hlt : id < n
  · rw [if_pos (decide_eq_true hlt)]
    exact ⟨f, rfl, by rwa [max_eq_left hlt], rfl, rfl⟩
  obtain rfl : id = n := by omega
  refine ⟨{ f with dataQueue := f.dataQueue ++ [⟨id, fun _ => 0⟩] }, ?_, ?_, rfl, ?_⟩
  · rw [if_neg (by simp)]
    split
    next hzero =>
      rw [hzero] at h
      rw [eq_nil_of_length_eq_zero h.length]
      rfl
    · rw [if_neg]
      rw [isEmpty_iff_length_eq_zero, h.length]
      assumption
  · rw [max_eq_right (Nat.le_succ id)]
    show (f.dataQueue ++ [_]).map BlockInfo.id = _
    rw [map_append, h, range_succ]
    rfl
  · funext j
    unfold byte TmpFile.getBlockPtr
    rw [find?_append]
    cases f.dataQueue.find? fun b => decide (b.id = j / 4096) with
    | some b => rfl
    | none =>
      by_cases hj : id = j / 4096 <;> simp [hj]

theorem copyIn (id i m : Nat) (pos : Int) (buff : Int → BitVec 8) (hid : id ≤ n) (hfit : i + m ≤ 4096) :
    ∃ f', f.copyIn id i m pos buff = some f' ∧ Ordered f' (max n (id + 1)) ∧ f'.size = f.size ∧
      ∀ j, f'.byte j = if j / 4096 = id ∧ i ≤ j % 4096 ∧ j % 4096 < i + m then buff (pos + (j % 4096 - i : Nat))
        else f.byte j := by
  obtain ⟨f₁, hf₁, hordered, hsize, hbyte⟩ := h.getOrCreateBlock hid
  unfold TmpFile.copyIn
  have hroom : ¬blockSize < i + m := Nat.not_lt.mpr hfit
  rw [if_neg hroom, hf₁, map_some, hordered.findIdx (by omega)]
  generalize hg : (fun b : BlockInfo =>
    ({ b with data := fun j => if i ≤ j ∧ j < i + m then buff (pos + (j - i : Nat)) else b.data j } : BlockInfo)) = g
  have hordered' : Ordered { f₁ with dataQueue := f₁.dataQueue.modify id g } (max n (id + 1)) := by
    refine Eq.trans ?_ hordered
    refine ext_getElem? fun j => ?_
    rw [getElem?_map, getElem?_map, getElem?_modify]
    split <;> cases f₁.dataQueue[j]? <;> simp [← hg]
  refine ⟨_, rfl, hordered', hsize, fun j => ?_⟩
  rw [← hbyte]
  unfold byte
  rw [hordered'.getBlockPtr, hordered.getBlockPtr, getElem?_modify]
  by_cases hj : j / 4096 = id
  · obtain ⟨b, hb⟩ : ∃ b, f₁.dataQueue[j / 4096]? = some b :=
      ⟨_, getElem?_eq_getElem (by rw [hordered.length]; omega)⟩
    rw [hb]
    simp [hj, ← hg]
  · simp [hj, Ne.symm hj]

end Ordered

theorem copyOut_eq (id i m : Nat) (pos : Int) (buff : Int → BitVec 8) (hid : m = 0 ∨ (f.getBlockPtr id).isSome)
    (hfit : i + m ≤ 4096) : copyOut (f.getBlockPtr id) i m pos buff = some fun j =>
      if pos ≤ j ∧ j < pos + m then f.byte (4096 * id + i + (j - pos).toNat) else buff j := by
  unfold copyOut
  by_cases hm : m = 0
  · subst hm
    rw [if_pos rfl]
    congr 1
    funext j
    rw [if_neg (by omega)]
  obtain ⟨data, hdata⟩ := isSome_iff_exists.mp (hid.resolve_left hm)
  have hroom : ¬blockSize < i + m := Nat.not_lt.mpr hfit
  rw [if_neg hm, if_neg hroom, hdata, map_some]
  congr 1
  funext j
  split
  next hj =>
    have hdiv : (4096 * id + i + (j - pos).toNat) / 4096 = id := by omega
    have hmod : (4096 * id + i + (j - pos).toNat) % 4096 = i + (j - pos).toNat := by omega
    unfold byte
    rw [hdiv, hmod, hdata]
    rfl
  · rfl

def blocks (size : Nat) : Nat := (size + 4095) / 4096

-- an older write below a newer one, the two of which make one longer write
theorem ite_ite_eq {α : Type} {p q r : Prop} [Decidable p] [Decidable q] [Decidable r] {x y z w : α} (hr : r ↔ p ∨ q)
    (hx : p → x = w) (hy : q → y = w) : (if p then x else if q then y else z) = if r then w else z := by
  by_cases hp : p
  · rw [if_pos hp, if_pos (hr.mpr (.inl hp)), hx hp]
  · rw [if_neg hp]
    exact ite_congr (by simp [hr, hp]) (fun h => hy ((hr.mp h).resolve_left hp)) fun _ => rfl

structure Written (f : TmpFile) (n offset : Nat) (ptr : Int → BitVec 8) (written : Nat) (f' : TmpFile) : Prop where
  ordered : Ordered f' (max n (if written = 0 then 0 else offset / 4096 + written))
  size : f'.size = f.size
  byte : ∀ j, f'.byte j = if offset ≤ j ∧ j / 4096 < offset / 4096 + written then ptr ((j : Int) - offset) else f.byte j

theorem Written.start (h : Ordered f n) (offset : Nat) (ptr : Int → BitVec 8) : Written f n offset ptr 0 f where
  ordered := by simpa using h
  size := rfl
  byte j := by
    rw [if_neg (by omega)]

def writeTurn (offset : Nat) (ptr : Int → BitVec 8) (f : TmpFile) (written : Nat) : Option TmpFile :=
  if written = 0 then f.copyIn (offset / 4096) (offset % 4096) (4096 - offset % 4096) 0 ptr
  else f.copyIn (offset / 4096 + written) 0 4096 (place offset written) ptr

theorem Written.turn (h : Written f n offset ptr written f') (hoffset : offset / 4096 ≤ n) :
    ∃ f'', writeTurn offset ptr f' written = some f'' ∧ Written f n offset ptr (written + 1) f'' := by
  unfold writeTurn
  by_cases hzero : written = 0
  · subst hzero
    obtain ⟨f'', heq, hordered, hsize, hbyte⟩ := h.ordered.copyIn (offset / 4096) (offset % 4096)
      (4096 - offset % 4096) 0 ptr (by simp; omega) (by omega)
    rw [if_pos rfl]
    refine ⟨f'', heq, ⟨by simpa using hordered, hsize.trans h.size, fun j => ?_⟩⟩
    rw [hbyte, h.byte]
    exact ite_ite_eq (by omega) (fun _ => congrArg ptr (by omega)) fun _ => rfl
  · obtain ⟨f'', heq, hordered, hsize, hbyte⟩ := h.ordered.copyIn (offset / 4096 + written) 0 4096
      (place offset written) ptr (by rw [if_neg hzero]; omega) (by omega)
    rw [if_neg hzero]
    refine ⟨f'', heq, ⟨?_, hsize.trans h.size, fun j => ?_⟩⟩
    · rw [if_neg hzero] at hordered
      rw [if_neg (Nat.succ_ne_zero _)]
      convert hordered using 1
      omega
    · have hplace : place offset written = ((4096 * written : Nat) : Int) - ((offset % 4096 : Nat) : Int) := rfl
      rw [hbyte, h.byte]
      exact ite_ite_eq (by omega) (fun _ => congrArg ptr (by omega)) fun _ => rfl

def writeRest (offset size : Nat) (ptr : Int → BitVec 8) (f : TmpFile) : Option TmpFile :=
  if (offset + size) % 4096 = 0 then some f
  else f.copyIn ((offset + size) / 4096) 0 ((offset + size) % 4096)
    (place offset ((offset + size) / 4096 - offset / 4096)) ptr

def grow (f : TmpFile) (last : Nat) : TmpFile := if f.size < last then { f with size := last } else f

theorem grow_size (f : TmpFile) (last : Nat) : (f.grow last).size = max f.size last := by
  unfold grow
  split
  · exact (max_eq_right (Nat.le_of_lt ‹_›)).symm
  · exact (max_eq_left (Nat.le_of_not_lt ‹_›)).symm

theorem grow_dataQueue (f : TmpFile) (last : Nat) : (f.grow last).dataQueue = f.dataQueue := by
  unfold grow
  split <;> rfl

theorem grow_byte (f : TmpFile) (last : Nat) : (f.grow last).byte = f.byte := by
  unfold byte getBlockPtr
  rw [grow_dataQueue]

theorem write_eq (f : TmpFile) (ptr : Int → BitVec 8) (hend : offset + size < 2147483648) :
    f.write offset size ptr =
      if offset / 4096 = (offset + size) / 4096 then
        ((f.grow (offset + size)).copyIn (offset / 4096) (offset % 4096) size 0 ptr).bind fun f => some (size, f)
      else
        ((range ((offset + size) / 4096 - offset / 4096)).foldlM (writeTurn offset ptr) (f.grow (offset + size))).bind
          fun f => (writeRest offset size ptr f).bind fun f => some (size, f) := by
  have hendptr : (offset + size) % 18446744073709551616 = offset + size := Nat.mod_eq_of_lt (by omega)
  have hoper : (offset + size + (18446744073709551616 - offset)) % 18446744073709551616 = size := by omega
  have hrest : offset + size - (offset + size) / blockSize * blockSize = (offset + size) % 4096 := by
    have hblock : blockSize = 4096 := rfl
    rw [hblock]
    omega
  unfold write writeRest
  dsimp only
  rw [hendptr, hoper, hrest]
  by_cases hzero : (offset + size) % 4096 = 0
  · simp only [if_pos hzero]
    rfl
  · simp only [if_neg hzero]
    rfl

theorem Ordered.write (h : Ordered f n) (ptr : Int → BitVec 8) (hoffset : offset / 4096 ≤ n) (hsize : 0 < size)
    (hend : offset + size < 2147483648) :
    ∃ f', f.write offset size ptr = some (size, f') ∧ f'.size = max f.size (offset + size) ∧
      Ordered f' (max n (blocks (offset + size))) ∧
      ∀ j, f'.byte j = if offset ≤ j ∧ j < offset + size then ptr ((j : Int) - offset) else f.byte j := by
  have hblocks : blocks (offset + size) = (offset + size + 4095) / 4096 := rfl
  -- the node gets its new size before anything is copied
  have hgrown : Ordered (f.grow (offset + size)) n := by
    unfold Ordered
    rw [grow_dataQueue]
    exact h
  have hgrownSize := f.grow_size (offset + size)
  rw [write_eq f ptr hend]
  by_cases hsame : offset / 4096 = (offset + size) / 4096
  · obtain ⟨f', heq, hordered, hsize', hbyte⟩ := hgrown.copyIn (offset / 4096) (offset % 4096) size 0 ptr hoffset
      (by omega)
    refine ⟨f', ?_, hsize'.trans hgrownSize, ?_, fun j => ?_⟩
    · rw [if_pos hsame, heq]
      rfl
    · convert hordered using 1
      omega
    · rw [hbyte, grow_byte]
      exact ite_congr (propext (by omega)) (fun _ => congrArg ptr (by omega)) fun _ => rfl
  obtain ⟨f₁, hloop, hwritten⟩ := Loop.foldlM_range (Written (f.grow (offset + size)) n offset ptr)
    (.start hgrown offset ptr) fun i s (_ : i < (offset + size) / 4096 - offset / 4096) hs => hs.turn hoffset
  rw [if_neg hsame, hloop, bind_some]
  have hordered := hwritten.ordered
  have hbyte := hwritten.byte
  rw [if_neg (by omega), show offset / 4096 + ((offset + size) / 4096 - offset / 4096) = (offset + size) / 4096 by omega]
    at hordered
  unfold writeRest
  by_cases hrest : (offset + size) % 4096 = 0
  · refine ⟨f₁, by rw [if_pos hrest]; rfl, hwritten.size.trans hgrownSize, ?_, fun j => ?_⟩
    · convert hordered using 1
      omega
    · rw [hbyte, grow_byte]
      exact if_congr (by omega) rfl rfl
  · obtain ⟨f', heq, hordered', hsize', hbyte'⟩ := hordered.copyIn ((offset + size) / 4096) 0 ((offset + size) % 4096)
      (place offset ((offset + size) / 4096 - offset / 4096)) ptr (by omega) (by omega)
    refine ⟨f', by rw [if_neg hrest, heq]; rfl, (hsize'.trans hwritten.size).trans hgrownSize, ?_, fun j => ?_⟩
    · convert hordered' using 1
      omega
    · have hplace : place offset ((offset + size) / 4096 - offset / 4096) =
          ((4096 * ((offset + size) / 4096 - offset / 4096) : Nat) : Int) - ((offset % 4096 : Nat) : Int) := rfl
      rw [hbyte', hbyte, grow_byte, hplace]
      exact ite_ite_eq (by omega) (fun _ => congrArg ptr (by omega)) fun _ => rfl

def readTurn (f : TmpFile) (offset : Nat) (buff : Int → BitVec 8) (written : Nat) : Option (Int → BitVec 8) :=
  if written = 0 then copyOut (f.getBlockPtr (offset / 4096)) (offset % 4096) (4096 - offset % 4096) 0 buff
  else copyOut (f.getBlockPtr (offset / 4096 + written)) 0 4096 (place offset written) buff

def readRest (f : TmpFile) (offset last : Nat) (buff : Int → BitVec 8) : Option (Int → BitVec 8) :=
  if last % 4096 = 0 then some buff
  else copyOut (f.getBlockPtr (last / 4096)) 0 (last % 4096) (place offset (last / 4096 - offset / 4096)) buff

def Filled (f : TmpFile) (offset : Nat) (buff : Int → BitVec 8) (written : Nat) (buff' : Int → BitVec 8) : Prop :=
  ∀ j : Int, buff' j = if 0 ≤ j ∧ (offset + j.toNat) / 4096 < offset / 4096 + written then f.byte (offset + j.toNat)
    else buff j

theorem Filled.turn {buff' : Int → BitVec 8} (h : Filled f offset buff written buff')
    (hblock : (f.getBlockPtr (offset / 4096 + written)).isSome) :
    ∃ buff'', readTurn f offset buff' written = some buff'' ∧ Filled f offset buff (written + 1) buff'' := by
  unfold readTurn
  by_cases hzero : written = 0
  · subst hzero
    rw [copyOut_eq (offset / 4096) (offset % 4096) (4096 - offset % 4096) 0 buff' (.inr hblock) (by omega)]
    refine ⟨_, rfl, fun j => ?_⟩
    rw [h j]
    exact ite_ite_eq (by omega) (fun _ => congrArg f.byte (by omega)) fun _ => rfl
  · have hplace : place offset written = ((4096 * written : Nat) : Int) - ((offset % 4096 : Nat) : Int) := rfl
    rw [if_neg hzero, copyOut_eq (offset / 4096 + written) 0 4096 (place offset written) buff' (.inr hblock) (by omega)]
    refine ⟨_, rfl, fun j => ?_⟩
    rw [h j]
    exact ite_ite_eq (by omega) (fun _ => congrArg f.byte (by omega)) fun _ => rfl

section
variable {last oper : Nat}
  (hlast : (if f.size < (offset + size) % 18446744073709551616 then
    if 0 < offset ∧ f.size < offset then offset - f.size else f.size else (offset + size) % 18446744073709551616) = last)
  (hoper : (if f.size < offset then last
    else (last + (18446744073709551616 - offset)) % 18446744073709551616) = oper)
include hlast hoper

theorem read_of_end (buff : Int → BitVec 8) :
    f.read offset size buff =
      if offset / 4096 = last / 4096 then
        (copyOut (f.getBlockPtr (offset / 4096)) (offset % 4096) oper 0 buff).bind fun buff => some (oper, buff)
      else
        ((range (last / 4096 - offset / 4096)).foldlM (readTurn f offset) buff).bind
          fun buff => (readRest f offset last buff).bind fun buff => some (oper, buff) := by
  have hrest : last - last / blockSize * blockSize = last % 4096 := by
    have hblock : blockSize = 4096 := rfl
    rw [hblock]
    omega
  unfold read readRest
  dsimp only
  rw [hlast, hoper, hrest]
  by_cases hzero : last % 4096 = 0
  · simp only [if_pos hzero]
    rfl
  · simp only [if_neg hzero]
    rfl

theorem read_fst (h : f.read offset size buff = some r) : r.1 = oper := by
  rw [read_of_end hlast hoper] at h
  split at h
  · obtain ⟨b, -, hb⟩ := bind_eq_some_iff.mp h
    exact congrArg Prod.fst (some.inj hb).symm
  · obtain ⟨b, -, h⟩ := bind_eq_some_iff.mp h
    obtain ⟨c, -, hc⟩ := bind_eq_some_iff.mp h
    exact congrArg Prod.fst (some.inj hc).symm

end

theorem read_eq (f : TmpFile) (buff : Int → BitVec 8) (hoffset : offset ≤ f.size)
    (hend : offset + size < 18446744073709551616) (hlast : last = min (offset + size) f.size) :
    f.read offset size buff =
      if offset / 4096 = last / 4096 then
        (copyOut (f.getBlockPtr (offset / 4096)) (offset % 4096) (last - offset) 0 buff).bind
          fun buff => some (last - offset, buff)
      else
        ((range (last / 4096 - offset / 4096)).foldlM (readTurn f offset) buff).bind
          fun buff => (readRest f offset last buff).bind fun buff => some (last - offset, buff) := by
  refine read_of_end ?_ ?_ buff
  · rw [Nat.mod_eq_of_lt hend, hlast]
    split
    · rw [if_neg (by omega), min_eq_right (by omega)]
    · rw [min_eq_left (by omega)]
  · rw [if_neg (by omega)]
    omega

def Covers (f : TmpFile) (offset last : Nat) : Prop :=
  ∀ j, offset ≤ j → j < last → (f.getBlockPtr (j / 4096)).isSome

theorem Ordered.covers (h : Ordered f (blocks f.size)) (hlast : last ≤ f.size) : f.Covers offset last := by
  intro j _ hj
  have hblocks : blocks f.size = (f.size + 4095) / 4096 := rfl
  rw [h.isSome_getBlockPtr]
  exact decide_eq_true (by omega)

theorem Covers.read (h : f.Covers offset (min (offset + size) f.size)) (buff : Int → BitVec 8) (hoffset : offset ≤ f.size)
    (hend : offset + size < 18446744073709551616) :
    ∃ buff', f.read offset size buff = some (min size (f.size - offset), buff') ∧
      ∀ j : Int, buff' j = if 0 ≤ j ∧ j < min size (f.size - offset) then f.byte (offset + j.toNat) else buff j := by
  obtain ⟨last, hlast⟩ : ∃ last, last = min (offset + size) f.size := ⟨_, rfl⟩
  have hcount : min size (f.size - offset) = last - offset := by omega
  have hthere : ∀ id, offset < last → offset / 4096 ≤ id → 4096 * id < last → (f.getBlockPtr id).isSome := by
    intro id hlt hid hidlast
    have hj := h (max offset (4096 * id)) (le_max_left ..) (by omega)
    rwa [show max offset (4096 * id) / 4096 = id by omega] at hj
  rw [read_eq f buff hoffset hend hlast, hcount]
  by_cases hsame : offset / 4096 = last / 4096
  · have hblock : last - offset = 0 ∨ (f.getBlockPtr (offset / 4096)).isSome :=
      or_iff_not_imp_left.mpr fun _ => hthere _ (by omega) (Nat.le_refl _) (by omega)
    rw [if_pos hsame, copyOut_eq (offset / 4096) (offset % 4096) (last - offset) 0 buff hblock (by omega)]
    exact ⟨_, rfl, fun j => ite_congr (propext (by omega)) (fun _ => congrArg f.byte (by omega)) fun _ => rfl⟩
  obtain ⟨buff₁, hloop, hfilled⟩ := Loop.foldlM_range (Filled f offset buff)
    (s := buff) (n := last / 4096 - offset / 4096) (f := readTurn f offset)
    (fun j => by rw [if_neg (by omega)]) fun i s hi hs => hs.turn (hthere _ (by omega) (by omega) (by omega))
  rw [if_neg hsame, hloop, bind_some]
  unfold readRest
  by_cases hrest : last % 4096 = 0
  · refine ⟨buff₁, by rw [if_pos hrest]; rfl, fun j => ?_⟩
    rw [hfilled j]
    exact if_congr (by omega) rfl rfl
  have hplace : place offset (last / 4096 - offset / 4096) =
      ((4096 * (last / 4096 - offset / 4096) : Nat) : Int) - ((offset % 4096 : Nat) : Int) := rfl
  rw [if_neg hrest, copyOut_eq (last / 4096) 0 (last % 4096) (place offset (last / 4096 - offset / 4096)) buff₁
    (.inr (hthere _ (by omega) (by omega) (by omega))) (by omega)]
  refine ⟨_, rfl, fun j => ?_⟩
  rw [hfilled j, hplace]
  exact ite_ite_eq (by omega) (fun _ => congrArg f.byte (by omega)) fun _ => rfl

theorem read_overflow (hoffset : offset ≤ f.size) (hsmall : f.size < 2147483648) (hsize : size < 18446744073709551616)
    (hend : 18446744073709551616 ≤ offset + size) (h : f.read offset size buff = some r) : r.1 = size := by
  refine read_fst (if_neg (by omega)) ?_ h
  rw [if_neg (Nat.not_lt.mpr hoffset)]
  omega

/-! ### Files are arrays -/

structure Stores (f : TmpFile) (l : List (BitVec 8)) : Prop where
  ordered : Ordered f (blocks f.size)
  size_lt : f.size < 2147483648
  bytes : l = (range f.size).map f.byte

theorem Stores.length (h : Stores f l) : l.length = f.size := by
  rw [h.bytes, length_map, length_range]

theorem Stores.creat : Stores creat [] := ⟨rfl, by decide, rfl⟩

theorem Stores.getElem? (h : Stores f l) (j : Nat) : l[j]? = if j < f.size then some (f.byte j) else none := by
  rw [h.bytes, getElem?_map]
  split
  · rw [getElem?_range ‹_›]
    rfl
  · rw [getElem?_eq_none (by rw [length_range]; omega)]
    rfl

theorem length_bytes (ptr : Int → BitVec 8) (n : Nat) : (bytes ptr n).length = n := by
  unfold TmpFile.bytes
  rw [length_map, length_range]

theorem getElem?_bytes (ptr : Int → BitVec 8) (h : i < n) : (bytes ptr n)[i]? = some (ptr i) := by
  unfold TmpFile.bytes
  rw [getElem?_map, getElem?_range h, map_some]

theorem getElem?_splice (w : Write) (hw : w.Fits l) (j : Nat) :
    (w.splice l)[j]? = if w.offset ≤ j ∧ j < w.offset + w.size then some (w.ptr ((j : Int) - w.offset)) else l[j]? := by
  obtain ⟨hoffset, -, -⟩ := hw
  have htake : (l.take w.offset).length = w.offset := length_take_of_le hoffset
  have hbytes := length_bytes w.ptr w.size
  unfold Write.splice
  by_cases hbefore : j < w.offset
  · rw [if_neg (by omega), append_assoc, getElem?_append_left (by omega), getElem?_take_of_lt hbefore]
  by_cases hinside : j < w.offset + w.size
  · rw [if_pos (by omega), getElem?_append_left (by rw [length_append]; omega),
      getElem?_append_right (by omega), getElem?_bytes _ (by omega)]
    congr 2
    omega
  · rw [if_neg (by omega), getElem?_append_right (by rw [length_append]; omega), length_append, getElem?_drop]
    congr 1
    omega

theorem Stores.write (h : Stores f l) {w : Write} (hw : w.Fits l) :
    ∃ f', f.write w.offset w.size w.ptr = some (w.size, f') ∧ Stores f' (w.splice l) := by
  have hfits := hw
  obtain ⟨hoffset, hsize, hend⟩ := hw
  rw [h.length] at hoffset
  have hsmall := h.size_lt
  have hblocks (x : Nat) : blocks x = (x + 4095) / 4096 := rfl
  obtain ⟨f', hwrite, hsize', hordered, hbyte⟩ := h.ordered.write w.ptr (by rw [hblocks]; omega) hsize hend
  have hstored : Ordered f' (blocks f'.size) := by
    convert hordered using 1
    simp only [hblocks]
    omega
  refine ⟨f', hwrite, hstored, by omega, ?_⟩
  refine ext_getElem? fun j => ?_
  rw [getElem?_splice w hfits, h.getElem?, getElem?_map]
  by_cases hj : j < f'.size
  · rw [getElem?_range hj, map_some, hbyte]
    split
    · rfl
    · rw [if_pos (by omega)]
  · rw [if_neg (by omega), if_neg (by omega), getElem?_eq_none (by rw [length_range]; omega)]
    rfl

theorem Stores.writeAll (h : Stores f l) {ws : List Write} (hws : FitsAll l ws) :
    ∃ f', f.writeAll ws = some f' ∧ Stores f' (ws.foldl Write.splice l) := by
  induction ws generalizing f l with
  | nil => exact ⟨f, rfl, h⟩
  | cons w ws ih =>
    obtain ⟨f₁, hwrite, hstores⟩ := h.write hws.1
    obtain ⟨f', hrest, hstores'⟩ := ih hstores hws.2
    refine ⟨f', ?_, hstores'⟩
    unfold TmpFile.writeAll at hrest ⊢
    rw [foldlM_cons, hwrite]
    exact hrest

/-- What reading `size` bytes from `offset` on should do: return the number of bytes of `l` there and put them into the
    buffer, and nothing else. -/
def Reads (f : TmpFile) (l : List (BitVec 8)) (offset size : Nat) (buff : Int → BitVec 8) : Prop :=
  ∃ buff', f.read offset size buff = some (min size (l.length - offset), buff') ∧
    bytes buff' (min size (l.length - offset)) = (l.drop offset).take size ∧
    ∀ j : Int, j < 0 ∨ ((min size (l.length - offset) : Nat) : Int) ≤ j → buff' j = buff j

theorem Stores.reads (h : Stores f l) (buff : Int → BitVec 8) (hoffset : offset ≤ l.length)
    (hend : offset + size < 18446744073709551616) : Reads f l offset size buff := by
  have hlength := h.length
  obtain ⟨buff', hread, hbuff⟩ := (h.ordered.covers (min_le_right ..)).read buff (by omega) hend
  rw [← hlength] at hread hbuff
  refine ⟨buff', hread, ?_, fun j hj => ?_⟩
  · refine ext_getElem? fun j => ?_
    by_cases hj : j < min size (l.length - offset)
    · rw [getElem?_bytes _ hj, getElem?_take_of_lt (by omega), getElem?_drop, h.getElem?, if_pos (by omega),
        hbuff, if_pos (by omega)]
      rfl
    · rw [getElem?_eq_none (by rw [length_bytes]; omega), getElem?_eq_none]
      rw [length_take, length_drop]
      omega
  · rw [hbuff, if_neg (by omega)]

/-- A file that writes made is the array they make, and a read delivers the part of it that it asks for, if and only if
    the end of its range is a `uint64_t`. -/
theorem tmpfs_stores_bytes {ws : List Write} (hws : FitsAll [] ws) :
    ∃ f, TmpFile.creat.writeAll ws = some f ∧ f.size = (ws.foldl Write.splice []).length ∧
      ∀ offset size buff, offset ≤ f.size → size < 18446744073709551616 →
        (Reads f (ws.foldl Write.splice []) offset size buff ↔ offset + size < 18446744073709551616) := by
  obtain ⟨f, hwrite, hstores⟩ := Stores.creat.writeAll hws
  have hlength := hstores.length
  have hsmall := hstores.size_lt
  refine ⟨f, hwrite, hlength.symm, fun offset size buff hoffset hsize => ⟨fun hreads => ?_, fun hend => ?_⟩⟩
  · by_contra hend
    obtain ⟨buff', hread, -⟩ := hreads
    have hret := read_overflow hoffset hsmall hsize (Nat.le_of_not_lt hend) hread
    omega
  · exact hstores.reads buff (by omega) hend

/-- One write of 5000 bytes over two blocks, and a read across them. -/
theorem tmpfs_stores_bytes_two_blocks :
    ∃ f, TmpFile.creat.writeAll [⟨0, 5000, fun j => BitVec.ofInt 8 j⟩] = some f ∧ f.size = 5000 ∧
      Reads f (Write.splice [] ⟨0, 5000, fun j => BitVec.ofInt 8 j⟩) 4000 200 fun _ => 0 := by
  have hfits : FitsAll [] [⟨0, 5000, fun j => BitVec.ofInt 8 j⟩] := ⟨⟨Nat.le_refl _, by decide, by decide⟩, trivial⟩
  obtain ⟨f, hwrite, hsize, hreads⟩ := tmpfs_stores_bytes hfits
  have hlength : ([⟨0, 5000, fun j => BitVec.ofInt 8 j⟩].foldl Write.splice []).length = 5000 := by
    simp [Write.splice, TmpFile.bytes]
  rw [hlength] at hsize
  exact ⟨f, hwrite, hsize, (hreads 4000 200 _ (by omega) (by decide)).mpr (by decide)⟩

/-- A file of ten bytes, read from place 5 with the length 2^64 - 1: the call does not return 5. -/
theorem tmpfs_read_overflows :
    ∃ f, TmpFile.creat.writeAll [⟨0, 10, fun _ => 7⟩] = some f ∧
      ¬Reads f (Write.splice [] ⟨0, 10, fun _ => 7⟩) 5 18446744073709551615 fun _ => 0 := by
  have hfits : FitsAll [] [⟨0, 10, fun _ => 7⟩] := ⟨⟨Nat.le_refl _, by decide, by decide⟩, trivial⟩
  obtain ⟨f, hwrite, hstores⟩ := Stores.creat.writeAll hfits
  have hlength : (Write.splice [] ⟨0, 10, fun _ => 7⟩).length = 10 := rfl
  have hsize : f.size = 10 := hstores.length.symm
  refine ⟨f, hwrite, ?_⟩
  rintro ⟨buff', hread, -⟩
  have hret := read_overflow (by omega) (by omega) (by decide) (by decide) hread
  omega

end TmpFile
end HelinKern
