import HelinKern.Ext2

/-! The directories that `ext2_finddir` and `ext2_readdir` walk to their end, and what `ext2_read_file` reads from the start of
    a file. -/

namespace HelinKern
namespace Ext2
open Word

variable {d : Memory} {size p q i n : Nat} {stop : Nat → Nat → Bool} {name : Name} {ps : List Nat} {r : Option Nat}

/-- A walk that ends, looks only at entries inside the directory, and does not end at an unused entry. -/
def Sound (d : Memory) (size : Nat) (call : Nat → List Nat × Option (Option Nat)) : Prop :=
  ∃ n ps r, call n = (ps, some r) ∧ (∀ p ∈ ps, p + 8 + nameLen d p ≤ size) ∧ ∀ p, r = some p → inodeOf d p ≠ 0

/-- From `p` on the records fill the directory up to its end. -/
inductive Tiled (d : Memory) (size : Nat) : Nat → Prop
  | done : Tiled d size size
  | record {p : Nat} (entry : p + 8 + nameLen d p ≤ size) (pos : 0 < recLen d p) (next : Tiled d size (p + recLen d p)) :
    Tiled d size p

/-- The entries from `p` on. -/
inductive Entry (d : Memory) (size : Nat) : Nat → Nat → Prop
  | here {p : Nat} (h : p < size) : Entry d size p p
  | next {p q : Nat} (h : p < size) (hq : Entry d size (p + recLen d p) q) : Entry d size p q

/-- Both walks are sound for every name and index, and in a directory that is filled with records a name is found exactly
    if an entry in use has it. -/
structure Robust (d : Memory) (size : Nat) : Prop where
  finddir : ∀ name, Sound d size (ext2Finddir d size name)
  readdir : ∀ index, Sound d size (ext2Readdir d size index)
  exact : Tiled d size 0 → ∀ name, (∃ n ps p, ext2Finddir d size name n = (ps, some (some p))) ↔
    ∃ p, Entry d size 0 p ∧ inodeOf d p ≠ 0 ∧ filename d p = name

theorem recLen_lt (d : Memory) (p : Nat) : recLen d p < 65536 := by
  have h₁ := (d (p + 4)).isLt
  have h₂ := (d (p + 4 + 1)).isLt
  unfold recLen Elf.half
  omega

theorem Tiled.le (h : Tiled d size p) : p ≤ size := by
  induction h with
  | done => exact Nat.le_refl _
  | record => omega

theorem walk_record (hsize : size < wordSize) (hp : p < size) (hnext : p + recLen d p ≤ size) (hstop : stop i p = false) :
    walk d stop (n + 1) i p (size - p) =
      (p :: (walk d stop n (i + 1) (p + recLen d p) (size - (p + recLen d p))).1,
        (walk d stop n (i + 1) (p + recLen d p) (size - (p + recLen d p))).2) := by
  rw [walk, if_neg (by omega), hstop, if_neg Bool.false_ne_true,
    show (size - p + (wordSize - recLen d p)) % wordSize = size - (p + recLen d p) by
      have := recLen_lt d p
      unfold wordSize at *
      omega]

theorem Tiled.ends (hsize : size < wordSize) (h : Tiled d size p) (stop : Nat → Nat → Bool) (i : Nat) :
    ∃ n ps r, walk d stop n i p (size - p) = (ps, some r) := by
  induction h generalizing i with
  | done => exact ⟨1, [], none, by rw [walk, Nat.sub_self, if_pos rfl]⟩
  | @record p hentry _ hnext ih =>
    cases hstop : stop i p with
    | true => exact ⟨1, [p], some p, by rw [walk, if_neg (by omega), hstop, if_pos rfl]⟩
    | false =>
      obtain ⟨n, ps, r, hwalk⟩ := ih (i + 1)
      exact ⟨n + 1, p :: ps, r, by rw [walk_record hsize (by omega) hnext.le hstop, hwalk]⟩

theorem Tiled.spec (hsize : size < wordSize) (h : Tiled d size p)
    (hwalk : walk d stop n i p (size - p) = (ps, some r)) :
    (∀ q ∈ ps, q + 8 + nameLen d q ≤ size) ∧ (∀ q, r = some q → Entry d size p q ∧ ∃ j, stop j q) ∧
      (r = none → ∀ q, Entry d size p q → ∃ j, stop j q = false) := by
  induction h generalizing i n ps with
  | done =>
    cases n with
    | zero => cases hwalk
    | succ n =>
      rw [walk, Nat.sub_self, if_pos rfl] at hwalk
      cases hwalk
      refine ⟨by simp, by simp, fun _ q hq => ?_⟩
      cases hq <;> omega
  | @record p hentry _ hnext ih =>
    cases n with
    | zero => cases hwalk
    | succ n =>
      cases hstop : stop i p with
      | true =>
        rw [walk, if_neg (by omega), hstop, if_pos rfl] at hwalk
        cases hwalk
        simpa [hentry] using ⟨Entry.here (by omega), i, hstop⟩
      | false =>
        rw [walk_record hsize (by omega) hnext.le hstop] at hwalk
        obtain ⟨rfl, hr⟩ := Prod.mk.inj hwalk
        obtain ⟨hps, hfound, hnone⟩ := ih (Prod.ext rfl hr)
        refine ⟨by simpa [hentry] using hps, fun q hq => ?_, fun hr q hq => ?_⟩
        · obtain ⟨hq, hj⟩ := hfound q hq
          exact ⟨.next (by omega) hq, hj⟩
        · cases hq with
          | here => exact ⟨i, hstop⟩
          | next _ hq => exact hnone hr q hq

/-- A walk that stops nowhere and looks only at entries inside the directory passes records up to the end. -/
theorem tiled_of_walk (hsize : size < wordSize) (hstop : ∀ i q, stop i q = false) (hp : p ≤ size)
    (hwalk : walk d stop n i p (size - p) = (ps, some r)) (hps : ∀ q ∈ ps, q + 8 + nameLen d q ≤ size) :
    Tiled d size p := by
  induction n generalizing i p ps with
  | zero => cases hwalk
  | succ n ih =>
    obtain rfl | hlt := Nat.eq_or_lt_of_le hp
    · exact .done
    by_cases hle : p + recLen d p ≤ size
    · rw [walk_record hsize hlt hle (hstop i p)] at hwalk
      obtain ⟨rfl, hr⟩ := Prod.mk.inj hwalk
      have hnext := ih hle (Prod.ext rfl hr) fun q hq => hps q (List.mem_cons_of_mem _ hq)
      by_cases hpos : 0 < recLen d p
      · exact .record (hps p List.mem_cons_self) hpos hnext
      · rwa [show recLen d p = 0 by omega] at hnext
    · -- `dsize` wraps, and the next entry is behind the end
      have hlen := recLen_lt d p
      rw [walk, if_neg (by omega), hstop, if_neg Bool.false_ne_true] at hwalk
      cases n with
      | zero => cases hwalk
      | succ n =>
        rw [walk, if_neg (by unfold wordSize at *; omega), hstop, if_neg Bool.false_ne_true] at hwalk
        obtain ⟨rfl, -⟩ := Prod.mk.inj hwalk
        have := hps (p + recLen d p) (by simp)
        omega

theorem filename_length (d : Memory) (p : Nat) : (filename d p).length < 256 := by
  have hlen : (filename d p).length ≤ _ := (List.takeWhile_sublist _).length_le
  have := (d (p + 6)).isLt
  simp only [List.length_map, List.length_range, nameLen] at hlen
  omega

theorem Robust.tiled (hsize : size < wordSize) (h : Robust d size) : Tiled d size 0 := by
  -- no entry has a name of 256 bytes
  obtain ⟨n, ps, r, hwalk, hps, -⟩ := h.finddir (List.replicate 256 1)
  refine tiled_of_walk hsize (fun _ p => decide_eq_false fun heq => ?_) (Nat.zero_le _) hwalk hps
  have hlen := filename_length d p
  rw [heq, List.length_replicate] at hlen
  omega

/-- `ext2_readdir` ends at every entry for some index. -/
theorem Tiled.exists_index (hsize : size < wordSize) (h : Tiled d size p) (hq : Entry d size p q) (i : Nat) :
    ∃ index, i ≤ index ∧ ∀ n ps r, walk d (fun i _ => i = index) n i p (size - p) = (ps, some r) → r = some q := by
  induction hq generalizing i with
  | here hp =>
    refine ⟨i, Nat.le_refl i, fun n ps r hwalk => ?_⟩
    cases n with
    | zero => cases hwalk
    | succ n =>
      rw [walk, if_neg (by omega), if_pos (by simp)] at hwalk
      cases hwalk
      rfl
  | next hp _ ih =>
    cases h with
    | done => omega
    | record _ _ hnext =>
      obtain ⟨index, hle, hindex⟩ := ih hnext (i + 1)
      refine ⟨index, by omega, fun n ps r hwalk => ?_⟩
      cases n with
      | zero => cases hwalk
      | succ n =>
        rw [walk_record hsize hp hnext.le (by simpa using by omega)] at hwalk
        exact hindex n _ r (Prod.ext rfl (Prod.mk.inj hwalk).2)

/-- The walks are robust exactly in a directory that is filled with records whose entries are all in use. -/
theorem ext2_directory_robust (hsize : size < wordSize) :
    Robust d size ↔ Tiled d size 0 ∧ ∀ p, Entry d size 0 p → inodeOf d p ≠ 0 := by
  refine ⟨fun h => ?_, fun ⟨htiled, hused⟩ => ?_⟩
  · refine ⟨h.tiled hsize, fun p hp => ?_⟩
    obtain ⟨index, -, hindex⟩ := (h.tiled hsize).exists_index hsize hp 0
    obtain ⟨n, ps, r, hwalk, -, hr⟩ := h.readdir index
    exact hr p (hindex n ps r hwalk)
  · have hsound : ∀ stop : Nat → Nat → Bool, Sound d size fun n => walk d stop n 0 0 size := by
      intro stop
      obtain ⟨n, ps, r, hwalk⟩ := htiled.ends hsize stop 0
      obtain ⟨hps, hfound, -⟩ := htiled.spec hsize hwalk
      exact ⟨n, ps, r, hwalk, hps, fun p hr => hused p (hfound p hr).1⟩
    refine ⟨fun name => hsound _, fun index => hsound _, fun _ name => ⟨?_, ?_⟩⟩
    · rintro ⟨n, ps, p, hwalk⟩
      obtain ⟨hp, _, hname⟩ := (htiled.spec hsize hwalk).2.1 p rfl
      exact ⟨p, hp, hused p hp, by simpa using hname⟩
    · rintro ⟨p, hp, -, hname⟩
      obtain ⟨n, ps, r, hwalk⟩ := htiled.ends hsize (fun _ p => filename d p = name) 0
      cases r with
      | some q => exact ⟨n, ps, q, hwalk⟩
      | none =>
        obtain ⟨_, hne⟩ := (htiled.spec hsize hwalk).2.2 rfl p hp
        simp [hname] at hne

/-- A directory with `.` only, which is inode 2. -/
def dotDirectory : Memory := write (write (write (fun _ => 0) 0 2) 4 0x1000C) 8 0x2E

theorem ext2_directory_robust_dot : Robust dotDirectory 12 := by
  refine (ext2_directory_robust (by decide)).mpr ⟨.record (by decide) (by decide) .done, fun p hp => ?_⟩
  cases hp with
  | here => decide
  | next _ hp =>
    have hlt : 0 + recLen dotDirectory 0 < 12 := by cases hp <;> assumption
    exact absurd hlt (by decide)

/-- A record of length 0: `ext2_finddir` stays at it. -/
theorem zero_record_not_robust : ¬ Robust (fun _ => 0) 12 := by
  intro h
  cases h.tiled (by decide) with
  | record _ hpos => exact absurd hpos (by decide)

/-! ### Files -/

open List

namespace Disk
variable {hd : Disk} {size b : Nat} {base : Memory} {l m : List Nat} {s : Reader} {r : Flow} {f : Reader → Flow}

/-- The data blocks of an inode, in order. -/
def fileBlocks (hd : Disk) (iBlock : Nat → Nat) : List Nat :=
  directBlocks iBlock ++ hd.pointers (iBlock 12) ++ (hd.pointers (iBlock 13)).flatMap hd.pointers ++
    (hd.pointers (iBlock 14)).flatMap fun p => (hd.pointers p).flatMap hd.pointers

/-- The first `n` bytes of `buf` are those of the blocks `l`, and the others are those of `base`. -/
structure Filled (hd : Disk) (base : Memory) (l : List Nat) (n : Nat) (buf : Memory) : Prop where
  data : ∀ i b x, l[i]? = some b → x < hd.blocksize → hd.blocksize * i + x < n → buf (hd.blocksize * i + x) = hd.block b x
  rest : ∀ x, n ≤ x → buf x = base x

/-- The blocks `l` were copied, as far as `size` goes. -/
structure Copied (hd : Disk) (size : Nat) (base : Memory) (l : List Nat) (s : Reader) : Prop where
  head : s.head = min size (hd.blocksize * l.length)
  left : s.size = size - s.head
  filled : Filled hd base l s.head s.base

/-- What a loop over the blocks `l` leads to. -/
def Post (hd : Disk) (size : Nat) (base : Memory) (l : List Nat) : Flow → Prop
  | .ok s => Copied hd size base l s
  | .error (some s) => s.size = 0 ∧ ∃ l', l' <+: l ∧ Copied hd size base l' s
  | .error none => False

theorem Copied.copy (h : Copied hd size base l s) (b : Nat) :
    Copied hd size base (l ++ [b]) (hd.copy s b 0 (min s.size hd.blocksize)) := by
  obtain ⟨hhead, hleft, hdata, hrest⟩ := h
  have hlen : hd.blocksize * (l ++ [b]).length = hd.blocksize * l.length + hd.blocksize := by
    rw [length_append, length_singleton, Nat.mul_succ]
  refine ⟨?_, ?_, fun i c x hi hx hlt => ?_, fun x hx => ?_⟩
  · rw [hlen]
    simp only [Disk.copy]
    omega
  · simp only [Disk.copy]
    omega
  · simp only [Disk.copy] at hlt ⊢
    obtain hlast | hlast := Nat.lt_or_ge i l.length
    · have hmul := Nat.mul_le_mul_left hd.blocksize hlast
      rw [Nat.mul_succ] at hmul
      rw [getElem?_append_left hlast] at hi
      rw [if_neg (by omega)]
      exact hdata i c x hi hx (by omega)
    · obtain ⟨rfl, rfl⟩ : i = l.length ∧ b = c := by
        rw [getElem?_append_right hlast, getElem?_singleton] at hi
        split at hi
        · exact ⟨by omega, Option.some.inj hi⟩
        · cases hi
      rw [if_pos (by omega)]
      congr 1
      omega
  · simp only [Disk.copy] at hx ⊢
    rw [if_neg (by omega)]
    exact hrest x (by omega)

theorem Post.bind (h : Post hd size base l r) (hf : ∀ s, Copied hd size base l s → Post hd size base (l ++ m) (f s)) :
    Post hd size base (l ++ m) (r >>= f) := by
  obtain (_ | s) | s := r
  · exact h
  · obtain ⟨hsize, l', hl', h⟩ := h
    exact ⟨hsize, l', hl'.trans (prefix_append l m), h⟩
  · exact hf s h

theorem Copied.foldlM {f : Reader → Nat → Flow} (hf : ∀ {l s} b, Copied hd size base l s → Post hd size base (l ++ [b]) (f s b))
    (h : Copied hd size base l s) (bs : List Nat) : Post hd size base (l ++ bs) (bs.foldlM f s) := by
  induction bs generalizing l s with
  | nil =>
    rw [append_nil]
    exact h
  | cons b bs ih =>
    rw [foldlM_cons, append_cons]
    exact (hf b h).bind fun s hs => ih hs

section
variable (h : Copied hd size base l s)
include h

theorem Copied.clean (hsize : s.size = 0) : Post hd size base (l ++ m) (throw (some s)) :=
  ⟨hsize, l, prefix_append l m, h⟩

theorem Copied.checked {f : Flow} (hf : Post hd size base (l ++ m) f) :
    Post hd size base (l ++ m) (if s.size = 0 then throw (some s) else f) := by
  split
  next hsize => exact h.clean hsize
  · exact hf

theorem Copied.directBlock (b : Nat) : Post hd size base (l ++ [b]) (hd.directBlock 0 s b) :=
  h.checked (f := pure _) (h.copy b)

theorem Copied.indirectBlock (b : Nat) : Post hd size base (l ++ [b]) (hd.indirectBlock 0 s b) :=
  h.copy b

theorem Copied.biIndirectBlock (b : Nat) : Post hd size base (l ++ [b]) (hd.biIndirectBlock 0 s b) :=
  h.checked (h.indirectBlock b)

theorem Copied.triIndirectBlock (b : Nat) :
    Post hd size base (l ++ [b]) (hd.triIndirectBlock 0 s b) := h.checked (f := pure _) (h.copy b)

theorem Copied.indirectLoop (p : Nat) : Post hd size base (l ++ hd.pointers p) (hd.indirectLoop p 0 s) := by
  unfold Disk.indirectLoop
  split
  next hsize => exact h.clean hsize.2
  · exact h.foldlM (fun b h => h.indirectBlock b) _

end

theorem foldlM_flatMap (f : Reader → Nat → Flow) (g : Nat → List Nat) (l : List Nat) (s : Reader) :
    (l.flatMap g).foldlM f s = l.foldlM (fun s a => (g a).foldlM f s) s := by
  induction l generalizing s with
  | nil => rfl
  | cons a l ih => simp [ih]

theorem Copied.readLoops (h : Copied hd size base [] s) (iBlock : Nat → Nat) :
    Post hd size base (hd.fileBlocks iBlock) (hd.readLoops iBlock 0 s) := by
  unfold Disk.readLoops fileBlocks
  -- the nested loops are loops over the blocks that they reach
  simp only [← foldlM_flatMap]
  rw [append_assoc, append_assoc]
  refine (h.foldlM (fun b h => h.directBlock b) _).bind fun s h => ?_
  rw [nil_append] at h ⊢
  rw [← append_assoc]
  refine (h.indirectLoop _).bind fun s h => ?_
  rw [← append_assoc]
  exact (h.foldlM (fun b h => h.biIndirectBlock b) _).bind fun s h => h.foldlM (fun b h => h.triIndirectBlock b) _

/-- The loops end with what is in `s`. -/
def Ends (s : Reader) (r : Flow) : Prop := r = .ok s ∨ r = .error (some s)

theorem Ends.readFile {iBlock : Nat → Nat} {offset : Nat} (h : Ends s (hd.readLoops iBlock offset ⟨base, 0, size, hd.blocksize⟩)) :
    hd.ext2ReadFile iBlock size base offset = some s.base := by
  unfold ext2ReadFile
  rcases h with h | h
  · rw [h]
  · rw [h]
    rfl

theorem Post.ends (h : Post hd size base l r) (hsize : size ≤ hd.blocksize * l.length) :
    ∃ s, Ends s r ∧ Filled hd base l size s.base := by
  obtain (_ | s) | s := r
  · exact h.elim
  · obtain ⟨hzero, l', ⟨m, rfl⟩, h⟩ := h
    have hhead : s.head = size := by
      have := h.head
      have := h.left
      omega
    refine ⟨s, .inr rfl, fun i b x hi hx hlt => ?_, hhead ▸ h.filled.rest⟩
    have hi' : i < l'.length := by
      have := h.head
      exact Nat.lt_of_mul_lt_mul_left (a := hd.blocksize) (by omega)
    rw [getElem?_append_left hi'] at hi
    exact h.filled.data i b x hi hx (by omega)
  · have hhead := h.head
    rw [Nat.min_eq_left hsize] at hhead
    exact ⟨s, .inl rfl, hhead ▸ h.filled⟩

theorem ends_from_start (iBlock : Nat → Nat) (base : Memory) (hsize : size ≤ hd.blocksize * (hd.fileBlocks iBlock).length) :
    ∃ s, Ends s (hd.readLoops iBlock 0 ⟨base, 0, size, hd.blocksize⟩) ∧ Filled hd base (hd.fileBlocks iBlock) size s.base := by
  have h : Copied hd size base [] ⟨base, 0, size, hd.blocksize⟩ := ⟨by simp, rfl, nofun, fun _ _ => rfl⟩
  exact (h.readLoops iBlock).ends hsize

/-- A read from the start fills the buffer with the bytes of the file's blocks, and nothing behind `size` is written. -/
theorem ext2_read_from_start (iBlock : Nat → Nat) (base : Memory) (hsize : size ≤ hd.blocksize * (hd.fileBlocks iBlock).length) :
    ∃ buf, hd.ext2ReadFile iBlock size base 0 = some buf ∧ Filled hd base (hd.fileBlocks iBlock) size buf := by
  obtain ⟨s, hends, hfilled⟩ := ends_from_start iBlock base hsize
  exact ⟨s.base, hends.readFile, hfilled⟩

/-- A volume with blocks of 4 bytes, on which block 2 holds the pointer 3. -/
def smallDisk : Disk := ⟨4, fun b x => if b = 2 then if x = 0 then 3 else 0 else BitVec.ofNat 8 (16 * b + x)⟩

theorem ext2_read_from_start_small : ∃ buf, smallDisk.ext2ReadFile (fun i => if i = 0 then 1 else if i = 12 then 2 else 0) 6 (fun _ => 0) 0 =
    some buf ∧ Filled smallDisk (fun _ => 0) [1, 3] 6 buf :=
  ext2_read_from_start _ _ (by decide)

/-! ### Offsets -/

variable {iBlock : Nat → Nat} {S offset : Nat}

/-- The `S` bytes of a file have blocks, the direct ones without a gap. -/
structure NoHoles (hd : Disk) (iBlock : Nat → Nat) (S : Nat) : Prop where
  direct : ∀ i < 12, hd.blocksize * i < S → iBlock i ≠ 0
  all : S ≤ hd.blocksize * (hd.fileBlocks iBlock).length

/-- A read at `offset` returns the bytes up to the end of the file that a read from the start finds there, and their number. -/
def Slice (hd : Disk) (iBlock : Nat → Nat) (S offset size : Nat) (buff : Memory) : Prop :=
  ∃ whole buf, hd.ext2ReadFile iBlock (offset + size) buff 0 = some whole ∧
    hd.ext2FsRead iBlock offset size buff = some (min size (S - offset), buf) ∧
    ∀ x, buf x = if x < min size (S - offset) then whole (offset + x) else buff x

theorem Ends.bind (h : Ends s r) (hf : Ends s (f s)) : Ends s (r >>= f) := by
  rcases h with rfl | rfl
  · exact hf
  · exact .inr rfl

theorem ends_foldlM {f : Reader → Nat → Flow} (h : ∀ b, f s b = throw (some s)) (bs : List Nat) : Ends s (bs.foldlM f s) := by
  cases bs with
  | nil => exact .inl rfl
  | cons b bs =>
    rw [foldlM_cons, h]
    exact .inr rfl

/-- Without bytes left nothing is copied behind the direct blocks. -/
theorem ends_of_size_eq_zero (hs : s.size = 0) (hdirect : Ends s r) : Ends s (do
    let s ← r
    let s ← hd.indirectLoop (iBlock 12) offset s
    let s ← (hd.pointers (iBlock 13)).foldlM (fun s p => (hd.pointers p).foldlM (hd.biIndirectBlock offset) s) s
    (hd.pointers (iBlock 14)).foldlM (fun s p => (hd.pointers p).foldlM
      (fun s pp => (hd.pointers pp).foldlM (hd.triIndirectBlock offset) s) s) s) := by
  simp only [← foldlM_flatMap]
  refine hdirect.bind (.bind ?_ (.bind (ends_foldlM (fun b => if_pos hs) _) (ends_foldlM (fun b => if_pos hs) _)))
  by_cases hp : iBlock 12 = 0
  · left
    simp [indirectLoop, pointers, hp]
    rfl
  · exact .inr (if_pos ⟨hp, hs⟩)

/-- A read in the first block ends with its first copy. -/
theorem ends_in_first (hblock : iBlock 0 ≠ 0) (hoff : offset ≠ 0) (hsize : 0 < size) (hend : offset + size ≤ hd.blocksize) :
    Ends (hd.copy ⟨base, 0, size, hd.blocksize⟩ (iBlock 0) offset size)
      (hd.readLoops iBlock offset ⟨base, 0, size, hd.blocksize⟩) := by
  have hzero : (hd.copy ⟨base, 0, size, hd.blocksize⟩ (iBlock 0) offset size).size = 0 := by
    simp only [copy]
    omega
  refine ends_of_size_eq_zero hzero ?_
  have hdirect : directBlocks iBlock = iBlock 0 :: ((range' 1 11).map iBlock).takeWhile (· ≠ 0) := by
    simp [directBlocks, range_eq_range', range'_succ, hblock]
  have hfirst : hd.directBlock offset ⟨base, 0, size, hd.blocksize⟩ (iBlock 0) =
      .ok (hd.copy ⟨base, 0, size, hd.blocksize⟩ (iBlock 0) offset size) := by
    simp [directBlock, Nat.ne_of_gt hsize, hoff, show offset < hd.blocksize by omega]
    rfl
  rw [hdirect, foldlM_cons, hfirst]
  exact ends_foldlM (fun b => if_pos hzero) _

/-- A read inside the file is a slice if it begins at the start, or ends in the first block. -/
theorem ext2_read_slice (buff : Memory) (h : NoHoles hd iBlock S) (hsize : 0 < size) (hend : offset + size ≤ S)
    (hfirst : offset = 0 ∨ offset + size ≤ hd.blocksize) : Slice hd iBlock S offset size buff := by
  obtain ⟨s, hwhole, hfilled⟩ := ends_from_start iBlock buff (Nat.le_trans hend h.all)
  unfold Slice ext2FsRead
  rw [Nat.min_eq_left (by omega)]
  by_cases hoff : offset = 0
  · subst hoff
    rw [Nat.zero_add] at hwhole hfilled ⊢
    refine ⟨s.base, s.base, hwhole.readFile, by rw [hwhole.readFile]; rfl, fun x => ?_⟩
    split
    · rw [Nat.zero_add]
    · exact hfilled.rest x (by omega)
  · have hblock := h.direct 0 (by decide) (by omega)
    have hend := hfirst.resolve_left hoff
    refine ⟨s.base, _, hwhole.readFile, by rw [(ends_in_first hblock hoff hsize hend).readFile]; rfl, fun x => ?_⟩
    simp only [copy, Nat.zero_le, true_and, Nat.zero_add, Nat.sub_zero]
    split
    · have hget : (hd.fileBlocks iBlock)[0]? = some (iBlock 0) := by
        simp [fileBlocks, directBlocks, range_eq_range', range'_succ, hblock]
      have hdata := hfilled.data 0 (iBlock 0) (offset + x) hget (by omega) (by omega)
      rw [Nat.mul_zero, Nat.zero_add] at hdata
      exact hdata.symm
    · rfl

/-- A file of two direct blocks of 4 bytes. -/
def twoBlocks : Disk := ⟨4, fun b x => BitVec.ofNat 8 (16 * b + x)⟩

def twoDirect (i : Nat) : Nat := if i < 2 then i + 1 else 0

theorem ext2_read_slice_first : Slice twoBlocks twoDirect 8 1 3 fun _ => 0 := by
  refine ext2_read_slice _ ⟨fun i hi hlt => ?_, by decide⟩ (by decide) (by decide) (.inr (by decide))
  have hi : i < 2 := by
    simp only [twoBlocks] at hlt
    omega
  simp [twoDirect, hi]

/-- A read in the second block takes its bytes from behind the block. -/
theorem second_block_misread : ¬ Slice twoBlocks twoDirect 8 5 1 fun _ => 0 := by
  rintro ⟨whole, buf, hwhole, hread, hslice⟩
  have hbyte : (twoBlocks.ext2ReadFile twoDirect 6 (fun _ => 0) 0).map (· 5) = some 33 := by decide
  have hmisread : (twoBlocks.ext2FsRead twoDirect 5 1 fun _ => 0).map (·.2 0) = some 37 := by decide
  rw [hwhole] at hbyte
  rw [hread] at hmisread
  have hsame : (37 : BitVec 8) = 33 := (Option.some.inj hmisread).symm.trans ((hslice 0).trans (Option.some.inj hbyte))
  exact absurd hsame (by decide)

end Disk
end Ext2
end HelinKern
