import HelinKern.TmpfsNode

/-! A file that is removed while descriptors refer to it, or when none does any more. -/

namespace HelinKern
namespace TmpNode
open List Option

variable {s t : TmpNode} {op : Op}

def Opened (s : TmpNode) : Prop := ∃ pid fd d, s.slot pid fd = some d ∧ d.node = s.self

/-- Every part of the file is there as long as a descriptor refers to it, and after the file was removed and the last
    descriptor closed each of them was freed once. -/
structure Sound (s : TmpNode) : Prop where
  held : s.Opened → ∀ part ∈ s.parts, part ∉ s.freed
  released : s.linked = false → ¬s.Opened → ∀ part ∈ s.parts, s.freed.count part = 1

def ReadsContent (s : TmpNode) : Op → Prop
  | .read _ _ offset size buff =>
    (s.memory.bind fun f => f.read offset size buff) = s.content.read offset size buff
  | .open .. | .write .. | .rm | .close .. => True

structure Inv (s : TmpNode) : Prop where
  linked : s.linked = true
  kept : s.deleted = false
  count : s.fdCount ≤ 0
  freed : s.freed = []

theorem creat_inv (self : Nat) (pids : List Nat) : (creat self pids).Inv := ⟨rfl, rfl, Int.le_refl 0, rfl⟩

theorem Inv.sound (h : s.Inv) : s.Sound where
  held _ part _ := by
    rw [h.freed]
    exact not_mem_nil
  released hlinked := by
    rw [h.linked] at hlinked
    cases hlinked

theorem Inv.memory_eq (h : s.Inv) : s.memory = some s.content := by
  unfold memory
  rw [h.freed]
  exact if_pos fun _ _ => not_mem_nil

theorem Inv.readsContent (h : s.Inv) (op : Op) : s.ReadsContent op := by
  cases op with
  | read pid fd offset size buff => exact congrArg (fun m : Option TmpFile => m.bind fun f => f.read offset size buff) h.memory_eq
  | «open» pid flags => trivial
  | write pid fd offset size ptr => trivial
  | rm => trivial
  | close pid fd => trivial

theorem Inv.tmpfsClose (h : s.Inv) : s.tmpfsClose = { s with fdCount := s.fdCount - 1 } := by
  unfold TmpNode.tmpfsClose
  rw [h.kept]
  exact if_neg fun h => nomatch h.1

theorem Inv.close (h : s.Inv) : s.tmpfsClose.Inv := by
  rw [h.tmpfsClose]
  have := h.count
  exact ⟨h.linked, h.kept, show s.fdCount - 1 ≤ 0 by omega, h.freed⟩

theorem Inv.of_tables (h : s.Inv) (tables : FdTables) : Inv { s with tables } := { h with }

theorem Inv.step (h : s.Inv) (hexec : s.exec op = some t) (hop : op ≠ .rm) : t.Inv := by
  cases op with
  | «open» pid flags =>
    obtain ⟨-, hexec⟩ := ite_none_right_eq_some.mp hexec
    obtain ⟨table, -, rfl⟩ := map_eq_some_iff.mp hexec
    unfold openFor
    split
    · exact (h.of_tables _).close
    · exact h.of_tables _
  | read pid fd offset size buff =>
    obtain ⟨d, -, hexec⟩ := bind_eq_some_iff.mp hexec
    obtain ⟨-, hexec⟩ := ite_none_right_eq_some.mp hexec
    exact some.inj hexec ▸ h
  | write pid fd offset size ptr =>
    obtain ⟨d, -, hexec⟩ := bind_eq_some_iff.mp hexec
    obtain ⟨-, hexec⟩ := ite_none_right_eq_some.mp hexec
    obtain ⟨f, -, hexec⟩ := bind_eq_some_iff.mp hexec
    obtain ⟨r, -, rfl⟩ := map_eq_some_iff.mp hexec
    exact { h with }
  | rm => exact absurd rfl hop
  | close pid fd =>
    obtain ⟨d, -, hexec⟩ := bind_eq_some_iff.mp hexec
    obtain ⟨-, hexec⟩ := ite_none_right_eq_some.mp hexec
    obtain ⟨table, -, rfl⟩ := map_eq_some_iff.mp hexec
    exact h.close.of_tables _

theorem freeBlocks_eq (s : TmpNode) (blocks : List BlockInfo) :
    s.freeBlocks blocks = { s with freed := (blocks.map fun b => TmpPart.block b.id).reverse ++ s.freed } := by
  induction blocks generalizing s with
  | nil => rfl
  | cons b blocks ih =>
    rw [freeBlocks, ih, map_cons, reverse_cons, append_assoc]
    rfl

theorem Inv.tmpfsRm_freed (h : s.Inv) :
    s.tmpfsRm.linked = false ∧ .file ∈ s.tmpfsRm.freed ∧ 2 ≤ s.tmpfsRm.freed.count .file := by
  unfold tmpfsRm
  rw [freeBlocks_eq]
  rw [if_pos h.count]
  refine ⟨rfl, mem_cons_self .., ?_⟩
  rw [free, free, free, count_cons_self, count_cons_of_ne (by decide), count_cons_self]
  omega

theorem Inv.tmpfsRm_unsound (h : s.Inv) : ¬s.tmpfsRm.Sound := by
  obtain ⟨hlinked, hmem, hcount⟩ := h.tmpfsRm_freed
  have hpart : TmpPart.file ∈ s.tmpfsRm.parts := by simp [parts]
  intro hsound
  by_cases hopen : s.tmpfsRm.Opened
  · exact hsound.held hopen .file hpart hmem
  · have := hsound.released hlinked hopen .file hpart
    omega

/-- A file and its descriptors are handled soundly, and every read takes what was written, exactly in the runs in which the
    file is not removed. -/
theorem tmpfs_unlink_sound (self : Nat) (pids : List Nat) (ops : List Op) :
    Lts.Along exec (fun s op t => t.Sound ∧ s.ReadsContent op) (creat self pids) ops ↔
      Lts.Along exec (fun _ op _ => op ≠ .rm) (creat self pids) ops := by
  refine Lts.along_iff Inv (creat_inv self pids) (fun {s op t} h hexec => ?_) (fun h hexec hop => h.step hexec hop) ops
  constructor
  · rintro ⟨hsound, -⟩ rfl
    obtain ⟨-, hexec⟩ := ite_none_right_eq_some.mp hexec
    exact h.tmpfsRm_unsound (some.inj hexec ▸ hsound)
  · intro hop
    exact ⟨(h.step hexec hop).sound, h.readsContent op⟩

/-- A process opens a new file twice and closes it once. -/
theorem tmpfs_unlink_sound_open :
    Lts.Along exec (fun s op t => t.Sound ∧ s.ReadsContent op) (creat 10 [1]) [.open 1 0, .open 1 0, .close 1 0] := by
  refine (tmpfs_unlink_sound 10 [1] _).mpr fun s _ => ⟨nofun, fun s _ => ⟨nofun, fun s _ => ⟨nofun, trivial⟩⟩⟩

/-- A process opens a file that another one then removes. -/
theorem tmpfs_removed_while_open :
    ¬Lts.Along exec (fun s op t => t.Sound ∧ s.ReadsContent op) (creat 10 [1]) [.open 1 0, .rm] := by
  intro h
  obtain ⟨-, h⟩ := h _ rfl
  obtain ⟨⟨hsound, -⟩, -⟩ := h _ rfl
  exact hsound.held ⟨1, 0, ⟨1, 10, 0, 0⟩, by decide, rfl⟩ .file (by decide) (by decide)

end TmpNode
end HelinKern
