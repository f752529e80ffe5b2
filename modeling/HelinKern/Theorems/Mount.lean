import HelinKern.Mount

/-! What the mount hooks change, and what a mount that fails leaves behind. -/

namespace HelinKern
open Option

def FileSystem.privAfter (fs : FileSystem) (priv : Option Nat) (fresh : Nat) : Option Nat :=
  match fs with
  | .rootfs => priv
  | .devfs => none
  | .tmpfs | .cpio | .iso9660 | .ext2 | .vfat => some fresh

namespace Vfs

variable {s t : Vfs} {fs : FileSystem} {dev : Option Disk} {mp : Nat} {path : Text} {found : Option Nat}

/-- Private data is allocated before it is used. -/
def PrivAllocated (s : Vfs) : Prop := ∀ n q, (s.nodes n).priv = some q → q < s.fresh

theorem setNode_self (s : Vfs) (n : Nat) (f : MountPoint → MountPoint) : (s.setNode n f).nodes n = f (s.nodes n) :=
  Function.update_self ..

theorem setNode_of_ne {m n : Nat} (h : m ≠ n) (s : Vfs) (f : MountPoint → MountPoint) : (s.setNode n f).nodes m = s.nodes m :=
  Function.update_of_ne h ..

def Hooked (fs : FileSystem) (mp : Nat) (s t : Vfs) : Prop :=
  ∃ p fresh workDir, t = { s with nodes := Function.update s.nodes mp p, fresh, workDir } ∧ p.fs = some fs ∧
    p.priv = fs.privAfter (s.nodes mp).priv s.fresh ∧ s.fresh ≤ fresh ∧ ∀ q, p.priv = some q → q < fresh

variable {b : Bool} {f : MountPoint → MountPoint}

theorem Hooked.attach (s : Vfs) (mp : Nat) (hfs : (f (s.nodes mp)).fs = some fs)
    (hpriv : fs.privAfter (s.nodes mp).priv s.fresh = some s.fresh) : Hooked fs mp s (s.attach mp f) := by
  refine ⟨_, _, _, rfl, hfs, hpriv.symm, Nat.le_succ _, fun q hq => ?_⟩
  cases hq
  exact Nat.lt_succ_self _

theorem Hooked.of_workDir (h : Hooked fs mp s t) (workDir : Option Nat) : Hooked fs mp s { t with workDir } := by
  obtain ⟨p, fresh, _, rfl, h⟩ := h
  exact ⟨p, fresh, workDir, rfl, h⟩

theorem hook_cases (hpriv : s.PrivAllocated) (h : s.hook fs dev mp = some (b, t)) :
    b = false ∧ fs ≠ .cpio ∧ t = s ∨ (b ∨ fs = .cpio) ∧ Hooked fs mp s t := by
  have hrefuse (hfs : fs ≠ .cpio) (h : (false, s) = (b, t)) :
      b = false ∧ fs ≠ .cpio ∧ t = s ∨ (b ∨ fs = .cpio) ∧ Hooked fs mp s t :=
    .inl ⟨(congrArg Prod.fst h).symm, hfs, (congrArg Prod.snd h).symm⟩
  have hmount {u : Vfs} (h : (true, u) = (b, t)) (hu : Hooked fs mp s u) :
      b = false ∧ fs ≠ .cpio ∧ t = s ∨ (b ∨ fs = .cpio) ∧ Hooked fs mp s t :=
    .inr ⟨.inl (congrArg Prod.fst h).symm, (Prod.mk.inj h).2 ▸ hu⟩
  cases fs with
  | rootfs => exact hmount (some.inj h) ⟨_, _, _, rfl, rfl, rfl, Nat.le_refl _, fun q hq => hpriv mp q hq⟩
  | devfs =>
    have h : s.devfsMount dev mp = (b, t) := some.inj h
    unfold devfsMount at h
    split at h
    · exact hrefuse nofun h
    · exact hmount h ⟨_, _, _, rfl, rfl, rfl, Nat.le_refl _, nofun⟩
  | tmpfs => exact hmount (some.inj h) (.attach s mp rfl rfl)
  | cpio =>
    obtain ⟨d, -, h⟩ := bind_eq_some_iff.mp h
    obtain ⟨r, -, h⟩ := map_eq_some_iff.mp h
    obtain ⟨-, rfl⟩ := Prod.mk.inj h
    exact .inr ⟨.inr rfl, (Hooked.attach s mp rfl rfl).of_workDir _⟩
  | iso9660 =>
    have h : s.iso9660Mount dev mp = (b, t) := some.inj h
    unfold iso9660Mount at h
    split at h
    · exact hrefuse nofun h
    split_ifs at h
    · exact hrefuse nofun h
    · exact hrefuse nofun h
    · exact hmount h (.attach s mp rfl rfl)
  | ext2 =>
    have h : s.ext2Mount dev mp = some (b, t) := h
    unfold ext2Mount at h
    split at h
    · exact hrefuse nofun (some.inj h)
    split at h
    · exact hrefuse nofun (some.inj h)
    obtain ⟨isDir, -, h⟩ := map_eq_some_iff.mp h
    cases isDir with
    | false => exact hrefuse nofun h
    | true => exact hmount h (.attach s mp rfl rfl)
  | vfat =>
    have h : s.fatMount dev mp = (b, t) := some.inj h
    unfold fatMount at h
    split at h
    · exact hrefuse nofun h
    · split at h
      · exact hrefuse nofun h
      · exact hmount h (.attach s mp rfl rfl)

theorem Hooked.priv_ne (h : Hooked .cpio mp s t) (hpriv : s.PrivAllocated) : (t.nodes mp).priv ≠ (s.nodes mp).priv := by
  obtain ⟨p, fresh, workDir, rfl, -, hp, -⟩ := h
  dsimp only
  rw [Function.update_self, hp]
  intro heq
  exact absurd (hpriv mp _ heq.symm) (Nat.lt_irrefl _)

/-- The call comes to the hook: the path is the root, or it is absolute and leads to a directory. -/
def EntersHook (s : Vfs) (path : Option Text) (found : Option Nat) : Prop :=
  path = some rootPath ∨
    ∃ p n, path = some p ∧ p.head? = some slash ∧ found = some n ∧ (s.nodes n).flags &&& 0x7 = vfsDirectory

def AfterHook (fs : FileSystem) (dev : Option Disk) (mp : Nat) (path : Text) (f : MountPoint → MountPoint) (s : Vfs) (b : Bool)
    (t : Vfs) : Prop :=
  ∃ c u, s.hook fs dev mp = some (c, u) ∧
    (c = false ∧ b = false ∧ t = u ∨ c = true ∧ b = true ∧ (u.setNode mp f).vfsPutIntoMnt dev mp fs path = some t)

theorem afterHook_of_bind {g : Bool × Vfs → Option (Bool × Vfs)}
    (h : (s.hook fs dev mp).bind g = some (b, t)) (hfalse : ∀ u, g (false, u) = some (false, u))
    (htrue : ∀ u, g (true, u) = ((u.setNode mp f).vfsPutIntoMnt dev mp fs path).map fun s => (true, s)) : AfterHook fs dev mp path f s b t := by
  obtain ⟨⟨c, u⟩, hhook, h⟩ := bind_eq_some_iff.mp h
  refine ⟨c, u, hhook, ?_⟩
  cases c with
  | false =>
    rw [hfalse] at h
    obtain ⟨rfl, rfl⟩ := Prod.mk.inj (some.inj h)
    exact .inl ⟨rfl, rfl, rfl⟩
  | true =>
    rw [htrue] at h
    obtain ⟨v, hput, h⟩ := map_eq_some_iff.mp h
    obtain ⟨rfl, rfl⟩ := Prod.mk.inj h
    exact .inr ⟨rfl, rfl, hput⟩

theorem setNode_id (s : Vfs) (n : Nat) : s.setNode n id = s := by
  unfold setNode
  rw [id, Function.update_eq_self]

theorem vfsMount_cases {fs : Option FileSystem} {path : Option Text} (h : s.vfsMount fs dev path found = some (b, t)) :
    b = false ∧ t = s ∧ (fs = none ∨ ¬s.EntersHook path found) ∨
      (∃ f, fs = some f ∧ path = some rootPath ∧ AfterHook f dev s.withRoot.1 rootPath id s.withRoot.2 b t) ∨
      ∃ f p mp, fs = some f ∧ path = some p ∧ p ≠ rootPath ∧ p.head? = some slash ∧ found = some mp ∧
        (s.nodes mp).flags &&& 0x7 = vfsDirectory ∧
        AfterHook f dev mp (foundPath p) (fun n => { n with origFs := (s.nodes mp).fs }) s b t := by
  cases fs with
  | none =>
    obtain ⟨rfl, rfl⟩ := Prod.mk.inj (some.inj h)
    exact .inl ⟨rfl, rfl, .inl rfl⟩
  | some f =>
  cases path with
  | none =>
    obtain ⟨rfl, rfl⟩ := Prod.mk.inj (some.inj h)
    exact .inl ⟨rfl, rfl, .inr (by rintro (h | ⟨p, n, h, -⟩) <;> cases h)⟩
  | some p =>
    unfold vfsMount at h
    dsimp only at h
    split at h
    next hhead =>
      obtain ⟨rfl, rfl⟩ := Prod.mk.inj (some.inj h)
      refine .inl ⟨rfl, rfl, .inr ?_⟩
      rintro (h | ⟨q, n, h, hq, -⟩)
      · cases h
        exact hhead rfl
      · cases h
        exact hhead hq
    rename_i hhead
    split at h
    next hroot =>
      subst hroot
      refine .inr (.inl ⟨f, rfl, rfl, afterHook_of_bind h (fun u => rfl) (fun u => ?_)⟩)
      rw [setNode_id]
    next hroot =>
      cases found with
      | none =>
        obtain ⟨rfl, rfl⟩ := Prod.mk.inj (some.inj h)
        refine .inl ⟨rfl, rfl, .inr ?_⟩
        rintro (h | ⟨q, n, -, -, h, -⟩)
        · exact hroot (some.inj h)
        · cases h
      | some mp =>
        dsimp only at h
        split at h
        next hflags =>
          obtain ⟨rfl, rfl⟩ := Prod.mk.inj (some.inj h)
          refine .inl ⟨rfl, rfl, .inr ?_⟩
          rintro (h | ⟨q, n, -, -, h, hdir⟩)
          · exact hroot (some.inj h)
          · cases h
            exact hflags hdir
        next hflags =>
          exact .inr (.inr ⟨f, p, mp, rfl, rfl, hroot, not_not.mp hhead, rfl, not_not.mp hflags,
            afterHook_of_bind h (fun u => rfl) (fun u => rfl)⟩)

def mountPoint (s : Vfs) (path : Option Text) (found : Option Nat) : Option Nat :=
  if path = some rootPath then s.fsRoot else found

def before (s : Vfs) (path : Option Text) (n : Nat) : MountPoint :=
  if path = some rootPath ∧ s.fsRoot = none then .zero else s.nodes n

/-- The mount point, the mount list and the working directory of the caller are as before. -/
structure Unchanged (s t : Vfs) (path : Option Text) (found : Option Nat) : Prop where
  node : ∀ n, t.mountPoint path found = some n →
    (t.nodes n).fs = (s.before path n).fs ∧ (t.nodes n).priv = (s.before path n).priv ∧
      (t.nodes n).flags = (s.before path n).flags ∧ (t.nodes n).mountFlags = (s.before path n).mountFlags
  list : t.mnt = s.mnt ∧ t.vfsmntlst = s.vfsmntlst
  workDir : t.workDir = s.workDir

theorem before_of_ne {path : Option Text} (h : path ≠ some rootPath) (s : Vfs) (n : Nat) : s.before path n = s.nodes n :=
  if_neg fun hroot => h hroot.1

theorem Unchanged.refl (s : Vfs) (path : Option Text) (found : Option Nat) : Unchanged s s path found where
  node n h := by
    have hbefore : s.before path n = s.nodes n := by
      refine if_neg fun hnone => ?_
      rw [mountPoint, if_pos hnone.1, hnone.2] at h
      cases h
    rw [hbefore]
    exact ⟨rfl, rfl, rfl, rfl⟩
  list := ⟨rfl, rfl⟩
  workDir := rfl

structure Rooted (s : Vfs) (root : Nat) (u : Vfs) : Prop where
  node : u.nodes root = s.before (some rootPath) root
  fsRoot : u.fsRoot = some root
  list : u.mnt = s.mnt ∧ u.vfsmntlst = s.vfsmntlst
  workDir : u.workDir = s.workDir
  alloc : s.PrivAllocated → u.PrivAllocated

theorem withRoot_rooted (s : Vfs) : Rooted s s.withRoot.1 s.withRoot.2 := by
  unfold withRoot
  cases hroot : s.fsRoot with
  | some root =>
    exact ⟨(if_neg fun h => by rw [hroot] at h; cases h.2).symm, hroot, ⟨rfl, rfl⟩, rfl, id⟩
  | none =>
    refine ⟨?_, rfl, ⟨rfl, rfl⟩, rfl, fun h n q hq => ?_⟩
    · dsimp only
      rw [setNode_self, before, if_pos ⟨rfl, hroot⟩]
    · dsimp only at hq ⊢
      by_cases hn : n = s.fresh
      · rw [hn, setNode_self] at hq
        cases hq
      · rw [setNode_of_ne hn] at hq
        exact Nat.lt_succ_of_lt (h n q hq)

theorem Rooted.unchanged {root : Nat} {u : Vfs} (h : Rooted s root u) (found : Option Nat) :
    Unchanged s u (some rootPath) found where
  node n hn := by
    rw [mountPoint, if_pos rfl, h.fsRoot, some.injEq] at hn
    rw [← hn, h.node]
    exact ⟨rfl, rfl, rfl, rfl⟩
  list := h.list
  workDir := h.workDir

theorem afterHook_unchanged {u : Vfs} {path : Option Text} {p : Text} (hu : Unchanged s u path found)
    (hmp : u.mountPoint path found = some mp) (hnode : s.before path mp = u.nodes mp) (hpriv : u.PrivAllocated)
    (h : AfterHook fs dev mp p f u false t) : Unchanged s t path found ↔ fs ≠ .cpio := by
  obtain ⟨c, v, hhook, ⟨rfl, -, rfl⟩ | ⟨-, hb, -⟩⟩ := h
  · obtain ⟨-, hfs, rfl⟩ | ⟨hb | rfl, hooked⟩ := hook_cases hpriv hhook
    · exact ⟨fun _ => hfs, fun _ => hu⟩
    · cases hb
    · refine ⟨fun hunchanged => ?_, fun h => absurd rfl h⟩
      have hmp' : t.mountPoint path found = some mp := by
        obtain ⟨p, fresh, workDir, rfl, -⟩ := hooked
        exact hmp
      have hsame := (hunchanged.node mp hmp').2.1
      rw [hnode] at hsame
      exact absurd hsame (hooked.priv_ne hpriv)
  · cases hb

/-- A mount that fails has no effect exactly if it does not come to the hook of `cpio`. -/
theorem failed_mount_unchanged (s t : Vfs) (hpriv : s.PrivAllocated) (fs : Option FileSystem) (dev : Option Disk)
    (path : Option Text) (found : Option Nat) (h : s.vfsMount fs dev path found = some (false, t)) :
    Unchanged s t path found ↔ ¬(fs = some .cpio ∧ s.EntersHook path found) := by
  obtain ⟨-, rfl, hfail⟩ | ⟨f, rfl, rfl, hafter⟩ | ⟨f, p, mp, rfl, rfl, hroot, hhead, rfl, hdir, hafter⟩ := vfsMount_cases h
  · refine ⟨fun _ hcpio => ?_, fun _ => .refl _ path found⟩
    obtain hnone | hnot := hfail
    · rw [hnone] at hcpio
      cases hcpio.1
    · exact hnot hcpio.2
  · have hrooted := s.withRoot_rooted
    rw [afterHook_unchanged (hrooted.unchanged found) ((if_pos rfl).trans hrooted.fsRoot) hrooted.node.symm (hrooted.alloc hpriv) hafter]
    refine ⟨fun hfs hcpio => hfs (some.inj hcpio.1), fun h hfs => h ⟨congrArg some hfs, .inl rfl⟩⟩
  · have hne : some p ≠ some rootPath := fun h => hroot (some.inj h)
    rw [afterHook_unchanged (.refl s _ _) (if_neg hne) (before_of_ne hne s mp) hpriv hafter]
    refine ⟨fun hfs hcpio => hfs (some.inj hcpio.1), fun h hfs => h ⟨congrArg some hfs, .inr ⟨p, mp, rfl, hhead, rfl, hdir⟩⟩⟩

def small : Vfs where
  nodes _ := ⟨some .rootfs, none, none, vfsDirectory, 0, none, 0, 0⟩
  mnt _ := none
  vfsmntlst := none
  fsRoot := some 0
  workDir := some 0
  fresh := 10

def emptyDisk : Disk where
  size := 0
  byte _ := 0
  self := 2
  readBlock _ _ := none

def smallPath : Text := [slash, 0x6d]

/-- `iso9660` does not find its volume descriptor. -/
theorem failed_mount_unchanged_iso9660 : Unchanged small small (some smallPath) (some 1) :=
  (failed_mount_unchanged small small nofun (some .iso9660) (some emptyDisk) (some smallPath) (some 1) rfl).mpr nofun

/-- `cpio` fails on a device without a byte, and leaves itself as the file system of the mount point. -/
theorem failed_cpio_mount_changes :
    ∃ t, small.vfsMount (some .cpio) (some emptyDisk) (some smallPath) (some 1) = some (false, t) ∧
      ¬Unchanged small t (some smallPath) (some 1) := by
  refine ⟨_, rfl, fun h => ?_⟩
  exact absurd (h.node 1 rfl).1 (by decide)

end Vfs
end HelinKern
