import HelinKern.Theorems.Mount

/-! The mount list and the mount points over runs of mounts and unmounts. -/

namespace HelinKern
open Function List Option
variable {mnt : Dll.Heap MountEntry} {prev : Option Nat} {fuel : Nat} {devPath : Text} {fs : FileSystem} {vfs : Vfs}

namespace Vfs

variable {s t : Vfs} {fs : FileSystem} {dev : Option Disk} {path : Text} {found : Option Nat} {n a : Nat} {v : MountEntry}
  {l l₁ l₂ : List (Nat × MountEntry)}

/-- The mount list is doubly linked and has the elements `l`, each once. -/
structure Linked (s : Vfs) (l : List (Nat × MountEntry)) : Prop where
  segment : Dll.Segment s.mnt none l none
  nodup : (l.map Prod.fst).Nodup
  head : s.vfsmntlst = Dll.first l none

/-- The elements were allocated. -/
structure Listed (s : Vfs) (l : List (Nat × MountEntry)) : Prop extends Linked s l where
  bound : ∀ c ∈ l, c.1 < s.fresh

theorem Linked.unique {l' : List (Nat × MountEntry)} (h : Linked s l) (h' : Linked s l') : l = l' := by
  have hwalk := h.segment.walk_eq (Nat.le_max_left l.length l'.length)
  rw [← h.head, h'.head, h'.segment.walk_eq (Nat.le_max_right l.length l'.length)] at hwalk
  exact (some.inj hwalk).symm

theorem Listed.length_le (h : Listed s l) : l.length ≤ s.fresh := by
  have hsub : l.map Prod.fst ⊆ List.range s.fresh := by
    intro b hb
    obtain ⟨c, hc, rfl⟩ := mem_map.mp hb
    exact mem_range.mpr (h.bound c hc)
  have hle := (h.nodup.subperm hsub).length_le
  rwa [length_map, length_range] at hle

theorem lastMnt_eq {head : Nat} (hs : Dll.Segment mnt prev (l ++ [(a, v)]) none)
    (hhead : Dll.first (l ++ [(a, v)]) none = some head) (hfuel : l.length < fuel) :
    lastMnt mnt fuel head = some a := by
  induction l generalizing prev head fuel with
  | nil =>
    obtain ⟨fuel, rfl⟩ := Nat.exists_eq_succ_of_ne_zero (Nat.ne_zero_of_lt hfuel)
    cases hhead
    rw [lastMnt, hs.1]
    rfl
  | cons c l ih =>
    obtain ⟨b, w⟩ := c
    obtain ⟨fuel, rfl⟩ := Nat.exists_eq_succ_of_ne_zero (Nat.ne_zero_of_lt hfuel)
    cases hhead
    obtain ⟨next, hnext⟩ : ∃ next, Dll.first (l ++ [(a, v)]) none = some next := Dll.exists_first (by simp)
    have hcell : mnt head = some ⟨w, prev, some next⟩ := hnext ▸ hs.1
    rw [lastMnt, hcell]
    exact ih hs.2 hnext (by simpa using hfuel)

theorem Listed.last (h : Listed s (l ++ [(a, v)])) :
    ∃ head, s.vfsmntlst = some head ∧ lastMnt s.mnt s.fresh head = some a ∧ s.mnt a = some ⟨v, Dll.last none l, none⟩ := by
  have hlen := h.length_le
  rw [length_append] at hlen
  obtain ⟨head, hhead⟩ : ∃ head, Dll.first (l ++ [(a, v)]) none = some head := Dll.exists_first (by simp)
  exact ⟨head, h.head.trans hhead, lastMnt_eq h.segment hhead hlen, (h.segment.set_next h.nodup none).1⟩

theorem Listed.fresh_not_mem (h : Listed s l) : s.fresh ∉ l.map Prod.fst := by
  intro hmem
  obtain ⟨c, hc, heq⟩ := mem_map.mp hmem
  exact absurd (h.bound c hc) (heq ▸ Nat.lt_irrefl _)

theorem Listed.congr (h : Listed s l) (hmnt : t.mnt = s.mnt) (hhead : t.vfsmntlst = s.vfsmntlst) (hfresh : s.fresh ≤ t.fresh) :
    Listed t l where
  segment := hmnt ▸ h.segment
  nodup := h.nodup
  head := hhead.trans h.head
  bound c hc := Nat.lt_of_lt_of_le (h.bound c hc) hfresh

theorem Listed.vfsPutIntoMnt (h : Listed s (l ++ [(a, v)])) (hput : s.vfsPutIntoMnt dev n fs path = some t) :
    Listed t (l ++ [(a, v)] ++ [(s.fresh, ⟨dev.map fun d => d.self, n, none, path, fs, (s.nodes n).priv⟩)]) ∧
      t.nodes = s.nodes ∧ t.fresh = s.fresh + 1 := by
  obtain ⟨head, hhead, hlast, hcell⟩ := h.last
  unfold Vfs.vfsPutIntoMnt at hput
  rw [hhead] at hput
  dsimp only at hput
  rw [hlast, bind_some, hcell, map_some, some.injEq] at hput
  subst hput
  refine ⟨⟨⟨h.segment.concat h.nodup h.fresh_not_mem, Dll.nodup_concat h.nodup h.fresh_not_mem, ?_⟩, fun c hc => ?_⟩, rfl, rfl⟩
  · rw [Dll.first_append, Dll.first_of_ne_nil (by simp) _ none, ← h.head, hhead]
  · obtain hc | hc := mem_append.mp hc
    · exact Nat.lt_succ_of_lt (h.bound c hc)
    · rw [mem_singleton.mp hc]
      exact Nat.lt_succ_self _

theorem Listed.devicePath (h : Listed s (l ++ [(a, v)])) (w : MountEntry) (c : Dll.Cell MountEntry)
    (hc : c = ⟨w, Dll.last none l, none⟩) : Listed { s with mnt := update s.mnt a (some c) } (l ++ [(a, w)]) := by
  subst hc
  have hfst : (l ++ [(a, w)]).map Prod.fst = (l ++ [(a, v)]).map Prod.fst := by rw [map_append, map_append]; rfl
  refine ⟨⟨h.segment.set_value h.nodup, hfst ▸ h.nodup, ?_⟩, fun c hc => ?_⟩
  · rw [h.head, Dll.first_append, Dll.first_append]
    rfl
  · have hmem : c.1 ∈ (l ++ [(a, v)]).map Prod.fst := hfst ▸ mem_map_of_mem hc
    obtain ⟨d, hd, heq⟩ := mem_map.mp hmem
    exact heq ▸ h.bound d hd

structure Mounted (fs : FileSystem) (path : Text) (n : Nat) (s t : Vfs) (v : MountEntry) : Prop where
  entry : v.targetPath = path ∧ v.target = n
  priv : ∃ q, v.priv = fs.privAfter (s.nodes n).priv q ∧ (s.nodes n).priv ≠ some q
  bound : ∀ q, v.priv = some q → q < t.fresh
  fs : (t.nodes n).fs = some fs
  others : ∀ m, m ≠ n → t.nodes m = s.nodes m
  alloc : t.PrivAllocated
  fresh : s.fresh ≤ t.fresh

theorem Listed.afterHook (h : Listed s (l ++ [(a, v)])) (hpriv : s.PrivAllocated) {f : MountPoint → MountPoint}
    (hafter : AfterHook fs dev n path f s true t) (hf : ∀ p, (f p).fs = p.fs ∧ (f p).priv = p.priv) :
    ∃ b w, Listed t (l ++ [(a, v)] ++ [(b, w)]) ∧ Mounted fs path n s t w := by
  obtain ⟨c, u, hhook, ⟨-, hb, -⟩ | ⟨rfl, -, hput⟩⟩ := hafter
  · cases hb
  obtain ⟨hb, -⟩ | ⟨-, p, fresh, workDir, rfl, hfs, hp, hle, halloc⟩ := hook_cases hpriv hhook
  · cases hb
  have hlisted : Listed (setNode { s with nodes := update s.nodes n p, fresh, workDir } n f) (l ++ [(a, v)]) :=
    h.congr rfl rfl hle
  obtain ⟨hlist, hnodes, hfresh⟩ := hlisted.vfsPutIntoMnt hput
  have hself : t.nodes n = f p := by
    rw [hnodes, setNode_self]
    exact congrArg f (update_self ..)
  have hother : ∀ m, m ≠ n → t.nodes m = s.nodes m := by
    intro m hm
    rw [hnodes, setNode_of_ne hm]
    exact update_of_ne hm ..
  rw [← hnodes, hself, (hf p).2] at hlist
  have hfresh' : t.fresh = fresh + 1 := hfresh
  refine ⟨_, _, hlist, ⟨rfl, rfl⟩, ⟨s.fresh, hp, fun hq => ?_⟩, fun q hq => ?_, ?_, hother, fun m q hq => ?_, by omega⟩
  · exact absurd (hpriv n _ hq) (Nat.lt_irrefl _)
  · have := halloc q hq
    omega
  · rw [hself, (hf _).1, hfs]
  · by_cases hm : m = n
    · rw [hm, hself, (hf _).2] at hq
      have := halloc q hq
      omega
    · rw [hother m hm] at hq
      have := hpriv m q hq
      omega

theorem withRoot_of_some (h : s.fsRoot = some n) : s.withRoot = (n, s) := by
  unfold withRoot
  rw [h]

theorem Listed.sysMount (h : Listed s (l ++ [(a, v)])) (hpriv : s.PrivAllocated) {dev : Disk}
    (hn : (if path = rootPath then s.fsRoot else found) = some n)
    (hmount : s.sysMount fs dev devPath path found = some (true, t)) :
    ∃ b w, Listed t (l ++ [(a, v)] ++ [(b, w)]) ∧ Mounted fs (foundPath path) n s t w := by
  obtain ⟨⟨c, u⟩, hvfs, hset⟩ := bind_eq_some_iff.mp hmount
  cases c with
  | false => cases hset
  | true =>
    obtain ⟨b, w, hlist, hmounted⟩ : ∃ b w, Listed u (l ++ [(a, v)] ++ [(b, w)]) ∧ Mounted fs (foundPath path) n s u w := by
      obtain ⟨hb, -⟩ | ⟨f, hfs, hpath, hafter⟩ | ⟨f, p, mp, hfs, hpath, hroot, -, hfound, -, hafter⟩ := vfsMount_cases hvfs
      · cases hb
      · cases hfs
        cases hpath
        rw [withRoot_of_some hn] at hafter
        exact h.afterHook hpriv hafter fun _ => ⟨rfl, rfl⟩
      · cases hfs
        cases hpath
        rw [if_neg hroot, hfound, some.injEq] at hn
        subst hn
        exact h.afterHook hpriv hafter fun _ => ⟨rfl, rfl⟩
    obtain ⟨head, hhead, hlast, hcell⟩ := hlist.last
    dsimp only at hset
    rw [hhead, bind_some, hlast, bind_some, hcell] at hset
    obtain ⟨-, rfl⟩ := Prod.mk.inj (some.inj hset)
    have hpath := hlist.devicePath { w with devicePath := some devPath } _ rfl
    exact ⟨b, _, hpath.congr rfl hhead.symm (Nat.le_refl _), hmounted.entry, hmounted.priv, hmounted.bound, hmounted.fs,
      hmounted.others, hmounted.alloc, hmounted.fresh⟩

theorem findMnt_eq {next : Option Nat} (hs : Dll.Segment mnt prev (l₁ ++ (a, v) :: l₂) next)
    (hbefore : ∀ c ∈ l₁, c.2.targetPath ≠ path) (hv : v.targetPath = path) (hfuel : l₁.length < fuel) :
    findMnt mnt path fuel (Dll.first (l₁ ++ (a, v) :: l₂) next) = some (some a) := by
  induction l₁ generalizing prev fuel with
  | nil =>
    obtain ⟨fuel, rfl⟩ := Nat.exists_eq_succ_of_ne_zero (Nat.ne_zero_of_lt hfuel)
    rw [nil_append, Dll.first, findMnt, hs.1]
    exact if_pos hv
  | cons c l₁ ih =>
    obtain ⟨b, w⟩ := c
    obtain ⟨fuel, rfl⟩ := Nat.exists_eq_succ_of_ne_zero (Nat.ne_zero_of_lt hfuel)
    rw [cons_append, Dll.first, findMnt, hs.1]
    refine (if_neg (hbefore (b, w) mem_cons_self)).trans ?_
    exact ih hs.2 (fun c hc => hbefore c (mem_cons_of_mem _ hc)) (by simpa using hfuel)

variable {w : MountEntry} {p : Nat}

theorem Listed.sysUmount (h : Listed s (l₁ ++ [(p, w)] ++ (a, v) :: l₂))
    (hbefore : ∀ c ∈ l₁ ++ [(p, w)], c.2.targetPath ≠ path) (hv : v.targetPath = path) (humount : s.sysUmount path = some (true, t)) :
    t = { s.setNode v.target fun q => { q with priv := v.priv } with
      mnt := update (update s.mnt p (some ⟨w, Dll.last none l₁, Dll.first l₂ none⟩)) a none } := by
  have hlen := h.length_le
  rw [length_append, length_cons] at hlen
  have hfind := findMnt_eq h.segment hbefore hv (show (l₁ ++ [(p, w)]).length < s.fresh by omega)
  obtain ⟨hseg, hcell, -⟩ := Dll.segment_append.mp h.segment
  have hprev : s.mnt p = some ⟨w, Dll.last none l₁, some a⟩ := (Dll.segment_append.mp hseg).2.1
  rw [Dll.last_append] at hcell
  unfold Vfs.sysUmount at humount
  rw [h.head, hfind, bind_some] at humount
  dsimp only at humount
  rw [hcell, bind_some] at humount
  unfold unlinkMnt at humount
  dsimp only [Dll.last] at humount
  rw [hprev] at humount
  obtain ⟨-, rfl⟩ := Prod.mk.inj (some.inj humount)
  rfl

theorem Listed.umount_last (h : Listed s (l₁ ++ [(p, w)] ++ [(a, v)]))
    (hmnt : t.mnt = update (update s.mnt p (some ⟨w, Dll.last none l₁, none⟩)) a none)
    (hhead : t.vfsmntlst = s.vfsmntlst) (hfresh : t.fresh = s.fresh) : Listed t (l₁ ++ [(p, w)]) where
  segment := hmnt ▸ h.segment.dropLast h.nodup
  nodup := by
    have := h.nodup
    rw [map_append, nodup_append] at this
    exact this.1
  head := by rw [hhead, h.head, Dll.first_append, Dll.first_of_ne_nil (by simp)]
  bound c hc := hfresh ▸ h.bound c (mem_append_left _ hc)

end Vfs

namespace MountRecord

variable {r : MountRecord}

/-- The file system that was mounted is the one the node had, and its hook keeps the private data: `rootfs`, or `devfs` on a
    node without private data. -/
def Harmless (r : MountRecord) : Prop :=
  some r.fs = r.fsBefore ∧ (r.fs = .rootfs ∨ r.fs = .devfs ∧ r.privBefore = none)

theorem privAfter_eq_iff {priv : Option Nat} {q : Nat} (hq : priv ≠ some q) :
    fs.privAfter priv q = priv ↔ fs = .rootfs ∨ fs = .devfs ∧ priv = none := by
  cases fs with
  | rootfs => exact ⟨fun _ => .inl rfl, fun _ => rfl⟩
  | devfs => exact ⟨fun h => .inr ⟨rfl, h.symm⟩, fun h => h.elim nofun fun h => h.2.symm⟩
  | tmpfs | cpio | iso9660 | ext2 | vfat => exact ⟨fun h => absurd h.symm hq, fun h => h.elim nofun fun h => nomatch h.1⟩

structure Matches (vfs : Vfs) (r : MountRecord) (v : MountEntry) : Prop where
  key : v.targetPath = r.path ∧ v.target = r.target
  fs : (vfs.nodes r.target).fs = some r.fs
  priv : v.priv = r.privBefore ↔ r.fs = .rootfs ∨ r.fs = .devfs ∧ r.privBefore = none
  bound : ∀ q, v.priv = some q → q < vfs.fresh

theorem Matches.of_vfs {vfs' : Vfs} {v : MountEntry} (h : Matches vfs r v)
    (hfs : (vfs'.nodes r.target).fs = (vfs.nodes r.target).fs) (hfresh : vfs.fresh ≤ vfs'.fresh) : Matches vfs' r v :=
  ⟨h.key, hfs.trans h.fs, h.priv, fun q hq => Nat.lt_of_lt_of_le (h.bound q hq) hfresh⟩

end MountRecord

namespace MountRun
open Vfs MountRecord

variable {s t : MountRun} {op : Op} {path : Text}

/-- A mount point is listed under the path it was given by, and only the last mount is undone, if it is a harmless one. -/
def Undoable (s : MountRun) : Op → Prop
  | .mount _ _ _ path _ => foundPath path = path
  | .umount path => ∀ r ∈ s.records, r.path = path → s.records.getLast? = some r ∧ r.Harmless

def key (c : Nat × MountEntry) : Text × Nat := (c.2.targetPath, c.2.target)

/-- A run starts with a well-formed list of other mounts, the root file system among them. -/
structure Start (s : MountRun) : Prop where
  alloc : s.vfs.PrivAllocated
  paths : (s.base.map Prod.fst).Nodup
  targets : (s.base.map Prod.snd).Nodup
  records : s.records = []
  list : ∃ l c, Listed s.vfs (l ++ [c]) ∧ (l ++ [c]).map key = s.base

structure Inv (s : MountRun) (old : List (Nat × MountEntry)) (ms : List (MountRecord × Nat × MountEntry)) : Prop where
  alloc : s.vfs.PrivAllocated
  paths : (s.current.map Prod.fst).Nodup
  targets : (s.current.map Prod.snd).Nodup
  list : Listed s.vfs (old ++ ms.map Prod.snd)
  old : old ≠ [] ∧ old.map key = s.base
  records : ms.map Prod.fst = s.records
  mounts : ∀ m ∈ ms, Matches s.vfs m.1 m.2.2

theorem Start.inv (h : s.Start) : ∃ old ms, s.Inv old ms := by
  obtain ⟨l, c, hlist, hkey⟩ := h.list
  have hcurrent : s.current = s.base := by rw [current, h.records]; exact append_nil _
  refine ⟨l ++ [c], [], h.alloc, ?_, ?_, ?_, ⟨by simp, hkey⟩, h.records.symm, fun _ hm => absurd hm not_mem_nil⟩
  · rw [hcurrent]
    exact h.paths
  · rw [hcurrent]
    exact h.targets
  · rwa [map_nil, append_nil]

variable {old : List (Nat × MountEntry)} {ms ms₁ ms₂ : List (MountRecord × Nat × MountEntry)}
  {m : MountRecord × Nat × MountEntry}

theorem map_key_eq (hmounts : ∀ m ∈ ms, Matches vfs m.1 m.2.2) :
    (ms.map Prod.snd).map key = (ms.map Prod.fst).map fun r => (r.path, r.target) := by
  rw [List.map_map, List.map_map]
  refine map_congr_left fun m hm => ?_
  exact Prod.ext (hmounts m hm).key.1 (hmounts m hm).key.2

theorem Inv.keys (h : s.Inv old ms) : (old ++ ms.map Prod.snd).map key = s.current := by
  rw [map_append, h.old.2, map_key_eq h.mounts, h.records]
  rfl

theorem map_snd_split {l : List (Nat × MountEntry)} (hl : old ++ ms₁.map Prod.snd = l) :
    old ++ (ms₁ ++ m :: ms₂).map Prod.snd = l ++ m.2 :: ms₂.map Prod.snd := by
  rw [map_append, map_cons, ← append_assoc, hl]

theorem Inv.exec_mount (h : s.Inv old ms) {dev : Disk} {found : Option Nat}
    (hexec : s.exec (.mount fs dev devPath path found) = some t) :
    ∃ n b w vfs, (∀ m ∈ s.current, m.1 ≠ path ∧ m.2 ≠ n) ∧ Mounted fs (foundPath path) n s.vfs vfs w ∧
      Listed vfs (old ++ ms.map Prod.snd ++ [(b, w)]) ∧
      t = { s with vfs, records := s.records ++ [⟨path, n, fs, (s.vfs.nodes n).fs, (s.vfs.nodes n).priv⟩] } := by
  obtain ⟨n, hn, hexec⟩ := bind_eq_some_iff.mp hexec
  obtain ⟨hnew, hexec⟩ := ite_none_left_eq_some.mp hexec
  obtain ⟨⟨b, vfs⟩, hmount, hexec⟩ := bind_eq_some_iff.mp hexec
  cases b with
  | false => cases hexec
  | true =>
    cases hexec
    obtain hnil | ⟨l, ⟨a, v⟩, hl⟩ := eq_nil_or_concat' (old ++ ms.map Prod.snd)
    · exact absurd (append_eq_nil_iff.mp hnil).1 h.old.1
    have hlist := h.list
    rw [hl] at hlist
    obtain ⟨b, w, hlist', hmounted⟩ := hlist.sysMount h.alloc hn hmount
    exact ⟨n, b, w, vfs, fun m hm => ⟨fun hp => hnew ⟨m, hm, .inl hp⟩, fun hp => hnew ⟨m, hm, .inr hp⟩⟩, hmounted, hl ▸ hlist', rfl⟩

theorem current_concat (s : MountRun) (vfs : Vfs) (r : MountRecord) :
    current { s with vfs, records := s.records ++ [r] } = s.current ++ [(r.path, r.target)] := by
  unfold current
  rw [map_append, append_assoc]
  rfl

theorem Inv.mount (h : s.Inv old ms) {dev : Disk} {found : Option Nat}
    (hexec : s.exec (.mount fs dev devPath path found) = some t) (hpath : foundPath path = path) : ∃ ms, t.Inv old ms := by
  obtain ⟨n, b, w, vfs, hother, hmounted, hlist, rfl⟩ := h.exec_mount hexec
  obtain ⟨q, hpriv, hq⟩ := hmounted.priv
  rw [hpath] at hmounted
  refine ⟨ms ++ [(⟨path, n, fs, (s.vfs.nodes n).fs, (s.vfs.nodes n).priv⟩, b, w)], hmounted.alloc, ?_, ?_, ?_, h.old, ?_, fun m hm => ?_⟩
  · rw [current_concat, map_append, map_singleton, ← concat_eq_append]
    refine .concat (fun hp => ?_) h.paths
    obtain ⟨m, hm, heq⟩ := mem_map.mp hp
    exact (hother m hm).1 heq
  · rw [current_concat, map_append, map_singleton, ← concat_eq_append]
    refine .concat (fun hp => ?_) h.targets
    obtain ⟨m, hm, heq⟩ := mem_map.mp hp
    exact (hother m hm).2 heq
  · rw [map_append, ← append_assoc]
    exact hlist
  · rw [map_append, h.records]
    rfl
  · obtain hm | hm := mem_append.mp hm
    · have hmem : (m.1.path, m.1.target) ∈ s.current :=
        mem_append_right _ (mem_map_of_mem (h.records ▸ mem_map_of_mem hm))
      refine (h.mounts m hm).of_vfs ?_ hmounted.fresh
      rw [hmounted.others _ (hother _ hmem).2]
    · rw [mem_singleton.mp hm]
      exact ⟨hmounted.entry, hmounted.fs, hpriv ▸ privAfter_eq_iff hq, hmounted.bound⟩

def umounted (s : MountRun) (m : MountRecord × Nat × MountEntry) (p : Nat) (w : MountEntry)
    (l l₂ : List (Nat × MountEntry)) : MountRun :=
  { s with
    records := s.records.filter fun r => r.path ≠ m.1.path
    vfs := { s.vfs.setNode m.1.target fun q => { q with priv := m.2.2.priv } with
      mnt := update (update s.vfs.mnt p (some ⟨w, Dll.last none l, Dll.first l₂ none⟩)) m.2.1 none } }

variable {l : List (Nat × MountEntry)} {p : Nat} {w : MountEntry}

theorem Inv.umount (h : s.Inv old ms) (hexec : s.exec (.umount path) = some t) :
    ∃ ms₁ m ms₂ l p w, ms = ms₁ ++ m :: ms₂ ∧ m.1.path = path ∧ old ++ ms₁.map Prod.snd = l ++ [(p, w)] ∧
      t = s.umounted m p w l (ms₂.map Prod.snd) := by
  obtain ⟨⟨r, hr, rfl⟩, hexec⟩ := ite_none_right_eq_some.mp hexec
  obtain ⟨⟨b, vfs⟩, humount, hexec⟩ := bind_eq_some_iff.mp hexec
  cases b with
  | false => cases hexec
  | true =>
    cases hexec
    rw [← h.records] at hr
    obtain ⟨m, hm, rfl⟩ := mem_map.mp hr
    obtain ⟨ms₁, ms₂, rfl⟩ := append_of_mem hm
    obtain hnil | ⟨l, ⟨p, w⟩, hl⟩ := eq_nil_or_concat' (old ++ ms₁.map Prod.snd)
    · exact absurd (append_eq_nil_iff.mp hnil).1 h.old.1
    have hkey := (h.mounts m hm).key
    have hlist := h.list
    have hkeys := h.keys
    rw [map_snd_split hl] at hlist hkeys
    have hbefore : ∀ c ∈ l ++ [(p, w)], c.2.targetPath ≠ m.1.path := by
      intro c hc heq
      have hnodup := h.paths
      rw [← hkeys, map_append, map_append, nodup_append] at hnodup
      refine hnodup.2.2 c.2.targetPath (mem_map_of_mem (mem_map_of_mem hc)) m.2.2.targetPath ?_ (heq.trans hkey.1.symm)
      exact mem_map_of_mem (mem_map_of_mem mem_cons_self)
    have hvfs := hlist.sysUmount hbefore hkey.1 humount
    refine ⟨ms₁, m, ms₂, l, p, w, rfl, rfl, hl, ?_⟩
    rw [hvfs, hkey.2]
    rfl

theorem Inv.nodup_paths (h : s.Inv old ms) : (s.records.map MountRecord.path).Nodup := by
  have hnodup := h.paths
  rw [current, map_append, nodup_append, List.map_map] at hnodup
  exact hnodup.2.1

theorem Inv.eq_of_path (h : s.Inv old ms) {r r' : MountRecord} (hr : r ∈ s.records) (hr' : r' ∈ s.records)
    (hpath : r.path = r'.path) : r = r' := inj_on_of_nodup_map h.nodup_paths hr hr' hpath

theorem Inv.filter_records (h : s.Inv old (ms₁ ++ [m])) :
    (s.records.filter fun r => r.path ≠ m.1.path) = ms₁.map Prod.fst := by
  have hnodup := h.nodup_paths
  rw [← h.records, map_append, map_append, nodup_append] at hnodup
  rw [← h.records, map_append, filter_append, filter_eq_self.mpr, map_singleton,
    filter_cons_of_neg (by simp), filter_nil, append_nil]
  intro r hr
  simpa using hnodup.2.2 r.path (mem_map_of_mem hr) m.1.path (mem_singleton_self _)

theorem Inv.eq_nil_of_getLast (h : s.Inv old (ms₁ ++ m :: ms₂)) (hlast : s.records.getLast? = some m.1) : ms₂ = [] := by
  have hnodup := h.nodup_paths.of_map
  obtain hnil | ⟨ms₃, k, rfl⟩ := eq_nil_or_concat' ms₂
  · exact hnil
  rw [← h.records, map_append, map_cons, nodup_append, nodup_cons] at hnodup
  rw [← h.records, ← cons_append, ← append_assoc, map_append, map_singleton, getLast?_concat,
    some.injEq] at hlast
  exact absurd (mem_map.mpr ⟨k, mem_append_right _ (mem_singleton_self k), hlast⟩) hnodup.2.1.1

theorem Inv.umount_last (h : s.Inv old (ms₁ ++ [m])) (hl : old ++ ms₁.map Prod.snd = l ++ [(p, w)]) :
    (s.umounted m p w l []).Inv old ms₁ := by
  have hrecords : (s.umounted m p w l []).records = ms₁.map Prod.fst := h.filter_records
  have hcurrent : s.current = (s.umounted m p w l []).current ++ [(m.1.path, m.1.target)] := by
    unfold current
    rw [hrecords, ← h.records, map_append, map_append, ← append_assoc]
    rfl
  have hpaths := h.paths
  have htargets := h.targets
  rw [hcurrent, map_append, nodup_append] at hpaths htargets
  have hlist := h.list
  rw [map_snd_split hl] at hlist
  have hfs : ∀ n, ((s.umounted m p w l []).vfs.nodes n).fs = (s.vfs.nodes n).fs := by
    intro n
    unfold umounted
    by_cases hn : n = m.1.target
    · rw [hn, setNode_self]
    · rw [setNode_of_ne hn]
  refine ⟨fun n q hq => ?_, hpaths.1, htargets.1, ?_, h.old, hrecords.symm, fun k hk => ?_⟩
  · unfold umounted at hq
    by_cases hn : n = m.1.target
    · rw [hn, setNode_self] at hq
      exact (h.mounts m (mem_append_right _ (mem_singleton_self m))).bound q hq
    · rw [setNode_of_ne hn] at hq
      exact h.alloc n q hq
  · rw [hl]
    exact hlist.umount_last rfl rfl rfl
  · exact (h.mounts k (mem_append_left _ hk)).of_vfs (hfs _) (Nat.le_refl _)

def Fits (s : MountRun) : Prop := ∃ old ms, s.Inv old ms

theorem Fits.step (h : s.Fits) (hexec : s.exec op = some t) (hop : s.Undoable op) : t.Fits := by
  obtain ⟨old, ms, h⟩ := h
  cases op with
  | mount fs dev devPath path found => exact ⟨old, h.mount hexec hop⟩
  | umount path =>
    obtain ⟨ms₁, m, ms₂, l, p, w, rfl, rfl, hl, rfl⟩ := h.umount hexec
    have hmem : m.1 ∈ s.records := h.records ▸ mem_map_of_mem (mem_append_right ms₁ mem_cons_self)
    obtain rfl := h.eq_nil_of_getLast (hop m.1 hmem rfl).1
    exact ⟨old, ms₁, h.umount_last hl⟩

def small : MountRun where
  vfs :=
    { nodes := fun _ => ⟨some .rootfs, none, none, vfsDirectory, 0, none, 0, 0⟩
      mnt := update (fun _ => none) 5 (some ⟨⟨none, 0, none, rootPath, .rootfs, none⟩, none, none⟩)
      vfsmntlst := some 5
      fsRoot := some 0
      workDir := some 0
      fresh := 10 }
  base := [(rootPath, 0)]
  records := []

end MountRun
end HelinKern
