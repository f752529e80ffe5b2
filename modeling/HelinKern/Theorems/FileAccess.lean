import HelinKern.FileAccess

/-! What a process may do to a file that it has no right to write. -/

namespace HelinKern
open Function List Option

/-- What a file shows: its content, as bytes, as a queue or as the entries of a directory, and the fields of its node. -/
structure FileView where
  content : Nat → Option (BitVec 8)
  queue : List (BitVec 8)
  entries : List Nat
  size : Int
  flags : Nat
  mask : Nat
  uid : Int
  gid : Int
  ctime : Int
  mtime : Int
  atime : Int

variable {x : FileNode} {store : Nat} {stored : Nat → Option (BitVec 8)} {w : Written}
  {call : FileDescriptor → Option Files} {how : Int}

namespace Files

variable {s t : Files} {a : Account} {pid n m : Nat}

def content (s : Files) : NodeData → Nat → Option (BitVec 8)
  | .file store place => fun i => (place i).map (s.cells store)
  | .stream _ _ => fun _ => none

def input (s : Files) : NodeData → List (BitVec 8)
  | .file _ _ => []
  | .stream input _ => s.queue input

def view (s : Files) (n : Nat) : FileView :=
  let x := s.node n
  ⟨s.content x.data, s.input x.data, s.entries n, x.size, x.flags, x.mask, x.uid, x.gid, x.ctime, x.mtime, x.atime⟩

/-! ### Views after the parts of a call -/

theorem setNode_node_of_ne (h : n ≠ m) (x : FileNode) : (s.setNode m x).node n = s.node n := update_of_ne h _ _

theorem setNode_node_self (x : FileNode) : (s.setNode m x).node m = x := update_self _ _ _

theorem view_setNode_of_ne (h : n ≠ m) (x : FileNode) : (s.setNode m x).view n = s.view n := by
  unfold view
  rw [setNode_node_of_ne h]
  rfl

theorem view_setNode_self (hmask : x.mask = (s.node n).mask) (huid : x.uid = (s.node n).uid)
    (hgid : x.gid = (s.node n).gid) (hctime : x.ctime = (s.node n).ctime) (hdata : x.data = (s.node n).data) :
    (s.setNode n x).view n = s.view n ↔ x.size = (s.node n).size ∧ x.flags = (s.node n).flags ∧
      x.mtime = (s.node n).mtime ∧ x.atime = (s.node n).atime := by
  have hcontent : (s.setNode n x).content (s.node n).data = s.content (s.node n).data := by
    cases (s.node n).data <;> rfl
  have hinput : (s.setNode n x).input (s.node n).data = s.input (s.node n).data := by
    cases (s.node n).data <;> rfl
  simp only [view, setNode_node_self, hmask, huid, hgid, hctime, hdata, hcontent, hinput, FileView.mk.injEq, true_and]
  exact and_iff_right rfl

/-- The bytes that are stored are those that the file has there, if it has any. -/
def Unstored (s : Files) (x : NodeData) (store : Nat) (stored : Nat → Option (BitVec 8)) : Prop :=
  ∀ place, x = .file store place → ∀ i addr b, place i = some addr → stored addr = some b → b = s.cells store addr

theorem content_store {x : NodeData} :
    (s.store store stored).content x = s.content x ↔ s.Unstored x store stored := by
  cases x with
  | stream input output => exact iff_of_true rfl nofun
  | file store' place =>
    by_cases hstore : store' = store
    · subst hstore
      constructor
      · rintro h place' hplace i addr b hi hb
        cases hplace
        have heq := congrFun h i
        simpa [content, Files.store, hi, hb] using heq
      · intro h
        funext i
        cases hi : place i with
        | none => simp [content, hi]
        | some addr =>
          cases hb : stored addr with
          | none => simp [content, Files.store, hi, hb]
          | some b => simp [content, Files.store, hi, hb, h place rfl i addr b hi hb]
    · refine iff_of_true ?_ ?_
      · simp [content, Files.store, update_of_ne hstore]
      · intro _ h
        cases h
        exact absurd rfl hstore

theorem view_eq_iff (hnode : t.node n = s.node n) (hentries : t.entries n = s.entries n) :
    t.view n = s.view n ↔
      t.content (s.node n).data = s.content (s.node n).data ∧ t.input (s.node n).data = s.input (s.node n).data := by
  simp only [view, hnode, hentries, FileView.mk.injEq, and_true]

theorem view_store :
    (s.store store stored).view n = s.view n ↔ s.Unstored (s.node n).data store stored := by
  refine (view_eq_iff (by rfl) (by rfl)).trans ?_
  rw [content_store, and_iff_left]
  cases (s.node n).data <;> rfl

theorem view_setQueue {q : Nat} {l : List (BitVec 8)} :
    { s with queue := update s.queue q l }.view n = s.view n ↔
      ∀ output, (s.node n).data = .stream q output → l = s.queue q := by
  refine (view_eq_iff (by rfl) (by rfl)).trans ?_
  cases (s.node n).data with
  | file store place => exact iff_of_true ⟨rfl, rfl⟩ nofun
  | stream input output =>
    rw [and_iff_right (by rfl)]
    by_cases hq : input = q
    · subst hq
      simp [Files.input]
    refine iff_of_true (update_of_ne hq _ _) ?_
    intro _ h
    cases h
    exact absurd rfl hq

def Untaken (s : Files) (n : Nat) (x : FileNode) (size : Int) : Prop :=
  ∀ q out out', x.data = .stream q out → (s.node n).data = .stream q out' → asked size = 0 ∨ s.queue q = []

variable {c : Created} {fd size : Int} {op : Op}

theorem view_take : (s.take x size).view n = s.view n ↔ s.Untaken n x size := by
  unfold take Untaken
  cases x.data with
  | file store place => exact iff_of_true rfl nofun
  | stream input output =>
    simp only [view_setQueue, NodeData.stream.injEq]
    constructor
    · rintro h q out out' ⟨rfl, rfl⟩ hn
      have hlen := congrArg List.length (h out' hn)
      rw [length_drop] at hlen
      rcases Nat.eq_zero_or_pos (s.queue input).length with hnil | hpos
      · exact .inr (length_eq_zero_iff.mp hnil)
      · exact .inl (by omega)
    · intro h out' hn
      rcases h input output out' ⟨rfl, rfl⟩ hn with h | h
      · rw [h, drop_zero]
      · rw [h, drop_nil]

def Unwritten (s : Files) (n : Nat) (x : FileNode) (w : Written) : Prop :=
  (∀ store place, x.data = .file store place → s.Unstored (s.node n).data store w.stored) ∧
    ∀ input q out, x.data = .stream input q → (s.node n).data = .stream q out → w.pushed = []

theorem view_put (h : n ≠ m) : (s.put m w).view n = s.view n ↔ s.Unwritten n (s.node m) w := by
  unfold put Unwritten
  cases (s.node m).data with
  | file store place =>
    simp only [view_setNode_of_ne h, view_store, NodeData.file.injEq]
    constructor
    · intro hs
      refine ⟨?_, nofun⟩
      rintro _ _ ⟨rfl, rfl⟩
      exact hs
    · intro hs
      exact hs.1 store place ⟨rfl, rfl⟩
  | stream input output =>
    simp only [view_setQueue, NodeData.stream.injEq, append_right_eq_self]
    constructor
    · intro hq
      refine ⟨nofun, ?_⟩
      rintro _ _ out ⟨rfl, rfl⟩ hn
      exact hq out hn
    · intro hq out hn
      exact hq.2 input output out ⟨rfl, rfl⟩ hn

def Unlinked (s : Files) (n : Nat) (c : Created) : Prop :=
  c.dir ≠ n ∧ ∀ store place, (s.node c.dir).data = .file store place → s.Unstored (s.node n).data store c.stored

theorem view_storeEntry : (s.storeEntry c).view n = s.view n ↔
    ∀ store place, (s.node c.dir).data = .file store place → s.Unstored (s.node n).data store c.stored := by
  unfold storeEntry
  cases (s.node c.dir).data with
  | file store place =>
    simp only [view_store, NodeData.file.injEq]
    constructor
    · rintro hs _ _ ⟨rfl, rfl⟩
      exact hs
    · intro hs
      exact hs store place ⟨rfl, rfl⟩
  | stream input output => exact iff_of_true rfl nofun

theorem storeEntry_node : (s.storeEntry c).node = s.node := by
  unfold storeEntry
  split <;> rfl

theorem storeEntry_entries : (s.storeEntry c).entries = s.entries := by
  unfold storeEntry
  split <;> rfl

theorem view_link (hn : n ≠ s.fresh) : (s.link c).view n = s.view n ↔ s.Unlinked n c := by
  have hentries : (s.link c).entries n = if n = c.dir then s.entries c.dir ++ [s.fresh] else s.entries n := by
    simp only [link, update_of_ne hn, update_apply]
  rw [Unlinked, ← view_storeEntry]
  by_cases hdir : c.dir = n
  · -- the directory has one entry more
    refine iff_of_false (fun h => ?_) (fun h => h.1 hdir)
    have hlen := congrArg (fun v => v.entries.length) h
    simp [view, hentries, hdir] at hlen
  · rw [if_neg (Ne.symm hdir)] at hentries
    have hview : (s.link c).view n = ((s.storeEntry c).setNode s.fresh c.node).view n := by
      refine (view_eq_iff (by rfl) ?_).mpr ⟨by rfl, by rfl⟩
      exact hentries.trans (congrFun storeEntry_entries n).symm
    rw [and_iff_right hdir, hview, view_setNode_of_ne hn]

/-! ### Effects of calls -/

/-- After a step the file `n` shows what it showed exactly if `p` holds, and the rights on it are what they were. -/
structure Effect (n : Nat) (s t : Files) (p : Prop) : Prop where
  view : t.view n = s.view n ↔ p
  mask : (t.node n).mask = (s.node n).mask
  uid : (t.node n).uid = (s.node n).uid
  gid : (t.node n).gid = (s.node n).gid
  fresh : s.fresh ≤ t.fresh

namespace Effect

variable {p q : Prop}

theorem refl (hp : p) : Effect n s s p := ⟨iff_of_true rfl hp, rfl, rfl, rfl, Nat.le_refl _⟩

theorem congr (h : Effect n s t p) (hpq : p ↔ q) : Effect n s t q := ⟨h.view.trans hpq, h.mask, h.uid, h.gid, h.fresh⟩

theorem refused (hp : ¬p) : Effect n s s (p → q) := refl fun h => absurd h hp

theorem allowed (hp : p) (h : Effect n s t q) : Effect n s t (p → q) := h.congr ⟨fun hq _ => hq, fun hq => hq hp⟩

theorem setOffset (h : Effect n s t p) (fd : Int) (d : FileDescriptor) (offset : Int) :
    Effect n s (t.setOffset fd d offset) p := { h with }

theorem openFor (h : Effect n s t p) (pid m : Nat) (flags : Int) : Effect n s (t.openFor pid m flags) p :=
  { h with }

theorem of_node (h : t.view n = s.view n ↔ p) (hnode : t.node n = s.node n) (hfresh : s.fresh ≤ t.fresh) :
    Effect n s t p := ⟨h, by rw [hnode], by rw [hnode], by rw [hnode], hfresh⟩

theorem take (x : FileNode) (size : Int) : Effect n s (s.take x size) (s.Untaken n x size) := by
  refine of_node view_take ?_ ?_
  · unfold Files.take
    split <;> rfl
  · unfold Files.take
    split <;> exact Nat.le_refl _

theorem put (w : Written) (h : n ≠ m) : Effect n s (s.put m w) (s.Unwritten n (s.node m) w) := by
  refine of_node (view_put h) ?_ ?_
  · unfold Files.put
    split
    · exact setNode_node_of_ne h _
    · rfl
  · unfold Files.put
    split <;> exact Nat.le_refl _

theorem link (c : Created) (h : n < s.fresh) : Effect n s (s.link c) (s.Unlinked n c) := by
  refine of_node (view_link (Nat.ne_of_lt h)) ?_ (Nat.le_succ _)
  exact (setNode_node_of_ne (Nat.ne_of_lt h) _).trans (congrFun storeEntry_node n)

theorem setNode_of_ne (x : FileNode) (h : n ≠ m) (hp : p) : Effect n s (s.setNode m x) p :=
  of_node (iff_of_true (view_setNode_of_ne h x) hp) (setNode_node_of_ne h x) (Nat.le_refl _)

theorem setNode (hmask : x.mask = (s.node m).mask) (huid : x.uid = (s.node m).uid) (hgid : x.gid = (s.node m).gid)
    (hctime : x.ctime = (s.node m).ctime) (hdata : x.data = (s.node m).data) :
    Effect n s (s.setNode m x) (m = n → x.size = (s.node n).size ∧ x.flags = (s.node n).flags ∧
      x.mtime = (s.node n).mtime ∧ x.atime = (s.node n).atime) := by
  by_cases hm : m = n
  · subst hm
    refine ⟨?_, ?_, ?_, ?_, Nat.le_refl _⟩
    · simp only [view_setNode_self hmask huid hgid hctime hdata, forall_const]
    all_goals rwa [setNode_node_self]
  · exact setNode_of_ne x (Ne.symm hm) fun h => absurd h hm

end Effect

structure Protected (a : Account) (n : Nat) (s : Files) : Prop where
  noWrite : s.hasPerm a n .write = false
  lt : n < s.fresh

theorem Protected.ne (h : Protected a n s) (hm : s.hasPerm a m .write) : n ≠ m := by
  rintro rfl
  rw [h.noWrite] at hm
  cases hm

theorem hasPerm_congr {perm : Perm} (hmask : (t.node n).mask = (s.node n).mask) (huid : (t.node n).uid = (s.node n).uid)
    (hgid : (t.node n).gid = (s.node n).gid) : t.hasPerm a n perm = s.hasPerm a n perm := by
  simp only [hasPerm, VfsNode.hasPerm, hmask, huid, hgid]

theorem Protected.of_effect {p : Prop} (h : Protected a n s) (he : Effect n s t p) : Protected a n t :=
  ⟨(hasPerm_congr he.mask he.uid he.gid).trans h.noWrite, Nat.lt_of_lt_of_le h.lt he.fresh⟩

def wantsCreat (flags : BitVec 32) : Prop := flags &&& 2 = 2 ∨ flags &&& 0x200 = 0x200 ∨ flags &&& 1 = 1

def ComesToRead (s : Files) (a : Account) (offset : Int) (d : FileDescriptor) : Prop :=
  s.hasPerm a d.node .read = true ∧ ((s.node d.node).isSocket = true ∨
    ¬(offset = 0 ∧ (s.node d.node).size < d.offset) ∧ ¬(s.node d.node).size ≤ wrapInt (d.offset + offset) ∧
      (s.node d.node).fs ≠ .null)

def ComesToWrite (s : Files) (a : Account) (d : FileDescriptor) : Prop :=
  (s.node d.node).readOnly = false ∧ s.hasPerm a d.node .write = true ∧
    ((s.node d.node).isSocket = true ∨ (s.node d.node).fs.stores = true)

def ComesToMap (s : Files) (a : Account) (fd size : Int) (flags : BitVec 32) (d : FileDescriptor) : Prop :=
  ¬(size = 0 ∨ flags &&& 3 = 3 ∨ fd ≤ 0 ∨ (FdTable.slots : Int) ≤ fd) ∧ s.hasPerm a d.node .write = true ∧
    (s.node d.node).fs ≠ .mounted .devfs

/-- A call that leaves the file `n` as it is:
    * `sys_open` makes no entry in it, where it finds no file and is asked for one;
    * `sys_read` and `sys_mmap` take nothing from its queue;
    * `sys_write` to another file stores nothing in its bytes or its queue;
    * `sys_truncate` and `sys_utime` set the size and the times that it has, and `sys_fcntl` the flags. -/
def Spares (s : Files) (a : Account) (n : Nat) : Op → Prop
  | .open found flags created _ => found = none → wantsCreat flags → ∀ c ∈ created, s.Unlinked n c
  | .read fd offset size _ => ∀ d, s.desc fd = some d → s.ComesToRead a offset d → s.Untaken n (s.node d.node) size
  | .write fd w => ∀ d, s.desc fd = some d → s.ComesToWrite a d → s.Unwritten n (s.node d.node) w
  | .mmap fd size flags => ∀ d, s.desc fd = some d → s.ComesToMap a fd size flags d →
      s.Untaken n (s.node d.node) (min size (s.node d.node).size)
  | .truncate fd size => ∀ d, s.desc fd = some d → (s.node d.node).fs = .mounted .rootfs → d.node = n →
      size = (s.node n).size
  | .fcntl fd cmd arg => ∀ d, s.desc fd = some d → cmd = 4 ∧ (s.node d.node).isSocket = false → d.node = n →
      (arg.setWidth 32).toNat = (s.node n).flags
  | .utime fd atime mtime => ∀ d, s.desc fd = some d → d.node = n → mtime = (s.node n).mtime ∧ atime = (s.node n).atime
  | .openat .. | .seek .. | .fchmod .. | .chown .. | .fchown .. | .other _ => True

theorem sysOpen_effect (h : Protected a n s) (pid : Nat) (found : Option Nat) (flags : BitVec 32)
    (created : Option Created) (again : Option Nat) : Effect n s (s.sysOpen a pid found flags created again)
      (s.Spares a n (.open found flags created again)) := by
  unfold sysOpen
  cases found with
  | some m =>
    dsimp only
    split
    · exact .refl nofun
    · split
      · exact .refl nofun
      · exact (Effect.refl nofun).openFor pid m _
  | none =>
    dsimp only
    split
    next hflags =>
      cases created with
      | none => exact .refl fun _ _ _ hc => by cases hc
      | some c =>
        have hiff : s.Unlinked n c ↔
            ((none : Option Nat) = none → wantsCreat flags → ∀ c' ∈ some c, s.Unlinked n c') :=
          ⟨fun hc _ _ c' hc' => mem_some.mp hc' ▸ hc, fun hc => hc rfl hflags c rfl⟩
        have hlink := (Effect.link c h.lt).congr hiff
        cases again with
        | none => exact hlink
        | some m => exact hlink.openFor pid m _
    next hflags => exact .refl fun _ hw => absurd hw hflags

theorem onDesc_effect {p : FileDescriptor → Prop} (h : s.onDesc fd call = some t)
    (hcall : ∀ d, call d = some t → Effect n s t (p d)) :
    Effect n s t (∀ d, s.desc fd = some d → p d) := by
  unfold onDesc at h
  cases hd : s.desc fd with
  | none =>
    rw [hd] at h
    cases h
    exact .refl nofun
  | some d =>
    rw [hd] at h
    refine (hcall d h).congr ?_
    simp only [some_inj, forall_eq']

theorem onDesc_kept (h : s.onDesc fd call = some t) (hcall : ∀ d, call d = some t → Effect n s t True) : Effect n s t True :=
  (onDesc_effect h hcall).congr (iff_true_intro fun _ _ => trivial)

theorem sysOpenat_effect {dirfd : Int} {found : Option Nat} (h : s.sysOpenat pid dirfd found = some t) :
    Effect n s t True := by
  refine onDesc_kept h fun d hd => ?_
  split at hd
  · cases hd
    exact .refl trivial
  split at hd
  · cases hd
    exact .refl trivial
  · cases hd
    exact (Effect.refl trivial).openFor pid _ _

theorem sysRead_effect {offset : Int} (h : s.sysRead a fd offset size how = some t) :
    Effect n s t (s.Spares a n (.read fd offset size how)) := by
  refine onDesc_effect h fun d hd => ?_
  dsimp only at hd
  split at hd
  next hperm =>
    cases hd
    exact .refused fun hr => by simp [hr.1] at hperm
  rename_i hperm
  have hperm : s.hasPerm a d.node .read := by simpa using hperm
  split at hd
  next hsock =>
    obtain ⟨-, hd⟩ := ite_none_right_eq_some.mp hd
    cases hd
    exact .allowed ⟨hperm, .inl hsock⟩ (.take _ size)
  next hsock =>
    split at hd
    next hoff =>
      cases hd
      exact .refused fun hr => (hr.2.resolve_left hsock).1 hoff
    rename_i hoff
    split at hd
    next hend =>
      cases hd
      exact .refused fun hr => (hr.2.resolve_left hsock).2.1 hend
    rename_i hend
    split at hd
    next hnull =>
      cases hd
      exact (Effect.refused fun hr => (hr.2.resolve_left hsock).2.2 hnull).setOffset fd d _
    next hnull =>
      cases hd
      exact (Effect.allowed ⟨hperm, .inr ⟨hoff, hend, hnull⟩⟩ (.take _ size)).setOffset fd d _

theorem sysWrite_effect (hn : Protected a n s) (h : s.sysWrite a fd w = some t) :
    Effect n s t (s.Spares a n (.write fd w)) := by
  refine onDesc_effect h fun d hd => ?_
  dsimp only at hd
  split at hd
  next hro =>
    cases hd
    exact .refused fun hw => by simp [hw.1] at hro
  rename_i hro
  have hro : (s.node d.node).readOnly = false := by simpa using hro
  split at hd
  next hperm =>
    cases hd
    exact .refused fun hw => by simp [hw.2.1] at hperm
  rename_i hperm
  have hperm : s.hasPerm a d.node .write := by simpa using hperm
  have hput : Effect n s (s.put d.node w) _ := .put w (hn.ne hperm)
  split at hd
  next hsock =>
    obtain ⟨-, hd⟩ := ite_none_right_eq_some.mp hd
    cases hd
    exact .allowed ⟨hro, hperm, .inl hsock⟩ hput
  next hsock =>
    split at hd
    next hstores =>
      cases hd
      exact (Effect.allowed ⟨hro, hperm, .inr hstores⟩ hput).setOffset fd d _
    next hstores =>
      cases hd
      exact (Effect.refused fun hw => hstores (hw.2.2.resolve_left hsock)).setOffset fd d _

theorem sysSeek_effect {type : Int} (h : s.sysSeek fd type how = some t) : Effect n s t True := by
  refine onDesc_kept h fun d hd => ?_
  split at hd
  · cases hd
    exact (Effect.refl trivial).setOffset fd d _
  split at hd
  · cases hd
    exact (Effect.refl trivial).setOffset fd d _
  split at hd
  · cases hd
    exact (Effect.refl trivial).setOffset fd d _
  · cases hd
    exact .refl trivial

theorem sysTruncate_effect (h : s.sysTruncate fd size = some t) : Effect n s t (s.Spares a n (.truncate fd size)) := by
  refine onDesc_effect h fun d hd => ?_
  obtain ⟨-, hd⟩ := ite_none_left_eq_some.mp hd
  split at hd
  next hfs =>
    cases hd
    refine .allowed hfs (Effect.congr (.setNode rfl rfl rfl rfl rfl) (forall_congr' fun hdn => ?_))
    simp [hdn]
  next hfs =>
    cases hd
    exact .refused hfs

theorem sysMmap_effect {flags : BitVec 32} (h : s.sysMmap a fd size flags = some t) :
    Effect n s t (s.Spares a n (.mmap fd size flags)) := by
  unfold sysMmap at h
  split at h
  next harg =>
    cases h
    exact .refl fun d _ hm => absurd harg hm.1
  rename_i harg
  obtain ⟨d, hd, h⟩ := bind_eq_some_iff.mp h
  simp only [Spares, hd, some_inj, forall_eq']
  split at h
  next hperm =>
    cases h
    exact .refused fun hm => by simp [hm.2.1] at hperm
  rename_i hperm
  obtain ⟨-, h⟩ := ite_none_left_eq_some.mp h
  split at h
  next hdev =>
    cases h
    exact .refused fun hm => hm.2.2 hdev
  next hdev =>
    cases h
    exact .allowed ⟨harg, by simpa using hperm, hdev⟩ (.take _ _)

theorem sysFcntl_effect {cmd : Int} {arg : BitVec 64} (h : s.sysFcntl fd cmd arg = some t) :
    Effect n s t (s.Spares a n (.fcntl fd cmd arg)) := by
  refine onDesc_effect h fun d hd => ?_
  dsimp only at hd
  split at hd
  next hcmd =>
    cases hd
    exact .refused fun hf => hcmd hf.1
  rename_i hcmd
  split at hd
  next hsock =>
    obtain ⟨-, hd⟩ := ite_none_right_eq_some.mp hd
    cases hd
    exact .refused fun hf => by simp [hf.2] at hsock
  next hsock =>
    cases hd
    refine .allowed ⟨not_not.mp hcmd, by simpa using hsock⟩
      (Effect.congr (.setNode rfl rfl rfl rfl rfl) (forall_congr' fun hdn => ?_))
    simp [hdn]

theorem sysUtime_effect {atime mtime : Int} (h : s.sysUtime fd atime mtime = some t) :
    Effect n s t (s.Spares a n (.utime fd atime mtime)) := by
  refine onDesc_effect h fun d hd => ?_
  cases hd
  refine Effect.congr (.setNode rfl rfl rfl rfl rfl) (forall_congr' fun hdn => ?_)
  simp [hdn]

theorem Protected.ne_of_mayChange (h : Protected a n s) (huid : a.uid ≠ 0) (hm : s.mayChange a m) : n ≠ m :=
  h.ne ((of_decide_eq_true hm).resolve_left huid)

section
variable (hn : Protected a n s) (huid : a.uid ≠ 0)
include hn huid

theorem sysFchmod_effect {mode : BitVec 32} (h : s.sysFchmod a fd mode = some t) : Effect n s t True := by
  refine onDesc_kept h fun d hd => ?_
  split at hd
  next hmay =>
    cases hd
    exact .setNode_of_ne _ (hn.ne_of_mayChange huid hmay) trivial
  · cases hd
    exact .refl trivial

theorem chownNode_effect (m : Nat) (owner group : Int) : Effect n s (s.chownNode a m owner group) True := by
  unfold chownNode
  split
  next hmay => exact .setNode_of_ne _ (hn.ne_of_mayChange huid hmay) trivial
  · exact .refl trivial

theorem sysFchown_effect {owner group : Int} (h : s.sysFchown a fd owner group = some t) : Effect n s t True := by
  unfold sysFchown at h
  split at h
  · cases h
    exact .refl trivial
  · obtain ⟨d, -, rfl⟩ := map_eq_some_iff.mp h
    exact chownNode_effect hn huid d.node owner group

end

def Op.own : Op → Prop
  | .other _ => False
  | _ => True

theorem own_effect (hn : Protected a n s) (huid : a.uid ≠ 0) (hown : op.own)
    (h : s.exec a pid n op = some t) : Effect n s t (s.Spares a n op) := by
  cases op with
  | «open» found flags created again =>
    cases h
    exact sysOpen_effect hn pid found flags created again
  | openat dirfd found => exact sysOpenat_effect h
  | read fd offset size how => exact sysRead_effect h
  | write fd w => exact sysWrite_effect hn h
  | seek fd type how => exact sysSeek_effect h
  | truncate fd size => exact sysTruncate_effect h
  | mmap fd size flags => exact sysMmap_effect h
  | fcntl fd cmd arg => exact sysFcntl_effect h
  | utime fd atime mtime => exact sysUtime_effect h
  | fchmod fd mode => exact sysFchmod_effect hn huid h
  | chown found owner group =>
    cases h
    cases found with
    | none => exact .refl trivial
    | some m => exact chownNode_effect hn huid m owner group
  | fchown fd owner group => exact sysFchown_effect hn huid h
  | other s' => exact hown.elim

theorem Protected.other {s' : Files} (hn : Protected a n s) (h : s.exec a pid n (.other s') = some t) :
    Protected a n t := by
  obtain ⟨⟨hlt, hmask, huid, hgid⟩, h⟩ := ite_none_right_eq_some.mp h
  cases h
  exact ⟨(hasPerm_congr hmask huid hgid).trans hn.noWrite, hlt⟩

theorem Protected.step (hn : Protected a n s) (huid : a.uid ≠ 0) (h : s.exec a pid n op = some t) :
    Protected a n t := by
  by_cases hown : op.own
  · exact hn.of_effect (own_effect hn huid hown h)
  · cases op with
    | other s' => exact hn.other h
    | _ => exact absurd trivial hown

theorem step_iff (hn : Protected a n s) (huid : a.uid ≠ 0) (h : s.exec a pid n op = some t) :
    (op.own → t.view n = s.view n) ↔ s.Spares a n op := by
  by_cases hown : op.own
  · rw [forall_prop_of_true hown]
    exact (own_effect hn huid hown h).view
  · cases op with
    | other s' => exact iff_of_true (fun h => absurd h hown) trivial
    | _ => exact absurd trivial hown

/-- A process that has no right to write a file leaves its content, size, flags, rights and times as they are, call by call,
    exactly as long as its calls are those of `Spares`. -/
theorem write_protection (huid : a.uid ≠ 0) (hperm : (s.node n).hasPerm .write a.gid a.uid = false) (hn : n < s.fresh)
    (pid : Nat) (ops : List Op) :
    Lts.Along (fun s op => s.exec a pid n op) (fun s op t => op.own → t.view n = s.view n) s ops ↔
      Lts.Along (fun s op => s.exec a pid n op) (fun s op _ => s.Spares a n op) s ops := by
  refine Lts.along_iff (Protected a n) ⟨hperm, hn⟩ (fun h hexec => ?_) (fun h hexec _ => h.step huid hexec) ops
  exact step_iff h huid hexec

def sealedFile : Files where
  node _ := { mask := 0o444, gid := 0, uid := 0, flags := 0, inode := 0, size := 3, mountFlags := 0, ctime := 0, mtime := 0,
              atime := 0, fs := .mounted .rootfs, data := .file 0 fun i => if i < 3 then some i else none }
  cells _ _ := 0
  queue _ := []
  entries _ := []
  table := .empty
  fresh := 1

/-- The user 1000 opens the file, and then neither sets its mode nor its owner. -/
theorem write_protection_sealed : Lts.Along (fun s op => s.exec ⟨1000, 1000⟩ 1 0 op)
    (fun s op t => op.own → t.view 0 = s.view 0) sealedFile [.open (some 0) 0 none none, .fchmod 0 0o777, .fchown 0 1000 1000] := by
  refine (write_protection (by decide) (by decide) (by decide) 1 _).mpr ?_
  refine fun t _ => ⟨nofun, fun u _ => ⟨trivial, fun v _ => ⟨trivial, trivial⟩⟩⟩

/-- The user 1000 opens the file and cuts it to nothing. -/
theorem truncate_sealed : ¬Lts.Along (fun s op => s.exec ⟨1000, 1000⟩ 1 0 op)
    (fun s op t => op.own → t.view 0 = s.view 0) sealedFile [.open (some 0) 0 none none, .truncate 0 0] := by
  intro h
  obtain ⟨-, h⟩ := h _ rfl
  obtain ⟨hview, -⟩ := h _ rfl
  have hsize := congrArg FileView.size (hview trivial)
  cases hsize

end Files
end HelinKern
