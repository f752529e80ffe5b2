import HelinKern.Theorems.Descriptors
import HelinKern.Theorems.IpcMemory

/-! When the objects behind descriptors live as long as the descriptors: the calls count nodes and not slots. -/

namespace HelinKern
open Slots Function List Option

variable {oldfd newfd owner parent child : Nat} {dupfd key connections : Int}

namespace FdTable

variable {t : FdTable}

def dupTarget (t : FdTable) (newfd : Nat) (dupfd : Int) : Nat := if dupfd = 2 then newfd else t.findFree.getD t.nextFd

theorem dup_of_fails (h : t.fds oldfd = none ∧ dupfd ≠ 1) (newfd : Nat) (junk : FileDescriptor) :
    (t.dup oldfd newfd dupfd junk).2 = t := by
  unfold dup
  rw [if_pos h]

theorem dup_eq_put (h : ¬(t.fds oldfd = none ∧ dupfd ≠ 1)) (hnew : newfd < slots) (junk : FileDescriptor) :
    ∃ m, (t.dup oldfd newfd dupfd junk).2 =
      { t.put (t.dupTarget newfd dupfd) (some ((t.fds oldfd).getD junk)) with nextFd := m } := by
  unfold dup dupTarget
  rw [if_neg h, if_neg (Nat.not_le.mpr hnew)]
  by_cases hdup : dupfd = 2
  · obtain ⟨d, hd⟩ : ∃ d, t.fds oldfd = some d :=
      ne_none_iff_exists'.mp fun hnone => h ⟨hnone, by rw [hdup]; decide⟩
    rw [if_pos hdup, if_pos hdup, hd]
    exact ⟨_, rfl⟩
  · rw [if_neg hdup, if_neg hdup]
    cases t.findFree with
    | some i => exact ⟨_, rfl⟩
    | none => exact ⟨_, rfl⟩

end FdTable

namespace Ipc
open FdTable

variable {op : Op} {k k' : Ipc} {pid n a b o : Nat}

theorem slot_setTable (pid : Nat) (t : FdTable) (i : Nat × Nat) : (k.setTable pid t).slot i =
    if i.1 = pid then if i.2 < slots then (t.fds i.2).map FileDescriptor.node else none else k.slot i := by
  unfold slot table setTable FdTables.set
  by_cases hi : i.1 = pid
  · rw [hi]
    simp
  · rw [if_neg hi]
    simp [hi]

theorem slot_setTable_self (pid : Nat) : (k.setTable pid (k.table pid)).slot = k.slot := by
  funext i
  rw [slot_setTable]
  split
  case isTrue hi => rw [← hi, slot]
  case isFalse => rfl

variable {readFd writeFd : Int} {creator fd : Nat} {q : Prop}

theorem slot_put (fd : Nat) (v : Option FileDescriptor) (m : Nat) :
    (k.setTable pid { (k.table pid).put fd v with nextFd := m }).slot =
      if fd < slots then update k.slot (pid, fd) (v.map FileDescriptor.node) else k.slot := by
  funext ⟨p, i⟩
  rw [slot_setTable]
  by_cases hp : p = pid
  · subst hp
    by_cases hi : i = fd
    · subst hi
      simp +contextual [put, slot, ite_apply]
    · simp [put, slot, ite_apply, hi]
  · simp [ite_apply, hp]

theorem slot_clear (hfd : fd < slots) :
    (k.setTable pid ((k.table pid).put fd none)).slot = update k.slot (pid, fd) none :=
  (slot_put fd none (k.table pid).nextFd).trans (if_pos hfd)

theorem slot_open (pid n : Nat) : (k.setTable pid ((k.table pid).openFor pid (some n) 2).2).slot =
    if (k.table pid).nextFd < slots then update k.slot (pid, (k.table pid).nextFd) (some n) else k.slot := by
  by_cases hlimit : openLimit ≤ (k.table pid).nextFd
  · have hslots : ¬(k.table pid).nextFd < slots := Nat.not_lt.mpr (Nat.le_trans (by decide) hlimit)
    rw [openFor_of_limit pid n 2 hlimit, slot_setTable_self, if_neg hslots]
  · rw [openFor_of_lt pid n 2 (Nat.lt_of_not_le hlimit)]
    exact slot_put _ _ _

/-! ### The property -/

/-- A node or an object is freed when the last slot that leads to it goes: not before, not later, and not twice. -/
structure Sound (k : Ipc) : Prop where
  nodes : Tracks k.slot k.nodeStatus
  freed : ∀ n o, Holds k.slot n → k.link n = some o → k.objStatus o ≠ .freed
  kept : ∀ o, k.objStatus o = .alive → ∃ n, Holds k.slot n ∧ k.link n = some o
  once : k.freed.Nodup

structure Inv (k : Ipc) : Prop where
  mem : k.Mem
  known : Known k.slot k.nodeStatus k.strays
  tracks : Tracks k.slot k.nodeStatus

theorem Mem.sound (h : k.Mem) (htracks : Tracks k.slot k.nodeStatus) : k.Sound where
  nodes := htracks
  freed n o _ hlink hfreed := by
    rw [h.owned.alive_of_ref hlink] at hfreed
    cases hfreed
  kept o ho := by
    obtain ⟨n, hn⟩ := (h.owned.alive o).mp ho
    exact ⟨n, htracks.alive n (alive_of_link hn).1, hn⟩
  once := h.logged.nodup

theorem slot_start (pids : List Nat) (node : Nat → IpcNode) (obj : Nat → IpcObj) (i : Nat × Nat) :
    (start pids node obj).slot i = none := by
  have hfds : ((start pids node obj).table i.1).fds i.2 = none := by
    unfold table start
    dsimp only
    split <;> rfl
  simp [slot, hfds]

theorem inv_start (pids : List Nat) (node : Nat → IpcNode) (obj : Nat → IpcObj) : (start pids node obj).Inv := by
  have hslot (n : Nat) : ¬Holds (start pids node obj).slot n :=
    fun ⟨i, hi⟩ => nomatch (slot_start pids node obj i).symm.trans hi
  have hlink (o : Nat) : ¬(refs (start pids node obj).link o).Nonempty :=
    fun ⟨n, hn⟩ => nomatch (alive_of_link hn).1
  refine ⟨⟨⟨fun o => iff_of_false nofun (hlink o), nofun⟩, ⟨nodup_nil, nofun⟩, ⟨nodup_nil, nofun, nofun⟩⟩, ?_, ?_⟩
  · exact fun n hn => absurd hn (hslot n)
  · exact ⟨nofun, fun n _ => hslot n⟩

def DecidedBy (k : Ipc) (q : Prop) : Prop :=
  (k.Mem ∧ Known k.slot k.nodeStatus k.strays ∧ (Tracks k.slot k.nodeStatus ↔ q)) ∨ (¬k.Sound ∧ ¬q)

theorem DecidedBy.sound_iff (h : k.DecidedBy q) : k.Sound ↔ q := by
  obtain ⟨hmem, -, htracks⟩ | ⟨hsound, hq⟩ := h
  · exact ⟨fun hsound => htracks.mp hsound.nodes, fun hq => hmem.sound (htracks.mpr hq)⟩
  · exact iff_of_false hsound hq

theorem DecidedBy.inv (h : k.DecidedBy q) (hq : q) : k.Inv := by
  obtain ⟨hmem, hknown, htracks⟩ | ⟨-, hnot⟩ := h
  · exact ⟨hmem, hknown, htracks.mpr hq⟩
  · exact absurd hq hnot

theorem Inv.decidedBy (h : k.Inv) (hq : q) : k.DecidedBy q := .inl ⟨h.mem, h.known, iff_of_true h.tracks hq⟩

/-! ### New descriptors -/

/-- The cursor is inside the table, and no node has its only slot there. -/
def Room (k : Ipc) (pid : Nat) : Prop :=
  (k.table pid).nextFd < slots ∧ ∀ n, k.nodeStatus n = .alive → HoldsBut k.slot (pid, (k.table pid).nextFd) n

theorem Inv.not_holds (h : k.Inv) (ha : k.FreshNode a) : ¬Holds k.slot a := h.known.not_holds ha.1 ha.2

theorem known_open {status status' : Nat → MemStatus} {l : List Nat} (h : Known k.slot status l) (pid : Nat)
    (ha : status' a = .alive) (hstatus : ∀ n, status' n = .unused → status n = .unused) :
    Known (k.setTable pid ((k.table pid).openFor pid (some a) 2).2).slot status' l := by
  rw [slot_open]
  split
  · refine h.update (fun n hn hunused => ?_) hstatus (List.Subset.refl l)
    cases hn
    exact nomatch ha.symm.trans hunused
  · exact h.mono (fun _ => id) hstatus (List.Subset.refl l)

structure Adds (k k' : Ipc) (a : Nat) : Prop where
  mem : k'.Mem
  tables : k'.tables = k.tables
  nodes : k'.nodeStatus = update k.nodeStatus a .alive
  strays : k'.strays = k.strays

theorem slot_congr (h : k'.tables = k.tables) : k'.slot = k.slot := by
  funext i
  simp only [slot, table, h]

theorem Inv.opened (h : k.Inv) (ha : k.FreshNode a) (hadd : k.Adds k' a) :
    (k'.setTable pid ((k'.table pid).openFor pid (some a) 2).2).DecidedBy (k.Room pid) := by
  have htable : k'.table pid = k.table pid := congrArg (fun t => (t pid).getD FdTable.empty) hadd.tables
  have hslot := (slot_open pid a).trans (by rw [slot_congr hadd.tables, htable])
  have hstatus (n : Nat) (hn : k'.nodeStatus n = .unused) : k.nodeStatus n = .unused := by
    rw [hadd.nodes] at hn
    exact MemStatus.unused_of_update hn nofun
  have hnew : k'.nodeStatus a = .alive := by
    rw [hadd.nodes, update_self]
  have hknown : Known k'.slot k.nodeStatus k'.strays := by
    rw [slot_congr hadd.tables, hadd.strays]
    exact h.known
  refine .inl ⟨hadd.mem.setTable _ _, known_open hknown pid hnew hstatus, ?_⟩
  · change Tracks _ k'.nodeStatus ↔ _
    rw [hslot]
    by_cases hslots : (k.table pid).nextFd < slots
    · rw [if_pos hslots, hadd.nodes, Tracks.put_new_iff h.tracks.freed ha.1]
      exact ⟨fun hkept => ⟨hslots, hkept⟩, And.right⟩
    · rw [if_neg hslots]
      exact iff_of_false (fun htracks => h.not_holds ha (htracks.alive a hnew)) fun hroom => hslots hroom.1

/-! ### `sys_socket` -/

theorem vfsClose_socket (hobj : k.obj (k.node n).priv = .socket owner) : k.vfsClose n = k := by
  unfold vfsClose
  rw [hobj]

theorem openFor_socket (hobj : k.obj (k.node n).priv = .socket owner) (pid : Nat) :
    (k.openFor pid n).2 = k.setTable pid ((k.table pid).openFor pid (some n) 2).2 := by
  unfold openFor
  dsimp only
  split
  · exact vfsClose_socket hobj
  · rfl

theorem Inv.sysSocket (h : k.Inv) (ha : k.FreshNode a) (ho : k.objStatus o = .unused) :
    (k.sysSocket pid a o).DecidedBy (k.Room pid) := by
  have hobj : ((k.newObj o (.socket pid)).newNode a ⟨0, o⟩).obj
      (((k.newObj o (.socket pid)).newNode a ⟨0, o⟩).node a).priv = .socket pid := by
    simp [newNode, newObj]
  unfold Ipc.sysSocket
  rw [openFor_socket hobj]
  exact h.opened ha ⟨h.mem.newSocket ha.1 ho pid, rfl, rfl, rfl⟩

/-! ### `msg_createIPC` -/

theorem openFor_of_lt_limit (h : (k.table pid).nextFd < openLimit) (n : Nat) :
    (k.openFor pid n).2 = k.setTable pid ((k.table pid).openFor pid (some n) 2).2 := by
  exact if_neg (Nat.not_le.mpr h)

theorem openFor_of_limit_le (h : openLimit ≤ (k.table pid).nextFd) (n : Nat) :
    (k.openFor pid n).2 = (k.setTable pid (k.table pid)).vfsClose n := by
  unfold openFor
  rw [openFor_of_limit pid n 2 h]
  exact if_pos h

theorem vfsClose_msg (hobj : k.obj (k.node n).priv = .msg key connections) :
    k.vfsClose n = k.msgobjClose n key connections := by
  unfold vfsClose
  rw [hobj]

theorem msgobjClose_nodeStatus (n : Nat) (key connections : Int) :
    (k.msgobjClose n key connections).nodeStatus = update k.nodeStatus n .freed := by
  unfold msgobjClose
  split <;> rfl

theorem msgobjClose_tables (n : Nat) (key connections : Int) : (k.msgobjClose n key connections).tables = k.tables := by
  unfold msgobjClose
  split <;> rfl

theorem msgobjClose_strays (n : Nat) (key connections : Int) : (k.msgobjClose n key connections).strays = k.strays := by
  unfold msgobjClose
  split <;> rfl

theorem Inv.msgConnect (h : k.Inv) (ha : k.nodeStatus a = .unused) (ho : k.objStatus o = .unused) (key : Int) :
    k.Adds ((k.msgConnect key o).2.newNode a ⟨0, (k.msgConnect key o).1⟩) a ∧
      ∃ key' connections, (k.msgConnect key o).2.obj (k.msgConnect key o).1 = .msg key' connections := by
  unfold Ipc.msgConnect
  cases hfind : k.keys.find? (k.hasKey key) with
  | none => exact ⟨⟨h.mem.newMsg ha ho key, rfl, rfl, rfl⟩, key, 1, update_self ..⟩
  | some o' =>
    obtain ⟨halive, key', connections, hobj⟩ := h.mem.keyed.msg o' (mem_of_find?_eq_some hfind)
    dsimp only
    rw [hobj]
    exact ⟨⟨h.mem.newConnection ha halive hobj, rfl, rfl, rfl⟩, key', connections + 1, update_self ..⟩

theorem Inv.closed (h : k.Inv) (ha : k.FreshNode a) (hadd : k.Adds k' a)
    (hobj : k'.obj (k'.node a).priv = .msg key connections) (pid : Nat) :
    ((k'.setTable pid (k'.table pid)).msgobjClose a key connections).Inv := by
  have hnew : k'.nodeStatus a = .alive := by
    rw [hadd.nodes, update_self]
  have hnodes : update (k'.setTable pid (k'.table pid)).nodeStatus a .freed =
      update k.nodeStatus a .freed := by
    change update k'.nodeStatus a .freed = _
    rw [hadd.nodes, update_idem]
  refine ⟨(hadd.mem.setTable _ _).msgobjClose hnew hobj, ?_, ?_⟩
  · have hstrays : (k'.setTable pid (k'.table pid)).strays = k.strays := hadd.strays
    rw [slot_congr (msgobjClose_tables ..), msgobjClose_nodeStatus, msgobjClose_strays, slot_setTable_self, slot_congr hadd.tables, hnodes,
      hstrays]
    exact h.known.mono (fun _ => id) (fun n hn => MemStatus.unused_of_update hn nofun) (List.Subset.refl _)
  · rw [slot_congr (msgobjClose_tables ..), msgobjClose_nodeStatus, slot_setTable_self, slot_congr hadd.tables, hnodes]
    exact h.tracks.free_new (h.not_holds ha)

theorem Inv.msgCreateIPC (h : k.Inv) (ha : k.FreshNode a) (ho : k.objStatus o = .unused) (key : Int) :
    (k.msgCreateIPC pid key a o).DecidedBy (key < 0 ∨ openLimit ≤ (k.table pid).nextFd ∨ k.Room pid) := by
  unfold Ipc.msgCreateIPC
  by_cases hkey : key < 0
  · rw [if_pos hkey]
    exact h.decidedBy (.inl hkey)
  rw [if_neg hkey, or_iff_right hkey]
  obtain ⟨hadd, key', connections, hobj⟩ := h.msgConnect ha.1 ho key
  dsimp only
  revert hadd hobj
  generalize (k.msgConnect key o).1 = o'
  generalize (k.msgConnect key o).2 = k₁
  intro hadd hobj
  have htable : (k₁.newNode a ⟨0, o'⟩).table pid = k.table pid :=
    congrArg (fun t => (t pid).getD FdTable.empty) hadd.tables
  by_cases hlimit : openLimit ≤ (k.table pid).nextFd
  · have hobj' : (k₁.newNode a ⟨0, o'⟩).obj ((k₁.newNode a ⟨0, o'⟩).node a).priv = .msg key' connections := by
      simp [newNode, hobj]
    have hinv := h.closed ha hadd hobj' pid
    rw [openFor_of_limit_le (by rwa [htable]), vfsClose_msg (k := (k₁.newNode a ⟨0, o'⟩).setTable pid _) hobj']
    exact hinv.decidedBy (.inl hlimit)
  · rw [openFor_of_lt_limit (by rw [htable]; exact Nat.lt_of_not_le hlimit), or_iff_right hlimit]
    exact h.opened ha hadd

/-! ### `pipe_create` -/

theorem vfsClose_pipe (hobj : k.obj (k.node n).priv = .pipe creator readFd writeFd) :
    k.vfsClose n = k.pipeVfsClose n creator readFd writeFd := by
  unfold vfsClose
  rw [hobj]

theorem closedEnd_eq (inode creator : Nat) (readFd writeFd : Int) :
    ∃ readFd' writeFd', closedEnd inode creator readFd writeFd = .pipe creator readFd' writeFd' := by
  unfold closedEnd
  split
  · exact ⟨readFd, 0, rfl⟩
  · exact ⟨0, writeFd, rfl⟩

theorem pipeVfsClose_of_not_over (h : k.pipeOver (closedEnd (k.node n).inode creator readFd writeFd) = false) :
    k.pipeVfsClose n creator readFd writeFd =
      k.setObj (k.node n).priv (closedEnd (k.node n).inode creator readFd writeFd) :=
  if_neg (Bool.eq_false_iff.mp h)

theorem pipeOver_of_live (h : k.died creator = false) (readFd writeFd : Int) :
    k.pipeOver (.pipe creator readFd writeFd) = false := by
  simp [pipeOver, h]

theorem setObj_self (o : Nat) : k.setObj o (k.obj o) = k := by
  unfold setObj
  rw [update_eq_self]

theorem openFor_pipe (hobj : k.obj (k.node n).priv = .pipe creator readFd writeFd)
    (hlive : k.died creator = false) (pid : Nat) : ∃ readFd' writeFd', (k.openFor pid n).2 =
      (k.setTable pid ((k.table pid).openFor pid (some n) 2).2).setObj (k.node n).priv (.pipe creator readFd' writeFd') := by
  unfold openFor
  dsimp only
  split
  · obtain ⟨readFd', writeFd', hclosed⟩ := closedEnd_eq (k.node n).inode creator readFd writeFd
    refine ⟨readFd', writeFd', ?_⟩
    rw [vfsClose_pipe (k := k.setTable pid _) hobj, pipeVfsClose_of_not_over, ← hclosed]
    · rfl
    · exact (congrArg _ hclosed).trans (pipeOver_of_live hlive readFd' writeFd')
  · refine ⟨readFd, writeFd, ?_⟩
    rw [← hobj]
    exact (setObj_self _).symm

theorem table_setTable (pid : Nat) (t : FdTable) : (k.setTable pid t).table pid = t := by
  simp [table, setTable, FdTables.set]

theorem pipeCreate_eq (hlive : k.died pid = false) (hab : a ≠ b) (o : Nat) : ∃ readFd writeFd,
    k.pipeCreate pid a b o =
      ((((k.newNode a ⟨0, o⟩).newNode b ⟨1, o⟩).newObj o (.pipe pid readFd writeFd)).setTable pid
        ((k.table pid).openFor pid (some a) 2).2).setTable pid
        (((k.table pid).openFor pid (some a) 2).2.openFor pid (some b) 2).2 := by
  let k₁ := ((k.newNode a ⟨0, o⟩).newNode b ⟨1, o⟩).newObj o (.pipe pid 0 0)
  let t := ((k.table pid).openFor pid (some a) 2).2
  have hnodea : k₁.node a = ⟨0, o⟩ := by simp [k₁, newNode, newObj, hab]
  have hnodeb : k₁.node b = ⟨1, o⟩ := by simp [k₁, newNode, newObj]
  have hobja : k₁.obj (k₁.node a).priv = .pipe pid 0 0 := by
    rw [hnodea]
    exact update_self ..
  obtain ⟨readFd₁, writeFd₁, hopena⟩ := openFor_pipe hobja hlive pid
  rw [hnodea] at hopena
  let k₂ := (k₁.setTable pid t).setObj o (.pipe pid readFd₁ writeFd₁)
  have hnodeb' : k₂.node b = ⟨1, o⟩ := hnodeb
  have hobjb : k₂.obj (k₂.node b).priv = .pipe pid readFd₁ writeFd₁ := by
    rw [hnodeb']
    exact update_self ..
  obtain ⟨readFd₂, writeFd₂, hopenb⟩ := openFor_pipe hobjb hlive pid
  have htable : k₂.table pid = t := table_setTable pid t
  rw [hnodeb', htable] at hopenb
  refine ⟨(k₁.openFor pid a).1, (k₂.openFor pid b).1, ?_⟩
  change ((k₁.openFor pid a).2.openFor pid b).2.setObj o (.pipe pid _ ((k₁.openFor pid a).2.openFor pid b).1) = _
  rw [hopena]
  change (k₂.openFor pid b).2.setObj o (.pipe pid _ (k₂.openFor pid b).1) = _
  rw [hopenb]
  simp only [k₁, k₂, setObj, setTable, newObj, update_idem]
  rfl

/-- The cursor and the slot after it are inside the table, and no node has its only slots there. -/
def RoomForTwo (k : Ipc) (pid : Nat) : Prop :=
  (k.table pid).nextFd + 1 < slots ∧ ∀ n, k.nodeStatus n = .alive →
    ∃ i, i ≠ (pid, (k.table pid).nextFd) ∧ i ≠ (pid, (k.table pid).nextFd + 1) ∧ k.slot i = some n

theorem le_nextFd_openFor (t : FdTable) (pid n : Nat) : t.nextFd ≤ (t.openFor pid (some n) 2).2.nextFd := by
  unfold FdTable.openFor
  dsimp only
  split
  · exact Nat.le_refl _
  · exact Nat.le_succ _

theorem slot_open_two (pid a b : Nat) :
    ((k.setTable pid ((k.table pid).openFor pid (some a) 2).2).setTable pid
      (((k.table pid).openFor pid (some a) 2).2.openFor pid (some b) 2).2).slot =
    if (k.table pid).nextFd + 1 < slots then
      update (update k.slot (pid, (k.table pid).nextFd) (some a)) (pid, (k.table pid).nextFd + 1) (some b)
    else if (k.table pid).nextFd < slots then update k.slot (pid, (k.table pid).nextFd) (some a)
    else k.slot := by
  have hopen := slot_open (k := k.setTable pid ((k.table pid).openFor pid (some a) 2).2) pid b
  rw [table_setTable] at hopen
  rw [hopen, slot_open]
  by_cases hslots : (k.table pid).nextFd < slots
  · have hlimit : (k.table pid).nextFd < openLimit := Nat.lt_trans hslots (by decide)
    have hnext : ((k.table pid).openFor pid (some a) 2).2.nextFd = (k.table pid).nextFd + 1 := by
      rw [openFor_of_lt pid a 2 hlimit]
    rw [hnext, if_pos hslots]
  · have hnext : ¬((k.table pid).openFor pid (some a) 2).2.nextFd < slots :=
      fun hlt => hslots (Nat.lt_of_le_of_lt (le_nextFd_openFor _ pid a) hlt)
    rw [if_neg hnext, if_neg fun hlt => hslots (Nat.lt_of_succ_lt hlt)]

theorem Inv.pipeCreate (h : k.Inv) (hlive : k.died pid = false) (ha : k.FreshNode a) (hb : k.FreshNode b) (hab : a ≠ b)
    (ho : k.objStatus o = .unused) : (k.pipeCreate pid a b o).DecidedBy (k.RoomForTwo pid) := by
  obtain ⟨readFd, writeFd, heq⟩ := pipeCreate_eq hlive hab o
  have hmem : (k.pipeCreate pid a b o).Mem := by
    rw [heq]
    exact ((h.mem.newPipe ha.1 hb.1 hab ho pid readFd writeFd).setTable _ _).setTable _ _
  have hopened := slot_open_two (k := k) pid a b
  have hslot : (k.pipeCreate pid a b o).slot = _ := (slot_congr (by rw [heq]; rfl)).trans hopened
  have hnodes : (k.pipeCreate pid a b o).nodeStatus = update (update k.nodeStatus a .alive) b .alive := by
    rw [heq]
    rfl
  have hstrays : (k.pipeCreate pid a b o).strays = k.strays := by
    rw [heq]
    rfl
  have hnewb : (k.pipeCreate pid a b o).nodeStatus b = .alive := by rw [hnodes, update_self]
  have hnewa : (k.pipeCreate pid a b o).nodeStatus a = .alive := by
    rw [hnodes, update_of_ne hab, update_self]
  refine .inl ⟨hmem, ?_, ?_⟩
  · have hstatus (n : Nat) (hn : (k.pipeCreate pid a b o).nodeStatus n = .unused) : k.nodeStatus n = .unused := by
      rw [hnodes] at hn
      exact MemStatus.unused_of_update (MemStatus.unused_of_update hn nofun) nofun
    have hknown := known_open h.known pid hnewa hstatus
    have hknown' := known_open hknown pid hnewb fun _ => id
    rwa [table_setTable, slot_open_two, ← hslot, ← hstrays] at hknown'
  · by_cases htwo : (k.table pid).nextFd + 1 < slots
    · rw [hslot, if_pos htwo, hnodes, Tracks.put_two_new_iff h.tracks ha.1 hb.1 hab.symm (by simp)]
      exact ⟨fun hkept => ⟨htwo, hkept⟩, And.right⟩
    -- the writer has no slot
    have hlost : ¬Holds (k.pipeCreate pid a b o).slot b := by
      rw [hslot, if_neg htwo]
      split
      · rw [holds_update]
        rintro (heq | hbut)
        · exact hab (some.inj heq)
        · exact h.not_holds hb hbut.holds
      · exact h.not_holds hb
    exact iff_of_false (fun htracks => hlost (htracks.alive b hnewb)) fun hroom => htwo hroom.1

/-! ### `sys_dup`, `sys_fork` and the death of a process -/

/-- The call fails or writes behind the table, or the copied node was not freed, and no other one has its only slot where
    the copy goes. -/
def DupFits (k : Ipc) (pid oldfd newfd : Nat) (dupfd : Int) (junk : FileDescriptor) : Prop :=
  let t := k.table pid
  let copied := ((t.fds oldfd).getD junk).node
  (t.fds oldfd = none ∧ dupfd ≠ 1) ∨ slots ≤ t.dupTarget newfd dupfd ∨
    (k.nodeStatus copied ≠ .freed ∧
      ∀ n, k.nodeStatus n = .alive → copied = n ∨ HoldsBut k.slot (pid, t.dupTarget newfd dupfd) n)

theorem sysDup_slot (oldfd newfd : Nat) (dupfd : Int) (junk : FileDescriptor) :
    (k.sysDup pid oldfd newfd dupfd junk).slot =
      (k.setTable pid ((k.table pid).dup oldfd newfd dupfd junk).2).slot := rfl

theorem subset_strays (pid oldfd newfd : Nat) (dupfd : Int) (junk : FileDescriptor) :
    k.strays ⊆ (k.sysDup pid oldfd newfd dupfd junk).strays := by
  unfold sysDup
  dsimp only
  split
  · exact subset_cons_self _ _
  · exact List.Subset.refl _

theorem Inv.known_copy (h : k.Inv) (hold : oldfd < slots) (hfails : ¬((k.table pid).fds oldfd = none ∧ dupfd ≠ 1))
    (newfd : Nat) (junk : FileDescriptor)
    (hunused : k.nodeStatus (((k.table pid).fds oldfd).getD junk).node = .unused) :
    (((k.table pid).fds oldfd).getD junk).node ∈ (k.sysDup pid oldfd newfd dupfd junk).strays := by
  cases hfd : (k.table pid).fds oldfd with
  | none =>
    have hdup : dupfd = 1 := not_not.mp fun hne => hfails ⟨hfd, hne⟩
    unfold Ipc.sysDup
    dsimp only
    rw [if_pos ⟨hfd, hdup⟩]
    exact mem_cons_self
  | some d =>
    rw [hfd] at hunused
    have hslot : k.slot (pid, oldfd) = some d.node := by simp [slot, hold, hfd]
    exact subset_strays pid oldfd newfd dupfd junk (h.known d.node ⟨_, hslot⟩ hunused)

theorem Inv.sysDup (h : k.Inv) (hold : oldfd < slots) (hnew : newfd < slots) (dupfd : Int) (junk : FileDescriptor) :
    (k.sysDup pid oldfd newfd dupfd junk).DecidedBy (k.DupFits pid oldfd newfd dupfd junk) := by
  have hmem : (k.sysDup pid oldfd newfd dupfd junk).Mem := h.mem.processes _ _ _
  have hsub := subset_strays (k := k) pid oldfd newfd dupfd junk
  have hsame {q : Prop} (hslot : (k.sysDup pid oldfd newfd dupfd junk).slot = k.slot) (hq : q) :
      (k.sysDup pid oldfd newfd dupfd junk).DecidedBy q := by
    refine Inv.decidedBy ⟨hmem, ?_, ?_⟩ hq
    · rw [hslot]
      exact h.known.mono (fun _ => id) (fun _ => id) hsub
    · rw [hslot]
      exact h.tracks
  by_cases hfails : (k.table pid).fds oldfd = none ∧ dupfd ≠ 1
  · refine hsame ?_ (.inl hfails)
    rw [sysDup_slot, dup_of_fails hfails, slot_setTable_self]
  obtain ⟨m, hdup⟩ := dup_eq_put hfails hnew junk
  by_cases htarget : slots ≤ (k.table pid).dupTarget newfd dupfd
  · refine hsame ?_ (.inr (.inl htarget))
    rw [sysDup_slot, hdup, slot_put, if_neg (Nat.not_lt.mpr htarget)]
  have hslot : (k.sysDup pid oldfd newfd dupfd junk).slot = update k.slot
      (pid, (k.table pid).dupTarget newfd dupfd) (some (((k.table pid).fds oldfd).getD junk).node) := by
    rw [sysDup_slot, hdup, slot_put, if_pos (Nat.lt_of_not_le htarget)]
    rfl
  refine .inl ⟨hmem, ?_, ?_⟩
  · rw [hslot]
    refine h.known.update (fun n hn hunused => ?_) (fun _ => id) hsub
    cases hn
    exact h.known_copy hold hfails newfd junk hunused
  · rw [hslot, DupFits, or_iff_right hfails, or_iff_right htarget]
    exact h.tracks.put_iff _

theorem sysFork_holds (hchild : k.tables child = none) (n : Nat) :
    Holds (k.sysFork parent child).slot n ↔ Holds k.slot n := by
  have hfork (i : Nat × Nat) : (k.sysFork parent child).slot i = if i.1 = child then k.slot (parent, i.2) else k.slot i := by
    unfold sysFork
    rw [slot_setTable]
    split
    · unfold slot FdTable.fork
      dsimp only
      split
      · rw [Option.map_map]
        rfl
      · rfl
    · rfl
  have hempty (i : Nat) : k.slot (child, i) = none := by
    simp [slot, table, hchild, FdTable.empty]
  constructor
  · rintro ⟨i, hi⟩
    rw [hfork] at hi
    split at hi
    · exact ⟨_, hi⟩
    · exact ⟨i, hi⟩
  · rintro ⟨i, hi⟩
    have hne : i.1 ≠ child := by
      intro heq
      have hnone : k.slot i = none := by rw [← hempty i.2, ← heq]
      exact nomatch hnone.symm.trans hi
    exact ⟨i, by rwa [hfork, if_neg hne]⟩

theorem Inv.sysFork (h : k.Inv) (hchild : k.tables child = none) : (k.sysFork parent child).Inv where
  mem := h.mem.setTable _ _
  known := h.known.mono (fun n => (sysFork_holds hchild n).mp) (fun _ => id) (List.Subset.refl _)
  tracks := h.tracks.congr (sysFork_holds hchild)

theorem Inv.die (h : k.Inv) (pid : Nat) : Inv { k with died := update k.died pid true } where
  mem := h.mem.processes _ _ _
  known := h.known
  tracks := h.tracks

/-! ### Closing a descriptor -/

/-- What is freed with a descriptor must have no other one, and what is not freed must have another one. A pipe whose
    other end was closed before is freed if its creator died, with the node of the end that is still open. -/
def Closes (k : Ipc) (j : Nat × Nat) (ends : Nat → Bool) : Prop :=
  ∀ n ∈ k.slot j,
    match k.obj (k.node n).priv with
    | .pipe creator readFd writeFd =>
      HoldsBut k.slot j n ∧ ¬((if (k.node n).inode = 1 then readFd else writeFd) = 0 ∧ k.died creator = true)
    | .msg .. => ¬HoldsBut k.slot j n
    | .socket owner => if ends owner then ¬HoldsBut k.slot j n else HoldsBut k.slot j n

theorem pipeOver_closedEnd (inode creator : Nat) (readFd writeFd : Int) :
    k.pipeOver (closedEnd inode creator readFd writeFd) ↔
      (if inode = 1 then readFd else writeFd) = 0 ∧ k.died creator := by
  unfold closedEnd
  split
  · simp [pipeOver]
  · simp [pipeOver]

theorem Inv.cleared (h : k.Inv) (hfd : fd < slots) (htables : k'.tables = k.tables)
    (hstrays : k'.strays = k.strays) (hmem : k'.Mem) (hstatus : ∀ n, k'.nodeStatus n = .unused → k.nodeStatus n = .unused)
    (htracks : Tracks (update k.slot (pid, fd) none) k'.nodeStatus ↔ q) :
    (k'.setTable pid ((k.table pid).put fd none)).DecidedBy q := by
  have hslot : (k'.setTable pid ((k.table pid).put fd none)).slot = update k.slot (pid, fd) none :=
    (slot_congr (congrArg (FdTables.set · pid _) htables)).trans (slot_clear hfd)
  refine .inl ⟨hmem.setTable _ _, ?_, ?_⟩
  · rw [hslot]
    exact h.known.update nofun hstatus (hstrays ▸ List.Subset.refl _)
  · rw [hslot]
    exact htracks

theorem Inv.pipe_over_unsound (h : k.Inv) {j : Nat × Nat} (hj : k.slot j = some n) (hn : k.nodeStatus n = .alive)
    (hobj : k.obj (k.node n).priv = .pipe creator readFd writeFd)
    (hslot : k'.slot = update k.slot j none) (hnode : k'.node = k.node)
    (hnodes : k'.nodeStatus = update k.nodeStatus n .freed)
    (hobjs : k'.objStatus = update k.objStatus (k.node n).priv .freed) : ¬k'.Sound := by
  intro hsound
  have hfits := h.mem.owned.fits _ (h.mem.owned.alive_of_ref (link_of_alive hn))
  rw [hobj] at hfits
  obtain ⟨m, hm, hmn⟩ := hfits.exists_ne n
  obtain ⟨halive, hpriv⟩ := alive_of_link hm
  have hholds : Holds k'.slot m := by
    rw [hslot, holds_update]
    exact .inr ((h.tracks.alive m halive).but fun heq => hmn (some.inj (heq.symm.trans hj)))
  have hlink : k'.link m = some (k.node n).priv := by
    rw [link_of_alive (by rwa [hnodes, update_of_ne hmn]), hnode, hpriv]
  exact hsound.freed m _ hholds hlink (by rw [hobjs, update_self])

theorem Inv.closeFd (h : k.Inv) (hfd : fd < slots) (hnode : k.IsNode pid fd) (ends : Nat → Bool) :
    (k.closeFd pid fd ends).DecidedBy (k.Closes (pid, fd) ends) := by
  unfold Ipc.closeFd Closes
  cases hj : k.slot (pid, fd) with
  | none => exact h.decidedBy nofun
  | some n =>
    have hn : k.nodeStatus n = .alive := MemStatus.eq_alive (hnode n hj) fun hfreed => h.tracks.freed n hfreed ⟨_, hj⟩
    have hunused (m : Nat) (hm : update k.nodeStatus n .freed m = .unused) : k.nodeStatus m = .unused :=
      MemStatus.unused_of_update hm nofun
    simp only [mem_some_iff, forall_eq']
    unfold closeNode
    cases hobj : k.obj (k.node n).priv with
    | pipe creator readFd writeFd =>
      dsimp only
      rw [vfsClose_pipe hobj]
      cases hover : k.pipeOver (closedEnd (k.node n).inode creator readFd writeFd) with
      | false =>
        obtain ⟨readFd', writeFd', hclosed⟩ := closedEnd_eq (k.node n).inode creator readFd writeFd
        rw [pipeVfsClose_of_not_over hover, ← pipeOver_closedEnd, hover, and_iff_left nofun]
        refine h.cleared hfd rfl rfl ?_ (fun _ => id) (h.tracks.clear_iff hj hn)
        rw [hclosed]
        exact h.mem.setPipe hobj creator readFd' writeFd'
      | true =>
        refine .inr ⟨?_, fun hcloses => hcloses.2 ((pipeOver_closedEnd ..).mp hover)⟩
        have hclose : k.pipeVfsClose n creator readFd writeFd = ((k.setObj (k.node n).priv
            (closedEnd (k.node n).inode creator readFd writeFd)).freeObj (k.node n).priv).freeNode n := if_pos hover
        rw [hclose]
        exact h.pipe_over_unsound hj hn hobj (slot_clear hfd) rfl rfl rfl
    | msg key connections =>
      rw [vfsClose_msg hobj]
      refine h.cleared hfd (msgobjClose_tables ..) (msgobjClose_strays ..) (h.mem.msgobjClose hn hobj) (fun m hm => ?_) ?_
      · rw [msgobjClose_nodeStatus] at hm
        exact hunused m hm
      · rw [msgobjClose_nodeStatus]
        exact h.tracks.clear_free_iff hj
    | socket owner =>
      dsimp only
      cases hends : ends owner with
      | true =>
        exact h.cleared hfd rfl rfl (h.mem.destroySocket hn hobj) hunused (h.tracks.clear_free_iff hj)
      | false => exact h.cleared hfd rfl rfl h.mem (fun _ => id) (h.tracks.clear_iff hj hn)

def Keeps (k : Ipc) : Op → Prop
  | .pipe pid .. => k.RoomForTwo pid
  | .msg pid key .. => key < 0 ∨ openLimit ≤ (k.table pid).nextFd ∨ k.Room pid
  | .socket pid .. => k.Room pid
  | .dup pid oldfd newfd dupfd junk => k.DupFits pid oldfd newfd dupfd junk
  | .fork .. | .die _ => True
  | .close pid fd accessable => accessable = false ∨ k.Closes (pid, fd) fun _ => true
  | .reap pid fd => k.Closes (pid, fd) fun owner => owner = pid

theorem Inv.step (h : k.Inv) (hop : k.Allowed op) : (k.apply op).DecidedBy (k.Keeps op) := by
  cases op with
  | pipe pid a b o =>
    obtain ⟨hruns, ha, hb, hab, ho⟩ := hop
    exact h.pipeCreate hruns.2 ha hb hab ho
  | msg pid key a o =>
    obtain ⟨-, ha, ho⟩ := hop
    exact h.msgCreateIPC ha ho key
  | socket pid a o =>
    obtain ⟨-, ha, ho⟩ := hop
    exact h.sysSocket ha ho
  | dup pid oldfd newfd dupfd junk => exact h.sysDup oldfd.isLt newfd.isLt dupfd junk
  | fork parent child => exact (h.sysFork hop.2).decidedBy trivial
  | close pid fd accessable =>
    cases accessable with
    | false => exact h.decidedBy (.inl rfl)
    | true =>
      rw [Keeps, or_iff_right nofun]
      exact h.closeFd fd.isLt (hop.2 rfl) fun _ => true
  | die pid => exact (h.die pid).decidedBy trivial
  | reap pid fd => exact h.closeFd fd.isLt hop.2 fun owner => owner = pid

theorem exec_eq_some (h : k.exec op = some k') : k.Allowed op ∧ k' = k.apply op := by
  unfold exec at h
  split at h
  · exact ⟨‹_›, (some.inj h).symm⟩
  · cases h

/-- The objects behind the descriptors of a run are freed with the last descriptor, and once, only if every call finds
    what it needs, and then they are. -/
theorem ipc_objects_outlive_descriptors (pids : List Nat) (node : Nat → IpcNode) (obj : Nat → IpcObj) (ops : List Op) :
    Lts.Along exec (fun _ _ k => k.Sound) (start pids node obj) ops ↔
      Lts.Along exec (fun k op _ => k.Keeps op) (start pids node obj) ops := by
  refine Lts.along_iff Inv (inv_start pids node obj) (fun h hexec => ?_) (fun h hexec hkeeps => ?_) ops
  · obtain ⟨hop, rfl⟩ := exec_eq_some hexec
    exact (h.step hop).sound_iff
  · obtain ⟨hop, rfl⟩ := exec_eq_some hexec
    exact (h.step hop).inv hkeeps

/-- A process makes a pipe and forks, and the child closes its copy of the reader. -/
theorem ipc_objects_outlive_descriptors_pipe :
    Lts.Along exec (fun _ _ k => k.Sound) (start [1] (fun _ => ⟨0, 0⟩) fun _ => .socket 0)
      [.pipe 1 10 11 20, .fork 1 2, .close 2 ⟨0, by decide⟩ true] := by
  refine (ipc_objects_outlive_descriptors [1] _ _ _).mpr ?_
  rintro k ⟨rfl⟩
  refine ⟨⟨by decide, fun n hn => nomatch hn⟩, ?_⟩
  rintro k ⟨rfl⟩
  refine ⟨trivial, ?_⟩
  rintro k ⟨rfl⟩
  refine ⟨.inr fun n hn => ?_, trivial⟩
  obtain rfl : 10 = n := some.inj hn
  exact ⟨⟨(1, 0), by decide, by decide⟩, by decide⟩

/-- A process opens a message queue and forks; when it closes its descriptor, that of the child leads to freed memory. -/
theorem ipc_object_freed_early :
    ¬Lts.Along exec (fun _ _ k => k.Sound) (start [1] (fun _ => ⟨0, 0⟩) fun _ => .socket 0)
      [.msg 1 5 10 20, .fork 1 2, .close 1 ⟨0, by decide⟩ true] := by
  intro h
  obtain ⟨-, h⟩ := h _ rfl
  obtain ⟨-, h⟩ := h _ rfl
  obtain ⟨hsound, -⟩ := h _ rfl
  exact hsound.nodes.freed 10 (by decide) ⟨(2, 0), by decide⟩

end Ipc
end HelinKern
