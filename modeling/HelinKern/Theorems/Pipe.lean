import HelinKern.Pipe
import HelinKern.Theorems.Descriptors
import HelinKern.Theorems.Fifo

/-! A pipe delivers its bytes in order, where `sys_read` lets a caller read at all. -/

namespace HelinKern
open CountedRing QueueSize Function Option

namespace FdTable

structure Opens (t : FdTable) (fd : Int) (d : FileDescriptor) : Prop where
  nonneg : 0 ≤ fd
  lt : fd < slots
  slot : t.fds fd.toNat = some d
  offset_lt : d.offset < 2147483648
  le_offset : -2147483648 ≤ d.offset

variable {t : FdTable} {fd : Int} {d : FileDescriptor}

theorem Opens.advance (h : t.Opens fd d) (i : Nat) (d' : FileDescriptor) (n : Int) :
    ∃ d, (t.put i (some { d' with offset := wrapInt (d'.offset + n) })).Opens fd d := by
  by_cases heq : fd.toNat = i
  · subst heq
    exact ⟨_, h.nonneg, h.lt, update_self .., wrapInt_lt _, le_wrapInt _⟩
  · exact ⟨d, h.nonneg, h.lt, (update_of_ne heq _ _).trans h.slot, h.offset_lt, h.le_offset⟩

end FdTable

namespace VfsNode

structure Pipelike (node : VfsNode) : Prop where
  mask : node.mask = Pipe.mask
  flags : node.flags = 0
  size : node.size = 0
  mountFlags : node.mountFlags = 0

variable {node : VfsNode}

theorem Pipelike.hasPerm (h : node.Pipelike) {perm : Perm} (hperm : perm ≠ .exec) (gr us : Int) :
    node.hasPerm perm gr us := by
  unfold VfsNode.hasPerm
  rw [h.mask]
  cases perm with
  | read => simp [Perm.bits, Pipe.mask]
  | write => simp [Perm.bits, Pipe.mask]
  | exec => exact absurd rfl hperm

theorem Pipelike.readOnly (h : node.Pipelike) : node.readOnly = false := by
  unfold VfsNode.readOnly
  rw [h.mountFlags]
  rfl

end VfsNode

variable {accepted delivered : List (BitVec 8)} {size : Nat} {buff : Nat → BitVec 8}

namespace Pipe
open FdTable

variable {p : Pipe} {fd offset : Int} {d : FileDescriptor} {size : Nat} {buff : Nat → BitVec 8}

theorem sysWrite_of_closed (h : fd < 0 ∨ (slots : Int) ≤ fd) : p.sysWrite fd size buff = (-eBADF, p) := by
  unfold sysWrite
  rw [if_pos h]

theorem sysWrite_of_opens (hfd : p.table.Opens fd d) (hnode : (p.node d.node).Pipelike) :
    p.sysWrite fd size buff =
      ((p.vfsWrite size buff).1, (p.vfsWrite size buff).2.advance fd.toNat d (p.vfsWrite size buff).1) := by
  have hlow := hfd.nonneg
  have hhigh := hfd.lt
  unfold sysWrite
  rw [if_neg (by omega), hfd.slot]
  dsimp only
  rw [hnode.readOnly, hnode.hasPerm (by decide)]
  rfl

theorem sysRead_of_opens (hfd : p.table.Opens fd d) (hnode : (p.node d.node).Pipelike) (offset : Int) (size : Nat)
    (buff : Nat → BitVec 8) :
    p.sysRead fd offset size buff =
      if wrapInt (d.offset + offset) < 0 then
        (p.vfsRead (p.node d.node) size buff).map fun (how, buff, p) => (how, buff, p.advance fd.toNat d how)
      else some (0, buff, p) := by
  have hlow := hfd.nonneg
  have hhigh := hfd.lt
  unfold sysRead
  rw [if_neg (by omega), hfd.slot]
  dsimp only
  rw [hnode.hasPerm (by decide), hnode.size, if_neg (by decide)]
  by_cases hneg : wrapInt (d.offset + offset) < 0
  · -- the first test asks for less than the second: an offset that is positive stays so
    have hpos : ¬(offset = 0 ∧ 0 < d.offset) := by
      rintro ⟨rfl, hpos⟩
      have hnat := wrapInt_natCast (n := d.offset.toNat) (by have := hfd.offset_lt; omega)
      rw [Int.toNat_of_nonneg (by omega)] at hnat
      rw [add_zero] at hneg
      omega
    rw [if_neg hpos, if_neg (by omega), if_pos hneg]
  · rw [if_neg hneg, if_pos (by omega : (0 : Int) ≤ _), ite_self]

theorem vfsWrite_carries (h : Carries p.queue accepted delivered) (hcap : p.queue.capacity < 2147483648)
    (hsize : 0 < size) (buff : Nat → BitVec 8) :
    ∃ wr queue', p.vfsWrite size buff = (wr, { p with queue := queue' }) ∧
      Carries queue' (accepted ++ elements buff wr.toNat) delivered ∧ queue'.capacity = p.queue.capacity := by
  refine ⟨wrapInt (p.queue.enqueue (some buff) (min p.queue.getFree size)).1,
    (p.queue.enqueue (some buff) (min p.queue.getFree size)).2, rfl, ?_⟩
  by_cases hfree : p.queue.getFree = 0
  · rw [enqueue_of_not_fits (.inl (by omega))]
    have hnone : elements buff (wrapInt (failed : Nat)).toNat = [] := rfl
    rw [hnone, List.append_nil]
    exact ⟨h, rfl⟩
  · obtain ⟨hret, hcarries, hsame⟩ := h.enqueue buff (n := min p.queue.getFree size) (by omega) (by omega)
    rw [hret, wrapInt_natCast (by unfold getFree; omega)]
    exact ⟨hcarries, hsame⟩

theorem vfsRead_carries (h : Carries p.queue accepted delivered) (hcap : p.queue.size < 2147483648) (hsize : 0 < size)
    (hqueue : 0 < p.queue.size) (node : VfsNode) (buff : Nat → BitVec 8) :
    ∃ buff' queue', p.vfsRead node size buff =
        some (((min p.queue.size size : Nat) : Int), buff', { p with queue := queue' }) ∧
      elements buff' (min p.queue.size size) = (accepted.drop delivered.length).take (min p.queue.size size) ∧
      Carries queue' accepted (delivered ++ elements buff' (min p.queue.size size)) ∧
      queue'.capacity = p.queue.capacity := by
  obtain ⟨buff', queue', heq, htaken, hcarries, hsame⟩ :=
    h.dequeue buff (n := min p.queue.size size) (by omega) (by omega)
  refine ⟨buff', queue', ?_, htaken, hcarries, hsame⟩
  unfold vfsRead isEmpty
  rw [if_neg (by simp; omega)]
  dsimp only
  rw [heq]
  rw [wrapInt_natCast (by omega)]
  rfl

end Pipe

namespace PipeRun
open FdTable

variable {s t : PipeRun}

/-- Both numbers that `pipe_create` returned stand for descriptors, or the second one stands for none: then no byte ever
    reaches the queue. -/
structure Ok (s : PipeRun) : Prop where
  carries : Carries s.pipe.queue s.accepted s.delivered
  capacity : s.pipe.queue.capacity = 65536
  node : ∀ a, (s.pipe.node a).Pipelike
  ends : ((∃ d, s.pipe.table.Opens s.pipe.readFd d) ∧ ∃ d, s.pipe.table.Opens s.pipe.writeFd d) ∨
    ((s.pipe.writeFd < 0 ∨ (slots : Int) ≤ s.pipe.writeFd) ∧ s.pipe.queue.size = 0)

theorem Ok.size_le (h : Ok s) : s.pipe.queue.size ≤ 65536 := by
  obtain ⟨l, hrefines, -⟩ := h.carries
  rw [hrefines.holds.size, ← h.capacity]
  exact hrefines.holds.room

theorem create_ends (t : FdTable) (pid : Nat) (gid uid : Int) (reader writer : Nat) (buffer : Nat → BitVec 8) :
    let p := Pipe.create t pid gid uid reader writer buffer
    ((∃ d, p.table.Opens p.readFd d) ∧ ∃ d, p.table.Opens p.writeFd d) ∨ p.writeFd < 0 ∨ (slots : Int) ≤ p.writeFd := by
  intro p
  by_cases hfirst : openLimit ≤ t.nextFd
  · have h0 := openFor_of_limit pid reader 2 hfirst
    have hwrite : p.writeFd = ((t.openFor pid (some reader) 2).2.openFor pid (some writer) 2).1 := rfl
    rw [h0, openFor_of_limit pid writer 2 hfirst] at hwrite
    exact .inr (.inl (hwrite.trans_lt (by decide : -eNFILE < 0)))
  have h0 := openFor_of_lt (t := t) pid reader 2 (by omega)
  generalize ht : ({ t.put t.nextFd (some ⟨pid, reader, 0, 2⟩) with nextFd := t.nextFd + 1 } : FdTable) = t₁ at h0
  have hread : p.readFd = t.nextFd := congrArg Prod.fst h0
  have hsecond : (p.writeFd, p.table) = t₁.openFor pid (some writer) 2 := by
    show (t.openFor pid (some reader) 2).2.openFor pid (some writer) 2 = _
    rw [h0]
  have hnext : t₁.nextFd = t.nextFd + 1 := by rw [← ht]
  by_cases hlast : openLimit ≤ t₁.nextFd
  · rw [openFor_of_limit pid writer 2 hlast] at hsecond
    exact .inr (.inl ((congrArg Prod.fst hsecond).trans_lt (by decide : -eNFILE < 0)))
  rw [openFor_of_lt pid writer 2 (by omega)] at hsecond
  have hwrite : p.writeFd = t₁.nextFd := congrArg Prod.fst hsecond
  have htable : p.table = _ := congrArg Prod.snd hsecond
  have hzero : (0 : Int) < 2147483648 ∧ -2147483648 ≤ (0 : Int) := by decide
  by_cases hroom : t.nextFd + 1 < slots
  · refine .inl ⟨⟨⟨pid, reader, 0, 2⟩, ?_⟩, ⟨⟨pid, writer, 0, 2⟩, ?_⟩⟩
    · rw [hread, htable]
      refine ⟨by omega, by omega, ?_, hzero.1, hzero.2⟩
      refine (update_of_ne (by simp [hnext]) _ _).trans ?_
      rw [← ht]
      exact update_self ..
    · rw [hwrite, htable]
      exact ⟨by omega, by omega, update_self .., hzero.1, hzero.2⟩
  · exact .inr (.inr (by omega))

theorem Ok.create (t : FdTable) (pid : Nat) (gid uid : Int) (reader writer : Nat) (buffer : Nat → BitVec 8) :
    Ok (start (Pipe.create t pid gid uid reader writer buffer)) where
  carries := .create buffer (by decide)
  capacity := rfl
  node _ := ⟨rfl, rfl, rfl, rfl⟩
  ends := (create_ends t pid gid uid reader writer buffer).imp id fun h => ⟨h, rfl⟩

theorem Ok.write (h : Ok s) (hs : s.exec (.write size buff) = some t) : Ok t := by
  unfold exec at hs
  dsimp only at hs
  split at hs
  · cases hs
  rename_i hsize
  cases hs
  obtain ⟨⟨dr, hr⟩, dw, hw⟩ | ⟨hclosed, hempty⟩ := h.ends
  · rw [Pipe.sysWrite_of_opens hw (h.node _)]
    obtain ⟨wr, queue', heq, hcarries, hcap⟩ := Pipe.vfsWrite_carries h.carries
      (by rw [h.capacity]; omega) (Nat.pos_of_ne_zero hsize) buff
    rw [heq]
    exact ⟨hcarries, hcap.trans h.capacity, h.node, .inl ⟨hr.advance .., hw.advance ..⟩⟩
  · rw [Pipe.sysWrite_of_closed hclosed]
    have hnone : elements buff (-eBADF).toNat = [] := rfl
    refine ⟨?_, h.capacity, h.node, .inr ⟨hclosed, hempty⟩⟩
    rw [hnone, List.append_nil]
    exact h.carries

/-- The position of a read, as `sys_read` computes it, lies before the end of the node. -/
def Before (s : PipeRun) (offset : Int) : Prop :=
  ∀ d, s.pipe.table.fds s.pipe.readFd.toNat = some d → wrapInt (d.offset + offset) < 0

/-- What a read of `size` bytes should do while there are bytes in the queue. -/
def Delivers (s : PipeRun) (offset : Int) (size : Nat) (buff : Nat → BitVec 8) (t : PipeRun) : Prop :=
  let k := min s.pipe.queue.size size
  ∃ buff', s.pipe.sysRead s.pipe.readFd offset size buff = some ((k : Int), buff', t.pipe) ∧
    elements buff' k = (s.accepted.drop s.delivered.length).take k ∧ t.accepted = s.accepted ∧
    t.delivered = s.delivered ++ elements buff' k

theorem Ok.read {offset : Int} (h : Ok s) (hs : s.exec (.read offset size buff) = some t) :
    Ok t ∧ (Delivers s offset size buff t ↔ s.Before offset) := by
  unfold exec at hs
  dsimp only at hs
  split at hs
  · cases hs
  rename_i henabled
  have hsize : 0 < size := by omega
  have hqueue : 0 < s.pipe.queue.size := by
    simp [isEmpty] at henabled
    omega
  have hbound := h.size_le
  -- a queue that is not empty was written to, so both ends are open
  obtain ⟨⟨d, hd⟩, dw, hw⟩ := h.ends.resolve_right fun hclosed => by omega
  have hread := Pipe.sysRead_of_opens hd (h.node d.node) offset size buff
  have hbefore : s.Before offset ↔ wrapInt (d.offset + offset) < 0 := by
    unfold Before
    rw [hd.slot]
    simp
  by_cases hneg : wrapInt (d.offset + offset) < 0
  · obtain ⟨buff', queue', heq, htaken, hcarries, hcap⟩ :=
      Pipe.vfsRead_carries h.carries (by omega) hsize hqueue (s.pipe.node d.node) buff
    rw [if_pos hneg, heq] at hread
    rw [hread] at hs
    cases hs
    refine ⟨⟨hcarries, hcap.trans h.capacity, h.node, .inl ⟨hd.advance .., hw.advance ..⟩⟩, iff_of_true ?_ (hbefore.mpr hneg)⟩
    exact ⟨buff', hread, htaken, rfl, rfl⟩
  · rw [if_neg hneg] at hread
    rw [hread] at hs
    cases hs
    refine ⟨?_, iff_of_false ?_ (mt hbefore.mp hneg)⟩
    · have hnone : elements buff (Int.toNat 0) = [] := rfl
      refine ⟨?_, h.capacity, h.node, .inl ⟨⟨d, hd⟩, dw, hw⟩⟩
      dsimp only
      rw [hnone, List.append_nil]
      exact h.carries
    · rintro ⟨buff', heq, -⟩
      rw [hread] at heq
      have := congrArg (Option.map Prod.fst) heq
      simp at this
      omega

/-- After every call the bytes read, then those in the queue, are the bytes accepted; a read delivers what it should. -/
def Sound (s : PipeRun) (op : Op) (t : PipeRun) : Prop :=
  Carries t.pipe.queue t.accepted t.delivered ∧ t.delivered <+: t.accepted ∧
    match op with
    | .write .. => True
    | .read offset size buff => Delivers s offset size buff t

/-- Every read lies before the end of the node. -/
def InFile (s : PipeRun) : Op → Prop
  | .write .. => True
  | .read offset .. => s.Before offset

theorem Ok.exec {op : Op} (h : Ok s) (hs : s.exec op = some t) : Ok t ∧ (Sound s op t ↔ s.InFile op) := by
  cases op with
  | write size buff =>
    have hok := h.write hs
    exact ⟨hok, iff_of_true ⟨hok.carries, hok.carries.initial, trivial⟩ trivial⟩
  | read offset size buff =>
    obtain ⟨hok, hiff⟩ := h.read hs
    exact ⟨hok, (and_iff_right hok.carries).trans ((and_iff_right hok.carries.initial).trans hiff)⟩

/-- The calls on a new pipe deliver the bytes in order, each read as many as it should, only if every read lies before
    the end of the node, and then they do. -/
theorem pipe_fifo (t : FdTable) (pid : Nat) (gid uid : Int) (reader writer : Nat) (buffer : Nat → BitVec 8)
    (ops : List Op) :
    let s := start (Pipe.create t pid gid uid reader writer buffer)
    Lts.Along PipeRun.exec Sound s ops ↔ Lts.Along PipeRun.exec (fun s op _ => s.InFile op) s ops :=
  Lts.along_iff Ok (.create t pid gid uid reader writer buffer) (fun h hs => (h.exec hs).2) (fun h hs _ => (h.exec hs).1)
    ops

/-- Two writes, and a read that crosses from the first to the second. -/
theorem pipe_fifo_two_writes :
    Lts.Along PipeRun.exec Sound (start (Pipe.create .empty 1 0 0 100 101 fun _ => 0))
      [.write 1 (fun _ => 97), .write 1 (fun _ => 98), .read (-1) 2 fun _ => 0] := by
  refine (pipe_fifo .empty 1 0 0 100 101 (fun _ => 0) _).mpr ?_
  intro s₁ h₁
  refine ⟨trivial, ?_⟩
  intro s₂ h₂
  refine ⟨trivial, ?_⟩
  intro s₃ _
  refine ⟨?_, trivial⟩
  intro d hd
  have hslot : (((start (Pipe.create .empty 1 0 0 100 101 fun _ => 0)).exec (.write 1 fun _ => 97)).bind fun s =>
      (s.exec (.write 1 fun _ => 98)).map fun s => s.pipe.table.fds s.pipe.readFd.toNat) = some (some ⟨1, 100, 0, 2⟩) := by
    decide +kernel
  rw [h₁, bind_some, h₂, map_some, hd] at hslot
  cases hslot
  decide

/-- One byte is written and read with the argument 0: `sys_read` returns 0. -/
theorem pipe_read_returns_zero :
    ¬Lts.Along PipeRun.exec Sound (start (Pipe.create .empty 1 0 0 100 101 fun _ => 0))
      [.write 1 (fun _ => 97), .read 0 1 fun _ => 0] := by
  intro h
  have hread : (((start (Pipe.create .empty 1 0 0 100 101 fun _ => 0)).exec (.write 1 fun _ => 97)).bind fun s =>
      (s.exec (.read 0 1 fun _ => 0)).bind fun _ =>
        (s.pipe.sysRead s.pipe.readFd 0 1 fun _ => 0).map fun r => (r.1, s.pipe.queue.size)) = some (0, 1) := by
    decide +kernel
  obtain ⟨s, hs, hread⟩ := bind_eq_some_iff.mp hread
  obtain ⟨t, ht, hread⟩ := bind_eq_some_iff.mp hread
  obtain ⟨⟨-, -, buff, heq, -⟩, -⟩ := (h s hs).2 t ht
  rw [heq, map_some, some.injEq, Prod.mk.injEq] at hread
  omega

end PipeRun
end HelinKern
