import HelinKern.Msg
import HelinKern.Theorems.Fifo

/-! `msg_command` reports success for every send and every receive that it tries; when the result is right. -/

namespace HelinKern
open CountedRing QueueSize List Option

namespace MsgQueues

variable {s : MsgQueues} {c : MsgCall} {o : Nat} {data : Nat → BitVec 8}

@[simp] theorem put_data_self (s : MsgQueues) (o : Nat) (q : QueueSize) : (s.put o q).data o = q :=
  Function.update_self ..

theorem put_data_of_ne {o' : Nat} (h : o' ≠ o) (q : QueueSize) : (s.put o q).data o' = s.data o' :=
  Function.update_of_ne h ..

/-- `msg_command` hands the request on to the ring. -/
structure Tries (s : MsgQueues) (c : MsgCall) (o : Nat) (data : Nat → BitVec 8) : Prop where
  target : s.target c.caller c.obj.key = some o
  buffer : c.obj.buffer = some data
  pos : 0 < c.obj.reqSize
  cmd : c.cmd = 1 ∨ c.cmd = 2

theorem tries_of_valid (htarget : s.target c.caller c.obj.key = some o)
    (hvalid : ¬(c.cmd ≠ 99 ∧ (c.obj.reqSize ≤ 0 ∨ c.obj.buffer.isNone))) (hcmd : c.cmd = 1 ∨ c.cmd = 2) :
    ∃ o data, s.Tries c o data := by
  have hrequest : ¬(c.obj.reqSize ≤ 0 ∨ c.obj.buffer.isNone) := fun h => hvalid ⟨by omega, h⟩
  cases hbuffer : c.obj.buffer with
  | none => exact absurd (.inr (by rw [hbuffer]; rfl)) hrequest
  | some data => exact ⟨o, data, htarget, hbuffer, by omega, hcmd⟩

theorem msgCommand_of_not_tries (h : ¬∃ o data, s.Tries c o data) : s.msgCommand c = (-1, c.obj, s) := by
  unfold msgCommand
  cases htarget : s.target c.caller c.obj.key with
  | none => rfl
  | some o =>
    dsimp only
    split
    · rfl
    rename_i hvalid
    split
    next hcmd => exact absurd (tries_of_valid htarget hvalid (.inl hcmd)) h
    split
    next hcmd => exact absurd (tries_of_valid htarget hvalid (.inr hcmd)) h
    · rfl

theorem Tries.send (h : s.Tries c o data) (hcmd : c.cmd = 1) :
    s.msgCommand c = (0, c.obj, s.put o ((s.data o).enqueue (some data) c.obj.reqSize.toNat).2) := by
  unfold msgCommand
  have hpos := h.pos
  simp [h.target, h.buffer, hcmd, hpos]

theorem Tries.receive (h : s.Tries c o data) (hcmd : c.cmd = 2) :
    s.msgCommand c =
      let r := (s.data o).dequeue (some data) c.obj.reqSize.toNat
      (0, { c.obj with buffer := r.2.1 }, s.put o r.2.2) := by
  unfold msgCommand
  have hpos := h.pos
  simp [h.target, h.buffer, hcmd, hpos]

/-- All bytes of the request went from the buffer to the end of the ring, or from its front to the buffer, and the other
    rings are as they were. -/
def Transferred (s : MsgQueues) (c : MsgCall) (obj : UserMsgObj) (t : MsgQueues) : Prop :=
  ∃ o data, s.Tries c o data ∧ (∀ o', o' ≠ o → t.data o' = s.data o') ∧
    (c.cmd = 1 → (t.data o).toList = (s.data o).toList ++ c.obj.bytes) ∧
    (c.cmd = 2 → (s.data o).toList = obj.bytes ++ (t.data o).toList ∧ obj.bytes.length = c.obj.reqSize.toNat)

/-- The result is 0 for the transfers that were made, and else negative with all rings as they were. -/
def Reports (s : MsgQueues) (c : MsgCall) : Prop :=
  let (ret, obj, t) := s.msgCommand c
  (ret = 0 ↔ s.Transferred c obj t) ∧ (ret ≠ 0 → ret < 0 ∧ t.data = s.data)

/-- A ring that is to take or to give bytes has the room or the bytes. -/
def Fits (s : MsgQueues) (c : MsgCall) : Prop :=
  ∀ o, s.target c.caller c.obj.key = some o → c.obj.buffer.isSome →
    (c.cmd = 1 → c.obj.reqSize ≤ (s.data o).getFree) ∧ (c.cmd = 2 → c.obj.reqSize ≤ (s.data o).size)

theorem fits_of_not_tries (h : ¬∃ o data, s.Tries c o data) : s.Fits c := by
  intro o htarget hbuffer
  obtain ⟨data, hdata⟩ := isSome_iff_exists.mp hbuffer
  by_cases hpos : 0 < c.obj.reqSize
  · exact ⟨fun hcmd => absurd ⟨o, data, htarget, hdata, hpos, .inl hcmd⟩ h,
      fun hcmd => absurd ⟨o, data, htarget, hdata, hpos, .inr hcmd⟩ h⟩
  · exact ⟨fun _ => by omega, fun _ => by omega⟩

theorem Tries.fits_iff (h : s.Tries c o data) :
    s.Fits c ↔ (c.cmd = 1 → c.obj.reqSize.toNat ≤ (s.data o).getFree) ∧
      (c.cmd = 2 → c.obj.reqSize.toNat ≤ (s.data o).size) := by
  have hsome : c.obj.buffer.isSome := by rw [h.buffer]; rfl
  unfold Fits
  rw [h.target]
  simp [hsome]

theorem Tries.bytes (h : s.Tries c o data) : c.obj.bytes = elements data c.obj.reqSize.toNat := by
  unfold UserMsgObj.bytes
  rw [h.buffer]
  rfl

theorem Tries.unique (h : s.Tries c o data) {o' : Nat} {data' : Nat → BitVec 8} (h' : s.Tries c o' data') : o' = o :=
  some.inj (h'.target.symm.trans h.target)

end MsgQueues

namespace MsgRun
open MsgQueues

variable {s : MsgRun} {c : MsgCall} {o : Nat} {data : Nat → BitVec 8}

def Ok (s : MsgRun) : Prop := ∀ o, Carries (s.queues.data o) (s.sent o) (s.received o)

theorem Ok.start {q : MsgQueues} (h : ∀ o, ∃ l, Refines (q.data o) l) : Ok (start q) := by
  intro o
  obtain ⟨l, hl⟩ := h o
  exact ⟨l, hl, hl.holds.toList_eq⟩

theorem Ok.refused (h : Ok s) (hno : ¬∃ o data, s.queues.Tries c o data) : s.queues.Reports c ∧ Ok (s.exec c) := by
  have heq := msgCommand_of_not_tries hno
  constructor
  · unfold Reports
    rw [heq]
    refine ⟨iff_of_false (by decide) ?_, fun _ => ⟨by decide, rfl⟩⟩
    rintro ⟨o, data, htries, -⟩
    exact hno ⟨o, data, htries⟩
  · intro o
    unfold exec
    rw [heq]
    simpa using h o

section
variable (h : Ok s) (htries : s.queues.Tries c o data)
include h htries

/-- The call tries the ring `o`, reports success and leaves the ring `q`. -/
theorem Ok.settle {q : QueueSize} {obj : UserMsgObj} {fits : Prop} (heq : s.queues.msgCommand c = (0, obj, s.queues.put o q))
    (hfits : s.queues.Fits c ↔ fits)
    (hmoved : (c.cmd = 1 → q.toList = (s.queues.data o).toList ++ c.obj.bytes) ∧
      (c.cmd = 2 → (s.queues.data o).toList = obj.bytes ++ q.toList ∧ obj.bytes.length = c.obj.reqSize.toNat) ↔ fits)
    (hcarries : fits → Carries q (s.sent o ++ if c.cmd = 1 then c.obj.bytes else [])
      (s.received o ++ if c.cmd = 2 then obj.bytes else [])) :
    (s.queues.Reports c ↔ s.queues.Fits c) ∧ (s.queues.Fits c → Ok (s.exec c)) := by
  rw [hfits, ← hmoved] at *
  unfold Reports exec
  rw [heq]
  refine ⟨⟨fun hreports => ?_, fun hmoved => ⟨iff_of_true rfl ?_, fun hne => absurd rfl hne⟩⟩, fun hfits o' => ?_⟩
  · obtain ⟨o', data', htries', -, hmoved⟩ := hreports.1.mp rfl
    obtain rfl := htries.unique htries'
    rwa [put_data_self] at hmoved
  · refine ⟨o, data, htries, fun o' ho' => put_data_of_ne ho' _, ?_⟩
    rwa [put_data_self]
  · by_cases ho' : o' = o
    · subst ho'
      simpa [htries.target] using hcarries hfits
    · simpa [htries.target, Ne.symm ho', put_data_of_ne ho'] using h o'

theorem Ok.send (hcmd : c.cmd = 1) : (s.queues.Reports c ↔ s.queues.Fits c) ∧ (s.queues.Fits c → Ok (s.exec c)) := by
  have hpos := htries.pos
  obtain ⟨l, hl, hsent⟩ := h o
  refine h.settle htries (htries.send hcmd) htries.fits_iff ?_ ?_ <;>
    simp only [hcmd, true_implies, Int.reduceEq, false_implies, and_true, if_true, if_false, append_nil]
  · rw [htries.bytes]
    by_cases hfree : c.obj.reqSize.toNat ≤ (s.queues.data o).getFree
    · obtain ⟨-, hafter, -⟩ := hl.enqueue data (by omega) hfree
      exact iff_of_true (by rw [hafter.holds.toList_eq, hl.holds.toList_eq]) hfree
    refine iff_of_false (fun hbytes => ?_) hfree
    -- the ring is as it was, and the bytes are at least one
    rw [enqueue_of_not_fits (.inr (by omega))] at hbytes
    have hlength := congrArg List.length hbytes
    rw [length_append, length_elements] at hlength
    dsimp only at hlength
    omega
  · intro hfree
    rw [htries.bytes]
    exact ((h o).enqueue data (by omega) hfree).2.1

theorem Ok.receive (hcmd : c.cmd = 2) : (s.queues.Reports c ↔ s.queues.Fits c) ∧ (s.queues.Fits c → Ok (s.exec c)) := by
  have hpos := htries.pos
  obtain ⟨l, hl, hsent⟩ := h o
  refine h.settle htries (htries.receive hcmd) htries.fits_iff ?_ ?_ <;>
    simp only [hcmd, true_implies, Int.reduceEq, false_implies, true_and, if_true, if_false, append_nil]
  · by_cases hsize : c.obj.reqSize.toNat ≤ (s.queues.data o).size
    · obtain ⟨data', q', hdequeue, htaken, -, hafter, -⟩ := hl.dequeue data (by omega) hsize
      rw [hdequeue]
      refine iff_of_true ⟨?_, length_elements ..⟩ hsize
      rw [hafter.holds.toList_eq, hl.holds.toList_eq]
      exact (take_append_drop _ l).symm.trans (congrArg (· ++ l.drop _) htaken.symm)
    · refine iff_of_false (fun ⟨hbytes, hcount⟩ => ?_) hsize
      have hlength := congrArg List.length hbytes
      rw [dequeue_of_not_fits (.inr (by omega))] at hlength hcount
      rw [length_append, hcount] at hlength
      dsimp only at hlength
      omega
  · intro hsize
    obtain ⟨data', q', hdequeue, -, hcarries, -⟩ := (h o).dequeue data (by omega) hsize
    rw [hdequeue]
    exact hcarries

end

theorem Ok.exec (h : Ok s) (c : MsgCall) :
    (s.queues.Reports c ↔ s.queues.Fits c) ∧ (s.queues.Fits c → Ok (s.exec c)) := by
  by_cases htries : ∃ o data, s.queues.Tries c o data
  · obtain ⟨o, data, htries⟩ := htries
    rcases htries.cmd with hcmd | hcmd
    · exact h.send htries hcmd
    · exact h.receive htries hcmd
  · obtain ⟨hreports, hok⟩ := h.refused htries
    exact ⟨iff_of_true hreports (fits_of_not_tries htries), fun _ => hok⟩

theorem Ok.run (h : Ok s) (cs : List MsgCall)
    (hfits : Lts.Along (fun s c => some (s.exec c)) (fun s c _ => s.queues.Fits c) s cs) : Ok (cs.foldl MsgRun.exec s) := by
  induction cs generalizing s with
  | nil => exact h
  | cons c cs ih =>
    obtain ⟨hc, hcs⟩ := hfits _ rfl
    exact ih ((h.exec c).2 hc) hcs

/-- The results of all commands are right exactly if every request fits, and then the bytes received from an object are a
    prefix of those that lay in its ring and those sent to it, in this order. -/
theorem msg_reports_iff (q : MsgQueues) (hq : ∀ o, ∃ l, Refines (q.data o) l) (cs : List MsgCall) :
    (Lts.Along (fun s c => some (s.exec c)) (fun s c _ => s.queues.Reports c) (start q) cs ↔
      Lts.Along (fun s c => some (s.exec c)) (fun s c _ => s.queues.Fits c) (start q) cs) ∧
    (Lts.Along (fun s c => some (s.exec c)) (fun s c _ => s.queues.Fits c) (start q) cs →
      ∀ o, (cs.foldl exec (start q)).received o <+: (cs.foldl exec (start q)).sent o) := by
  refine ⟨Lts.along_iff Ok (.start hq) ?_ ?_ cs, fun hfits o => ((Ok.start hq).run cs hfits o).initial⟩
  · intro s c t hs ht
    exact (hs.exec c).1
  · intro s c t hs ht hfits
    cases ht
    exact (hs.exec c).2 hfits

def oneQueue : MsgQueues where
  table _ := ⟨fun fd => if fd = 0 then some ⟨1, 100, 0, 2⟩ else none, 1⟩
  node n := if n = 100 then some 0 else none
  data _ := QueueSize.create (fun _ => 0) (16 * 1024)

theorem oneQueue_refines (o : Nat) : ∃ l, Refines (oneQueue.data o) l := ⟨[], .create _ (by decide)⟩

/-- A send of two bytes, and a receive of the first one. -/
theorem msg_reports_iff_send_receive :
    let cs : List MsgCall := [⟨1, 1, 0, some fun _ => 97, 2⟩, ⟨1, 2, 0, some fun _ => 0, 1⟩]
    ∀ o, (cs.foldl exec (start oneQueue)).received o <+: (cs.foldl exec (start oneQueue)).sent o := by
  intro cs
  refine (msg_reports_iff oneQueue oneQueue_refines cs).2 ?_
  intro s hs
  cases hs
  refine ⟨(Tries.fits_iff ⟨rfl, rfl, by decide, .inl rfl⟩).mpr ⟨fun _ => by decide, fun h => absurd h (by decide)⟩, ?_⟩
  intro s hs
  cases hs
  refine ⟨(Tries.fits_iff ⟨rfl, rfl, by decide, .inr rfl⟩).mpr ⟨fun h => absurd h (by decide), fun _ => by decide⟩, ?_⟩
  trivial

/-- A receive from an empty ring reports success, and the byte that was in the buffer before counts as received. -/
theorem receive_from_empty :
    let c : MsgCall := ⟨1, 2, 0, some fun _ => 97, 1⟩
    (oneQueue.msgCommand c).1 = 0 ∧ ¬oneQueue.Reports c ∧
      ¬((start oneQueue).exec c).received 0 <+: ((start oneQueue).exec c).sent 0 := by
  refine ⟨rfl, fun h => ?_, by decide⟩
  obtain ⟨o, data, htries, -, -, hremoved⟩ := h.1.mp rfl
  obtain rfl : o = 0 := (some.inj htries.target).symm
  exact absurd (hremoved rfl).1 (by decide)

end MsgRun
end HelinKern
