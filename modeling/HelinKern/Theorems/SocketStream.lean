import HelinKern.Theorems.Fifo
import HelinKern.Theorems.Socket

/-! The traffic of two connected sockets: two streams of bytes, one in the ring of each, which do not touch one another. -/

namespace HelinKern
open CountedRing QueueSize Function List Option Sockets

namespace QueueSize

variable {q q' : QueueSize} {l : List (BitVec 8)} {buf buf' : Nat → BitVec 8} {len : Nat} {n : Int} {discon nonBlock : Bool}

def send (q : QueueSize) (nonBlock : Bool) (buf : Nat → BitVec 8) (len : Nat) : Option (Int × QueueSize) :=
  if 0 < q.getFree then
    let (b, q) := q.enqueue (some buf) (min q.getFree len)
    some (wrapInt b, q)
  else if nonBlock then some (0, q)
  else none

def recv (q : QueueSize) (discon nonBlock : Bool) (buf : Nat → BitVec 8) (len : Nat) :
    Option (Int × (Nat → BitVec 8) × QueueSize) :=
  if discon then some (0, buf, q)
  else if 0 < q.size then
    let (readed, data, q) := q.dequeue (some buf) (min q.size len)
    some (wrapInt readed, data.getD buf, q)
  else if nonBlock then some (0, buf, q)
  else none

theorem Refines.send (h : Refines q l) (hcap : q.capacity = 512000) (hlen : len ≠ 0)
    (hsend : q.send nonBlock buf len = some (n, q')) :
    ∃ m : Nat, n = m ∧ Refines q' (l ++ elements buf m) ∧ q'.capacity = 512000 := by
  unfold QueueSize.send at hsend
  split at hsend
  next hfree =>
    obtain ⟨hret, hafter, hsame⟩ := h.enqueue buf (n := min q.getFree len) (by omega) (by omega)
    dsimp only at hsend
    rw [hret, wrapInt_natCast (by have := h.getFree; omega)] at hsend
    cases hsend
    exact ⟨_, rfl, hafter, hsame.trans hcap⟩
  · split at hsend
    · cases hsend
      refine ⟨0, rfl, ?_, hcap⟩
      rw [show elements buf 0 = [] from rfl, append_nil]
      exact h
    · cases hsend

theorem Refines.recv (h : Refines q l) (hcap : q.capacity = 512000) (hlen : len ≠ 0)
    (hrecv : q.recv discon nonBlock buf len = some (n, buf', q')) :
    ∃ (m : Nat) (l' : List (BitVec 8)), n = m ∧ l = elements buf' m ++ l' ∧ Refines q' l' ∧ q'.capacity = 512000 := by
  have hsize := h.holds.size
  have hroom := h.holds.room
  unfold QueueSize.recv at hrecv
  split at hrecv
  · cases hrecv
    exact ⟨0, l, rfl, rfl, h, hcap⟩
  split at hrecv
  · obtain ⟨data, q'', heq, htaken, -, hafter, hsame⟩ := h.dequeue buf (n := min q.size len) (by omega) (by omega)
    dsimp only at hrecv
    rw [heq] at hrecv
    rw [wrapInt_natCast (by omega)] at hrecv
    cases hrecv
    refine ⟨_, _, rfl, ?_, hafter, hsame.trans hcap⟩
    rw [getD_some, htaken, take_append_drop]
  · split at hrecv
    · cases hrecv
      exact ⟨0, l, rfl, rfl, h, hcap⟩
    · cases hrecv

end QueueSize

namespace Sockets

variable {k : Sockets} {s c : Nat} {q : QueueSize} {len : Nat}

theorem setSended_self (h : (k.sock s).sended = some q) : k.setSended s q = k := by
  unfold setSended modify
  rw [← h, update_eq_self]

@[simp] theorem setSended_sended (k : Sockets) (s : Nat) (q : QueueSize) : ((k.setSended s q).sock s).sended = some q := by
  unfold setSended
  rw [modify_sock_self]

theorem setSended_sock_of_ne (h : c ≠ s) : (k.setSended s q).sock c = k.sock c := modify_sock_of_ne h _

theorem setSended_field {β : Type} (g : Socket → β) (h : ∀ x o, g { x with sended := o } = g x) (c : Nat) :
    g ((k.setSended s q).sock c) = g (k.sock c) :=
  modify_field g (h _ _) c

theorem unixSend_eq (hsended : (k.sock s).sended = some q) (buf : Nat → BitVec 8) (hlen : len ≠ 0) :
    k.unixSend s buf len = (q.send (k.sock s).nonBlock buf len).map fun p => (p.1, k.setSended s p.2) := by
  unfold unixSend QueueSize.send
  rw [if_neg hlen, hsended]
  dsimp only
  split
  · rw [map_some]
  · split
    · rw [map_some, setSended_self hsended]
    · rfl

theorem unixRecv_eq (hconn : (k.sock s).conn = some c) (hsended : (k.sock c).sended = some q) (buf : Nat → BitVec 8)
    (len : Nat) : k.unixRecv s buf len = (q.recv (k.sock s).discon (k.sock s).nonBlock buf len).map
      fun p => (p.1, p.2.1, k.setSended c p.2.2) := by
  unfold unixRecv QueueSize.recv
  split
  · rw [map_some, setSended_self hsended]
  rw [hconn]
  dsimp only
  rw [hsended]
  dsimp only
  split
  · rw [map_some]
  · split
    · rw [map_some, setSended_self hsended]
    · rfl

end Sockets

variable {q : QueueSize} {len : Nat} {buf : Nat → BitVec 8} {u : SocketRun}

namespace SocketRun

variable {r t : SocketRun} {a b s c : Nat} {op : Op}

/-- Each is the peer of the other, and both are alive. -/
structure Linked (k : Sockets) (a b : Nat) : Prop where
  ne : a ≠ b
  live_left : k.live a = true
  live_right : k.live b = true
  conn_left : (k.sock a).conn = some b
  conn_right : (k.sock b).conn = some a

/-- The ring of `a` stands between what the sends on `a` accepted and what was received on `b`. -/
def Carried (r : SocketRun) (a b : Nat) : Prop :=
  ∃ q, (r.sockets.sock a).sended = some q ∧ Carries q (r.accepted a) (r.received b) ∧ q.capacity = 512000

structure Connected (r : SocketRun) (a b : Nat) : Prop where
  linked : Linked r.sockets a b
  forth : Carried r a b
  back : Carried r b a

theorem Connected.symm (h : r.Connected a b) : r.Connected b a :=
  ⟨⟨h.linked.ne.symm, h.linked.live_right, h.linked.live_left, h.linked.conn_right, h.linked.conn_left⟩, h.back, h.forth⟩

theorem Carried.initial (h : r.Carried a b) : r.received b <+: r.accepted a := by
  obtain ⟨q, -, hcarries, -⟩ := h
  exact hcarries.initial

/-- The state after a call that put `bytes` into the ring of `s` and left the ring `q` there. -/
def sent (r : SocketRun) (s : Nat) (q : QueueSize) (bytes : List (BitVec 8)) : SocketRun where
  sockets := r.sockets.setSended s q
  accepted := update r.accepted s (r.accepted s ++ bytes)
  received := r.received

/-- The state after a call on `s` that took `bytes` from the ring of `c` and left the ring `q` there. -/
def taken (r : SocketRun) (s c : Nat) (q : QueueSize) (bytes : List (BitVec 8)) : SocketRun where
  sockets := r.sockets.setSended c q
  accepted := r.accepted
  received := update r.received s (r.received s ++ bytes)

/-- The return value is the number of bytes that went into the ring of the socket, or came out of that of its peer. -/
def Moves (r : SocketRun) (t : SocketRun) : Op → Prop
  | .send s buf len => ∃ (n : Nat) (q q' : QueueSize) (l : List (BitVec 8)),
      r.sockets.unixSend s buf len = some ((n : Int), t.sockets) ∧ (r.sockets.sock s).sended = some q ∧ Refines q l ∧
        q'.capacity = 512000 ∧ Refines q' (l ++ elements buf n) ∧ t = r.sent s q' (elements buf n)
  | .recv s buf len => ∃ (n c : Nat) (buf' : Nat → BitVec 8) (q q' : QueueSize) (l : List (BitVec 8)),
      r.sockets.unixRecv s buf len = some ((n : Int), buf', t.sockets) ∧ (r.sockets.sock s).conn = some c ∧
        (r.sockets.sock c).sended = some q ∧ Refines q (elements buf' n ++ l) ∧ q'.capacity = 512000 ∧ Refines q' l ∧
        t = r.taken s c q' (elements buf' n)

theorem exec_send (hsended : (r.sockets.sock s).sended = some q) (buf : Nat → BitVec 8) (hlen : len ≠ 0) :
    r.exec (.send s buf len) =
      (q.send (r.sockets.sock s).nonBlock buf len).map fun p => r.sent s p.2 (elements buf p.1.toNat) := by
  refine (if_neg hlen).trans ?_
  rw [unixSend_eq hsended buf hlen, Option.map_map]
  rfl

theorem exec_recv (hconn : (r.sockets.sock s).conn = some c) (hsended : (r.sockets.sock c).sended = some q)
    (buf : Nat → BitVec 8) (hlen : len ≠ 0) :
    r.exec (.recv s buf len) = (q.recv (r.sockets.sock s).discon (r.sockets.sock s).nonBlock buf len).map
      fun p => r.taken s c p.2.2 (elements p.2.1 p.1.toNat) := by
  refine (if_neg hlen).trans ?_
  rw [unixRecv_eq hconn hsended buf, Option.map_map]
  rfl

theorem len_ne_zero_of_exec (ht : r.exec (.send s buf len) = some t ∨ r.exec (.recv s buf len) = some t) : len ≠ 0 := by
  rintro rfl
  rcases ht with ht | ht <;> cases ht

theorem Carried.send (h : r.Carried s c) (ht : r.exec (.send s buf len) = some t) :
    Moves r t (.send s buf len) ∧ t.Carried s c := by
  have hlen := len_ne_zero_of_exec (.inl ht)
  obtain ⟨q, hsended, ⟨l, hrefines, hhistory⟩, hcap⟩ := h
  rw [exec_send hsended buf hlen] at ht
  obtain ⟨⟨n, q'⟩, hsend, rfl⟩ := map_eq_some_iff.mp ht
  obtain ⟨m, rfl, hafter, hcap'⟩ := hrefines.send hcap hlen hsend
  refine ⟨⟨m, q, q', l, ?_, hsended, hrefines, hcap', hafter, rfl⟩, q', setSended_sended .., ⟨_, hafter, ?_⟩, hcap'⟩
  · rw [unixSend_eq hsended buf hlen, hsend]
    rfl
  · refine (update_self ..).trans ?_
    rw [hhistory, append_assoc]
    rfl

theorem Carried.recv (h : r.Carried c s) (hconn : (r.sockets.sock s).conn = some c)
    (ht : r.exec (.recv s buf len) = some t) : Moves r t (.recv s buf len) ∧ t.Carried c s := by
  have hlen := len_ne_zero_of_exec (.inr ht)
  obtain ⟨q, hsended, ⟨l, hrefines, hhistory⟩, hcap⟩ := h
  rw [exec_recv hconn hsended buf hlen] at ht
  obtain ⟨⟨n, buf', q'⟩, hrecv, rfl⟩ := map_eq_some_iff.mp ht
  obtain ⟨m, l', rfl, rfl, hafter, hcap'⟩ := hrefines.recv hcap hlen hrecv
  refine ⟨⟨m, c, buf', q, q', l', ?_, hconn, hsended, hrefines, hcap', hafter, rfl⟩, q', setSended_sended ..,
    ⟨_, hafter, ?_⟩, hcap'⟩
  · rw [unixRecv_eq hconn hsended buf, hrecv]
    rfl
  · refine hhistory.trans ?_
    rw [← append_assoc]
    exact congrArg (· ++ l') (update_self s (r.received s ++ elements buf' m) r.received).symm

theorem Carried.of_other {bytes : List (BitVec 8)} (h : r.Carried a b) (ha : a ≠ c) :
    (r.sent c q bytes).Carried a b ∧ (b ≠ s → (r.taken s c q bytes).Carried a b) := by
  obtain ⟨q', hsended, hcarries, hcap⟩ := h
  have hring : ((r.sockets.setSended c q).sock a).sended = some q' := by rwa [setSended_sock_of_ne ha]
  refine ⟨⟨q', hring, ?_, hcap⟩, fun hb => ⟨q', hring, ?_, hcap⟩⟩
  · show Carries q' (update r.accepted c _ a) _
    rwa [update_of_ne ha]
  · show Carries q' _ (update r.received s _ b)
    rwa [update_of_ne hb]

theorem Linked.setSended {k : Sockets} (h : Linked k a b) (s : Nat) (q : QueueSize) : Linked (k.setSended s q) a b :=
  { h with
    conn_left := (setSended_field Socket.conn (fun _ _ => rfl) a).trans h.conn_left
    conn_right := (setSended_field Socket.conn (fun _ _ => rfl) b).trans h.conn_right }

theorem Connected.exec (h : r.Connected a b) (hop : op.socket = a) (ht : r.exec op = some t) :
    Moves r t op ∧ t.Connected a b := by
  cases op with
  | send s buf len =>
    obtain rfl : s = a := hop
    obtain ⟨hmoves, hcarried⟩ := h.forth.send ht
    refine ⟨hmoves, ?_⟩
    obtain ⟨n, q, q', l, -, -, -, -, -, rfl⟩ := hmoves
    exact ⟨h.linked.setSended .., hcarried, (h.back.of_other (s := s) h.linked.ne.symm).1⟩
  | recv s buf len =>
    obtain rfl : s = a := hop
    obtain ⟨hmoves, hcarried⟩ := h.back.recv h.linked.conn_left ht
    refine ⟨hmoves, ?_⟩
    obtain ⟨n, c, buf', q, q', l, -, hconn, -, -, -, -, rfl⟩ := hmoves
    obtain rfl : b = c := by simpa [h.linked.conn_left] using hconn
    exact ⟨h.linked.setSended .., (h.forth.of_other h.linked.ne).2 h.linked.ne.symm, hcarried⟩

theorem Connected.step (h : r.Connected a b) (ht : Step a b r op t) : Moves r t op ∧ t.Connected a b := by
  obtain ⟨hop | hop, ht⟩ := ht
  · exact h.exec hop ht
  · exact (h.symm.exec hop ht).imp id Connected.symm

def Op.toward (a b : Nat) : Op → Bool
  | .send s _ _ => s = a
  | .recv s _ _ => s = b

def channel (r : SocketRun) (a b : Nat) :
    Option QueueSize × List (BitVec 8) × List (BitVec 8) × Bool × Bool × Bool :=
  ((r.sockets.sock a).sended, r.accepted a, r.received b, (r.sockets.sock a).nonBlock, (r.sockets.sock b).nonBlock,
    (r.sockets.sock b).discon)

@[simp] theorem setSended_nonBlock (k : Sockets) (s c : Nat) (q : QueueSize) :
    ((k.setSended s q).sock c).nonBlock = (k.sock c).nonBlock :=
  setSended_field Socket.nonBlock (fun _ _ => rfl) c

@[simp] theorem setSended_discon (k : Sockets) (s c : Nat) (q : QueueSize) :
    ((k.setSended s q).sock c).discon = (k.sock c).discon :=
  setSended_field Socket.discon (fun _ _ => rfl) c

theorem channel_sent (r : SocketRun) (a b : Nat) (q : QueueSize) (bytes : List (BitVec 8)) :
    (r.sent a q bytes).channel a b = (some q, r.accepted a ++ bytes, (r.channel a b).2.2) := by
  simp [channel, sent]

theorem channel_taken (r : SocketRun) (a b : Nat) (q : QueueSize) (bytes : List (BitVec 8)) :
    (r.taken b a q bytes).channel a b = (some q, r.accepted a, r.received b ++ bytes, (r.channel a b).2.2.2) := by
  simp [channel, taken]

theorem channel_sent_of_ne (r : SocketRun) (h : a ≠ b) (q : QueueSize) (bytes : List (BitVec 8)) :
    (r.sent b q bytes).channel a b = r.channel a b := by
  simp [channel, sent, setSended_sock_of_ne h, h]

theorem channel_taken_of_ne (r : SocketRun) (h : a ≠ b) (q : QueueSize) (bytes : List (BitVec 8)) :
    (r.taken a b q bytes).channel a b = r.channel a b := by
  simp [channel, taken, setSended_sock_of_ne h, h.symm]

structure Same (a b : Nat) (r u : SocketRun) : Prop where
  left : r.Connected a b
  right : u.Connected a b
  channel : r.channel a b = u.channel a b

theorem Same.keep (h : Same a b r u) (hop : op.toward a b) (ht : Step a b r op t) :
    ∃ v, Step a b u op v ∧ Same a b t v := by
  have hstep := ht
  obtain ⟨hsocket, ht⟩ := ht
  obtain ⟨q, hr, -⟩ := h.left.forth
  have hu : (u.sockets.sock a).sended = some q := (congrArg Prod.fst h.channel).symm.trans hr
  have hnext {v : SocketRun} (hv : u.exec op = some v) (hchannel : t.channel a b = v.channel a b) :
      ∃ v, Step a b u op v ∧ Same a b t v :=
    ⟨v, ⟨hsocket, hv⟩, (h.left.step hstep).2, (h.right.step ⟨hsocket, hv⟩).2, hchannel⟩
  have hfields := h.channel
  unfold SocketRun.channel at hfields
  simp only [Prod.mk.injEq] at hfields
  obtain ⟨-, haccepted, hreceived, hnbLeft, hnbRight, hdiscon⟩ := hfields
  cases op with
  | send s buf len =>
    obtain rfl : s = a := of_decide_eq_true hop
    have hlen := len_ne_zero_of_exec (.inl ht)
    rw [exec_send hr buf hlen] at ht
    obtain ⟨⟨n, q'⟩, hsend, rfl⟩ := map_eq_some_iff.mp ht
    refine hnext (v := u.sent s q' (elements buf n.toNat)) ?_ ?_
    · rw [exec_send hu buf hlen, ← hnbLeft, hsend]
      rfl
    · rw [channel_sent, channel_sent, haccepted, h.channel]
  | recv s buf len =>
    obtain rfl : s = b := of_decide_eq_true hop
    have hlen := len_ne_zero_of_exec (.inr ht)
    rw [exec_recv h.left.linked.conn_right hr buf hlen] at ht
    obtain ⟨⟨n, buf', q'⟩, hrecv, rfl⟩ := map_eq_some_iff.mp ht
    refine hnext (v := u.taken s a q' (elements buf' n.toNat)) ?_ ?_
    · rw [exec_recv h.right.linked.conn_right hu buf hlen, ← hnbRight, ← hdiscon, hrecv]
      rfl
    · rw [channel_taken, channel_taken, haccepted, hreceived, h.channel]

theorem Same.drop (h : Same a b r u) (hop : op.toward a b = false) (ht : Step a b r op t) :
    Same a b t u := by
  obtain ⟨hmoves, hconnected⟩ := h.left.step ht
  refine ⟨hconnected, h.right, Eq.trans ?_ h.channel⟩
  have hne := h.left.linked.ne
  cases op with
  | send s buf len =>
    obtain rfl : s = b := ht.1.resolve_left (of_decide_eq_false hop)
    obtain ⟨n, q, q', l, -, -, -, -, -, rfl⟩ := hmoves
    exact channel_sent_of_ne r hne ..
  | recv s buf len =>
    obtain rfl : s = a := ht.1.resolve_right (of_decide_eq_false hop)
    obtain ⟨n, c, buf', q, q', l, -, hconn, -, -, -, -, rfl⟩ := hmoves
    obtain rfl : b = c := by simpa [h.left.linked.conn_left] using hconn
    exact channel_taken_of_ne r hne ..

theorem Connected.run {ops : List Op} (h : r.Connected a b) (ht : Lts.Run (Step a b) r ops t) : t.Connected a b :=
  ht.invariant (fun r => r.Connected a b) h fun h hs => (h.step hs).2

theorem Connected.run_toward {ops : List Op} (h : r.Connected a b) (ht : Lts.Run (Step a b) r ops t) :
    ∃ u, Lts.Run (Step a b) r (ops.filter (Op.toward a b)) u ∧ t.channel a b = u.channel a b := by
  obtain ⟨u, hrun, hsame⟩ := ht.filter (Same a b) Same.keep Same.drop ⟨h, h, rfl⟩
  exact ⟨u, hrun, hsame.channel⟩

theorem step_comm (a b : Nat) : Step a b = Step b a := by
  funext r op t
  unfold Step
  rw [or_comm]

/-- In every run of two connected sockets each receives, in order, a first part of what the other's sends accepted, every
    call moves as many bytes as it returns, and each direction ends as it would have ended without the other. -/
theorem socket_streams {ops : List Op} (h : r.Connected a b) (ht : Lts.Run (Step a b) r ops t) :
    t.received b <+: t.accepted a ∧ t.received a <+: t.accepted b ∧ t.Connected a b ∧
      (∀ op u, Step a b t op u → Moves t u op) ∧
      (∃ u, Lts.Run (Step a b) r (ops.filter (Op.toward a b)) u ∧ t.channel a b = u.channel a b) ∧
      ∃ u, Lts.Run (Step a b) r (ops.filter (Op.toward b a)) u ∧ t.channel b a = u.channel b a := by
  have hend := h.run ht
  refine ⟨hend.forth.initial, hend.back.initial, hend, fun op u hu => (hend.step hu).1, h.run_toward ht, ?_⟩
  rw [step_comm] at ht ⊢
  exact h.symm.run_toward ht

def pair : SocketRun where
  sockets :=
    { sock := fun s => { Socket.create 0 0 fun _ => 0 with conn := some (3 - s) }
      live := fun _ => true
      bound := []
      nanoXS := none }
  accepted := fun _ => []
  received := fun _ => []

theorem pair_connected : pair.Connected 1 2 where
  linked := ⟨by decide, rfl, rfl, rfl, rfl⟩
  forth := ⟨_, rfl, .create _ (by decide), rfl⟩
  back := ⟨_, rfl, .create _ (by decide), rfl⟩

/-- Three bytes sent on 1, one on 2, and two received on 2. -/
theorem socket_streams_pair :
    ∃ t, Lts.Run (Step 1 2) pair
        [.send 1 (fun i => BitVec.ofNat 8 (97 + i)) 3, .send 2 (fun _ => 120) 1, .recv 2 (fun _ => 0) 2] t ∧
      t.received 2 = [97, 98] ∧ t.received 2 <+: t.accepted 1 := by
  have heval : (((pair.exec (.send 1 (fun i => BitVec.ofNat 8 (97 + i)) 3)).bind fun r =>
      r.exec (.send 2 (fun _ => 120) 1)).bind fun r => r.exec (.recv 2 (fun _ => 0) 2)).map (fun r => r.received 2) =
        some [97, 98] := by
    decide +kernel
  obtain ⟨t, h, hreceived⟩ := map_eq_some_iff.mp heval
  obtain ⟨s₂, h, h₃⟩ := bind_eq_some_iff.mp h
  obtain ⟨s₁, h₁, h₂⟩ := bind_eq_some_iff.mp h
  have hrun : Lts.Run (Step 1 2) pair _ t := ((Lts.Run.refl.snoc ⟨.inl rfl, h₁⟩).snoc ⟨.inr rfl, h₂⟩).snoc ⟨.inr rfl, h₃⟩
  exact ⟨t, hrun, hreceived, (socket_streams pair_connected hrun).1⟩

end SocketRun
end HelinKern
