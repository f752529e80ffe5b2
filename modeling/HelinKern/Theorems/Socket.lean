import HelinKern.Socket

/-! The peers of UNIX sockets, whose links `accept` makes and the end of a socket does not break. -/

namespace HelinKern
namespace Sockets
open Function Option

variable {k k' : Sockets} {s a c : Nat} {x : Socket} {f : Socket → Socket} {op : Op}

/-- A peer is alive, and has this socket for its peer. -/
def Symmetric (k : Sockets) : Prop :=
  ∀ s c, k.live s = true → (k.sock s).conn = some c → k.live c = true ∧ (k.sock c).conn = some s

structure Ok (k : Sockets) : Prop where
  symm : k.Symmetric
  discon : ∀ s, k.live s = true → (k.sock s).discon = false

theorem Ok.start (sock : Nat → Socket) : Ok (start sock) where
  symm _ _ h := absurd h Bool.false_ne_true
  discon _ h := absurd h Bool.false_ne_true

theorem Symmetric.ne_of_conn_none (h : k.Symmetric) (hs : (k.sock s).conn = none) (ha : k.live a) :
    (k.sock a).conn ≠ some s := by
  intro hc
  rw [(h a s ha hc).2] at hs
  cases hs

@[simp] theorem modify_sock_self (k : Sockets) (s : Nat) (f : Socket → Socket) : (k.modify s f).sock s = f (k.sock s) :=
  update_self ..

theorem modify_sock_of_ne (h : c ≠ s) (f : Socket → Socket) : (k.modify s f).sock c = k.sock c :=
  update_of_ne h _ _

theorem modify_field {β : Type} (g : Socket → β) (h : g (f (k.sock s)) = g (k.sock s)) (c : Nat) :
    g ((k.modify s f).sock c) = g (k.sock c) := by
  by_cases heq : c = s
  · subst heq
    rw [modify_sock_self, h]
  · rw [modify_sock_of_ne heq]

theorem Ok.congr (h : Ok k) (hlive : k'.live = k.live) (hconn : ∀ s, (k'.sock s).conn = (k.sock s).conn)
    (hdiscon : ∀ s, (k'.sock s).discon = (k.sock s).discon) : Ok k' where
  symm s c := by
    rw [hlive, hconn, hconn]
    exact h.symm s c
  discon s := by
    rw [hlive, hdiscon]
    exact h.discon s

theorem Ok.setAcceptQueue (h : Ok k) (s : Nat) (l : Option (List Nat)) :
    Ok (k.modify s fun x => { x with acceptQueue := l }) :=
  h.congr rfl (fun c => modify_field Socket.conn rfl c) (fun c => modify_field Socket.discon rfl c)

theorem Ok.unixBind (h : Ok k) (s : Nat) (taken created : Bool) : Ok (k.unixBind s taken created).2 := by
  unfold Sockets.unixBind
  split
  · exact h
  · split
    · exact h
    · exact h.congr rfl (fun _ => rfl) (fun _ => rfl)

theorem Ok.unixConnect (h : Ok k) (s : Nat) (name : String) (found : Option Nat) :
    Ok (k.unixConnect s name found).2 := by
  unfold Sockets.unixConnect
  split
  · exact h
  split
  · exact h
  split
  · exact h
  split
  · exact h
  · exact h.setAcceptQueue ..

theorem Ok.alloc (h : Ok k) (ha : k.live a ≠ true) (hconn : x.conn = none) (hdiscon : x.discon = false) :
    Ok (k.alloc a x) where
  symm s c hs hc := by
    unfold Sockets.alloc at hs hc ⊢
    dsimp only at hs hc ⊢
    by_cases hsa : s = a
    · subst hsa
      rw [update_self, hconn] at hc
      cases hc
    · rw [update_of_ne hsa] at hs hc
      obtain ⟨hlive, hback⟩ := h.symm s c hs hc
      have hca : c ≠ a := fun heq => ha (heq ▸ hlive)
      rw [update_of_ne hca, update_of_ne hca]
      exact ⟨hlive, hback⟩
  discon s hs := by
    unfold Sockets.alloc at hs ⊢
    dsimp only at hs ⊢
    by_cases hsa : s = a
    · subst hsa
      rw [update_self]
      exact hdiscon
    · rw [update_of_ne hsa] at hs ⊢
      exact h.discon s hs

def client (k : Sockets) (s : Nat) : Option Nat := (k.sock s).acceptQueue.bind List.head?

/-- A client that the new socket at `a` can be linked to: it is alive and has no other peer, or it was freed and its
    memory is what the new socket got. -/
def Linkable (k : Sockets) (a other : Nat) : Prop :=
  other = a ∨ (k.live other = true ∧ ∀ c, (k.sock other).conn = some c → c = other)

def link (k : Sockets) (a other : Nat) (x : Socket) : Sockets :=
  (k.alloc a { x with conn := some other }).modify other fun x => { x with conn := some a }

theorem link_conn_other (k : Sockets) (a other : Nat) (x : Socket) : ((k.link a other x).sock other).conn = some a := by
  unfold link
  rw [modify_sock_self]

theorem alloc_sock_self (k : Sockets) (a : Nat) (x : Socket) : (k.alloc a x).sock a = x := update_self ..

theorem link_conn_new (k : Sockets) (a other : Nat) (x : Socket) : ((k.link a other x).sock a).conn = some other := by
  unfold link
  by_cases h : a = other
  · subst h
    rw [modify_sock_self]
  · rw [modify_sock_of_ne h, alloc_sock_self]

variable {other : Nat} {buffer : Nat → BitVec 8}

theorem link_sock_of_ne (x : Socket) (ha : c ≠ a) (ho : c ≠ other) : (k.link a other x).sock c = k.sock c := by
  unfold link
  rw [modify_sock_of_ne ho]
  exact update_of_ne ha _ _

theorem link_live (k : Sockets) (a other : Nat) (x : Socket) : (k.link a other x).live = update k.live a true :=
  rfl

theorem Symmetric.link (h : k.Symmetric) (ha : k.live a ≠ true) (hlink : k.Linkable a other) (x : Socket) :
    (k.link a other x).Symmetric := by
  intro s c hs hc
  rw [link_live] at hs ⊢
  by_cases hsa : s = a
  · subst hsa
    rw [link_conn_new, some.injEq] at hc
    subst hc
    refine ⟨?_, link_conn_other ..⟩
    obtain rfl | ⟨hlive, -⟩ := hlink
    · exact update_self ..
    · rwa [update_of_ne]
      rintro rfl
      exact ha hlive
  rw [update_of_ne hsa] at hs
  by_cases hso : s = other
  · subst hso
    rw [link_conn_other, some.injEq] at hc
    subst hc
    exact ⟨update_self .., link_conn_new ..⟩
  -- any other socket had a peer that is not one of the two
  rw [link_sock_of_ne x hsa hso] at hc
  obtain ⟨hlive, hback⟩ := h s c hs hc
  have hca : c ≠ a := fun heq => ha (heq ▸ hlive)
  have hco : c ≠ other := by
    rintro rfl
    obtain rfl | ⟨-, hself⟩ := hlink
    · exact hca rfl
    · exact hso (hself s hback)
  rw [update_of_ne hca, link_sock_of_ne x hca hco]
  exact ⟨hlive, hback⟩

theorem Symmetric.of_link (h : k.Symmetric) (ha : k.live a ≠ true) (hlink : (k.link a other x).Symmetric) :
    k.Linkable a other := by
  by_cases hoa : other = a
  · exact .inl hoa
  have hnew := hlink a other (update_self ..) (link_conn_new ..)
  rw [link_live, update_of_ne hoa] at hnew
  refine .inr ⟨hnew.1, fun c hc => ?_⟩
  -- the former peer of the client still points to it, but the client points to the new socket
  by_contra hco
  obtain ⟨hlive, hback⟩ := h other c hnew.1 hc
  have hca : c ≠ a := fun heq => ha (heq ▸ hlive)
  have hold := hlink c other (by rw [link_live, update_of_ne hca]; exact hlive)
    (by rw [link_sock_of_ne x hca hco]; exact hback)
  rw [link_conn_other, some.injEq] at hold
  exact hca hold.2.symm

theorem Ok.link (h : Ok k) (ha : k.live a ≠ true) (hlink : k.Linkable a other) (hx : x.discon = false) :
    Ok (k.link a other x) where
  symm := h.symm.link ha hlink x
  discon s hs := by
    have hfield : ((k.link a other x).sock s).discon = ((k.alloc a { x with conn := some other }).sock s).discon :=
      modify_field Socket.discon rfl s
    rw [link_live] at hs
    rw [hfield]
    by_cases hsa : s = a
    · subst hsa
      rw [alloc_sock_self]
      exact hx
    · rw [update_of_ne hsa] at hs
      exact (congrArg Socket.discon (update_of_ne hsa _ _)).trans (h.discon s hs)

theorem unixAccept_of_none (h : k.client s = none) (hk : k.unixAccept s a buffer = some k') : k' = k := by
  unfold client at h
  unfold unixAccept at hk
  match hq : (k.sock s).acceptQueue with
  | none => simp [hq] at hk
  | some [] =>
    simp only [hq] at hk
    split at hk
    · exact (some.inj hk).symm
    · cases hk
  | some (other :: clients) => simp [hq] at h

theorem unixAccept_of_some (h : k.client s = some other) (buffer : Nat → BitVec 8) :
    ∃ clients, k.unixAccept s a buffer =
      some ((k.modify s fun x => { x with acceptQueue := some clients }).link a other
        (.create (k.sock s).owner 0 buffer)) := by
  unfold client at h
  unfold unixAccept
  match hq : (k.sock s).acceptQueue with
  | none => simp [hq] at h
  | some [] => simp [hq] at h
  | some (other' :: clients) =>
    obtain rfl : other' = other := by simpa [hq] using h
    refine ⟨clients, ?_⟩
    dsimp only
    rw [modify_sock_self]
    rfl

theorem socketDestroy_eq (k : Sockets) (s : Nat) : k.socketDestroy s = (k.unixDestroy s).free s := by
  have hnone : ((k.unixDestroy s).sock s).conn = none := by
    unfold unixDestroy
    rw [modify_sock_self]
  unfold socketDestroy
  dsimp only
  rw [hnone]
  rfl

theorem socketDestroy_live (k : Sockets) (s : Nat) :
    (k.socketDestroy s).live = update k.live s false := by
  rw [socketDestroy_eq]
  rfl

theorem socketDestroy_sock (k : Sockets) (s c : Nat) : (k.socketDestroy s).sock c = (k.unixDestroy s).sock c := by
  rw [socketDestroy_eq]
  rfl

theorem socketDestroy_sock_of_ne (h : c ≠ s) : (k.socketDestroy s).sock c = k.sock c := by
  rw [socketDestroy_sock]
  exact modify_sock_of_ne h _

theorem socketDestroy_discon (k : Sockets) (s c : Nat) : ((k.socketDestroy s).sock c).discon = (k.sock c).discon := by
  rw [socketDestroy_sock]
  exact modify_field Socket.discon rfl c

theorem socketDestroy_live_iff : (k.socketDestroy s).live c ↔ c ≠ s ∧ k.live c := by
  rw [socketDestroy_live]
  by_cases hcs : c = s
  · subst hcs
    simp
  · rw [update_of_ne hcs]
    simp [hcs]

theorem Ok.socketDestroy (h : Ok k) (hconn : (k.sock s).conn = none) : Ok (k.socketDestroy s) where
  symm c p hc hp := by
    rw [socketDestroy_live_iff] at hc ⊢
    rw [socketDestroy_sock_of_ne hc.1] at hp
    have hps : p ≠ s := by
      rintro rfl
      exact h.symm.ne_of_conn_none hconn hc.2 hp
    rw [socketDestroy_sock_of_ne hps]
    obtain ⟨hlive, hback⟩ := h.symm c p hc.2 hp
    exact ⟨⟨hps, hlive⟩, hback⟩
  discon c hc := by
    rw [socketDestroy_discon]
    exact h.discon c (socketDestroy_live_iff.mp hc).2

/-- After every call peers are symmetric; after `socket_destroy` nobody is linked to the socket, and its former peer has
    `discon` set, so that `unix_recv` on it reports the end of the stream. -/
def Sound (k : Sockets) (op : Op) (k' : Sockets) : Prop :=
  k'.Symmetric ∧
    match op with
    | .destroy s =>
      (∀ c, k'.live c = true → (k'.sock c).conn ≠ some s) ∧
        ∀ c, (k.sock s).conn = some c →
          (k'.sock c).discon = true ∧ ∀ buf len, k'.unixRecv c buf len = some (0, buf, k')
    | _ => True

/-- `accept` takes a client that may be linked, and only a socket without a peer is destroyed. -/
def Fits (k : Sockets) : Op → Prop
  | .accept s a _ => ∀ other, k.client s = some other → k.Linkable a other
  | .destroy s => (k.sock s).conn = none
  | _ => True

theorem Ok.sound (h : Ok k') (hop : ∀ s, op ≠ .destroy s) : Sound k op k' := by
  refine ⟨h.symm, ?_⟩
  split
  next s => exact absurd rfl (hop s)
  · trivial

theorem Ok.accept (h : Ok k) (ha : k.live a ≠ true)
    (hk : k.unixAccept s a buffer = some k') (hfits : k.Fits (.accept s a buffer)) : Ok k' := by
  cases hclient : k.client s with
  | none =>
    rw [unixAccept_of_none hclient hk]
    exact h
  | some other =>
    obtain ⟨clients, heq⟩ := unixAccept_of_some hclient buffer
    rw [heq] at hk
    cases hk
    have hlink := hfits other hclient
    refine (h.setAcceptQueue s (some clients)).link ha ?_ rfl
    refine hlink.imp id (And.imp id ?_)
    intro hself c hc
    rw [modify_field Socket.conn rfl] at hc
    exact hself c hc

theorem Ok.fits_of_accept (h : Ok k) (ha : k.live a ≠ true)
    (hk : k.unixAccept s a buffer = some k') (hsymm : k'.Symmetric) : k.Fits (.accept s a buffer) := by
  intro other hclient
  obtain ⟨clients, heq⟩ := unixAccept_of_some hclient buffer
  rw [heq] at hk
  cases hk
  refine ((h.setAcceptQueue s (some clients)).symm.of_link ha hsymm).imp id (And.imp id ?_)
  intro hself c hc
  refine hself c ?_
  rw [modify_field Socket.conn rfl]
  exact hc

theorem Ok.conn_none_of_destroy (h : Ok k) (hs : k.live s) (hsound : Sound k (.destroy s) (k.socketDestroy s)) :
    (k.sock s).conn = none := by
  obtain ⟨-, hnobody, hpeer⟩ := hsound
  cases hconn : (k.sock s).conn with
  | none => rfl
  | some c =>
    have hdiscon := (hpeer c hconn).1
    rw [socketDestroy_discon, h.discon c (h.symm s c hs hconn).1] at hdiscon
    cases hdiscon

theorem Ok.exec (h : Ok k) (hk : k.exec op = some k') : (Sound k op k' ↔ k.Fits op) ∧ (k.Fits op → Ok k') := by
  -- every call but the last two keeps the invariant, whatever it is given
  have hplain (hfits : k.Fits op) (hop : ∀ s, op ≠ .destroy s) (hok : Ok k') :
      (Sound k op k' ↔ k.Fits op) ∧ (k.Fits op → Ok k') :=
    ⟨iff_of_true (hok.sound hop) hfits, fun _ => hok⟩
  cases op with
  | socket a owner flags buffer =>
    obtain ⟨ha, hk⟩ := ite_none_left_eq_some.mp hk
    cases hk
    exact hplain trivial nofun (h.alloc ha rfl rfl)
  | bind s taken created =>
    obtain ⟨-, hk⟩ := ite_none_right_eq_some.mp hk
    cases hk
    exact hplain trivial nofun (h.unixBind s taken created)
  | listen s =>
    obtain ⟨-, hk⟩ := ite_none_right_eq_some.mp hk
    cases hk
    exact hplain trivial nofun (h.setAcceptQueue s (some []))
  | connect s name found =>
    obtain ⟨-, hk⟩ := ite_none_right_eq_some.mp hk
    cases hk
    exact hplain trivial nofun (h.unixConnect s name found)
  | accept s a buffer =>
    obtain ⟨⟨-, ha⟩, hk⟩ := ite_none_right_eq_some.mp hk
    exact ⟨⟨fun hsound => h.fits_of_accept ha hk hsound.1, fun hfits => (h.accept ha hk hfits).sound nofun⟩,
      h.accept ha hk⟩
  | destroy s =>
    obtain ⟨hs, hk⟩ := ite_none_right_eq_some.mp hk
    cases hk
    refine ⟨⟨h.conn_none_of_destroy hs, fun hfits => ?_⟩, h.socketDestroy⟩
    have hok := h.socketDestroy hfits
    refine ⟨hok.symm, fun c hc hlink => ?_, fun c hc => ?_⟩
    · exact (socketDestroy_live_iff.mp (hok.symm c s hc hlink).1).1 rfl
    · rw [show (k.sock s).conn = none from hfits] at hc
      cases hc

/-- Peers stay symmetric in a run, and hear of each other's end, only if `accept` never takes a client that it must not
    link and nobody destroys a socket that has a peer; then they do. -/
theorem socket_peers (sock : Nat → Socket) (ops : List Op) :
    Lts.Along Sockets.exec Sound (start sock) ops ↔
      Lts.Along Sockets.exec (fun k op _ => k.Fits op) (start sock) ops :=
  Lts.along_iff Ok (.start sock) (fun h hk => (h.exec hk).1) (fun h hk => (h.exec hk).2) ops

/-- A client connects to a server, which accepts it and is then destroyed. -/
theorem socket_peers_accept :
    Lts.Along Sockets.exec Sound (start fun _ => .create 0 0 fun _ => 0)
      [.socket 1 5 0 (fun _ => 0), .bind 1 false true, .listen 1, .socket 2 6 16384 (fun _ => 0),
        .connect 2 "srv" (some 1), .accept 1 3 (fun _ => 0), .destroy 1] := by
  refine (socket_peers _ _).mpr ?_
  rintro k ⟨rfl⟩
  refine ⟨trivial, ?_⟩
  rintro k ⟨rfl⟩
  refine ⟨trivial, ?_⟩
  rintro k ⟨rfl⟩
  refine ⟨trivial, ?_⟩
  rintro k ⟨rfl⟩
  refine ⟨trivial, ?_⟩
  rintro k ⟨rfl⟩
  refine ⟨trivial, ?_⟩
  rintro k ⟨rfl⟩
  refine ⟨?_, ?_⟩
  · rintro other ⟨rfl⟩
    exact .inr ⟨rfl, nofun⟩
  rintro k ⟨rfl⟩
  exact ⟨rfl, trivial⟩

/-- The accepted socket 3 is destroyed: the client 2 stays linked to it and is not told. -/
theorem socket_peer_dangles :
    ¬Lts.Along Sockets.exec Sound (start fun _ => .create 0 0 fun _ => 0)
      [.socket 1 5 0 (fun _ => 0), .bind 1 false true, .listen 1, .socket 2 6 16384 (fun _ => 0),
        .connect 2 "srv" (some 1), .accept 1 3 (fun _ => 0), .destroy 3] := by
  intro h
  obtain ⟨-, h⟩ := h _ rfl
  obtain ⟨-, h⟩ := h _ rfl
  obtain ⟨-, h⟩ := h _ rfl
  obtain ⟨-, h⟩ := h _ rfl
  obtain ⟨-, h⟩ := h _ rfl
  obtain ⟨-, h⟩ := h _ rfl
  obtain ⟨⟨-, hnobody, -⟩, -⟩ := h _ rfl
  exact hnobody 2 rfl rfl

end Sockets
end HelinKern
