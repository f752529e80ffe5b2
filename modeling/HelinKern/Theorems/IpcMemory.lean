import HelinKern.IpcObjects

/-! The memory of the objects behind descriptors: which nodes lead to an object, and what its counters say about them. -/

namespace HelinKern
open Slots Function List Option

variable {key connections : Int}

namespace Ipc

variable {k : Ipc} {n a b o : Nat} {x : IpcObj}

def link (k : Ipc) (n : Nat) : Option Nat := if k.nodeStatus n = .alive then some (k.node n).priv else none

theorem link_of_alive (h : k.nodeStatus n = .alive) : k.link n = some (k.node n).priv := if_pos h

theorem link_of_unused (h : k.nodeStatus n = .unused) : k.link n = none := if_neg (by simp [h])

theorem alive_of_link (h : k.link n = some o) : k.nodeStatus n = .alive ∧ (k.node n).priv = o := by
  unfold link at h
  split at h
  · exact ⟨‹_›, some.inj h⟩
  · cases h

theorem link_newNode (a : Nat) (y : IpcNode) : (k.newNode a y).link = update k.link a (some y.priv) := by
  funext n
  by_cases hn : n = a
  · simp [link, newNode, hn]
  · simp [link, newNode, hn]

theorem link_freeNode (n : Nat) : (k.freeNode n).link = update k.link n none := by
  funext m
  by_cases hm : m = n
  · simp [link, freeNode, hm]
  · simp [link, freeNode, hm]

/-- The nodes `S` that can lead to an object: both ends of a pipe, one node for each connection of a message queue, and
    the one node of a socket. -/
def Fits : IpcObj → Set Nat → Prop
  | .pipe .., S => S.Nontrivial
  | .msg _ connections, S => S.Finite ∧ connections = S.ncard
  | .socket _, S => S.Subsingleton

structure Logged (k : Ipc) : Prop where
  nodup : k.freed.Nodup
  node : ∀ n, .node n ∈ k.freed → k.nodeStatus n = .freed
  obj : ∀ o, .obj o ∈ k.freed → k.objStatus o = .freed

structure Keyed (k : Ipc) : Prop where
  nodup : k.keys.Nodup
  msg : ∀ o ∈ k.keys, k.objStatus o = .alive ∧ ∃ key connections, k.obj o = .msg key connections

structure Mem (k : Ipc) : Prop where
  owned : Owned Fits k.link k.objStatus k.obj
  keyed : k.Keyed
  logged : k.Logged

namespace Logged

theorem newNode (h : k.Logged) (ha : k.nodeStatus a = .unused) (y : IpcNode) : (k.newNode a y).Logged where
  nodup := h.nodup
  node n hn := by
    have hfreed := h.node n hn
    refine (update_of_ne ?_ _ _).trans hfreed
    rintro rfl
    rw [ha] at hfreed
    cases hfreed
  obj := h.obj

theorem newObj (h : k.Logged) (ho : k.objStatus o = .unused) (x : IpcObj) : (k.newObj o x).Logged where
  nodup := h.nodup
  node := h.node
  obj o' ho' := by
    have hfreed := h.obj o' ho'
    refine (update_of_ne ?_ _ _).trans hfreed
    rintro rfl
    rw [ho] at hfreed
    cases hfreed

theorem freeNode (h : k.Logged) (hn : k.nodeStatus n = .alive) : (k.freeNode n).Logged where
  nodup := nodup_cons.mpr ⟨fun hmem => by simpa [hn] using h.node n hmem, h.nodup⟩
  node m hm := by
    by_cases hmn : m = n
    · exact hmn ▸ update_self ..
    · refine (update_of_ne hmn _ _).trans (h.node m ?_)
      simpa [hmn] using mem_cons.mp hm
  obj o ho := h.obj o (by simpa using mem_cons.mp ho)

theorem freeObj (h : k.Logged) (ho : k.objStatus o = .alive) : (k.freeObj o).Logged where
  nodup := nodup_cons.mpr ⟨fun hmem => by simpa [ho] using h.obj o hmem, h.nodup⟩
  node n hn := h.node n (by simpa using mem_cons.mp hn)
  obj o' ho' := by
    by_cases heq : o' = o
    · exact heq ▸ update_self ..
    · refine (update_of_ne heq _ _).trans (h.obj o' ?_)
      simpa [heq] using mem_cons.mp ho'

end Logged

namespace Keyed

theorem not_mem (h : k.Keyed) (ho : k.objStatus o = .unused) : o ∉ k.keys := by
  intro hmem
  have halive := (h.msg o hmem).1
  rw [ho] at halive
  cases halive

theorem congr (h : k.Keyed) {k' : Ipc} (hkeys : k'.keys = k.keys) (hstatus : ∀ o ∈ k.keys, k'.objStatus o = k.objStatus o)
    (hobj : ∀ o ∈ k.keys, k'.obj o = k.obj o ∨ ∃ key connections, k'.obj o = .msg key connections) : k'.Keyed where
  nodup := hkeys ▸ h.nodup
  msg o ho := by
    rw [hkeys] at ho
    obtain ⟨halive, hmsg⟩ := h.msg o ho
    refine ⟨(hstatus o ho).trans halive, ?_⟩
    obtain heq | hmsg' := hobj o ho
    · rwa [heq]
    · exact hmsg'

theorem newObj (h : k.Keyed) (ho : k.objStatus o = .unused) (x : IpcObj) : (k.newObj o x).Keyed := by
  have hne (o' : Nat) (ho' : o' ∈ k.keys) : o' ≠ o := fun heq => h.not_mem ho (heq ▸ ho')
  exact h.congr rfl (fun o' ho' => update_of_ne (hne o' ho') _ _)
    fun o' ho' => .inl (update_of_ne (hne o' ho') _ _)

theorem append (h : k.Keyed) (ho : k.objStatus o = .unused) (key connections : Int) :
    { k.newObj o (.msg key connections) with keys := k.keys ++ [o] }.Keyed where
  nodup := List.Nodup.append h.nodup (nodup_singleton o) (disjoint_singleton.mpr (h.not_mem ho))
  msg o' ho' := by
    obtain ho' | ho' := mem_append.mp ho'
    · exact (h.newObj ho _).msg o' ho'
    · obtain rfl : o' = o := mem_singleton.mp ho'
      exact ⟨update_self .., key, connections, update_self ..⟩

theorem setMsg (h : k.Keyed) (o : Nat) (key connections : Int) : (k.setObj o (.msg key connections)).Keyed := by
  refine h.congr rfl (fun _ _ => rfl) fun o' _ => ?_
  by_cases heq : o' = o
  · exact .inr ⟨key, connections, heq ▸ update_self ..⟩
  · exact .inl (update_of_ne heq _ _)

theorem erase (h : k.Keyed) (o : Nat) : { k.freeObj o with keys := k.keys.erase o }.Keyed where
  nodup := h.nodup.erase o
  msg o' ho' := by
    obtain ⟨hne, hmem⟩ := (h.nodup.mem_erase_iff).mp ho'
    obtain ⟨halive, hmsg⟩ := h.msg o' hmem
    exact ⟨(update_of_ne hne _ _).trans halive, hmsg⟩

end Keyed

namespace Mem

theorem processes (h : k.Mem) (tables : FdTables) (died : Nat → Bool) (strays : List Nat) :
    { k with tables := tables, died := died, strays := strays }.Mem where
  owned := h.owned
  keyed := ⟨h.keyed.nodup, h.keyed.msg⟩
  logged := { h.logged with }

theorem setTable (h : k.Mem) (pid : Nat) (t : FdTable) : (k.setTable pid t).Mem := h.processes _ _ _

theorem link_ne (h : k.nodeStatus n = .alive) {y : Nat} (hy : y ≠ (k.node n).priv) : k.link n ≠ some y :=
  fun heq => hy (some.inj (heq.symm.trans (link_of_alive h)))

theorem link_unused_ne (h : k.nodeStatus n = .unused) (y : Nat) : k.link n ≠ some y :=
  fun heq => nomatch (link_of_unused h).symm.trans heq

section
variable (h : k.Mem) (ha : k.nodeStatus a = .unused)
include h ha

theorem owned_new (ho : k.objStatus o = .unused) (hx : Fits x {a}) (inode : Nat) :
    Owned Fits ((k.newObj o x).newNode a ⟨inode, o⟩).link (update k.objStatus o .alive)
      (update k.obj o x) := by
  have hlink : ((k.newObj o x).newNode a ⟨inode, o⟩).link = update k.link a (some o) := link_newNode a _
  have hrefs : refs (update k.link a (some o)) o = {a} := by
    rw [refs_put, h.owned.refs_eq_empty (by simp [ho]), insert_empty_eq]
  rw [hlink]
  refine h.owned.change hrefs (update_self ..) (fun y hy => ?_) (fun y hy => update_of_ne hy _ _)
    (fun y hy => update_of_ne hy _ _) (iff_of_true (update_self ..) (Set.singleton_nonempty a))
    fun _ => hx
  exact refs_update_of_ne (link_unused_ne ha y) fun heq => hy (some.inj heq).symm

theorem newSocket (ho : k.objStatus o = .unused) (pid : Nat) : ((k.newObj o (.socket pid)).newNode a ⟨0, o⟩).Mem where
  owned := by
    have hfits : Fits (.socket pid) {a} := Set.subsingleton_singleton
    exact h.owned_new ha ho hfits 0
  keyed := (h.keyed.newObj ho (.socket pid)).congr rfl (fun _ _ => rfl) fun _ _ => .inl rfl
  logged := (h.logged.newObj ho _).newNode ha _

theorem newMsg (ho : k.objStatus o = .unused) (key : Int) :
    ({ k.newObj o (.msg key 1) with keys := k.keys ++ [o] }.newNode a ⟨0, o⟩).Mem where
  owned := by
    have hfits : Fits (.msg key 1) {a} := ⟨Set.finite_singleton a, by simp⟩
    exact h.owned_new ha ho hfits 0
  keyed := (h.keyed.append ho key 1).congr rfl (fun _ _ => rfl) fun _ _ => .inl rfl
  logged := by
    have hlogged := (h.logged.newObj ho (.msg key 1)).newNode ha ⟨0, o⟩
    exact { hlogged with }

theorem newConnection (ho : k.objStatus o = .alive) (hobj : k.obj o = .msg key connections) :
    ((k.setObj o (.msg key (connections + 1))).newNode a ⟨0, o⟩).Mem where
  owned := by
    have hfits := h.owned.fits o ho
    rw [hobj] at hfits
    obtain ⟨hfinite, hcount⟩ := hfits
    have hfits' : Fits (.msg key (connections + 1)) (insert a (refs k.link o)) := by
      have hnone : a ∉ refs k.link o := link_unused_ne ha o
      refine ⟨hfinite.insert a, ?_⟩
      rw [Set.ncard_insert_of_notMem hnone hfinite, hcount]
      rfl
    have hlink : ((k.setObj o (.msg key (connections + 1))).newNode a ⟨0, o⟩).link = update k.link a (some o) :=
      link_newNode a _
    rw [hlink]
    refine h.owned.change refs_put (update_self ..) (fun y hy => ?_) (fun _ _ => rfl)
      (fun y hy => update_of_ne hy _ _) (iff_of_true ho (Set.insert_nonempty a _)) fun _ => hfits'
    exact refs_update_of_ne (link_unused_ne ha y) fun heq => hy (some.inj heq).symm
  keyed := (h.keyed.setMsg o key (connections + 1)).congr rfl (fun _ _ => rfl) fun _ _ => .inl rfl
  logged := by
    have hlogged := h.logged.newNode ha ⟨0, o⟩
    exact { hlogged with }

theorem newPipe (hb : k.nodeStatus b = .unused) (hab : a ≠ b)
    (ho : k.objStatus o = .unused) (pid : Nat) (readFd writeFd : Int) :
    (((k.newNode a ⟨0, o⟩).newNode b ⟨1, o⟩).newObj o (.pipe pid readFd writeFd)).Mem where
  owned := by
    have hlink : (((k.newNode a ⟨0, o⟩).newNode b ⟨1, o⟩).newObj o (.pipe pid readFd writeFd)).link =
        update (update k.link a (some o)) b (some o) := by
      refine (link_newNode b ⟨1, o⟩).trans ?_
      rw [link_newNode]
    have hrefs : refs (update (update k.link a (some o)) b (some o)) o = {b, a} := by
      rw [refs_put, refs_put, h.owned.refs_eq_empty (by simp [ho]), insert_empty_eq]
    have hfits : Fits (.pipe pid readFd writeFd) {b, a} := Set.nontrivial_pair hab.symm
    rw [hlink]
    refine h.owned.change hrefs (update_self ..) (fun y hy => ?_) (fun y hy => update_of_ne hy _ _)
      (fun y hy => update_of_ne hy _ _) (iff_of_true (update_self ..) (Set.insert_nonempty b _))
      fun _ => hfits
    have hy' : some o ≠ some y := fun heq => hy (some.inj heq).symm
    rw [refs_update_of_ne (by rw [update_of_ne hab.symm]; exact link_unused_ne hb y) hy',
      refs_update_of_ne (link_unused_ne ha y) hy']
  keyed := (h.keyed.newObj ho (.pipe pid readFd writeFd)).congr rfl (fun _ _ => rfl) fun _ _ => .inl rfl
  logged := by
    have hb' : (k.newNode a ⟨0, o⟩).nodeStatus b = .unused := (update_of_ne hab.symm _ _).trans hb
    exact ((h.logged.newNode ha ⟨0, o⟩).newNode hb' ⟨1, o⟩).newObj ho (.pipe pid readFd writeFd)

end

theorem setPipe (h : k.Mem) {creator : Nat} {readFd writeFd : Int} (hobj : k.obj o = .pipe creator readFd writeFd)
    (creator' : Nat) (readFd' writeFd' : Int) : (k.setObj o (.pipe creator' readFd' writeFd')).Mem where
  owned := by
    refine h.owned.change rfl (update_self ..) (fun _ _ => rfl) (fun _ _ => rfl)
      (fun y hy => update_of_ne hy _ _) (h.owned.alive o) fun ho => ?_
    have hfits := h.owned.fits o ho
    rw [hobj] at hfits
    exact hfits
  keyed := by
    refine h.keyed.congr rfl (fun _ _ => rfl) fun o' ho' => .inl (update_of_ne ?_ _ _)
    rintro rfl
    obtain ⟨-, key, connections, hmsg⟩ := h.keyed.msg _ ho'
    rw [hobj] at hmsg
    cases hmsg
  logged := { h.logged with }

section
variable (h : k.Mem) (hn : k.nodeStatus n = .alive)
include h hn

theorem owned_free (hlast : refs k.link (k.node n).priv \ {n} = ∅) (x : IpcObj) :
    Owned Fits (update k.link n none) (update k.objStatus (k.node n).priv .freed)
      (update k.obj (k.node n).priv x) := by
  have hfreed : update k.objStatus (k.node n).priv .freed (k.node n).priv ≠ .alive := by
    rw [update_self]
    nofun
  exact h.owned.change (refs_clear.trans hlast) (update_self ..) (fun y hy => refs_update_of_ne (link_ne hn hy) nofun)
    (fun y hy => update_of_ne hy _ _) (fun y hy => update_of_ne hy _ _)
    (iff_of_false hfreed Set.not_nonempty_empty) fun halive => absurd halive hfreed

theorem msgobjClose (hobj : k.obj (k.node n).priv = .msg key connections) : (k.msgobjClose n key connections).Mem := by
  have hmem : n ∈ refs k.link (k.node n).priv := link_of_alive hn
  have ho := h.owned.alive_of_ref hmem
  have hfits := h.owned.fits _ ho
  rw [hobj] at hfits
  obtain ⟨hfinite, hcount⟩ := hfits
  have hcard : (refs k.link (k.node n).priv \ {n}).ncard + 1 = (refs k.link (k.node n).priv).ncard :=
    Set.ncard_sdiff_singleton_add_one hmem hfinite
  unfold Ipc.msgobjClose
  split
  case isTrue hlast =>
    have hsingle : refs k.link (k.node n).priv \ {n} = ∅ := (Set.ncard_eq_zero hfinite.sdiff).mp (by omega)
    refine ⟨?_, ?_, ?_⟩
    · rw [link_freeNode]
      exact h.owned_free hn hsingle _
    · exact ((h.keyed.setMsg _ key (connections - 1)).erase _).congr rfl (fun _ _ => rfl) fun _ _ => .inl rfl
    · have hlogged := (h.logged.freeObj ho).freeNode hn
      exact { hlogged with }
  case isFalse hlast =>
    have hfits' : Fits (.msg key (connections - 1)) (refs k.link (k.node n).priv \ {n}) := ⟨hfinite.sdiff, by omega⟩
    have hnonempty : (refs k.link (k.node n).priv \ {n}).Nonempty := Set.nonempty_of_ncard_ne_zero (by omega)
    refine ⟨?_, ?_, ?_⟩
    · rw [link_freeNode]
      exact h.owned.change refs_clear (update_self ..) (fun y hy => refs_update_of_ne (link_ne hn hy) nofun)
        (fun _ _ => rfl) (fun y hy => update_of_ne hy _ _) (iff_of_true ho hnonempty) fun _ => hfits'
    · exact (h.keyed.setMsg _ key (connections - 1)).congr rfl (fun _ _ => rfl) fun _ _ => .inl rfl
    · have hlogged := h.logged.freeNode hn
      exact { hlogged with }

theorem destroySocket {owner : Nat} (hobj : k.obj (k.node n).priv = .socket owner) : ((k.freeObj (k.node n).priv).freeNode n).Mem where
  owned := by
    have hmem : n ∈ refs k.link (k.node n).priv := link_of_alive hn
    have hfits := h.owned.fits _ (h.owned.alive_of_ref hmem)
    rw [hobj] at hfits
    have hsingle : refs k.link (k.node n).priv \ {n} = ∅ := Set.sdiff_eq_empty.mpr fun m hm => hfits hm hmem
    have howned := h.owned_free hn hsingle (k.obj (k.node n).priv)
    rw [update_eq_self] at howned
    rw [link_freeNode]
    exact howned
  keyed := by
    refine h.keyed.congr rfl (fun o' ho' => update_of_ne ?_ _ _) fun _ _ => .inl rfl
    rintro rfl
    obtain ⟨-, key, connections, hmsg⟩ := h.keyed.msg _ ho'
    rw [hobj] at hmsg
    cases hmsg
  logged := (h.logged.freeObj (h.owned.alive_of_ref (link_of_alive hn))).freeNode hn

end

end Mem
end Ipc
end HelinKern
