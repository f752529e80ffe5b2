import HelinKern.NodeTypes
import HelinKern.Theorems.Descriptors

/-! Which calls keep every descriptor of the type of a socket on a live `Socket`. -/

namespace HelinKern
open Function Option FdTable

/-- What the casts of `sys_read`, `sys_write`, `sys_ready` and `sys_close` rely on: a node of the type of a socket points to a
    live one. -/
def TypedNode.Typed (x : TypedNode) (live : Nat → Bool) : Prop := x.isSocket = true → ∃ a, x.priv = some a ∧ live a = true

variable {flags : BitVec 32} {a fresh : Nat} {x : TypedNode} {cmd : Int} {arg : BitVec 64} {nodes : Nat → TypedNode}
  {procs : Nat → Bool}

namespace TypedNode

variable {x : TypedNode} {live live' : Nat → Bool}

theorem typed_of_not_isSocket (h : x.isSocket = false) : x.Typed live := by
  intro hx
  rw [h] at hx
  cases hx

theorem Typed.mono (h : x.Typed live) (hlive : ∀ a, live a → live' a) : x.Typed live' := by
  intro hx
  obtain ⟨a, ha, hl⟩ := h hx
  exact ⟨a, ha, hlive a hl⟩

theorem typed_some :
    (⟨flags, some a⟩ : TypedNode).Typed live ↔ (flags &&& 5 = 5 → live a) := by
  simp [Typed, isSocket]

theorem typed_none : (⟨flags, none⟩ : TypedNode).Typed live ↔ flags &&& 5 ≠ 5 := by
  simp [Typed, isSocket]

end TypedNode

namespace NodeTypes

variable {s t : NodeTypes} {pid q i n m : Nat}

def At (s : NodeTypes) (q i n : Nat) : Prop := ∃ tbl d, s.tables q = some tbl ∧ tbl.fds i = some d ∧ d.node = n

def Refers (s : NodeTypes) (n : Nat) : Prop := ∃ q i, s.At q i n

/-- Every node of the type of a socket that a descriptor refers to has a live `Socket`. -/
def WellTyped (s : NodeTypes) : Prop := ∀ n, s.Refers n → (s.nodes n).Typed s.live

variable {tbl : FdTable} {flags : Int} {fd : Nat}

theorem at_of_tables_set (h : t.tables = s.tables.set pid tbl) :
    t.At q i n ↔ if q = pid then ∃ d, tbl.fds i = some d ∧ d.node = n else s.At q i n := by
  unfold At
  rw [h, FdTables.set]
  split
  next hq =>
    subst hq
    simp
  next hq => rw [update_of_ne hq]

theorem openFor_at (htbl : s.tables pid = some tbl)
    (h : (s.openFor pid n tbl flags).At q i m) : s.At q i m ∨ tbl.nextFd < openLimit ∧ m = n := by
  rw [at_of_tables_set rfl] at h
  split at h
  next hq =>
    obtain ⟨d, hd, hm⟩ := h
    rcases Nat.lt_or_ge tbl.nextFd openLimit with hlimit | hlimit
    · rw [openFor_of_lt pid n flags hlimit] at hd
      by_cases hi : i = tbl.nextFd
      · subst hi
        cases (update_self _ _ _).symm.trans hd
        exact .inr ⟨hlimit, hm.symm⟩
      · exact .inl ⟨tbl, d, hq ▸ htbl, (update_of_ne hi _ _).symm.trans hd, hm⟩
    · rw [openFor_of_limit pid n flags hlimit] at hd
      exact .inl ⟨tbl, d, hq ▸ htbl, hd, hm⟩
  · exact .inl h

theorem openFor_refers (h : tbl.nextFd < openLimit) : (s.openFor pid n tbl flags).Refers n := by
  refine ⟨pid, tbl.nextFd, (at_of_tables_set rfl).mpr ?_⟩
  rw [if_pos rfl, openFor_of_lt pid n flags h]
  exact ⟨_, update_self _ _ _, rfl⟩

theorem sysClose_at (htbl : s.tables pid = some tbl) :
    (s.sysClose pid fd tbl n).At q i m ↔ (q, i) ≠ (pid, fd) ∧ s.At q i m := by
  rw [at_of_tables_set rfl]
  split
  next hq =>
    subst hq
    by_cases hi : i = fd
    · simp [hi, put]
    · simp [hi, put, At, htbl]
  next hq => simp [hq]

structure Allocated (s : NodeTypes) : Prop where
  refers_lt : ∀ n, s.Refers n → n < s.fresh
  linked_lt : ∀ n, s.linked n = true → n < s.fresh
  live_lt : ∀ a, s.live a = true → a < s.fresh

structure Ok (s : NodeTypes) : Prop extends Allocated s where
  typed : s.WellTyped

theorem Ok.settles {p : Prop} (h : s.Ok) (hp : p) : s.Allocated ∧ (s.WellTyped ↔ p) := ⟨h.toAllocated, iff_of_true h.typed hp⟩

theorem Allocated.live_fresh (h : s.Allocated) : s.live s.fresh = false := by
  rw [← Bool.not_eq_true]
  exact fun hl => Nat.lt_irrefl _ (h.live_lt _ hl)

structure Grows (s t : NodeTypes) : Prop where
  tables : t.tables = s.tables
  nodes : ∀ n, n < s.fresh → t.nodes n = s.nodes n
  live : t.live = s.live
  linked : ∀ n, t.linked n = true → s.linked n = true ∨ n < t.fresh
  fresh : s.fresh ≤ t.fresh

theorem grows_refl : Grows s s := ⟨rfl, fun _ _ => rfl, rfl, fun _ => .inl, Nat.le_refl _⟩

theorem link_grows (x : TypedNode) : Grows s (s.link x) where
  tables := rfl
  nodes n hn := update_of_ne (Nat.ne_of_lt hn) _ _
  live := rfl
  linked n hn := by
    by_cases h : n = s.fresh
    · exact .inr (h ▸ Nat.lt_add_of_pos_right Nat.two_pos)
    · exact .inl ((update_of_ne h _ _).symm.trans hn)
  fresh := Nat.le_add_right _ _

theorem creat_grows (creator : Creator) (type : BitVec 32) : Grows s (s.creat creator type) := by
  cases creator with
  | rootfs | tmpfs | vfat => exact link_grows _
  | cpio =>
    rw [creat]
    split
    · exact grows_refl
    · exact link_grows _
  | none => exact grows_refl

theorem Grows.refers (h : Grows s t) : t.Refers n ↔ s.Refers n := by simp only [Refers, At, h.tables]

theorem Grows.ok (h : Grows s t) (hs : s.Ok) : t.Ok where
  refers_lt n hn := Nat.lt_of_lt_of_le (hs.refers_lt n (h.refers.mp hn)) h.fresh
  linked_lt n hn := (h.linked n hn).elim (fun hl => Nat.lt_of_lt_of_le (hs.linked_lt n hl) h.fresh) id
  live_lt a ha := Nat.lt_of_lt_of_le (hs.live_lt a (h.live ▸ ha)) h.fresh
  typed n hn := by
    have hr := h.refers.mp hn
    rw [h.nodes n (hs.refers_lt n hr), h.live]
    exact hs.typed n hr

/-! ### Types of nodes -/

theorem setNode_wellTyped (hw : s.WellTyped) :
    (s.setNode n x).WellTyped ↔ (s.Refers n → x.Typed s.live) := by
  constructor
  · intro h hr
    simpa [setNode] using h n hr
  · intro h m hm
    by_cases hmn : m = n
    · subst hmn
      simpa [setNode] using h hm
    · simpa [setNode, update_of_ne hmn] using hw m hm

theorem openFor_wellTyped (hw : s.WellTyped) (htbl : s.tables pid = some tbl) :
    (s.openFor pid n tbl flags).WellTyped ↔ (tbl.nextFd < openLimit → (s.nodes n).Typed s.live) := by
  constructor
  · exact fun h hlimit => h n (openFor_refers hlimit)
  · rintro h m ⟨q, i, hat⟩
    rcases openFor_at htbl hat with hat | ⟨hlimit, rfl⟩
    · exact hw m ⟨q, i, hat⟩
    · exact h hlimit

theorem openFor_allocated (hs : s.Allocated) (htbl : s.tables pid = some tbl)
    (hn : n < s.fresh) : (s.openFor pid n tbl flags).Allocated where
  refers_lt m := by
    rintro ⟨q, i, hat⟩
    rcases openFor_at htbl hat with hat | ⟨-, rfl⟩
    · exact hs.refers_lt m ⟨q, i, hat⟩
    · exact hn
  linked_lt := hs.linked_lt
  live_lt := hs.live_lt

theorem withSocket_live (h : s.live a) : s.withSocket.live a := by
  by_cases ha : a = s.fresh
  · exact ha ▸ update_self _ _ _
  · exact (update_of_ne ha _ _).trans h

section
variable (hs : s.Ok)
include hs

theorem withSocket_ok : s.withSocket.Ok where
  refers_lt n hn := Nat.lt_add_right 2 (hs.refers_lt n hn)
  linked_lt n hn := Nat.lt_add_right 2 (hs.linked_lt n hn)
  live_lt a ha := by
    by_cases h : a = s.fresh
    · exact h ▸ Nat.lt_add_of_pos_right Nat.two_pos
    · exact Nat.lt_add_right 2 (hs.live_lt a ((update_of_ne h _ _).symm.trans ha))
  typed n hn := by
    have hlt : n < s.fresh := hs.refers_lt n hn
    have hnode : s.withSocket.nodes n = s.nodes n := update_of_ne (Nat.ne_of_lt (Nat.lt_succ_of_lt hlt)) _ _
    rw [hnode]
    exact (hs.typed n hn).mono fun _ => withSocket_live

theorem newSocket_ok (htbl : s.tables pid = some tbl) : (s.newSocket pid tbl).Ok := by
  have hsocket := withSocket_ok hs
  refine ⟨openFor_allocated hsocket.toAllocated htbl (Nat.lt_succ_self _), (openFor_wellTyped hsocket.typed htbl).mpr fun _ => ?_⟩
  have hnode : s.withSocket.nodes (s.fresh + 1) = ⟨5, some s.fresh⟩ := update_self _ _ _
  rw [hnode, TypedNode.typed_some]
  exact fun _ => update_self _ _ _

theorem unixBind_ok {socket found : Option Nat} {creator : Creator} : (s.unixBind socket creator found).Ok := by
  have hc := (creat_grows creator 5).ok hs
  cases found with
  | none => exact hc
  | some n =>
    refine { hc with typed := (setNode_wellTyped hc.typed).mpr fun _ => ?_ }
    -- 4 is not the type of a socket
    exact TypedNode.typed_of_not_isSocket (by simp [TypedNode.isSocket])

end

theorem mounted_typed {fs : FileSystem} {entries : Bool} (hs : s.Allocated) :
    (s.mounted x fs entries).Typed s.live ↔ (x.isSocket → fs = .rootfs ∨ fs = .cpio ∧ entries) := by
  have hpriv : (⟨x.flags, some s.fresh⟩ : TypedNode).Typed s.live ↔ ¬x.isSocket := by
    rw [TypedNode.typed_some, hs.live_fresh, TypedNode.isSocket]
    simp
  cases fs with
  | rootfs => simpa [mounted] using TypedNode.typed_of_not_isSocket (by simp [TypedNode.isSocket])
  | devfs => simp [mounted, TypedNode.typed_none, TypedNode.isSocket]
  | cpio =>
    cases entries with
    | true => simpa [mounted] using TypedNode.typed_of_not_isSocket (by simp [TypedNode.isSocket])
    | false => simpa [mounted] using hpriv
  | tmpfs | iso9660 | ext2 | vfat => simpa [mounted] using hpriv

theorem sysClose_live (h : (s.sysClose pid fd tbl n).live a) : s.live a := by
  cases hpriv : (s.nodes n).priv with
  | none => simpa only [sysClose, hpriv] using h
  | some b =>
    simp only [sysClose, hpriv] at h
    split at h
    · by_cases hab : a = b
      · subst hab
        rw [update_self] at h
        cases h
      · exact (update_of_ne hab _ _).symm.trans h
    · exact h

theorem sysClose_allocated (hs : s.Allocated) (htbl : s.tables pid = some tbl) :
    (s.sysClose pid fd tbl n).Allocated where
  refers_lt := by
    rintro m ⟨q, i, hat⟩
    exact hs.refers_lt m ⟨q, i, ((sysClose_at htbl).mp hat).2⟩
  linked_lt := hs.linked_lt
  live_lt a ha := hs.live_lt a (sysClose_live ha)

theorem sysClose_wellTyped (hw : s.WellTyped) (htbl : s.tables pid = some tbl)
    (hn : s.Refers n) : (s.sysClose pid fd tbl n).WellTyped ↔
      ((s.nodes n).isSocket → ∀ q i m, (q, i) ≠ (pid, fd) → s.At q i m → (s.nodes m).isSocket →
        (s.nodes m).priv ≠ (s.nodes n).priv) := by
  have hsub : ∀ m, (s.sysClose pid fd tbl n).Refers m ↔ ∃ q i, (q, i) ≠ (pid, fd) ∧ s.At q i m := by
    intro m
    simp only [Refers, sysClose_at htbl]
  cases hsock : (s.nodes n).isSocket with
  | false =>
    have hlive : (s.sysClose pid fd tbl n).live = s.live := by
      simp only [sysClose, hsock]
      split <;> rfl
    refine iff_of_true ?_ nofun
    intro m hm
    obtain ⟨q, i, -, hat⟩ := (hsub m).mp hm
    rw [hlive]
    exact hw m ⟨q, i, hat⟩
  | true =>
    obtain ⟨a, ha, hla⟩ := hw n hn hsock
    have hlive : (s.sysClose pid fd tbl n).live = update s.live a false := by
      simp only [sysClose, hsock, ha, if_true]
    rw [forall_prop_of_true rfl]
    constructor
    · intro h q i m hne hat hm heq
      obtain ⟨b, hb, hlb⟩ := h m ((hsub m).mpr ⟨q, i, hne, hat⟩) hm
      have hab : b = a := some_inj.mp (hb.symm.trans (heq.trans ha))
      rw [hlive, hab, update_self] at hlb
      cases hlb
    · intro h m hm hsm
      obtain ⟨q, i, hne, hat⟩ := (hsub m).mp hm
      obtain ⟨b, hb, hlb⟩ := hw m ⟨q, i, hat⟩ hsm
      refine ⟨b, hb, ?_⟩
      rw [hlive, update_of_ne]
      · exact hlb
      · rintro rfl
        exact h q i m hne hat hsm (hb.trans ha.symm)

/-- A call that makes no descriptor of the type of a socket without a live `Socket`:
    * an open that the table has room for is of a node that has its `Socket`, unless it is refused as a directory;
    * `fcntl` sets the type of a socket only on a node that has one;
    * a mount on an open node of that type gives it another type;
    * a close of such a node is the last one for its `Socket`. -/
def Keeps (s : NodeTypes) : Op → Prop
  | .open pid n flags => ∀ tbl, s.tables pid = some tbl → tbl.nextFd < FdTable.openLimit →
      (flags &&& 0x200000 = 0x200000 ∨ (s.nodes n).flags &&& 2 ≠ 2) → (s.nodes n).Typed s.live
  | .fcntl pid fd cmd arg => ∀ n, fd < FdTable.slots → s.At pid fd n → cmd = 4 → (s.nodes n).isSocket = false →
      arg.setWidth 32 &&& 5#32 = 5#32 → ∃ a, (s.nodes n).priv = some a ∧ s.live a = true
  | .mount n _ fs entries => s.Refers n → (s.nodes n).isSocket = true → fs = .rootfs ∨ fs = .cpio ∧ entries = true
  | .close pid fd accessable => ∀ n, fd < FdTable.slots → s.At pid fd n → accessable = true →
      (s.nodes n).isSocket = true → ∀ q i m, (q, i) ≠ (pid, fd) → s.At q i m → (s.nodes m).isSocket = true →
      (s.nodes m).priv ≠ (s.nodes n).priv
  | .creat .. | .socket _ | .bind .. | .accept .. => True

theorem onNode_cases {call : FdTable → Nat → Option NodeTypes} (h : s.onNode pid fd call = some t) :
    (t = s ∧ ∀ n, fd < slots → ¬s.At pid fd n) ∨
      ∃ tbl n, s.tables pid = some tbl ∧ fd < slots ∧ s.At pid fd n ∧ call tbl n = some t := by
  obtain ⟨tbl, htbl, h⟩ := bind_eq_some_iff.mp h
  split at h
  next hd =>
    cases h
    refine .inl ⟨rfl, ?_⟩
    rintro n - ⟨tbl', d, htbl', hd', -⟩
    cases htbl.symm.trans htbl'
    cases hd.symm.trans hd'
  next d hd =>
    split at h
    next hfd => exact .inr ⟨tbl, d.node, htbl, hfd, ⟨tbl, d, htbl, hd, rfl⟩, h⟩
    next hfd =>
      cases h
      exact .inl ⟨rfl, fun n hlt => absurd hlt hfd⟩

theorem At.unique (h : s.At q i n) (h' : s.At q i m) : n = m := by
  obtain ⟨tbl, d, ht, hd, rfl⟩ := h
  obtain ⟨tbl', d', ht', hd', rfl⟩ := h'
  cases ht.symm.trans ht'
  cases hd.symm.trans hd'
  rfl

theorem At.refers (h : s.At q i n) : s.Refers n := ⟨q, i, h⟩

theorem sysFcntl_allocated (hs : s.Allocated) : (s.sysFcntl n cmd arg).Allocated := by
  rw [sysFcntl]
  split
  · exact { hs with }
  · exact hs

theorem sysFcntl_wellTyped (hw : s.WellTyped) (hn : s.Refers n) :
    (s.sysFcntl n cmd arg).WellTyped ↔ (cmd = 4 → (s.nodes n).isSocket = false → arg.setWidth 32 &&& 5#32 = 5#32 →
      ∃ a, (s.nodes n).priv = some a ∧ s.live a) := by
  rw [sysFcntl]
  split
  next h =>
    rw [setNode_wellTyped hw, forall_prop_of_true hn, forall_prop_of_true h.1,
      forall_prop_of_true (Bool.not_eq_true _ ▸ h.2)]
    simp only [TypedNode.Typed, TypedNode.isSocket, decide_eq_true_eq]
    exact Iff.rfl
  next h =>
    refine iff_of_true hw fun hcmd hsock => absurd ⟨hcmd, ?_⟩ h
    simp [hsock]

theorem sysOpen_allocated {flags : BitVec 32} (hs : s.Allocated) (htbl : s.tables pid = some tbl)
    (hn : n < s.fresh) : (s.sysOpen pid n tbl flags).Allocated := by
  rw [sysOpen]
  split
  · exact hs
  · exact openFor_allocated hs htbl hn

theorem sysOpen_wellTyped {flags : BitVec 32} (hw : s.WellTyped) (htbl : s.tables pid = some tbl) :
    (s.sysOpen pid n tbl flags).WellTyped ↔ (tbl.nextFd < openLimit →
      (flags &&& 0x200000 = 0x200000 ∨ (s.nodes n).flags &&& 2 ≠ 2) → (s.nodes n).Typed s.live) := by
  rw [sysOpen]
  split
  next h =>
    refine iff_of_true hw fun _ hdir => ?_
    exact absurd h.2 (hdir.resolve_left h.1)
  next h =>
    rw [openFor_wellTyped hw htbl]
    refine imp_congr_right fun _ => ?_
    rw [forall_prop_of_true]
    exact Decidable.or_iff_not_imp_left.mpr fun h1 h2 => h ⟨h1, h2⟩

theorem step {op : Op} (h : s.Ok) (hexec : s.exec op = some t) : t.Allocated ∧ (t.WellTyped ↔ s.Keeps op) := by
  have hs := h.toAllocated
  have hw := h.typed
  cases op with
  | creat creator type =>
    cases hexec
    exact ((creat_grows creator type).ok h).settles trivial
  | «open» pid n flags =>
    obtain ⟨hlinked, hexec⟩ := ite_none_right_eq_some.mp hexec
    obtain ⟨tbl, htbl, rfl⟩ := map_eq_some_iff.mp hexec
    refine ⟨sysOpen_allocated hs htbl (hs.linked_lt n hlinked), ?_⟩
    rw [sysOpen_wellTyped hw htbl]
    simp only [Keeps, htbl, some_inj, forall_eq']
  | socket pid =>
    obtain ⟨tbl, htbl, rfl⟩ := map_eq_some_iff.mp hexec
    exact (newSocket_ok h htbl).settles trivial
  | bind pid fd creator found =>
    rw [exec] at hexec
    rcases onNode_cases hexec with ⟨rfl, -⟩ | ⟨tbl, n, htbl, -, -, hcall⟩
    · exact h.settles trivial
    obtain ⟨-, hcall⟩ := ite_none_right_eq_some.mp hcall
    cases hcall
    split
    · exact (unixBind_ok h).settles trivial
    · exact h.settles trivial
  | accept pid fd =>
    rw [exec] at hexec
    rcases onNode_cases hexec with ⟨rfl, -⟩ | ⟨tbl, n, htbl, -, -, ⟨⟩⟩
    · exact h.settles trivial
    · split
      · exact (newSocket_ok h htbl).settles trivial
      · exact h.settles trivial
  | fcntl pid fd cmd arg =>
    rw [exec] at hexec
    rcases onNode_cases hexec with ⟨rfl, hno⟩ | ⟨tbl, n, htbl, hfd, hat, ⟨⟩⟩
    · exact h.settles fun n hfd hat => absurd hat (hno n hfd)
    · refine ⟨sysFcntl_allocated hs, ?_⟩
      rw [sysFcntl_wellTyped hw hat.refers]
      exact ⟨fun h m _ hm => hm.unique hat ▸ h, fun h => h n hfd hat⟩
  | mount n isRoot fs entries =>
    obtain ⟨-, ⟨⟩⟩ := ite_none_right_eq_some.mp hexec
    constructor
    · exact ⟨fun m hm => Nat.lt_succ_of_lt (hs.refers_lt m hm), fun m hm => Nat.lt_succ_of_lt (hs.linked_lt m hm),
        fun a ha => Nat.lt_succ_of_lt (hs.live_lt a ha)⟩
    · exact (setNode_wellTyped hw).trans (forall_congr' fun _ => mounted_typed hs)
  | close pid fd accessable =>
    rw [exec] at hexec
    rcases onNode_cases hexec with ⟨rfl, hno⟩ | ⟨tbl, n, htbl, hfd, hat, ⟨⟩⟩
    · exact h.settles fun n hfd hat => absurd hat (hno n hfd)
    cases accessable with
    | false => exact h.settles nofun
    | true =>
      refine ⟨sysClose_allocated hs htbl, (sysClose_wellTyped hw htbl hat.refers).trans ?_⟩
      exact ⟨fun h m _ hm _ => hm.unique hat ▸ h, fun h => h n hfd hat rfl⟩

theorem start_at : ¬(start nodes fresh procs).At q i n := by
  rintro ⟨tbl, d, htbl, hd, -⟩
  obtain ⟨-, h⟩ := ite_none_right_eq_some.mp htbl
  cases h
  cases hd

theorem start_allocated :
    (start nodes fresh procs).Allocated where
  refers_lt := fun _ ⟨_, _, hat⟩ => absurd hat start_at
  linked_lt _ hn := of_decide_eq_true hn
  live_lt := nofun

/-- In every run, descriptors of the type of a socket have a live `Socket` exactly as long as the calls are those of
    `Keeps`. -/
theorem node_types_not_forged (nodes : Nat → TypedNode) (fresh : Nat) (procs : Nat → Bool) (ops : List Op) :
    Lts.Along exec (fun _ _ t => t.WellTyped) (start nodes fresh procs) ops ↔
      Lts.Along exec (fun s op _ => s.Keeps op) (start nodes fresh procs) ops := by
  refine Lts.along_iff Ok ⟨start_allocated, fun _ ⟨_, _, hat⟩ => absurd hat start_at⟩ (fun h hexec => (step h hexec).2)
    (fun h hexec hop => ?_) ops
  obtain ⟨hs, hiff⟩ := step h hexec
  exact ⟨hs, hiff.mpr hop⟩

/-- A file of `tmpfs` is created with the type of a socket and opened; its `priv_data` is a `TmpFSFile`. -/
theorem tmpfs_file_forged : ¬Lts.Along exec (fun _ _ t => t.WellTyped)
    (start (fun _ => ⟨2, none⟩) 1 fun pid => pid = 1) [.creat .tmpfs 5, .open 1 1 2] := by
  intro h
  obtain ⟨-, h⟩ := h _ rfl
  obtain ⟨hw, -⟩ := h _ rfl
  obtain ⟨a, ha, hlive⟩ := hw 1 ⟨1, 0, _, _, rfl, rfl, rfl⟩ rfl
  cases ha
  cases hlive

end NodeTypes
end HelinKern
