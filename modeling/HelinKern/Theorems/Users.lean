import HelinKern.Users

/-! Who gets past the checks of the reserved calls: a process without privileges and those it forks, as long as none of
    them writes 0 to its `uid`. -/

namespace HelinKern
open Function List Option

namespace Account

variable {a : Account} {signum v : Int}

theorem refusal_isSome_iff : (∀ call : ReservedCall, (call.refusal a).isSome) ↔ a.uid ≠ 0 := by
  constructor
  · intro h huid
    have hreboot := h .reboot
    simp [ReservedCall.refusal, huid] at hreboot
  · intro huid call
    cases call with
    | reboot => simp [ReservedCall.refusal, huid]
    | mount => simp [ReservedCall.refusal, huid]
    | settime clock =>
      by_cases hclock : clock = 0
      · simp [ReservedCall.refusal, huid, hclock]
      · simp [ReservedCall.refusal, hclock]

theorem store_uid (a : Account) (offset v : Int) : (a.store offset v).uid = if offset = uidOffset then v else a.uid := by
  unfold store
  split
  · rfl
  · split <;> rfl

-- entries are 24 bytes long, and the words of these two fields are not a multiple of 8 away from `uid`
theorem signalOffset_handler_ne (signum : Int) : signalOffset signum .handler ≠ uidOffset := by
  simp only [signalOffset, signalHandlersOffset, signalSize, SignalField.offset, uidOffset]
  omega

theorem signalOffset_exited_ne (signum : Int) : signalOffset signum .exited ≠ uidOffset := by
  simp only [signalOffset, signalHandlersOffset, signalSize, SignalField.offset, uidOffset]
  omega

theorem sysSignal_uid (a : Account) (signum handler : Int) : (a.sysSignal signum handler).uid = a.uid := by
  unfold sysSignal
  split
  · rfl
  · rw [store_uid, if_neg (signalOffset_handler_ne signum)]

theorem sysSigexit_uid (a : Account) (signum : Int) :
    (a.sysSigexit signum).uid = if signalOffset signum .blocked = uidOffset then 0 else a.uid := by
  unfold sysSigexit
  rw [store_uid, if_neg (signalOffset_exited_ne signum), store_uid]

/-- A `sys_sigaction` whose word `sa_flags` becomes the `uid`, with the value 0. -/
def ZeroesUid (sig : Int) (act : Option (Int × Int)) : Prop :=
  sig < 32 ∧ ∃ handler, act = some (handler, 0) ∧ signalOffset sig .flags = uidOffset

theorem sysSigaction_uid_ne (huid : a.uid ≠ 0) (sig : Int) (act : Option (Int × Int)) :
    (a.sysSigaction sig act).uid ≠ 0 ↔ ¬ZeroesUid sig act := by
  unfold sysSigaction ZeroesUid
  match act with
  | none =>
    refine iff_of_true huid ?_
    rintro ⟨-, handler, hact, -⟩
    cases hact
  | some (handler, flags) =>
    dsimp only
    split
    · refine iff_of_true huid ?_
      omega
    rename_i hlt
    rw [store_uid, store_uid, if_neg (signalOffset_handler_ne sig)]
    by_cases hhit : signalOffset sig .flags = uidOffset
    · simp [hhit, Int.not_le.mp hlt]
    · simp [hhit, huid]

end Account

namespace Users
open Account

variable {s t : Users} {pid q : Nat} {a : Account} {op : Op}

/-- No process of the family gets past the check of a reserved call. -/
def Confined (s : Users) : Prop :=
  ∀ q ∈ s.family, ∀ a, s.proc q = some a → ∀ call : ReservedCall, (call.refusal a).isSome

/-- What a call of a process of the family must not do. -/
def Keeps (s : Users) : Op → Prop
  | .setuid pid uid => pid ∈ s.family → uid ≠ 0
  | .sigaction pid sig act => pid ∈ s.family → ¬ZeroesUid sig act
  | .sigexit pid signum => pid ∈ s.family → signalOffset signum .blocked ≠ uidOffset
  | .setgid .. | .fork .. | .clone .. | .exec _ | .signal .. | .reserved .. | .exit _ => True

theorem confined_iff : s.Confined ↔ ∀ q ∈ s.family, ∀ a, s.proc q = some a → a.uid ≠ 0 := by
  unfold Confined
  simp only [refusal_isSome_iff]

structure Inv (s : Users) : Prop where
  confined : s.Confined
  alive : ∀ q ∈ s.family, s.proc q ≠ none

theorem start_inv {others : Nat → Option Account} (huid : a.uid ≠ 0) : (start pid a others).Inv := by
  have hproc : (start pid a others).proc pid = some a := update_self ..
  refine ⟨confined_iff.mpr fun q hq b hb => ?_, fun q hq => ?_⟩
  · obtain rfl := mem_singleton.mp hq
    rw [hproc] at hb
    exact some.inj hb ▸ huid
  · obtain rfl := mem_singleton.mp hq
    rw [hproc]
    nofun

theorem set_proc_self : (s.set pid a).proc pid = some a := update_self ..

theorem set_proc_of_ne (hq : q ≠ pid) : (s.set pid a).proc q = s.proc q := update_of_ne hq ..

variable {child : Nat}

theorem create_proc_self : (s.create pid child a).proc child = some a := update_self ..

theorem create_proc_of_ne (hq : q ≠ child) : (s.create pid child a).proc q = s.proc q :=
  update_of_ne hq ..

theorem mem_create_family (hq : q ∈ (s.create pid child a).family) : q = child ∧ pid ∈ s.family ∨ q ∈ s.family := by
  unfold create at hq
  split at hq
  · exact (mem_cons.mp hq).imp (fun h => ⟨h, ‹_›⟩) id
  · exact .inr hq

theorem Confined.set_iff (h : s.Confined) (a : Account) : (s.set pid a).Confined ↔ (pid ∈ s.family → a.uid ≠ 0) := by
  rw [confined_iff]
  constructor
  · intro h' hpid
    exact h' pid hpid a set_proc_self
  · intro hpid q hq b hb
    by_cases hqp : q = pid
    · subst hqp
      rw [set_proc_self] at hb
      exact some.inj hb ▸ hpid hq
    · rw [set_proc_of_ne hqp] at hb
      exact confined_iff.mp h q hq b hb

theorem Inv.set_alive (h : s.Inv) (a : Account) : ∀ q ∈ (s.set pid a).family, (s.set pid a).proc q ≠ none := by
  intro q hq
  by_cases hqp : q = pid
  · subst hqp
    rw [set_proc_self]
    nofun
  · rw [set_proc_of_ne hqp]
    exact h.alive q hq

theorem Inv.create (h : s.Inv) (ha : s.proc pid = some a) (hchild : s.proc child = none) :
    (s.create pid child a).Inv := by
  refine ⟨confined_iff.mpr fun q hq b hb => ?_, fun q hq => ?_⟩
  · by_cases hqc : q = child
    · subst hqc
      rw [create_proc_self] at hb
      obtain ⟨-, hpid⟩ | hold := mem_create_family hq
      · exact some.inj hb ▸ confined_iff.mp h.confined pid hpid a ha
      · exact absurd hchild (h.alive q hold)
    · rw [create_proc_of_ne hqc] at hb
      exact confined_iff.mp h.confined q ((mem_create_family hq).resolve_left fun hc => hqc hc.1) b hb
  · by_cases hqc : q = child
    · rw [hqc, create_proc_self]
      nofun
    · rw [create_proc_of_ne hqc]
      exact h.alive q ((mem_create_family hq).resolve_left fun hc => hqc hc.1)

theorem Inv.exit (h : s.Inv) (pid : Nat) :
    Inv ⟨update s.proc pid none, s.family.filter fun q => q ≠ pid⟩ := by
  have hmem : ∀ {q}, q ∈ s.family.filter (fun q => q ≠ pid) → q ∈ s.family ∧ q ≠ pid := by
    intro q hq
    simpa using mem_filter.mp hq
  refine ⟨confined_iff.mpr fun q hq b hb => ?_, fun q hq => ?_⟩
  · obtain ⟨hq, hne⟩ := hmem hq
    have hb : s.proc q = some b := (update_of_ne hne ..).symm.trans hb
    exact confined_iff.mp h.confined q hq b hb
  · obtain ⟨hq, hne⟩ := hmem hq
    exact fun hnone => h.alive q hq ((update_of_ne hne ..).symm.trans hnone)

def DecidedBy (t : Users) (q : Prop) : Prop := (t.Confined ↔ q) ∧ (q → t.Inv)

theorem Inv.decidedBy (h : t.Inv) {q : Prop} (hq : q) : t.DecidedBy q := ⟨iff_of_true h.confined hq, fun _ => h⟩

theorem Inv.write (h : s.Inv) {q : Prop} (hq : pid ∈ s.family → (a.uid ≠ 0 ↔ q)) :
    (s.set pid a).DecidedBy (pid ∈ s.family → q) := by
  have hiff : (s.set pid a).Confined ↔ (pid ∈ s.family → q) := (h.confined.set_iff a).trans (forall_congr' hq)
  exact ⟨hiff, fun hkeeps => ⟨hiff.mpr hkeeps, h.set_alive a⟩⟩

theorem Inv.uid_ne (h : s.Inv) (hpid : pid ∈ s.family) (ha : s.proc pid = some a) : a.uid ≠ 0 :=
  confined_iff.mp h.confined pid hpid a ha

theorem Inv.writeKept {b : Account} (h : s.Inv) (ha : s.proc pid = some a) (hb : b.uid = a.uid) :
    (s.set pid b).DecidedBy True := by
  have hwrite : (s.set pid b).DecidedBy (pid ∈ s.family → True) :=
    h.write fun hpid => iff_of_true (hb ▸ h.uid_ne hpid ha) trivial
  rwa [imp_true_iff] at hwrite

theorem Inv.step (h : s.Inv) (hexec : s.exec op = some t) : t.DecidedBy (s.Keeps op) := by
  cases op with
  | setuid pid uid =>
    obtain ⟨a, -, rfl⟩ := map_eq_some_iff.mp hexec
    exact h.write fun _ => Iff.rfl
  | setgid pid gid =>
    obtain ⟨a, ha, rfl⟩ := map_eq_some_iff.mp hexec
    exact h.writeKept ha rfl
  | fork pid child | clone pid child =>
    obtain ⟨hchild, hexec⟩ := ite_none_right_eq_some.mp hexec
    obtain ⟨a, ha, rfl⟩ := map_eq_some_iff.mp hexec
    exact (h.create ha hchild).decidedBy trivial
  | exec pid =>
    obtain ⟨a, -, rfl⟩ := map_eq_some_iff.mp hexec
    exact h.decidedBy trivial
  | signal pid signum handler =>
    obtain ⟨a, ha, rfl⟩ := map_eq_some_iff.mp hexec
    exact h.writeKept ha (sysSignal_uid a signum handler)
  | sigaction pid sig act =>
    obtain ⟨a, ha, rfl⟩ := map_eq_some_iff.mp hexec
    exact h.write fun hpid => sysSigaction_uid_ne (h.uid_ne hpid ha) sig act
  | sigexit pid signum =>
    obtain ⟨a, ha, rfl⟩ := map_eq_some_iff.mp hexec
    refine h.write fun hpid => ?_
    rw [sysSigexit_uid, ite_ne_left_iff, and_iff_left (h.uid_ne hpid ha).symm]
  | reserved pid call =>
    obtain ⟨a, -, hexec⟩ := bind_eq_some_iff.mp hexec
    split at hexec
    · cases hexec
    · cases hexec
      exact h.decidedBy trivial
  | exit pid =>
    obtain ⟨a, -, rfl⟩ := map_eq_some_iff.mp hexec
    exact (h.exit pid).decidedBy trivial

/-- A process without privileges and its children stay without them exactly as long as none of them writes 0 to its `uid`:
    by `sys_setuid`, or by a signal number below the array. -/
theorem no_privilege_gain (pid : Nat) (a : Account) (others : Nat → Option Account) (huid : a.uid ≠ 0) (ops : List Op) :
    Lts.Along exec (fun _ _ t => t.Confined) (start pid a others) ops ↔
      Lts.Along exec (fun s op _ => s.Keeps op) (start pid a others) ops :=
  Lts.along_iff Inv (start_inv huid) (fun h hexec => (h.step hexec).1) (fun h hexec => (h.step hexec).2) ops

/-- A user's process forks, and the child takes another user's `uid` and fails to mount. -/
theorem no_privilege_gain_fork :
    Lts.Along exec (fun _ _ t => t.Confined) (start 5 ⟨1000, 1000⟩ fun _ => none)
      [.fork 5 6, .setuid 6 1001, .reserved 6 .mount] := by
  refine (no_privilege_gain 5 ⟨1000, 1000⟩ _ (by decide) _).mpr ?_
  rintro s ⟨rfl⟩
  refine ⟨trivial, ?_⟩
  rintro s ⟨rfl⟩
  refine ⟨fun _ => by decide, ?_⟩
  rintro s ⟨rfl⟩
  exact ⟨trivial, trivial⟩

/-- Any process may call `sys_setuid(0)`. -/
theorem setuid_gains_privilege :
    ¬Lts.Along exec (fun _ _ t => t.Confined) (start 5 ⟨1000, 1000⟩ fun _ => none) [.setuid 5 0] := by
  intro h
  obtain ⟨hconfined, -⟩ := h _ rfl
  exact absurd (hconfined 5 (by decide) ⟨0, 1000⟩ rfl .reboot) (by decide)

end Users
end HelinKern
