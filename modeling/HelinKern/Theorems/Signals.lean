import HelinKern.Theorems.Syscall

/-! Signals of a process: each one sent is in its queue or was delivered once, unless `sys_sigexit` takes
    another signal from the queue than the one whose handler ends. -/

namespace HelinKern
variable {code : Int} {signum q p : Nat} {k k' : Kernel}

namespace Kernel
open Lts List Option

/-- A live user process all of whose pending signals it has handlers for, or that do not kill it. -/
structure Receiver (p : Nat) (k : Kernel) : Prop where
  live : (k.proc p).died = false
  type : (k.proc p).type = .process
  user : (k.proc p).userProcess = true
  pending : ∀ num ∈ (k.proc p).signalQueue, nsignals ≤ num ∨ num = 20 ∨ ((k.proc p).signalHandlers num).handler ≠ 0

def balance (p s : Nat) (k : Kernel) : Int :=
  k.sent.count (p, s) - k.delivered.count (p, s) - (k.proc p).signalQueue.count s

/-- `p` has a handler for `s`, and of the signals `s` that were sent to it all but `n` are in its queue or were delivered. -/
structure SignalInv (p s : Nat) (n : Int) (k : Kernel) : Prop extends Receiver p k where
  handled : ((k.proc p).signalHandlers s).handler ≠ 0
  balance : balance p s k = n

structure SameSignals (p : Nat) (k k' : Kernel) : Prop where
  died : (k'.proc p).died = (k.proc p).died
  type : (k'.proc p).type = (k.proc p).type
  user : (k'.proc p).userProcess = (k.proc p).userProcess
  handler : ∀ num, ((k'.proc p).signalHandlers num).handler = ((k.proc p).signalHandlers num).handler

/-! ### What happens to the signals of a process -/

section Effect
variable {p q s : Nat} {k k' : Kernel}

/-- Only what the scheduler needs of `p` is changed. -/
def Shifted (p : Nat) (k k' : Kernel) : Prop := ∃ quota started state, k'.proc p = { k.proc p with quota, started, state }

theorem Shifted.of_proc (h : k'.proc p = k.proc p) : Shifted p k k' := ⟨_, _, _, h⟩

theorem Shifted.modify (k : Kernel) (p q : Nat) {f : Process → Process}
    (h : ∀ x, ∃ quota started state, f x = { x with quota, started, state }) : Shifted p k (k.modify q f) := by
  rw [Shifted, modify_proc]
  split
  · exact h _
  · exact ⟨_, _, _, rfl⟩

theorem Shifted.same (h : Shifted p k k') : SameSignals p k k' := by
  obtain ⟨_, _, _, h⟩ := h
  exact ⟨by rw [h], by rw [h], by rw [h], fun _ => by rw [h]⟩

structure Handles (p s : Nat) (k : Kernel) : Prop where
  lt : s < nsignals
  user : (k.proc p).userProcess = true
  handler : ((k.proc p).signalHandlers s).handler ≠ 0

theorem balance_congr (hqueue : (k'.proc p).signalQueue.count s = (k.proc p).signalQueue.count s) (hsent : k'.sent = k.sent)
    (hdel : k'.delivered.count (p, s) = k.delivered.count (p, s)) : balance p s k' = balance p s k := by
  unfold balance
  rw [hqueue, hsent, hdel]

/-- A part of a call and the signal `s` of `p`: the signal is delivered, or only sent and queued, or `p` dies. -/
inductive Effect (p s : Nat) (k k' : Kernel) : Prop
  | keep (same : SameSignals p k k') (delivered : k'.delivered.count (p, s) = k.delivered.count (p, s))
      (blocked : ((k'.proc p).signalHandlers s).blocked = ((k.proc p).signalHandlers s).blocked)
      (balance : Handles p s k → balance p s k' = balance p s k)
  | deliver (same : SameSignals p k k') (handles : Handles p s k)
      (delivered : k'.delivered.count (p, s) = k.delivered.count (p, s) + 1)
      (free : ((k.proc p).signalHandlers s).blocked = false) (blocked : ((k'.proc p).signalHandlers s).blocked = true)
      (balance : balance p s k' = balance p s k)
  | die (died : (k'.proc p).died = true) (user : (k'.proc p).userProcess = (k.proc p).userProcess)
      (handlers : (k'.proc p).signalHandlers = (k.proc p).signalHandlers) (delivered : k'.delivered = k.delivered)

theorem Effect.of_shifted (h : Shifted p k k') (hsent : k'.sent = k.sent)
    (hdel : k'.delivered.count (p, s) = k.delivered.count (p, s)) : Effect p s k k' := by
  have hsame := h.same
  obtain ⟨_, _, _, h⟩ := h
  exact .keep hsame hdel (by rw [h]) fun _ => balance_congr (by rw [h]) hsent hdel

theorem Effect.of_proc (h : k'.proc p = k.proc p) (hsent : k'.sent = k.sent)
    (hdel : k'.delivered.count (p, s) = k.delivered.count (p, s)) : Effect p s k k' := .of_shifted (.of_proc h) hsent hdel

theorem takeSignal_effect (k : Kernel) (p q s : Nat) : Effect p s k (k.takeSignal q) := by
  by_cases hq : p = q
  · subst hq
    unfold takeSignal
    cases hqueue : (k.proc p).signalQueue with
    | nil => exact .of_proc rfl rfl rfl
    | cons num rest =>
      -- a signal that is dropped is not `s` if that has a handler
      have hdrop : ¬(num = s ∧ Handles p s k) → Effect p s k (k.modify p fun q => { q with signalQueue := rest }) := by
        intro hno
        refine .keep ⟨by rw [modify_self], by rw [modify_self], by rw [modify_self], fun _ => by rw [modify_self]⟩ rfl
          (by rw [modify_self]) fun hh => balance_congr ?_ rfl rfl
        rw [modify_self, hqueue, count_cons_of_ne fun h => hno ⟨h, hh⟩]
      simp only
      split
      next hbig => exact hdrop fun h => Nat.not_lt.mpr hbig (h.1 ▸ h.2.lt)
      rename_i hlt
      split
      next hzero => exact hdrop fun h => h.2.handler (h.1 ▸ hzero)
      rename_i hhandler
      split
      next huser =>
        split
        · refine .keep ⟨?_, ?_, ?_, fun _ => ?_⟩ rfl ?_ fun _ => balance_congr ?_ rfl rfl <;> simp only [modify_self]
          rw [hqueue, (perm_append_singleton num rest).count_eq]
        rename_i hfree
        have hsame : SameSignals p k { (k.modify p fun q => { q with signalQueue := rest }).modify p (·.block num) with
            delivered := (p, num) :: k.delivered } := by
          refine ⟨?_, ?_, ?_, fun x => ?_⟩
          · simp only [modify_self, Process.block]
          · simp only [modify_self, Process.block]
          · simp only [modify_self, Process.block]
          · simp only [modify_self, Process.block, Function.update_apply]
            split
            next hx => rw [hx]
            · rfl
        have hbalance : balance p s { (k.modify p fun q => { q with signalQueue := rest }).modify p (·.block num) with
            delivered := (p, num) :: k.delivered } = balance p s k := by
          simp only [balance, modify_self, modify_sent, Process.block]
          rw [hqueue, count_cons, count_cons]
          simp only [beq_iff_eq, Prod.mk.injEq, true_and]
          omega
        by_cases hs : num = s
        · subst hs
          refine .deliver hsame ⟨Nat.lt_of_not_le hlt, huser, hhandler⟩ count_cons_self ?_ ?_ hbalance
          · exact Bool.eq_false_iff.mpr hfree
          · simp [Process.block]
        · refine .keep hsame (count_cons_of_ne ?_) ?_ fun _ => hbalance
          · exact fun h => hs (congrArg Prod.snd h)
          · simp [Process.block, Function.update_of_ne (Ne.symm hs)]
      next huser => exact hdrop fun h => huser h.2.user
  · obtain ⟨_, _, log, h, -, hlog⟩ := takeSignal_eq k q
    refine .of_proc (takeSignal_of_ne hq) (by rw [h]; rfl) ?_
    have hnone : (p, s) ∉ log := fun hmem => hq (hlog _ hmem)
    rw [h, count_append, count_eq_zero_of_not_mem hnone, Nat.zero_add]

theorem Killed.effect (h : Killed k q code k') : Effect p s k k' := by
  by_cases hq : p = q
  · subst hq
    exact .die h.dead.died h.dead.userProcess h.dead.signalHandlers h.delivered
  have hcore := h.core p hq
  refine .keep ⟨hcore.died, hcore.type, hcore.userProcess, fun _ => by rw [hcore.signalHandlers]⟩ (by rw [h.delivered])
    (by rw [hcore.signalHandlers]) fun _ => ?_
  have hnotice : (notice (k.proc q).parent).count (p, s) =
      (if (k.proc q).parent = some p then [20] else []).count s := by
    cases hpar : (k.proc q).parent with
    | none => rfl
    | some par =>
      by_cases hp : par = p
      · subst hp
        simp [notice, count_singleton]
      · simp [notice, hp]
  unfold balance
  rw [h.sent, h.delivered, h.signalQueue, if_neg hq, count_append, count_append]
  omega

theorem enqueueSignal_effect (k : Kernel) (p q num s : Nat) : Effect p s k (k.enqueueSignal q num) := by
  have hproc := enqueueSignal_proc k q num p
  refine .keep ⟨by rw [hproc], by rw [hproc], by rw [hproc], fun _ => by rw [hproc]⟩ rfl (by rw [hproc]) fun _ => ?_
  show (((q, num) :: k.sent).count (p, s) : Int) - k.delivered.count (p, s) - _ = _
  have hone : (if p = q then [num] else []).count s = if ((q, num) == (p, s)) = true then 1 else 0 := by
    by_cases hpq : p = q
    · subst hpq
      simp [count_singleton]
    · simp [hpq, Ne.symm hpq]
  rw [hproc, count_cons, count_append]
  unfold balance
  omega

theorem quota_shifted (k : Kernel) (p q quota : Nat) (started : Bool) :
    Shifted p k (k.modify q fun r => { r with quota, started }) := .modify k p q fun _ => ⟨_, _, _, rfl⟩

theorem woken_shifted (k : Kernel) (p q : Nat) : Shifted p k (k.woken q) :=
  Shifted.modify k p q (f := fun r => { r with state := .running }) fun _ => ⟨_, _, _, rfl⟩

theorem threadForceSwitch_shifted (k : Kernel) (p : Nat) : Shifted p k k.threadForceSwitch := by
  obtain ⟨quota, hproc⟩ := threadForceSwitch_proc k p
  exact ⟨_, _, _, hproc⟩

theorem threadForceSwitch_effect (k : Kernel) (p s : Nat) : Effect p s k k.threadForceSwitch := by
  obtain ⟨proc, hsame⟩ := threadForceSwitch_same k
  exact .of_shifted (threadForceSwitch_shifted k p) (congrArg sent hsame :) (by rw [hsame])

theorem sigexitQueue_perm {queue : List Nat} (h : queue = [] ∨ queue.head? = some signum) :
    (sigexitQueue signum queue).Perm queue := by
  cases queue with
  | nil => exact .rfl
  | cons n rest =>
    have hn : n = signum := by simpa using h
    rw [sigexitQueue, if_pos hn]
    exact perm_append_singleton n rest

end Effect

namespace SignalInv
variable {p s : Nat} {n : Int} {k k' : Kernel}

section
variable (inv : SignalInv p s n k)
include inv

theorem handles (hs : s < nsignals) : Handles p s k := ⟨hs, inv.user, inv.handled⟩

theorem of_same (h : SameSignals p k k')
    (hpending : ∀ num ∈ (k'.proc p).signalQueue, num ∈ (k.proc p).signalQueue ∨ nsignals ≤ num ∨ num = 20 ∨
      ((k.proc p).signalHandlers num).handler ≠ 0)
    (hbalance : Kernel.balance p s k' = Kernel.balance p s k) : SignalInv p s n k' where
  live := h.died.trans inv.live
  type := h.type.trans inv.type
  user := h.user.trans inv.user
  handled := h.handler s ▸ inv.handled
  pending num hnum := by
    rw [h.handler]
    exact (hpending num hnum).elim (inv.pending num) id
  balance := hbalance.trans inv.balance

theorem of_effect (hs : s < nsignals) (h : Effect p s k k') (hlive : (k'.proc p).died = false)
    (hpending : ∀ num ∈ (k'.proc p).signalQueue, num ∈ (k.proc p).signalQueue ∨ nsignals ≤ num ∨ num = 20 ∨
      ((k.proc p).signalHandlers num).handler ≠ 0) : SignalInv p s n k' := by
  cases h with
  | keep same _ _ hbalance => exact inv.of_same same hpending (hbalance (inv.handles hs))
  | deliver same _ _ _ _ hbalance => exact inv.of_same same hpending hbalance
  | die hdied =>
    rw [hlive] at hdied
    cases hdied

theorem shifted (h : Shifted p k k') (hsent : k'.sent = k.sent) (hdel : k'.delivered = k.delivered) : SignalInv p s n k' := by
  have hsame := h.same
  obtain ⟨_, _, _, h⟩ := h
  have hqueue : (k'.proc p).signalQueue = (k.proc p).signalQueue := by rw [h]
  exact inv.of_same hsame (fun _ hnum => .inl (hqueue ▸ hnum)) (balance_congr (by rw [hqueue]) hsent (by rw [hdel]))

theorem forceSwitch : SignalInv p s n k.threadForceSwitch := by
  obtain ⟨proc, hsame⟩ := threadForceSwitch_same k
  exact inv.shifted (threadForceSwitch_shifted k p) (congrArg sent hsame :) (congrArg delivered hsame :)

theorem calm : fatalHead (k.proc p) = false := by
  unfold fatalHead
  cases hs : (k.proc p).signalQueue with
  | nil => rfl
  | cons num rest =>
    rcases inv.pending num (hs ▸ mem_cons_self) with h | h | h
    · simp [Nat.not_lt.mpr h]
    · simp [h]
    · simp [h]

end

/-! ### The scheduler -/

section
variable (inv : SignalInv p s n k) (hs : s < nsignals)
include inv hs

theorem killed (hq : q ≠ p) (h : Killed k q code k') : SignalInv p s n k' := by
  refine inv.of_effect hs h.effect ((h.core p hq.symm).died.trans inv.live) fun num hnum => ?_
  rw [h.signalQueue, if_neg hq.symm] at hnum
  rcases mem_append.mp hnum with hnum | hnum
  · exact .inl hnum
  · split at hnum
    · exact .inr (.inr (.inl (mem_singleton.mp hnum)))
    · cases hnum

theorem move (h : Move k k') : SignalInv p s n k' := by
  cases h with
  | quota => exact inv.shifted (quota_shifted ..) rfl rfl
  | push | run => exact inv.shifted (.of_proc rfl) rfl rfl
  | pick hpick =>
    obtain ⟨ring, rfl⟩ := pickTask_queue hpick
    exact inv.shifted (.of_proc rfl) rfl rfl
  | take =>
    refine inv.of_effect hs (takeSignal_effect ..) ?_ fun num hnum => .inl (takeSignal_signal _ _ _ num hnum)
    exact (takeSignal_life ..).died.trans inv.live
  | @fatal _ q _ rest _ hfatal hkill =>
    have hq : q ≠ p := by
      rintro rfl
      rw [inv.calm] at hfatal
      cases hfatal
    have hproc := modify_of_ne k q p (fun r => { r with signalQueue := rest }) hq.symm
    exact (inv.shifted (.of_proc hproc) rfl rfl).killed hs hq hkill
  | orphan htype _ _ hkill =>
    refine inv.killed hs ?_ hkill
    rintro rfl
    rw [inv.type] at htype
    cases htype

theorem schedule {r : Scheduled} (h : k.threadSchedule = .ok (k', r)) : SignalInv p s n k' :=
  (threadSchedule_moves h).invariant (SignalInv p s n) (fun inv hm => inv.move hs hm) inv

theorem enqueueSignal {num : Nat} (hnum : q = p → ((k.proc p).signalHandlers num).handler ≠ 0) :
    SignalInv p s n (k.enqueueSignal q num) := by
  refine inv.of_effect hs (enqueueSignal_effect ..) ((enqueueSignal_life ..).died.trans inv.live) fun x hx => ?_
  rw [enqueueSignal_proc] at hx
  rcases mem_append.mp hx with hx | hx
  · exact .inl hx
  split at hx
  next hpq =>
    rw [mem_singleton.mp hx]
    exact .inr (.inr (.inr (hnum hpq.symm)))
  · cases hx

theorem sysKill {pid sig res : Int} (hhandled : k.threadGetThread pid = some p →
      1 ≤ sig ∧ sig < 32 ∧ sig ≠ 9 ∧ ((k.proc p).signalHandlers sig.toNat).handler ≠ 0)
    (h : k.sysKill pid sig = .ok (res, k')) : SignalInv p s n k' := by
  rcases sysKill_ok h with ⟨rfl, -⟩ | ⟨prc, hprc, -, -, ⟨hsig, hk⟩ | ⟨-, -, -, hsend⟩⟩
  · exact inv
  · refine inv.killed hs ?_ hk
    rintro rfl
    obtain ⟨hpos, -, hne, -⟩ := hhandled hprc
    omega
  · obtain ⟨k₁, k₂, hwake, hkill, rfl⟩ := sendSignal_ok hsend
    have hnum : prc = p → ((k.proc p).signalHandlers (sig % 4294967296).toNat).handler ≠ 0 := by
      rintro rfl
      obtain ⟨hpos, hlt, -, hh⟩ := hhandled hprc
      rwa [Int.emod_eq_of_lt (by omega) (by omega)]
    have hk₁ : SignalInv p s n k₁ := by
      rcases hwake with ⟨rfl, -⟩ | ⟨rfl, -⟩
      · exact inv.enqueueSignal hs hnum
      · exact (inv.enqueueSignal hs hnum).shifted (woken_shifted ..) rfl rfl
    rcases hkill with rfl | ⟨rfl, hzero, hkill⟩
    · exact hk₁.forceSwitch
    · refine (hk₁.killed hs ?_ hkill).forceSwitch
      rintro rfl
      exact (hhandled hprc).2.2.2 hzero

end

theorem sysSigexit (inv : SignalInv p s n k)
    (hkept : k.caller = p → (k.proc p).signalQueue = [] ∨ (k.proc p).signalQueue.head? = some signum) :
    SignalInv p s n (k.sysSigexit signum) := by
  obtain ⟨⟨proc, hsame⟩, hproc⟩ := sysSigexit_eq k signum
  obtain ⟨exited, quota, hproc⟩ := hproc p
  have hqueue : ((k.sysSigexit signum).proc p).signalQueue.Perm (k.proc p).signalQueue := by
    rw [hproc]
    split
    next hc => exact sigexitQueue_perm (hkept hc.symm)
    · exact .rfl
  refine inv.of_same ⟨?_, ?_, ?_, fun num => ?_⟩ (fun num hnum => .inl (hqueue.mem_iff.mp hnum))
    (balance_congr (hqueue.count_eq s) (congrArg sent hsame :) (by rw [hsame]))
  · rw [hproc]
    split <;> rfl
  · rw [hproc]
    split <;> rfl
  · rw [hproc]
    split <;> rfl
  · rw [hproc]
    split
    · simp only [Function.update_apply]
      split
      next hnum => rw [hnum]
      · rfl
    · rfl

end SignalInv

/-- The calls that send and take signals. -/
def Call.signals : Call → Bool
  | .sysKill _ _ | .schedule _ | .sigexit _ => true
  | _ => false

/-- Only signals `p` has a handler for are sent to it. -/
structure SignalStep (p : Nat) (k : Kernel) (c : Call) (k' : Kernel) : Prop where
  step : Step k c k'
  call : c.signals
  handled : ∀ pid sig, c = .sysKill pid sig → k.threadGetThread pid = some p →
    1 ≤ sig ∧ sig < 32 ∧ sig ≠ 9 ∧ ((k.proc p).signalHandlers sig.toNat).handler ≠ 0

/-- When a handler of `p` ends, nothing is pending, or the same signal next. -/
structure KeptStep (p : Nat) (k : Kernel) (c : Call) (k' : Kernel) : Prop extends SignalStep p k c k' where
  kept : ∀ signum, c = .sigexit signum → k.caller = p →
    (k.proc p).signalQueue = [] ∨ (k.proc p).signalQueue.head? = some signum

variable {c : Call}

theorem SignalInv.step {s : Nat} {n : Int} (inv : SignalInv p s n k) (hs : s < nsignals) (h : KeptStep p k c k') :
    SignalInv p s n k' := by
  cases h.step with
  | schedule hsched => exact inv.schedule hs hsched
  | sysKill hk => exact inv.sysKill hs (h.handled _ _ rfl) hk
  | sigexit => exact inv.sysSigexit (h.kept _ rfl)
  | create | kill | nice | clone | waitpid | waitpidAny => cases h.call

def signalCheck (p : Nat) (k : Kernel) (c : Call) (_ : Kernel) : Bool :=
  match c with
  | .sysKill pid sig => k.threadGetThread pid = some p →
      1 ≤ sig ∧ sig < 32 ∧ sig ≠ 9 ∧ ((k.proc p).signalHandlers sig.toNat).handler ≠ 0
  | c => c.signals

theorem signalStep_of_check (h : Step k c k' ∧ signalCheck p k c k') :
    SignalStep p k c k' := by
  obtain ⟨hstep, hcheck⟩ := h
  cases c with
  | sysKill pid sig =>
    refine ⟨hstep, rfl, fun _ _ hc => ?_⟩
    cases hc
    exact of_decide_eq_true hcheck
  | create | schedule | kill | nice | sigexit | clone | waitpid =>
    exact ⟨hstep, hcheck, fun _ _ hc => by cases hc⟩

def keptCheck (p : Nat) (k : Kernel) (c : Call) (k' : Kernel) : Bool :=
  signalCheck p k c k' && match c with
    | .sigexit signum => k.caller = p → (k.proc p).signalQueue = [] ∨ (k.proc p).signalQueue.head? = some signum
    | _ => true

theorem keptStep_of_check (h : Step k c k' ∧ keptCheck p k c k') :
    KeptStep p k c k' := by
  obtain ⟨hsignal, hkept⟩ := Bool.and_eq_true_iff.mp h.2
  refine ⟨signalStep_of_check ⟨h.1, hsignal⟩, fun signum hc => ?_⟩
  subst hc
  exact of_decide_eq_true hkept

/-- Process 2 runs, with handlers for the signals 10 and 12. -/
def handling : Option Kernel :=
  (threadInit.toOption.bind (Run.execAll exec (fun _ _ _ => true) · twoTasks)).map fun k =>
    (k.sysSignal 10 0x40001000).sysSignal 12 0x40001000

theorem handling_receiver (h : handling = some k) :
    Receiver 2 k ∧ ((k.proc 2).signalHandlers 10).handler ≠ 0 ∧ k.sent = [] ∧ k.delivered = [] ∧ (k.proc 2).signalQueue = [] := by
  have heval : handling.map (fun k => (decide ((k.proc 2).died = false ∧ (k.proc 2).type = .process ∧
      (k.proc 2).userProcess ∧ ((k.proc 2).signalHandlers 10).handler ≠ 0 ∧ k.sent = [] ∧ k.delivered = [] ∧
      (k.proc 2).signalQueue = []))) = some true := by decide +kernel
  rw [h] at heval
  obtain ⟨hlive, htype, huser, h10, hsent, hdel, hqueue⟩ := of_decide_eq_true (some.inj heval)
  exact ⟨⟨hlive, htype, huser, by rw [hqueue]; exact fun _ h => by cases h⟩, h10, hsent, hdel, hqueue⟩

/-- The signals `s` delivered to `p` and in its queue are those that were there at first and those sent
    since, in every state that is reached while `sys_sigexit` finds no other signal next in the queue. -/
theorem signals_conserved {p s : Nat} {k₀ k : Kernel} {calls : List Call} (hs : s < nsignals) (hp : Receiver p k₀)
    (hhandler : ((k₀.proc p).signalHandlers s).handler ≠ 0) (hrun : Run (KeptStep p) k₀ calls k) :
    k.delivered.count (p, s) + (k.proc p).signalQueue.count s + k₀.sent.count (p, s) =
      k₀.delivered.count (p, s) + (k₀.proc p).signalQueue.count s + k.sent.count (p, s) := by
  have inv : SignalInv p s _ k₀ := ⟨hp, hhandler, rfl⟩
  have := (hrun.invariant (SignalInv p s _) inv fun inv h => inv.step hs h).balance
  unfold balance at this
  omega

/-- Signal 10 is sent twice, and its handler ends once. -/
theorem signals_conserved_twice :
    ∃ k₀ k, handling = some k₀ ∧ Run (KeptStep 2) k₀ [.sysKill 2 10, .schedule (.switched 1), .sysKill 2 10,
        .schedule (.switched 2), .sigexit 10] k ∧
      k.sent.count (2, 10) = 2 ∧ k.delivered.count (2, 10) + (k.proc 2).signalQueue.count 10 = 2 := by
  have heval : (handling.bind (Run.execAll exec (keptCheck 2) · [.sysKill 2 10, .schedule (.switched 1), .sysKill 2 10,
      .schedule (.switched 2), .sigexit 10])).any (fun k => k.sent.count (2, 10) = 2) = true := by decide +kernel
  obtain ⟨k₀, k, hstart, hrun, hsent⟩ := Run.of_any step_of_exec keptStep_of_check heval
  replace hsent := of_decide_eq_true hsent
  obtain ⟨hp, h10, hsent₀, hdel₀, hqueue₀⟩ := handling_receiver hstart
  have hcount := signals_conserved (by decide) hp h10 hrun
  rw [hsent₀, hdel₀, hqueue₀, hsent] at hcount
  exact ⟨k₀, k, hstart, hrun, hsent, by simpa using hcount⟩

/-- While the handler of signal 10 runs, signal 12 is sent; the end of the handler drops it. -/
theorem signals_lost :
    ∃ k₀ k, handling = some k₀ ∧ Run (SignalStep 2) k₀ [.sysKill 2 10, .schedule (.switched 1), .sysKill 2 12,
        .schedule (.switched 2), .sigexit 10] k ∧
      k.sent.count (2, 12) = 1 ∧ k.delivered.count (2, 12) = 0 ∧ (k.proc 2).signalQueue.count 12 = 0 := by
  have heval : (handling.bind (Run.execAll exec (signalCheck 2) · [.sysKill 2 10, .schedule (.switched 1),
      .sysKill 2 12, .schedule (.switched 2), .sigexit 10])).any (fun k => k.sent.count (2, 12) = 1 ∧
        k.delivered.count (2, 12) = 0 ∧ (k.proc 2).signalQueue.count 12 = 0) = true := by decide +kernel
  obtain ⟨k₀, k, hstart, hrun, hend⟩ := Run.of_any step_of_exec signalStep_of_check heval
  exact ⟨k₀, k, hstart, hrun, of_decide_eq_true hend⟩

end Kernel
end HelinKern
