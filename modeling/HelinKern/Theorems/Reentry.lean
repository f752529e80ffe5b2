import HelinKern.Theorems.Signals

/-! A handler is not entered again before `sys_sigexit` ends it, and the copies of its signal wait in the queue. -/

namespace HelinKern
namespace Kernel
open Lts Option

variable {c : SignalCall} {signum : Nat}
variable {p q s : Nat} {k k' : Kernel}

def Effects (p s : Nat) : Kernel → Kernel → Prop := Relation.ReflTransGen (Effect p s)

theorem Move.effects (h : Move k k') : Effects p s k k' := by
  cases h with
  | quota => exact .single (.of_shifted (quota_shifted ..) rfl rfl)
  | push | run => exact .single (.of_proc rfl rfl rfl)
  | pick hpick =>
    obtain ⟨ring, rfl⟩ := pickTask_queue hpick
    exact .single (.of_proc rfl rfl rfl)
  | take => exact .single (takeSignal_effect ..)
  | @fatal _ q _ rest _ _ hkill =>
    by_cases hq : p = q
    · subst hq
      -- the queue of a process that dies does not matter
      have huser := hkill.dead.userProcess
      have hhandlers := hkill.dead.signalHandlers
      simp only [modify_self] at huser hhandlers
      exact .single (.die hkill.dead.died huser hhandlers hkill.delivered)
    · exact .head (.of_proc (modify_of_ne k q p (fun r => { r with signalQueue := rest }) hq) rfl rfl) (.single hkill.effect)
  | orphan _ _ _ hkill => exact .single hkill.effect

theorem threadSchedule_effects {r : Scheduled} (h : k.threadSchedule = .ok (k', r)) : Effects p s k k' :=
  (threadSchedule_moves h).invariant (Effects p s k) (fun hk hm => Relation.ReflTransGen.trans hk hm.effects) .refl

theorem sysKill_effects {pid sig res : Int} (h : k.sysKill pid sig = .ok (res, k')) : Effects p s k k' := by
  rcases sysKill_ok h with ⟨rfl, -⟩ | ⟨prc, -, -, -, ⟨-, hk⟩ | ⟨-, -, -, hsend⟩⟩
  · exact .refl
  · exact .single hk.effect
  · obtain ⟨k₁, k₂, hwake, hkill, rfl⟩ := sendSignal_ok hsend
    have hk₁ : Effects p s k k₁ := by
      rcases hwake with ⟨rfl, -⟩ | ⟨rfl, -⟩
      · exact .single (enqueueSignal_effect ..)
      · exact .head (enqueueSignal_effect ..) (.single (.of_shifted (woken_shifted ..) rfl rfl))
    have hk₂ : Effects p s k k₂ := by
      rcases hkill with rfl | ⟨-, -, hk⟩
      · exact hk₁
      · exact hk₁.tail hk.effect
    exact hk₂.tail (threadForceSwitch_effect ..)

structure Blocked (p s : Nat) (k : Kernel) : Prop where
  user : (k.proc p).userProcess = true
  blocked : ((k.proc p).signalHandlers s).blocked = true

theorem Blocked.effect (hb : Blocked p s k) (h : Effect p s k k') :
    Blocked p s k' ∧ k'.delivered.count (p, s) = k.delivered.count (p, s) := by
  cases h with
  | keep same hdel hblocked => exact ⟨⟨same.user.trans hb.user, hblocked.trans hb.blocked⟩, hdel⟩
  | deliver _ _ _ hfree =>
    have hblocked := hb.blocked
    rw [hfree] at hblocked
    cases hblocked
  | die _ huser hhandlers hdel => exact ⟨⟨huser.trans hb.user, hhandlers ▸ hb.blocked⟩, by rw [hdel]⟩

theorem Blocked.effects (hb : Blocked p s k) (h : Effects p s k k') :
    Blocked p s k' ∧ k'.delivered.count (p, s) = k.delivered.count (p, s) := by
  induction h with
  | refl => exact ⟨hb, rfl⟩
  | tail _ heffect ih =>
    obtain ⟨hb', hdel⟩ := ih.1.effect heffect
    exact ⟨hb', hdel.trans ih.2⟩

theorem Effects.entered (h : Effects p s k k') :
    k'.delivered.count (p, s) = k.delivered.count (p, s) ∨
      s < nsignals ∧ Blocked p s k' ∧ k'.delivered.count (p, s) = k.delivered.count (p, s) + 1 := by
  induction h with
  | refl => exact .inl rfl
  | tail _ heffect ih =>
    rcases ih with hdel | ⟨hs, hb, hdel⟩
    · cases heffect with
      | keep _ hkeep => exact .inl (hkeep.trans hdel)
      | deliver same handles hone _ hblocked =>
        exact .inr ⟨handles.lt, ⟨same.user.trans handles.user, hblocked⟩, by rw [hone, hdel]⟩
      | die _ _ _ hkeep => exact .inl (by rw [hkeep, hdel])
    · obtain ⟨hb', hkeep⟩ := hb.effect heffect
      exact .inr ⟨hs, hb', hkeep.trans hdel⟩

theorem Effects.balance (h : Effects p s k k') (hh : Handles p s k) (hlive : (k'.proc p).died = false) :
    balance p s k' = balance p s k := by
  have hinv : (k'.proc p).died ∨ Handles p s k' ∧ Kernel.balance p s k' = Kernel.balance p s k := by
    refine invariant_of_reflTransGen
      (fun k' => (k'.proc p).died ∨ Handles p s k' ∧ Kernel.balance p s k' = Kernel.balance p s k) ?_ (.inr ⟨hh, rfl⟩) h
    intro k₁ k₂ hk₁ heffect
    have hhandles : SameSignals p k₁ k₂ → Handles p s k₁ → Handles p s k₂ := fun same hh =>
      ⟨hh.lt, same.user.trans hh.user, same.handler s ▸ hh.handler⟩
    cases heffect with
    | keep same _ _ hbalance =>
      exact hk₁.imp same.died.trans fun ⟨hh, heq⟩ => ⟨hhandles same hh, (hbalance hh).trans heq⟩
    | deliver same _ _ _ _ hbalance =>
      exact hk₁.imp same.died.trans fun ⟨hh, heq⟩ => ⟨hhandles same hh, hbalance.trans heq⟩
    | die hdied => exact .inl hdied
  rcases hinv with hdied | ⟨-, heq⟩
  · rw [hlive] at hdied
    cases hdied
  · exact heq

/-- The calls, until `p` ends its handler for `s`. -/
def execUntil (p s : Nat) (k : Kernel) (c : SignalCall) : Option Kernel :=
  if c = .sigexit s ∧ k.caller = p then none else k.execSignal c

/-- What is in the queue of `p` stays there, and what is sent comes to it, while `p` lives and has a handler for `s`. -/
def StaysQueued (p s : Nat) (k : Kernel) (_ : SignalCall) (k' : Kernel) : Prop :=
  (k'.proc p).died = false → ((k.proc p).signalHandlers s).handler ≠ 0 →
    (k'.proc p).signalQueue.count s + k.sent.count (p, s) = (k.proc p).signalQueue.count s + k'.sent.count (p, s)

/-- No other handler of `p` ends while `s` is next in the queue. -/
def SparesHead (p s : Nat) (k : Kernel) (c : SignalCall) (_ : Kernel) : Prop :=
  ∀ signum, c = .sigexit signum → k.caller = p → (k.proc p).died = false → ((k.proc p).signalHandlers s).handler ≠ 0 →
    (k.proc p).signalQueue.head? ≠ some s

theorem staysQueued_of_effects (hs : s < nsignals) (hb : Blocked p s k) (h : Effects p s k k') :
    StaysQueued p s k c k' := by
  intro hlive hhandler
  have hbalance := h.balance ⟨hs, hb.user, hhandler⟩ hlive
  obtain ⟨-, hdel⟩ := hb.effects h
  unfold balance at hbalance
  omega

theorem Blocked.install (hb : Blocked p s k) (q num handler : Nat) (c : SignalCall) :
    let k' := k.modify q fun r =>
      { r with signalHandlers := Function.update r.signalHandlers num { r.signalHandlers num with handler } }
    Blocked p s k' ∧ StaysQueued p s k c k' := by
  intro k'
  have hproc : k'.proc p = _ := modify_proc k q p _
  refine ⟨⟨?_, ?_⟩, fun _ _ => congrArg (List.count s · + _) ?_⟩ <;> rw [hproc] <;> split
  · exact hb.user
  · exact hb.user
  · simp only [Function.update_apply]
    split
    next hnum => exact hnum ▸ hb.blocked
    · exact hb.blocked
  · exact hb.blocked
  · rfl
  · rfl

theorem sigexitQueue_count (queue : List Nat) (hne : signum ≠ s) :
    (sigexitQueue signum queue).count s = queue.count s ↔ queue.head? ≠ some s := by
  cases queue with
  | nil => simp [sigexitQueue]
  | cons n rest =>
    by_cases hn : n = signum
    · rw [sigexitQueue]
      simp [hn, hne]
    · rw [sigexitQueue, if_neg hn]
      by_cases hs : n = s <;> simp [hs]

theorem Blocked.sysSigexit (hb : Blocked p s k) (huntil : ¬(signum = s ∧ k.caller = p)) :
    Blocked p s (k.sysSigexit signum) ∧ (k.sysSigexit signum).delivered = k.delivered ∧
      (StaysQueued p s k (.sigexit signum) (k.sysSigexit signum) ↔ SparesHead p s k (.sigexit signum) (k.sysSigexit signum)) := by
  obtain ⟨⟨proc, hsame⟩, hproc⟩ := sysSigexit_eq k signum
  have hsent : (k.sysSigexit signum).sent = k.sent := by rw [hsame]
  have hdelivered : (k.sysSigexit signum).delivered = k.delivered := by rw [hsame]
  obtain ⟨exited, quota, hproc⟩ := hproc p
  unfold StaysQueued SparesHead
  rw [hproc, hsent]
  by_cases hc : p = k.caller
  · have hne : signum ≠ s := fun h => huntil ⟨h, hc.symm⟩
    rw [if_pos hc] at hproc ⊢
    refine ⟨⟨?_, ?_⟩, hdelivered, ?_⟩
    · rw [hproc]
      exact hb.user
    · rw [hproc]
      exact (congrArg ProcessSignal.blocked (Function.update_of_ne hne.symm ..)).trans hb.blocked
    · refine ⟨fun h _ _ _ hdied hhandler => ?_, fun h hdied hhandler => ?_⟩
      · exact (sigexitQueue_count _ hne).mp (Nat.add_right_cancel (h hdied hhandler))
      · exact congrArg (· + _) ((sigexitQueue_count _ hne).mpr (h signum rfl hc.symm hdied hhandler))
  · rw [if_neg hc] at hproc ⊢
    refine ⟨⟨?_, ?_⟩, hdelivered, fun _ _ _ hcaller => absurd hcaller.symm hc, fun _ _ _ => rfl⟩
    · rw [hproc]
      exact hb.user
    · rw [hproc]
      exact hb.blocked

theorem Blocked.step (hs : s < nsignals) (hb : Blocked p s k) (h : execUntil p s k c = some k') :
    Blocked p s k' ∧ k'.delivered.count (p, s) = k.delivered.count (p, s) ∧
      (StaysQueued p s k c k' ↔ SparesHead p s k c k') := by
  have hsame : StaysQueued p s k c k := fun _ _ => rfl
  unfold execUntil at h
  split at h
  · cases h
  rename_i huntil
  cases c with
  | kill pid sig =>
    obtain ⟨⟨res, k₁⟩, hok, rfl⟩ := map_eq_some_iff.mp h
    have heffects : Effects p s k k₁ := sysKill_effects (toOption_eq_some hok)
    obtain ⟨hb', hdel⟩ := hb.effects heffects
    exact ⟨hb', hdel, iff_of_true (staysQueued_of_effects hs hb heffects) fun _ hc => by cases hc⟩
  | schedule =>
    obtain ⟨⟨k₁, r⟩, hok, rfl⟩ := map_eq_some_iff.mp h
    have heffects : Effects p s k k₁ := threadSchedule_effects (toOption_eq_some hok)
    obtain ⟨hb', hdel⟩ := hb.effects heffects
    exact ⟨hb', hdel, iff_of_true (staysQueued_of_effects hs hb heffects) fun _ hc => by cases hc⟩
  | signal signum handler =>
    simp only [execSignal, sysSignal, some.injEq] at h
    split at h
    · subst h
      exact ⟨hb, rfl, iff_of_true hsame fun _ hc => by cases hc⟩
    · subst h
      obtain ⟨hb', hqueued⟩ := hb.install k.caller signum handler (.signal signum handler)
      exact ⟨hb', rfl, iff_of_true hqueued fun _ hc => by cases hc⟩
  | sigaction sig act =>
    simp only [execSignal, sysSigaction, some.injEq] at h
    split at h
    · subst h
      exact ⟨hb, rfl, iff_of_true hsame fun _ hc => by cases hc⟩
    cases act with
    | none =>
      subst h
      exact ⟨hb, rfl, iff_of_true hsame fun _ hc => by cases hc⟩
    | some handler =>
      subst h
      obtain ⟨hb', hqueued⟩ := hb.install k.caller sig handler (.sigaction sig (some handler))
      exact ⟨hb', rfl, iff_of_true hqueued fun _ hc => by cases hc⟩
  | sigexit signum =>
    simp only [execSignal] at h
    split at h
    · cases h
      have hleaves : ¬(signum = s ∧ k.caller = p) := fun h => huntil ⟨congrArg SignalCall.sigexit h.1, h.2⟩
      obtain ⟨hb', hdel, hiff⟩ := hb.sysSigexit hleaves
      exact ⟨hb', by rw [hdel], hiff⟩
    · cases h

theorem Blocked.along (hb : Blocked p s k) (hs : s < nsignals) (calls : List SignalCall) :
    Along (execUntil p s) (fun k _ k' => k'.delivered.count (p, s) = k.delivered.count (p, s)) k calls := by
  induction calls generalizing k with
  | nil => trivial
  | cons c calls ih =>
    intro k' h
    obtain ⟨hb', hdel, -⟩ := hb.step hs h
    exact ⟨hdel, ih hb'⟩

/-- A call of `thread_schedule` that enters the handler of `p` for `s` enters it once, and until `p` ends it no call enters
    it again. The copies of `s` stay in the queue as long as no other handler of `p` ends while one of them is next. -/
theorem handler_not_reentered {k₁ : Kernel} {r : Scheduled} (h : k.threadSchedule = .ok (k₁, r))
    (henters : k.delivered.count (p, s) < k₁.delivered.count (p, s)) (calls : List SignalCall) :
    k₁.delivered.count (p, s) = k.delivered.count (p, s) + 1 ∧
      Along (execUntil p s) (fun k _ k' => k'.delivered.count (p, s) = k.delivered.count (p, s)) k₁ calls ∧
      (Along (execUntil p s) (StaysQueued p s) k₁ calls ↔ Along (execUntil p s) (SparesHead p s) k₁ calls) := by
  rcases (threadSchedule_effects h).entered with hdel | ⟨hs, hb, hdel⟩
  · rw [hdel] at henters
    exact absurd henters (Nat.lt_irrefl _)
  · refine ⟨hdel, ?_, ?_⟩
    · exact hb.along hs calls
    · exact along_iff (Blocked p s) hb (fun hb h => (hb.step hs h).2.2) (fun hb h _ => (hb.step hs h).1) calls

/-- Process 1 sends the signals 10, 12 and 10 to process 2, which then enters its handler for signal 10. -/
def entering : Option (Kernel × Kernel) :=
  (handling.bind (Run.execAll execSignal (fun _ _ _ => true) · [.kill 2 10, .schedule, .kill 2 12, .kill 2 10])).bind fun k =>
    k.threadSchedule.toOption.map fun out => (k, out.1)

theorem entering_ok {k₁ : Kernel} (h : entering = some (k, k₁)) :
    (∃ r, k.threadSchedule = .ok (k₁, r)) ∧ k.delivered.count (2, 10) < k₁.delivered.count (2, 10) := by
  have heval : entering.map (fun e => decide (e.1.delivered.count (2, 10) < e.2.delivered.count (2, 10))) = some true := by
    decide +kernel
  rw [h] at heval
  obtain ⟨_, -, hk⟩ := bind_eq_some_iff.mp h
  obtain ⟨⟨k₂, r⟩, hok, hpair⟩ := map_eq_some_iff.mp hk
  cases hpair
  exact ⟨⟨r, toOption_eq_some hok⟩, of_decide_eq_true (some.inj heval)⟩

/-- While its handler for signal 10 runs, process 2 gets the signal once more. -/
theorem handler_not_reentered_again :
    ∃ k k₁, entering = some (k, k₁) ∧ k.delivered.count (2, 10) < k₁.delivered.count (2, 10) ∧
      Along (execUntil 2 10) (fun k _ k' => k'.delivered.count (2, 10) = k.delivered.count (2, 10)) k₁
        [.kill 2 10, .schedule, .sigexit 12, .schedule] := by
  have hsome : entering.isSome = true := by decide +kernel
  obtain ⟨⟨k, k₁⟩, he⟩ := isSome_iff_exists.mp hsome
  obtain ⟨⟨r, hok⟩, henters⟩ := entering_ok he
  exact ⟨k, k₁, he, henters, (handler_not_reentered hok henters _).2.1⟩

/-- The handler for signal 12 is entered too, and when it ends the copy of signal 10 that waits is gone. -/
theorem handler_end_drops_other :
    ∃ k k₁, entering = some (k, k₁) ∧ (∃ r, k.threadSchedule = .ok (k₁, r)) ∧
      k.delivered.count (2, 10) < k₁.delivered.count (2, 10) ∧
      ¬Along (execUntil 2 10) (StaysQueued 2 10) k₁ [.schedule, .sigexit 12] := by
  have heval : (entering.bind fun e => (execUntil 2 10 e.2 .schedule).bind fun k₂ =>
      (execUntil 2 10 k₂ (.sigexit 12)).map fun k₃ => decide ((k₃.proc 2).died = false ∧
        ((k₂.proc 2).signalHandlers 10).handler ≠ 0 ∧ (k₃.proc 2).signalQueue.count 10 + k₂.sent.count (2, 10) ≠
          (k₂.proc 2).signalQueue.count 10 + k₃.sent.count (2, 10))) = some true := by decide +kernel
  obtain ⟨⟨k, k₁⟩, he, heval⟩ := bind_eq_some_iff.mp heval
  obtain ⟨k₂, hsched, heval⟩ := bind_eq_some_iff.mp heval
  obtain ⟨k₃, hexit, heval⟩ := map_eq_some_iff.mp heval
  obtain ⟨hlive, hhandler, hlost⟩ := of_decide_eq_true heval
  obtain ⟨hok, henters⟩ := entering_ok he
  exact ⟨k, k₁, he, hok, henters, fun h => hlost (((h k₂ hsched).2 k₃ hexit).1 hlive hhandler)⟩

end Kernel
end HelinKern
