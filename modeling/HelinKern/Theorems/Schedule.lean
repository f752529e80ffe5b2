import HelinKern.Theorems.Thread

/-! The ways a call of `thread_schedule` can go. -/

namespace HelinKern
namespace Kernel
open RingBuffer List

variable {again : Kernel → Nat → Except Fault (Kernel × Scheduled)} {prc : Nat}
variable {k k' : Kernel} {p : Nat}

/-! ### Signals in the scheduler -/

/-- The next signal of the process has the default action, and that is to kill it. -/
def fatalHead (p : Process) : Bool :=
  match p.signalQueue with
  | [] => false
  | num :: _ => num < nsignals ∧ num ≠ 20 ∧ (p.signalHandlers num).handler = 0

/-- What `processSignals` does with a signal that is not fatal. -/
def takeSignal (k : Kernel) (p : Nat) : Kernel :=
  match (k.proc p).signalQueue with
  | [] => k
  | num :: rest =>
    let taken := k.modify p fun q => { q with signalQueue := rest }
    if nsignals ≤ num then taken
    else if ((k.proc p).signalHandlers num).handler = 0 then taken
    else if (k.proc p).userProcess then
      if ((k.proc p).signalHandlers num).blocked then
        taken.modify p fun q => { q with signalQueue := q.signalQueue ++ [num] }
      else { taken.modify p (·.block num) with delivered := (p, num) :: k.delivered }
    else taken

theorem processSignals_of_not_fatal (again : Kernel → Nat → Except Fault (Kernel × Scheduled))
    (hcalm : fatalHead (k.proc p) = false) : processSignals again k p = .ok ((k.takeSignal p).actualSwitch p) := by
  unfold processSignals takeSignal
  unfold fatalHead at hcalm
  cases hq : (k.proc p).signalQueue with
  | nil => rfl
  | cons num rest =>
    rw [hq] at hcalm
    simp only [decide_eq_false_iff_not, not_and] at hcalm
    simp only [modify_self]
    by_cases hbig : nsignals ≤ num
    · simp only [if_pos hbig]
    by_cases hdef : ((k.proc p).signalHandlers num).handler = 0
    · have h20 : num = 20 := by
        by_contra hne
        exact hcalm (Nat.lt_of_not_le hbig) hne hdef
      simp only [if_neg hbig, if_pos hdef, if_pos h20]
    · simp only [if_neg hbig, if_neg hdef]
      cases huser : (k.proc p).userProcess with
      | false => rfl
      | true =>
        simp only [if_true]
        by_cases hb : ((k.proc p).signalHandlers num).blocked
        · simp only [if_pos hb]
        · simp only [if_neg hb]
          rfl

theorem takeSignal_eq (k : Kernel) (p : Nat) :
    ∃ signalHandlers signalQueue log,
      k.takeSignal p = { k.modify p fun q => { q with signalHandlers, signalQueue } with delivered := log ++ k.delivered } ∧
        (∀ num ∈ signalQueue, num ∈ (k.proc p).signalQueue) ∧ ∀ d ∈ log, d.1 = p := by
  unfold takeSignal
  cases hq : (k.proc p).signalQueue with
  | nil =>
    refine ⟨(k.proc p).signalHandlers, [], [], ?_, fun _ h => h, nofun⟩
    simp [modify, ← hq]
  | cons num rest =>
    have hrest : ∀ n ∈ rest, n ∈ num :: rest := fun n hn => mem_cons_of_mem _ hn
    simp only
    split
    · exact ⟨_, rest, [], rfl, hrest, nofun⟩
    split
    · exact ⟨_, rest, [], rfl, hrest, nofun⟩
    split
    · split
      · refine ⟨(k.proc p).signalHandlers, rest ++ [num], [], ?_, ?_, nofun⟩
        · simp [modify]
        · exact fun n hn => (perm_append_singleton num rest).mem_iff.mp hn
      · refine ⟨((k.proc p).block num).signalHandlers, rest, [(p, num)], ?_, hrest, ?_⟩
        · simp [modify, Process.block]
        · exact fun d hd => by rw [mem_singleton.mp hd]
    · exact ⟨_, rest, [], rfl, hrest, nofun⟩

theorem takeSignal_proc (k : Kernel) (p q : Nat) :
    ∃ signalHandlers signalQueue, (k.takeSignal p).proc q = { k.proc q with signalHandlers, signalQueue } ∧
      (∀ num ∈ signalQueue, num ∈ (k.proc q).signalQueue) ∧
      (q ≠ p → signalHandlers = (k.proc q).signalHandlers ∧ signalQueue = (k.proc q).signalQueue) := by
  obtain ⟨signalHandlers, signalQueue, log, h, hsub, -⟩ := takeSignal_eq k p
  have hproc := modify_proc k p q fun q => { q with signalHandlers, signalQueue }
  rw [h]
  by_cases hq : q = p
  · subst hq
    rw [if_pos rfl] at hproc
    exact ⟨_, _, hproc, hsub, fun hne => absurd rfl hne⟩
  · rw [if_neg hq] at hproc
    exact ⟨_, _, hproc, fun _ h => h, fun _ => ⟨rfl, rfl⟩⟩

theorem takeSignal_life (k : Kernel) (p q : Nat) : SameLife (k.proc q) ((k.takeSignal p).proc q) := by
  obtain ⟨_, _, h, -⟩ := takeSignal_proc k p q
  rw [h]
  exact ⟨rfl, rfl, rfl, rfl⟩

theorem takeSignal_signal (k : Kernel) (p q : Nat) :
    ∀ num ∈ ((k.takeSignal p).proc q).signalQueue, num ∈ (k.proc q).signalQueue := by
  obtain ⟨_, _, h, hsub, -⟩ := takeSignal_proc k p q
  rw [h]
  exact hsub

theorem takeSignal_of_ne {q : Nat} (hq : q ≠ p) : (k.takeSignal p).proc q = k.proc q := by
  obtain ⟨_, _, h, -, hsame⟩ := takeSignal_proc k p q
  rw [h, (hsame hq).1, (hsame hq).2]

theorem takeSignal_same (k : Kernel) (p : Nat) :
    (k.takeSignal p).taskList = k.taskList ∧ (k.takeSignal p).priority0 = k.priority0 ∧
      (k.takeSignal p).priority1 = k.priority1 ∧ (k.takeSignal p).freePid = k.freePid ∧
      (k.takeSignal p).freed = k.freed := by
  obtain ⟨_, _, _, h, -⟩ := takeSignal_eq k p
  rw [h]
  exact ⟨rfl, rfl, rfl, rfl, rfl⟩

variable {k'' : Kernel} {q : List Nat} {fuel : Nat} {picked : Option Nat} {r : Scheduled}

theorem processSignals_of_fatal (hfatal : fatalHead (k.proc p)) (h : processSignals again k p = .ok (k', r)) :
    ∃ num rest k₁ next, (k.proc p).signalQueue = num :: rest ∧
      Killed (k.modify p fun q => { q with signalQueue := rest }) p (-num) k₁ ∧ again k₁ next = .ok (k', r) := by
  unfold processSignals at h
  unfold fatalHead at hfatal
  cases hq : (k.proc p).signalQueue with
  | nil =>
    rw [hq] at hfatal
    cases hfatal
  | cons num rest =>
    rw [hq] at h hfatal
    obtain ⟨hlt, h20, hzero⟩ := of_decide_eq_true hfatal
    simp only [modify_self, if_neg (Nat.not_le.mpr hlt), if_pos hzero, if_neg h20] at h
    obtain ⟨k₁, hkill, h⟩ := bind_ok h
    refine ⟨num, rest, k₁, ?_⟩
    split at h
    · cases h
    · split at h
      · exact ⟨_, rfl, threadKillThread_ok hkill, h⟩
      · exact ⟨_, rfl, threadKillThread_ok hkill, h⟩

def orphanThread (k : Kernel) (p : Nat) : Bool :=
  (k.proc p).type = .thread ∧ (k.proc p).parent.all fun par => (k.proc par).died

def pushed (k : Kernel) (p : Nat) : Kernel :=
  { k.modify p fun q => { q with quota := 0, started := true } with priority1 := k.priority1.write p }

theorem pushed_proc (q : Nat) :
    (k.pushed p).proc q = if q = p then { k.proc q with quota := 0, started := true } else k.proc q :=
  modify_proc k p q fun q => { q with quota := 0, started := true }

theorem pushed_life (k : Kernel) (p q : Nat) : SameLife (k.proc q) ((k.pushed p).proc q) := by
  rw [pushed_proc]
  split <;> exact ⟨rfl, rfl, rfl, rfl⟩

theorem switchTask_of_not_fatal (hcalm : fatalHead (k.proc p) = false)
    (horphan : k.orphanThread p = false) (h : switchTask (fuel + 1) k p = .ok (k', r)) :
    r = .switched p ∧ k' = { (k.pushed p).takeSignal p with runningTask := some p } := by
  rw [switchTask] at h
  split at h
  · cases h
  obtain ⟨⟨k₁, p₁⟩, hkill, h⟩ := bind_ok h
  obtain ⟨k₂, hpush, h⟩ := bind_ok h
  have hkept : (k.modify p fun q => { q with quota := 0, started := true }).killOrphanThread p =
      .ok (k.modify p fun q => { q with quota := 0, started := true }, p) := by
    unfold killOrphanThread
    simp only [modify_self]
    unfold orphanThread at horphan
    by_cases ht : (k.proc p).type = .thread
    · rw [if_pos ht]
      cases hpar : (k.proc p).parent with
      | none => simp [ht, hpar] at horphan
      | some par =>
        have hlive : (k.proc par).died = false := by simpa [ht, hpar] using horphan
        have hlive' : ((k.modify p fun q => { q with quota := 0, started := true }).proc par).died = false := by
          rw [modify_proc]
          split <;> exact hlive
        simp [hlive']
    · rw [if_neg ht]
  rw [hkept] at hkill
  cases hkill
  obtain rfl := pushPrc_ok hpush
  have hcalm' : fatalHead ((k.pushed p).proc p) = false := by
    rw [pushed_proc, if_pos rfl]
    exact hcalm
  have hsig : processSignals (switchTask fuel) (k.pushed p) p = .ok (k', r) := h
  rw [processSignals_of_not_fatal _ hcalm'] at hsig
  cases hsig
  exact ⟨rfl, rfl⟩

/-! ### The run queue in the scheduler -/

def Requeued (k : Kernel) (q : List Nat) (k' : Kernel) : Prop :=
  ∃ ring : RingBuffer Nat, ring.Holds q ∧ ring.size = k.priority1.size ∧ k' = { k with priority1 := ring }

theorem popPrc_nil (h : k.priority1.Holds []) : k.popPrc = (none, k) := by
  unfold popPrc
  rw [h.read_nil]

theorem popPrc_cons {x : Nat} (h : k.priority1.Holds (x :: q)) : ∃ k', k.popPrc = (some x, k') ∧ Requeued k q k' := by
  obtain ⟨ring, hread, hring⟩ := h.read_cons
  have hsize : ring.size = k.priority1.size := by
    have := congrArg (fun r => r.2.size) hread
    rw [← this]
    unfold RingBuffer.read
    split <;> rfl
  exact ⟨_, by rw [popPrc, hread], ring, hring, hsize, rfl⟩

/-- What the search for a process takes from the queue `q`: the process it picks, and dead ones. -/
structure Picked (k : Kernel) (q : List Nat) (picked : Option Nat) (q' : List Nat) : Prop where
  le : ∀ x, q'.count x + (if picked = some x then 1 else 0) ≤ q.count x
  live : ∀ x, (k.proc x).died = false → q'.count x + (if picked = some x then 1 else 0) = q.count x
  ready : ∀ x, picked = some x → (k.proc x).died = false ∧ ((k.proc x).state = .running ∨ (k.proc x).state = .sleep)

theorem selectTask_ok (hq : k.priority1.Holds q)
    (h : k.selectTask fuel = .ok (picked, k')) : ∃ q', Requeued k q' k' ∧ Picked k q picked q' := by
  induction fuel generalizing k q with
  | zero => cases h
  | succ fuel ih =>
    unfold selectTask at h
    cases q with
    | nil =>
      rw [popPrc_nil hq] at h
      cases h
      exact ⟨[], ⟨_, hq, rfl, rfl⟩, fun x => by simp, fun x _ => by simp, fun x hx => by simp at hx⟩
    | cons x q =>
      obtain ⟨k₁, hpop, ring, hring, hsize, rfl⟩ := popPrc_cons hq
      rw [hpop] at h
      simp only at h
      by_cases hdied : (k.proc x).died
      · rw [if_pos hdied] at h
        obtain ⟨q', ⟨ring', hring', hsize', rfl⟩, hp⟩ := ih hring h
        refine ⟨q', ⟨ring', hring', hsize'.trans hsize, rfl⟩, fun y => ?_, fun y hy => ?_, hp.ready⟩
        · exact Nat.le_trans (hp.le y) (count_le_count_cons ..)
        · have hne : x ≠ y := by
            rintro rfl
            rw [hdied] at hy
            cases hy
          rw [hp.live y hy, count_cons_of_ne hne]
      · rw [if_neg hdied] at h
        by_cases hrun : (k.proc x).state = .running ∨ (k.proc x).state = .sleep
        · rw [if_pos hrun] at h
          cases h
          have hcount : ∀ y, q.count y + (if some x = some y then 1 else 0) = (x :: q).count y := by
            intro y
            rw [count_cons]
            simp
          refine ⟨q, ⟨ring, hring, hsize, rfl⟩, fun y => Nat.le_of_eq (hcount y), fun y _ => hcount y, ?_⟩
          rintro y hy
          cases hy
          exact ⟨Bool.eq_false_iff.mpr hdied, hrun⟩
        · rw [if_neg hrun] at h
          obtain ⟨k₂, hpush, h⟩ := bind_ok h
          obtain rfl := pushPrc_ok hpush
          have hroom : q.length + 1 < ring.size := hsize ▸ hq.room
          obtain ⟨q', ⟨ring', hring', hsize', rfl⟩, hp⟩ := ih (hring.write_of_room hroom) h
          have hcount : ∀ y, (q ++ [x]).count y = (x :: q).count y :=
            fun y => (perm_append_singleton x q).count_eq y
          refine ⟨q', ⟨ring', hring', (hsize'.trans (write_size _ _)).trans hsize, rfl⟩, fun y => ?_, fun y hy => ?_,
            hp.ready⟩
          · rw [← hcount]
            exact hp.le y
          · rw [← hcount]
            exact hp.live y hy

theorem pickTask_ok (hq : k.priority1.Holds q) (h : k.pickTask = .ok (picked, k')) :
    (q = [] ∧ picked = none ∧ k' = k) ∨
      (∃ x rest, q = x :: rest ∧ picked = some x ∧ Requeued k rest k' ∧ (k.proc x).died = false ∧
        (k.proc x).state ≠ .creating ∧ (k.proc x).state ≠ .idle ∧ (k.proc x).state ≠ .zombie) ∨
      ∃ x rest q', q = x :: rest ∧ Requeued k q' k' ∧ Picked k rest picked q' ∧
        ((k.proc x).state = .creating ∨ (k.proc x).state = .idle ∨ (k.proc x).state = .zombie ∨ (k.proc x).died) := by
  unfold pickTask at h
  cases q with
  | nil =>
    rw [popPrc_nil hq] at h
    cases h
    exact .inl ⟨rfl, rfl, rfl⟩
  | cons x rest =>
    obtain ⟨k₁, hpop, ring, hring, hsize, rfl⟩ := popPrc_cons hq
    rw [hpop] at h
    simp only at h
    refine .inr ?_
    split at h
    next hdrop =>
      obtain ⟨q', ⟨ring', hring', hsize', rfl⟩, hp⟩ := selectTask_ok hring h
      exact .inr ⟨x, rest, q', rfl, ⟨ring', hring', hsize'.trans hsize, rfl⟩, { hp with }, hdrop⟩
    next hkeep =>
      cases h
      simp only [not_or, Bool.not_eq_true] at hkeep
      exact .inl ⟨x, rest, rfl, rfl, ⟨ring, hring, hsize, rfl⟩, hkeep.2.2.2, hkeep.1, hkeep.2.1, hkeep.2.2.1⟩

theorem threadSchedule_ok (h : k.threadSchedule = .ok (k', r)) :
    (∃ p, k.runningTask = some p ∧ (k.proc p).died = false ∧ r = .returned ∧
        k' = k.modify p fun q => { q with quota := q.quota + 1 }) ∨
      (∃ p, k.runningTask = some p ∧ (k.proc p).died = false ∧
        processSignals (switchTask (k.freePid + 1)) k p = .ok (k', r)) ∨
      (k.pickTask = .ok (none, k') ∧ r = .returned) ∨
      ∃ p k₁, k.pickTask = .ok (some p, k₁) ∧ k₁.switchToPopped p = .ok (k', r) := by
  have hnext : k.scheduleNext = .ok (k', r) → (k.pickTask = .ok (none, k') ∧ r = .returned) ∨
      ∃ p k₁, k.pickTask = .ok (some p, k₁) ∧ k₁.switchToPopped p = .ok (k', r) := by
    intro h
    obtain ⟨⟨picked, k₁⟩, hpick, h⟩ := bind_ok h
    cases picked with
    | none =>
      cases h
      exact .inl ⟨hpick, rfl⟩
    | some p => exact .inr ⟨p, k₁, hpick, h⟩
  unfold threadSchedule at h
  cases hr : k.runningTask with
  | none =>
    rw [hr] at h
    exact .inr (.inr (hnext h))
  | some p =>
    rw [hr] at h
    simp only at h
    split at h
    next hquota =>
      have hlive : (k.proc p).died = false := Bool.eq_false_iff.mpr hquota.2
      split at h
      · exact .inr (.inl ⟨p, rfl, hlive, h⟩)
      · cases h
        exact .inl ⟨p, rfl, hlive, rfl, rfl⟩
    · exact .inr (.inr (hnext h))

/-! ### What the scheduler is made of -/

/-- A part of `thread_schedule`: it counts the quota of a process or starts it anew, works on the run queue, takes a
    signal of a process, or kills one for a signal or for the death of its parent. -/
inductive Move : Kernel → Kernel → Prop
  | quota {k : Kernel} (p quota : Nat) (started : Bool) : Move k (k.modify p fun q => { q with quota, started })
  | push {k : Kernel} (p : Nat) : Move k { k with priority1 := k.priority1.write p }
  | pick {k k' : Kernel} {picked : Option Nat} (h : k.pickTask = .ok (picked, k')) : Move k k'
  | run {k : Kernel} (p : Nat) : Move k { k with runningTask := some p }
  | take {k : Kernel} {p : Nat} (h : fatalHead (k.proc p) = false) : Move k (k.takeSignal p)
  | fatal {k k' : Kernel} {p num : Nat} {rest : List Nat} (hqueue : (k.proc p).signalQueue = num :: rest)
      (hfatal : fatalHead (k.proc p) = true)
      (h : Killed (k.modify p fun q => { q with signalQueue := rest }) p (-num) k') : Move k k'
  | orphan {k k' : Kernel} {p par : Nat} (htype : (k.proc p).type = .thread) (hpar : (k.proc p).parent = some par)
      (hdied : (k.proc par).died = true) (h : Killed k p 0 k') : Move k k'

def Moves : Kernel → Kernel → Prop := Relation.ReflTransGen Move

theorem Moves.invariant (inv : Kernel → Prop) (hstep : ∀ {k k'}, inv k → Move k k' → inv k') (h0 : inv k)
    (h : Moves k k') : inv k' :=
  Lts.invariant_of_reflTransGen inv hstep h0 h

theorem pushPrc_move (h : k.pushPrc p = .ok k') : Move k k' := by
  obtain rfl := pushPrc_ok h
  exact .push p

theorem processSignals_moves (hagain : ∀ {k k' p r}, again k p = .ok (k', r) → Moves k k')
    (h : processSignals again k p = .ok (k', r)) :
    Moves k k' := by
  cases hfatal : fatalHead (k.proc p) with
  | false =>
    rw [processSignals_of_not_fatal _ hfatal] at h
    cases h
    exact .tail (.single (.take hfatal)) (.run p)
  | true =>
    obtain ⟨num, rest, k₁, next, hqueue, hkill, h⟩ := processSignals_of_fatal hfatal h
    exact .head (.fatal hqueue hfatal hkill) (hagain h)

theorem killOrphanThread_moves {p' : Nat} (h : k.killOrphanThread p = .ok (k', p')) : Moves k k' := by
  unfold killOrphanThread at h
  split at h
  next htype =>
    split at h
    · cases h
    rename_i par hpar
    split at h
    next hdied =>
      obtain ⟨k₁, hkill, h⟩ := bind_ok h
      cases h
      exact .single (.orphan htype hpar hdied (threadKillThread_ok hkill))
    · cases h
      exact .refl
  · cases h
    exact .refl

theorem switchTask_moves (h : switchTask fuel k p = .ok (k', r)) : Moves k k' := by
  induction fuel generalizing k k' p r with
  | zero => cases h
  | succ fuel ih =>
    rw [switchTask] at h
    split at h
    · cases h
    obtain ⟨⟨k₁, p₁⟩, hkill, h⟩ := bind_ok h
    obtain ⟨k₂, hpush, h⟩ := bind_ok h
    have hkilled : Moves k k₁ := .head (.quota p 0 true) (killOrphanThread_moves hkill)
    exact (hkilled.tail (pushPrc_move hpush)).trans (processSignals_moves ih h)

theorem threadSchedule_moves (h : k.threadSchedule = .ok (k', r)) : Moves k k' := by
  rcases threadSchedule_ok h with ⟨p, -, -, -, rfl⟩ | ⟨p, -, -, h⟩ | ⟨hpick, -⟩ | ⟨p, k₁, hpick, h⟩
  · exact .single (.quota p ((k.proc p).quota + 1) (k.proc p).started)
  · exact processSignals_moves switchTask_moves h
  · exact .single (.pick hpick)
  · exact .head (.pick hpick) (switchTask_moves h)

/-! ### What the scheduler can do to a family -/

structure SameKin (p p' : Process) : Prop where
  state : p'.state = p.state
  died : p'.died = p.died
  type : p'.type = p.type
  parent : p'.parent = p.parent
  childQueue : p'.childQueue = p.childQueue
  exitCode : p'.exitCode = p.exitCode

theorem SameKin.refl (p : Process) : SameKin p p := ⟨rfl, rfl, rfl, rfl, rfl, rfl⟩

structure Touched (k k' : Kernel) : Prop where
  taskList : k'.taskList = k.taskList
  freePid : k'.freePid = k.freePid
  freed : k'.freed = k.freed
  proc : ∀ q, SameKin (k.proc q) (k'.proc q)

theorem Touched.refl (k : Kernel) : Touched k k := ⟨rfl, rfl, rfl, fun _ => .refl _⟩

theorem Touched.modify (k : Kernel) (p : Nat) (f : Process → Process) (h : SameKin (k.proc p) (f (k.proc p))) :
    Touched k (k.modify p f) := by
  refine ⟨rfl, rfl, rfl, fun q => ?_⟩
  rw [modify_proc]
  split
  next hq =>
    rw [hq]
    exact h
  · exact .refl _

def woken (k : Kernel) (prc : Nat) : Kernel :=
  { k.modify prc fun p => { p with state := .running } with priority1 := k.priority1.write prc }

theorem woken_of_ne {q : Nat} (hq : q ≠ prc) : (k.woken prc).proc q = k.proc q := by
  exact modify_of_ne k prc q (fun p => { p with state := .running }) hq

inductive Change : Kernel → Kernel → Prop
  | touch {k k' : Kernel} (h : Touched k k') : Change k k'
  | kill {k k' : Kernel} {prc : Nat} {code : Int} (h : Killed k prc code k') : Change k k'
  | wake {k : Kernel} {prc : Nat} (hlive : (k.proc prc).died = false) : Change k (k.woken prc)

def Changes : Kernel → Kernel → Prop := Relation.ReflTransGen Change

theorem Changes.trans (h : Changes k k') (h' : Changes k' k'') : Changes k k'' :=
  Relation.ReflTransGen.trans h h'

theorem Changes.touch (h : Touched k k') : Changes k k' := .single (.touch h)

theorem Changes.kill {code : Int} (h : Killed k prc code k') : Changes k k' := .single (.kill h)

theorem Changes.invariant (inv : Kernel → Prop) (hstep : ∀ {k k'}, inv k → Change k k' → inv k') (h0 : inv k)
    (h : Changes k k') : inv k' :=
  Lts.invariant_of_reflTransGen inv hstep h0 h

theorem Changes.freePid (h : Changes k k') : k'.freePid = k.freePid := by
  refine h.invariant (fun k' => k'.freePid = k.freePid) ?_ rfl
  intro k₁ k₂ heq h
  cases h with
  | touch h => exact h.freePid.trans heq
  | kill h => exact h.freePid.trans heq
  | wake => exact heq

theorem selectTask_queue (h : k.selectTask fuel = .ok (picked, k')) : ∃ priority1, k' = { k with priority1 } := by
  induction fuel generalizing k with
  | zero => cases h
  | succ fuel ih =>
    unfold selectTask popPrc at h
    cases hr : k.priority1.read with
    | mk x ring =>
      rw [hr] at h
      cases x with
      | none =>
        cases h
        exact ⟨_, rfl⟩
      | some x =>
        simp only at h
        split at h
        · obtain ⟨ring', rfl⟩ := ih h
          exact ⟨ring', rfl⟩
        split at h
        · cases h
          exact ⟨_, rfl⟩
        obtain ⟨k₂, hpush, h⟩ := bind_ok h
        obtain rfl := pushPrc_ok hpush
        obtain ⟨ring', rfl⟩ := ih h
        exact ⟨ring', rfl⟩

theorem pickTask_queue (h : k.pickTask = .ok (picked, k')) : ∃ priority1, k' = { k with priority1 } := by
  unfold pickTask popPrc at h
  cases hr : k.priority1.read with
  | mk x ring =>
    rw [hr] at h
    cases x with
    | none =>
      cases h
      exact ⟨_, rfl⟩
    | some x =>
      simp only at h
      split at h
      · obtain ⟨ring', rfl⟩ := selectTask_queue h
        exact ⟨ring', rfl⟩
      · cases h
        exact ⟨_, rfl⟩

theorem pickTask_touched (h : k.pickTask = .ok (picked, k')) : Touched k k' := by
  obtain ⟨ring, rfl⟩ := pickTask_queue h
  exact ⟨rfl, rfl, rfl, fun _ => .refl _⟩

theorem takeSignal_touched (k : Kernel) (p : Nat) : Touched k (k.takeSignal p) := by
  obtain ⟨hlist, -, -, hpid, hfreed⟩ := takeSignal_same k p
  refine ⟨hlist, hpid, hfreed, fun q => ?_⟩
  obtain ⟨_, _, h, -⟩ := takeSignal_proc k p q
  rw [h]
  exact ⟨rfl, rfl, rfl, rfl, rfl, rfl⟩

theorem Move.changes (h : Move k k') : Changes k k' := by
  cases h with
  | quota p => exact .touch (.modify k p _ ⟨rfl, rfl, rfl, rfl, rfl, rfl⟩)
  | push | run => exact .touch ⟨rfl, rfl, rfl, fun _ => .refl _⟩
  | pick h => exact .touch (pickTask_touched h)
  | take => exact .touch (takeSignal_touched k _)
  | fatal _ _ h => exact (Changes.touch (.modify k _ _ ⟨rfl, rfl, rfl, rfl, rfl, rfl⟩)).trans (.kill h)
  | orphan _ _ _ h => exact .kill h

theorem threadSchedule_changes (h : k.threadSchedule = .ok (k', r)) : Changes k k' :=
  (threadSchedule_moves h).invariant (Changes k) (fun hk hm => hk.trans hm.changes) .refl

end Kernel
end HelinKern
