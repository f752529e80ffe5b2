import HelinKern.Theorems.Waitpid

/-! The task list and the ends of processes over whole runs of the calls that make, schedule, signal, kill and reap them. -/

namespace HelinKern
namespace Kernel
open Lts List

variable {k₀ k k' : Kernel} {calls later : List Call}

/-- The task list holds each live process but the idle one once and nothing else, and a dead process is a zombie. -/
structure Tasks (k : Kernel) : Prop where
  nodup : k.taskList.Nodup
  mem_iff : ∀ p, p ∈ k.taskList ↔ p < k.freePid ∧ p ≠ idle ∧ (k.proc p).died = false
  zombie : ∀ p < k.freePid, (k.proc p).died = true → (k.proc p).state = .zombie

theorem taskList_live (hinit : threadInit = .ok k₀) (hrun : Run Step k₀ calls k) : k.Tasks := by
  have inv := (threadInit_ok hinit).kinInv.run hrun
  exact ⟨inv.nodup, fun p => ⟨inv.task p, fun ⟨hlt, hne, hlive⟩ => inv.listed p hlt hne hlive⟩, inv.zombie⟩

/-- A process that has died stays a zombie, and out of the task list. -/
theorem death_final (hinit : threadInit = .ok k₀) (hrun : Run Step k₀ calls k) {p : Nat} (hlt : p < k.freePid)
    (hdied : (k.proc p).died = true) (hlater : Run Step k later k') :
    (k'.proc p).died = true ∧ (k'.proc p).state = .zombie ∧ p ∉ k'.taskList := by
  have dead : Dead p k' := hlater.invariant (Dead p) ⟨hlt, hdied⟩ fun dead h => dead.step h
  have inv := ((threadInit_ok hinit).kinInv.run hrun).run hlater
  refine ⟨dead.died, inv.zombie p dead.lt dead.died, fun hmem => ?_⟩
  have hlive := (inv.task p hmem).2.2
  rw [dead.died] at hlive
  cases hlive

/-- The first process starts another one after the death of the second. -/
theorem killed_run : ∃ k₀ k k', threadInit = .ok k₀ ∧ Run Step k₀ (twoTasks ++ [.kill 2 7 true]) k ∧ 2 < k.freePid ∧
    (k.proc 2).died = true ∧ Run Step k [.schedule (.switched 1), .create true] k' := by
  have heval : (threadInit.toOption.bind fun k₀ =>
      (Run.execAll exec (fun _ _ _ => true) k₀ (twoTasks ++ [.kill 2 7 true])).bind fun k =>
        (Run.execAll exec (fun _ _ _ => true) k [.schedule (.switched 1), .create true]).map fun _ =>
          decide (2 < k.freePid) && (k.proc 2).died) = some true := by decide +kernel
  obtain ⟨k₀, hinit, heval⟩ := Option.bind_eq_some_iff.mp heval
  obtain ⟨k, hexec, heval⟩ := Option.bind_eq_some_iff.mp heval
  obtain ⟨k', hlater, hend⟩ := Option.map_eq_some_iff.mp heval
  obtain ⟨hlt, hdied⟩ := Bool.and_eq_true_iff.mp hend
  exact ⟨k₀, k, k', toOption_eq_some hinit, (Run.of_execAll step_of_exec hexec).mono And.left, of_decide_eq_true hlt, hdied,
    (Run.of_execAll step_of_exec hlater).mono And.left⟩

theorem taskList_live_killed : ∃ k₀ k, threadInit = .ok k₀ ∧ Run Step k₀ (twoTasks ++ [.kill 2 7 true]) k ∧ k.Tasks := by
  obtain ⟨k₀, k, -, hinit, hrun, -⟩ := killed_run
  exact ⟨k₀, k, hinit, hrun, taskList_live hinit hrun⟩

theorem death_final_killed : ∃ k k' : Kernel, (k.proc 2).died = true ∧ Run Step k [.schedule (.switched 1), .create true] k' ∧
    (k'.proc 2).died = true ∧ (k'.proc 2).state = .zombie ∧ 2 ∉ k'.taskList := by
  obtain ⟨k₀, k, k', hinit, hrun, hlt, hdied, hlater⟩ := killed_run
  exact ⟨k, k', hdied, hlater, death_final hinit hrun hlt hdied hlater⟩

end Kernel
end HelinKern
