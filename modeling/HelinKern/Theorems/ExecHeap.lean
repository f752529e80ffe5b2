import HelinKern.ExecHeap

/-! On which ways through `sys_open` and `sys_exec` the temporary blocks are freed once each. -/

namespace HelinKern
open List

def Balanced (cs : List HeapCall) : Prop := HeapCall.run cs [] = some []

namespace HeapCall

theorem run_kmalloc (bs : List Temp) (cs : List HeapCall) (live : List Temp) :
    run (bs.map .kmalloc ++ cs) live = run cs (bs.reverse ++ live) := by
  induction bs generalizing live with
  | nil => rfl
  | cons b bs ih => simp [run, ih]

theorem run_kfree {bs live : List Temp} (h : bs ~ live) : run (bs.map .kfree) live = some [] := by
  induction bs generalizing live with
  | nil =>
    obtain rfl := h.nil_eq
    rfl
  | cons b bs ih =>
    have hmem : b ∈ live := h.mem_iff.mp mem_cons_self
    rw [map_cons, run, if_pos hmem]
    exact ih (by simpa using h.erase b)

end HeapCall

theorem ExecCall.buff_notMem_copies (c : ExecCall) : .buff ∉ c.copies := by
  simp only [copies, envArray, argArray, envs, args]
  split <;> split <;> simp

theorem ExecCall.copies_eq_nil (c : ExecCall) : c.copies = [] ↔ c.environSize = 0 ∧ c.argc = 0 := by
  simp only [copies, envArray, argArray, envs, args]
  split <;> split <;> simp_all

theorem ExecCall.freed_perm (c : ExecCall) : c.freed ~ c.copies.reverse := by
  refine perm_iff_count.mpr fun b => ?_
  simp only [freed, copies, count_reverse, count_append]
  omega

/-- `sys_open` frees its copy of the path twice when `sys_creat` fails with a positive number. `sys_exec` frees its copy
    twice for a bad header and when the program was loaded, and without a caller keeps the copies for one that was not. -/
theorem sys_open_exec_balanced (o : OpenCall) (c : ExecCall) :
    (Balanced (sysOpenHeap o) ↔ ¬ (o.pathLen ≠ 0 ∧ o.found = false ∧ o.creates = true ∧ 0 < o.sysCreat)) ∧
    (Balanced (sysExecHeap c) ↔ (c.path = false ∨ c.found = false ∨ c.caller = true ∧ c.hasPerm = false) ∨
      c.header = true ∧ c.loaded = false ∧ (c.caller = true ∨ c.environSize = 0 ∧ c.argc = 0)) := by
  constructor
  · unfold Balanced sysOpenHeap
    split
    · simp [HeapCall.run, *]
    split
    · simp [HeapCall.run, *]
    · split
      · split <;> simp_all [HeapCall.run]
      · simp [HeapCall.run, *]
  · unfold Balanced sysExecHeap
    cases hpath : c.path with
    | false => simp [HeapCall.run]
    | true =>
      cases hfound : c.found with
      | false => simp [HeapCall.run]
      | true =>
        cases hdenied : c.caller && !c.hasPerm with
        | true => simp_all [HeapCall.run]
        | false =>
          have hperm : ¬ (c.caller = true ∧ c.hasPerm = false) := by simpa using hdenied
          cases hheader : c.header with
          | false => simp [HeapCall.run, hperm]
          | true =>
            cases hloaded : c.loaded with
            | true => simp [HeapCall.run, HeapCall.run_kmalloc, hperm, c.buff_notMem_copies]
            | false =>
              cases hcaller : c.caller with
              | false =>
                have hleft := HeapCall.run_kmalloc c.copies [] []
                rw [append_nil] at hleft
                simp [HeapCall.run, hleft, c.copies_eq_nil]
              | true => simp [HeapCall.run, HeapCall.run_kmalloc, HeapCall.run_kfree c.freed_perm]

/-- A file that is there with a bad header. -/
theorem bad_header_frees_twice : ¬ Balanced (sysExecHeap ⟨true, true, true, true, false, false, 0, 0, true⟩) := by
  unfold Balanced
  decide

end HelinKern
