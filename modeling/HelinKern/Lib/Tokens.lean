import Mathlib.Data.List.Basic

/-! Texts cut into tokens at a separator: one token after another, and all of them. -/

namespace Tokens
open List
variable {α : Type} [DecidableEq α] {sep : α} {s w r : List α}

def next (sep : α) (s : List α) : Option (List α × List α) :=
  match s.dropWhile fun c => c = sep with
  | [] => none
  | c :: s => some ((c :: s).takeWhile fun c => c ≠ sep, ((c :: s).dropWhile fun c => c ≠ sep).tail)

def collect (sep : α) (word : List α) : List α → List (List α)
  | [] => if word = [] then [] else [word]
  | c :: s =>
    if c = sep then if word = [] then collect sep [] s else word :: collect sep [] s
    else collect sep (word ++ [c]) s

def tokens (sep : α) (s : List α) : List (List α) := collect sep [] s

theorem tokens_sep : tokens sep (sep :: s) = tokens sep s := by
  unfold tokens
  rw [collect, if_pos rfl, if_pos rfl]

theorem tokens_dropWhile (s : List α) : tokens sep (s.dropWhile fun c => c = sep) = tokens sep s := by
  induction s with
  | nil => rfl
  | cons c s ih =>
    by_cases hc : c = sep
    · rw [dropWhile_cons_of_pos (by simpa using hc), ih, hc, tokens_sep]
    · rw [dropWhile_cons_of_neg (by simpa using hc)]

theorem collect_eq (hw : w ≠ []) (s : List α) :
    collect sep w s = (w ++ s.takeWhile fun c => c ≠ sep) :: tokens sep ((s.dropWhile fun c => c ≠ sep).tail) := by
  induction s generalizing w with
  | nil => rw [collect, if_neg hw, takeWhile_nil, append_nil]; rfl
  | cons c s ih =>
    by_cases hc : c = sep
    · rw [collect, if_pos hc, if_neg hw, takeWhile_cons_of_neg (by simpa using hc),
        dropWhile_cons_of_neg (by simpa using hc), append_nil]
      rfl
    · rw [collect, if_neg hc, ih (by simp), takeWhile_cons_of_pos (by simpa using hc),
        dropWhile_cons_of_pos (by simpa using hc), append_assoc, singleton_append]

theorem tokens_cons_of_ne {c : α} (hc : c ≠ sep) :
    tokens sep (c :: s) =
      ((c :: s).takeWhile fun c => c ≠ sep) :: tokens sep (((c :: s).dropWhile fun c => c ≠ sep).tail) := by
  rw [tokens, collect, if_neg hc, collect_eq (by simp), takeWhile_cons_of_pos (by simpa using hc),
    dropWhile_cons_of_pos (by simpa using hc)]
  rfl

theorem tokens_of_next (s : List α) :
    tokens sep s = match next sep s with
      | none => []
      | some (w, r) => w :: tokens sep r := by
  rw [← tokens_dropWhile]
  unfold next
  cases hs : s.dropWhile fun c => c = sep with
  | nil => rfl
  | cons c r =>
    have hc : c ≠ sep := by
      have := head?_dropWhile_not (fun c => decide (c = sep)) s
      rw [hs] at this
      simpa using this
    exact tokens_cons_of_ne hc

theorem tokens_eq_nil (h : next sep s = none) : tokens sep s = [] := by
  rw [tokens_of_next, h]

theorem tokens_eq_cons (h : next sep s = some (w, r)) : tokens sep s = w :: tokens sep r := by
  rw [tokens_of_next, h]

theorem length_collect (w s : List α) : (collect sep w s).length ≤ s.length + 1 := by
  induction s generalizing w with
  | nil =>
    rw [collect]
    split <;> simp
  | cons c s ih =>
    have h := ih []
    have h' := ih (w ++ [c])
    rw [collect]
    split
    · split <;> simp only [length_cons] <;> omega
    · simp only [length_cons]
      omega

def join (sep : α) : List (List α) → List α
  | [] => []
  | [w] => w
  | w :: v :: ws => w ++ sep :: join sep (v :: ws)

variable {ws : List (List α)}

omit [DecidableEq α] in
theorem join_cons (h : ws ≠ []) : join sep (w :: ws) = w ++ sep :: join sep ws := by
  obtain ⟨v, ws, rfl⟩ := exists_cons_of_ne_nil h
  rfl

omit [DecidableEq α] in
theorem join_concat (h : ws ≠ []) : join sep (ws ++ [w]) = join sep ws ++ sep :: w := by
  induction ws with
  | nil => exact absurd rfl h
  | cons v ws ih =>
    by_cases hws : ws = []
    · subst hws
      rfl
    · rw [cons_append, join_cons (by simp), join_cons hws, ih hws, append_assoc, cons_append]

omit [DecidableEq α] in
theorem mem_join {c : α} (h : c ∈ join sep ws) : c = sep ∨ ∃ w ∈ ws, c ∈ w := by
  induction ws with
  | nil => cases h
  | cons w ws ih =>
    by_cases hws : ws = []
    · subst hws
      exact .inr ⟨w, mem_cons_self, h⟩
    rw [join_cons hws, mem_append, mem_cons] at h
    obtain h | rfl | h := h
    · exact .inr ⟨w, mem_cons_self, h⟩
    · exact .inl rfl
    · exact (ih h).imp_right fun ⟨v, hv, hc⟩ => ⟨v, mem_cons_of_mem w hv, hc⟩

omit [DecidableEq α] in
theorem eq_singleton_of_join (hws : ws ≠ []) (hs : sep ∉ s) (h : join sep ws = s) : ws = [s] := by
  obtain ⟨w, ws, rfl⟩ := exists_cons_of_ne_nil hws
  by_cases hnil : ws = []
  · subst hnil
    exact congrArg (fun w => [w]) h
  · rw [join_cons hnil] at h
    exact absurd (h ▸ mem_append_right w mem_cons_self) hs

theorem collect_append (h : sep ∉ w) (v s : List α) : collect sep v (w ++ s) = collect sep (v ++ w) s := by
  induction w generalizing v with
  | nil => rw [nil_append, append_nil]
  | cons c w ih =>
    have hc : c ≠ sep := fun heq => h (heq ▸ mem_cons_self)
    rw [cons_append, collect, if_neg hc, ih (fun hmem => h (mem_cons_of_mem c hmem)), append_assoc,
      singleton_append]

theorem tokens_join (h : ∀ w ∈ ws, w ≠ [] ∧ sep ∉ w) : tokens sep (join sep ws) = ws := by
  induction ws with
  | nil => rfl
  | cons w ws ih =>
    obtain ⟨hne, hsep⟩ := h w mem_cons_self
    by_cases hws : ws = []
    · subst hws
      have hw := collect_append hsep [] []
      rw [append_nil, nil_append, collect, if_neg hne] at hw
      exact hw
    · rw [join_cons hws, tokens, collect_append hsep, nil_append, collect, if_pos rfl, if_neg hne]
      exact congrArg _ (ih fun v hv => h v (mem_cons_of_mem w hv))

def splitLast (sep : α) : List α → Option (List α × List α)
  | [] => none
  | c :: s =>
    match splitLast sep s with
    | some (d, n) => some (c :: d, n)
    | none => if c = sep then some ([], s) else none

theorem splitLast_eq_none (h : sep ∉ s) : splitLast sep s = none := by
  induction s with
  | nil => rfl
  | cons c s ih =>
    have hc : c ≠ sep := fun heq => h (heq ▸ mem_cons_self)
    rw [splitLast, ih fun hmem => h (mem_cons_of_mem c hmem)]
    exact if_neg hc

theorem splitLast_append (h : sep ∉ w) (s : List α) : splitLast sep (s ++ sep :: w) = some (s, w) := by
  induction s with
  | nil =>
    rw [nil_append, splitLast, splitLast_eq_none h]
    exact if_pos rfl
  | cons c s ih => rw [cons_append, splitLast, ih]

end Tokens
