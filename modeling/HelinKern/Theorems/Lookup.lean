import HelinKern.Lookup

/-! Lookups of several processes that share the global of `strtok`. -/

namespace HelinKern
open Option Tokens List

def LookupCall.components (call : LookupCall) : List Text := Tokens.tokens slash call.path

namespace Lookup

variable {tree : Tree} {l l' : Lookup} {oldword : Option Text} {text rest t : Text} {ts : List Text} {call : LookupCall}

def source (oldword : Option Text) (l : Lookup) : Option Text := (if l.begun then none else some l.path).or oldword

theorem source_of_begun (h : l.begun) : l.source oldword = oldword := by
  unfold source
  rw [if_pos h, none_or]

theorem source_of_not_begun (h : l.begun = false) : l.source oldword = some l.path := by
  unfold source
  rw [if_neg (by simp [h]), some_or]

theorem step_cases (hsource : l.source oldword = some text) (h : l.step tree oldword = some (rest, l')) :
    tokens slash text = [] ∧ l' = l.stop ∨
      ∃ t, tokens slash text = t :: tokens slash rest ∧ l' = l.pass tree t := by
  obtain ⟨⟨word, rest'⟩, hword, h⟩ := map_eq_some_iff.mp h
  obtain ⟨text', htext, hword⟩ := map_eq_some_iff.mp hword
  obtain rfl : text' = text := some.inj (htext.symm.trans hsource)
  cases hnext : next slash text' with
  | none =>
    rw [hnext] at hword
    cases hword
    cases h
    exact .inl ⟨tokens_eq_nil hnext, rfl⟩
  | some next =>
    rw [hnext] at hword
    cases hword
    cases h
    exact .inr ⟨next.1, tokens_eq_cons hnext, rfl⟩

theorem exists_step (tree : Tree) (h : l.source oldword = some text) : ∃ rest l', l.step tree oldword = some (rest, l') := by
  unfold step strtok
  rw [show (if l.begun then none else some l.path).or oldword = some text from h]
  exact ⟨_, _, rfl⟩

theorem exists_source (h : l.step tree oldword = some (rest, l')) : ∃ text, l.source oldword = some text := by
  obtain ⟨r, hword, -⟩ := map_eq_some_iff.mp h
  obtain ⟨text, htext, -⟩ := map_eq_some_iff.mp hword
  exact ⟨text, htext⟩

def finish (tree : Tree) : List Text → Lookup → Lookup
  | [], l => l.stop
  | t :: ts, l => if (l.pass tree t).done then l.pass tree t else finish tree ts (l.pass tree t)

theorem visited_finish (ts : List Text) (l : Lookup) : l.visited <+: (finish tree ts l).visited := by
  induction ts generalizing l with
  | nil => exact prefix_refl _
  | cons t ts ih =>
    have hpass : l.visited <+: (l.pass tree t).visited := prefix_append ..
    rw [finish]
    split
    · exact hpass
    · exact hpass.trans (ih _)

theorem visited_finish_cons (tree : Tree) (t : Text) (ts : List Text) (l : Lookup) :
    l.visited ++ [t] <+: (finish tree (t :: ts) l).visited := by
  rw [finish]
  split
  · exact prefix_refl _
  · exact visited_finish ts (l.pass tree t)

theorem finish_eq_stop (h : finish tree ts l = l.stop) : ts = [] := by
  cases ts with
  | nil => rfl
  | cons t ts =>
    have hle := (visited_finish_cons tree t ts l).length_le
    rw [h, length_append] at hle
    exact absurd hle (Nat.not_succ_le_self _)

theorem advance_done (h : l.done) : advance tree (oldword, l) = (oldword, l) := if_pos h

theorem iterate_done (h : l.done) (n : Nat) : (advance tree)^[n] (oldword, l) = (oldword, l) :=
  Function.iterate_fixed (advance_done h) n

theorem advance_of_step (h : l.done = false) (hstep : l.step tree oldword = some (rest, l')) :
    advance tree (oldword, l) = (some rest, l') := by
  unfold advance
  rw [if_neg (by simp [h]), hstep]

theorem iterate_advance (hdone : l.done = false) (hsource : l.source oldword = some text) {n : Nat}
    (hts : tokens slash text = ts) (hn : ts.length ≤ n) :
    ((advance tree)^[n + 1] (oldword, l)).2 = finish tree ts l := by
  induction ts generalizing l oldword text n with
  | nil =>
    obtain ⟨rest, l', hstep⟩ := exists_step tree hsource
    rw [Function.iterate_succ_apply, advance_of_step hdone hstep]
    obtain ⟨-, rfl⟩ | ⟨t, htokens, -⟩ := step_cases hsource hstep
    · rw [iterate_done rfl]
      rfl
    · cases hts.symm.trans htokens
  | cons t ts ih =>
    obtain ⟨rest, l', hstep⟩ := exists_step tree hsource
    rw [Function.iterate_succ_apply, advance_of_step hdone hstep]
    obtain ⟨htokens, -⟩ | ⟨t', htokens, rfl⟩ := step_cases hsource hstep
    · cases hts.symm.trans htokens
    obtain ⟨rfl, hrest⟩ := cons.inj (hts.symm.trans htokens)
    obtain ⟨n, rfl⟩ : ∃ m, n = m + 1 := ⟨n - 1, by simp only [length_cons] at hn; omega⟩
    rw [finish]
    split
    next hpass => rw [iterate_done hpass]
    next hpass => exact ih (by simpa using hpass) (source_of_begun rfl) hrest.symm (by simpa using hn)

theorem scan_alone {start : Option Nat} (h : enter tree call = scan start call.path) :
    alone tree call = finish tree (call.components) (enter tree call) := by
  refine iterate_advance ?_ (source_of_not_begun ?_) ?_ (length_collect ..)
  · rw [h]
    rfl
  · rw [h]
    rfl
  · rw [h]
    rfl

theorem returned_alone {node : Option Nat} (h : enter tree call = returned node call.path) :
    alone tree call = enter tree call := by
  unfold alone
  rw [iterate_done]
  rw [h]
  rfl

theorem enter_cases (tree : Tree) (call : LookupCall) :
    (∃ start, enter tree call = scan start call.path) ∨ ∃ node, enter tree call = returned node call.path := by
  cases call with
  | openat node path => exact .inl ⟨some node, rfl⟩
  | find root workDir path =>
    unfold enter
    dsimp only [LookupCall.path]
    split
    · exact .inl ⟨root, rfl⟩
    cases workDir with
    | none => exact .inr ⟨none, rfl⟩
    | some w =>
      dsimp only
      split
      · exact .inr ⟨tree.prev w, rfl⟩
      · split
        · exact .inr ⟨some w, rfl⟩
        · exact .inl ⟨some w, rfl⟩

/-- The lookup visited components of its own path, in their order, and all of them if it found a node; it returned what it
    returns alone. -/
structure Undisturbed (tree : Tree) (call : LookupCall) (l : Lookup) : Prop where
  visited : l.visited <+: call.components
  complete : l.begun = true → l.done = true → l.node ≠ none → l.visited = call.components
  alone : l.done = true → l = alone tree call

structure Own (tree : Tree) (call : LookupCall) (l : Lookup) : Prop extends Undisturbed tree call l where
  path : l.path = call.path
  fresh : l.begun = false → l.visited = []
  ahead : l.done = false → ∃ rest, call.components = l.visited ++ rest ∧ Lookup.alone tree call = finish tree rest l

theorem enter_own (tree : Tree) (call : LookupCall) : (enter tree call).Own tree call := by
  obtain ⟨start, h⟩ | ⟨node, h⟩ := enter_cases tree call
  · have halone := scan_alone h
    rw [h] at halone ⊢
    exact ⟨⟨List.nil_prefix, nofun, nofun⟩, rfl, fun _ => rfl, fun _ => ⟨_, rfl, halone⟩⟩
  · have halone := returned_alone h
    rw [h] at halone ⊢
    exact ⟨⟨List.nil_prefix, nofun, fun _ => halone.symm⟩, rfl, fun _ => rfl, nofun⟩

/-- The text that `strtok` reads begins with the next component of the lookup. -/
def ReadsOwn (l : Lookup) (text : Text) : Prop :=
  (Tokens.tokens slash text).head? = ((Tokens.tokens slash l.path).drop l.visited.length).head?

theorem Own.readsOwn_iff (h : l.Own tree call) {rest : List Text} (hrest : call.components = l.visited ++ rest) :
    l.ReadsOwn text ↔ (tokens slash text).head? = rest.head? := by
  unfold ReadsOwn
  rw [h.path, show tokens slash call.path = _ from hrest, drop_left]

theorem Own.readsOwn_path (h : l.Own tree call) (hbegun : l.begun = false) : l.ReadsOwn l.path := by
  unfold ReadsOwn
  rw [h.fresh hbegun]
  rfl

theorem Own.step (h : l.Own tree call) (hdone : l.done = false) (hsource : l.source oldword = some text)
    (hown : l.ReadsOwn text) (hstep : l.step tree oldword = some (rest, l')) : l'.Own tree call := by
  obtain ⟨ahead, hahead, halone⟩ := h.ahead hdone
  rw [h.readsOwn_iff hahead] at hown
  obtain ⟨htokens, rfl⟩ | ⟨t, htokens, rfl⟩ := step_cases hsource hstep
  · rw [htokens] at hown
    obtain rfl := head?_eq_none_iff.mp hown.symm
    rw [append_nil] at hahead
    exact ⟨⟨h.visited, fun _ _ _ => hahead.symm, fun _ => halone.symm⟩, h.path, nofun, nofun⟩
  · rw [htokens] at hown
    obtain ⟨ahead, rfl⟩ := head?_eq_some_iff.mp hown.symm
    have hvisited : call.components = (l.pass tree t).visited ++ ahead := by
      rw [hahead, ← singleton_append, ← append_assoc]
      rfl
    rw [finish] at halone
    refine ⟨⟨⟨ahead, hvisited.symm⟩, fun _ hpass hnode => absurd (isNone_iff_eq_none.mp hpass) hnode, fun hpass => ?_⟩,
      h.path, nofun, fun hpass => ⟨ahead, hvisited, ?_⟩⟩
    · rw [halone, if_pos hpass]
    · rw [halone, if_neg (by simp [hpass])]

theorem Own.readsOwn_of_step (h : l.Own tree call) (hdone : l.done = false) (hsource : l.source oldword = some text)
    (hstep : l.step tree oldword = some (rest, l')) (hl' : l'.Undisturbed tree call) : l.ReadsOwn text := by
  obtain ⟨ahead, hahead, halone⟩ := h.ahead hdone
  rw [h.readsOwn_iff hahead]
  obtain ⟨htokens, rfl⟩ | ⟨t, htokens, rfl⟩ := step_cases hsource hstep
  · rw [htokens, finish_eq_stop (halone.symm.trans (hl'.alone rfl).symm)]
  have hprefix : [t] <+: ahead := (prefix_append_right_inj l.visited).mp (hahead ▸ hl'.visited)
  obtain ⟨ts, rfl⟩ := hprefix
  rw [htokens]
  rfl

end Lookup

namespace Lookups
open Lookup

variable {tree : Tree} {s t : Lookups} {op : Op}

def Undisturbed (tree : Tree) (s : Lookups) : Prop := ∀ pid call l, s.lookups pid = some (call, l) → l.Undisturbed tree call

/-- A process that goes on with a lookup finds a text of its next component in `oldword`. -/
def FindsOwn (s : Lookups) : Op → Prop
  | .enter .. => True
  | .step pid => ∀ call l text, s.lookups pid = some (call, l) → l.begun = true → s.oldword = some text → l.ReadsOwn text

def Inv (tree : Tree) (s : Lookups) : Prop := ∀ pid call l, s.lookups pid = some (call, l) → l.Own tree call

theorem boot_inv (tree : Tree) : boot.Inv tree := by
  intro pid call l hl
  cases hl

theorem Inv.undisturbed (h : s.Inv tree) : s.Undisturbed tree := fun pid call l hl => (h pid call l hl).toUndisturbed

theorem set_self (s : Lookups) (pid : Nat) (call : LookupCall) (l : Lookup) :
    (s.set pid call l).lookups pid = some (call, l) :=
  Function.update_self ..

variable {pid : Nat}

theorem set_of_ne {pid' : Nat} (h : pid' ≠ pid) (s : Lookups) (call : LookupCall) (l : Lookup) :
    (s.set pid call l).lookups pid' = s.lookups pid' :=
  Function.update_of_ne h ..

theorem Inv.set (h : s.Inv tree) (pid : Nat) (call : LookupCall) {l : Lookup} (hl : l.Own tree call) :
    (s.set pid call l).Inv tree := by
  intro pid' call' l' h'
  by_cases hpid : pid' = pid
  · rw [hpid, set_self] at h'
    cases h'
    exact hl
  · rw [set_of_ne hpid] at h'
    exact h pid' call' l' h'

theorem exec_step (h : s.exec tree (.step pid) = some t) :
    ∃ call l rest l', s.lookups pid = some (call, l) ∧ l.done = false ∧ l.step tree s.oldword = some (rest, l') ∧
      t = { s.set pid call l' with oldword := some rest } := by
  obtain ⟨⟨call, l⟩, hl, h⟩ := bind_eq_some_iff.mp h
  obtain ⟨hdone, h⟩ := ite_none_left_eq_some.mp h
  obtain ⟨⟨rest, l'⟩, hstep, rfl⟩ := map_eq_some_iff.mp h
  exact ⟨call, l, rest, l', hl, by simpa using hdone, hstep, rfl⟩

theorem Inv.readsOwn (h : s.Inv tree) (hown : s.FindsOwn (.step pid)) {call : LookupCall} {l : Lookup}
    {text : Text} (hl : s.lookups pid = some (call, l)) (hsource : l.source s.oldword = some text) : l.ReadsOwn text := by
  cases hbegun : l.begun with
  | true =>
    rw [source_of_begun hbegun] at hsource
    exact hown call l text hl hbegun hsource
  | false =>
    rw [source_of_not_begun hbegun] at hsource
    exact some.inj hsource ▸ (h pid call l hl).readsOwn_path hbegun

theorem Inv.step (h : s.Inv tree) (hexec : s.exec tree op = some t) (hown : s.FindsOwn op) : t.Inv tree := by
  cases op with
  | enter pid call =>
    obtain ⟨-, hexec⟩ := ite_none_right_eq_some.mp hexec
    exact some.inj hexec ▸ h.set pid call (enter_own tree call)
  | step pid =>
    obtain ⟨call, l, rest, l', hl, hdone, hstep, rfl⟩ := exec_step hexec
    obtain ⟨text, hsource⟩ := exists_source hstep
    exact h.set pid call ((h pid call l hl).step hdone hsource (h.readsOwn hown hl hsource) hstep)

theorem Inv.findsOwn (h : s.Inv tree) (hexec : s.exec tree op = some t) (ht : t.Undisturbed tree) : s.FindsOwn op := by
  cases op with
  | enter pid call => trivial
  | step pid =>
    obtain ⟨call, l, rest, l', hl, hdone, hstep, rfl⟩ := exec_step hexec
    intro call' l'' text hl'' hbegun htext
    cases hl.symm.trans hl''
    refine (h pid call l hl).readsOwn_of_step hdone ?_ hstep (ht pid call l' (set_self ..))
    rw [source_of_begun hbegun, htext]

/-- The lookups of the processes do not interfere exactly in the runs in which every process that goes on finds its own next
    component in the global. -/
theorem lookups_undisturbed (tree : Tree) (ops : List Op) :
    Lts.Along (exec tree) (fun _ _ t => t.Undisturbed tree) boot ops ↔
      Lts.Along (exec tree) (fun s op _ => s.FindsOwn op) boot ops := by
  refine Lts.along_iff (Inv tree) (boot_inv tree) (fun h hexec => ?_) (fun h hexec hown => h.step hexec hown) ops
  exact ⟨h.findsOwn hexec, fun hown => (h.step hexec hown).undisturbed⟩

/-- A root directory with the nodes 1 and 2 under the names `a` and `c`, and the node 3 under `b` in the node 1. -/
def smallTree : Tree where
  finddir n name :=
    if n = 0 ∧ name = [0x61] then some 1
    else if n = 0 ∧ name = [0x63] then some 2
    else if n = 1 ∧ name = [0x62] then some 3
    else none
  prev _ := none

/-- A process looks up `a/b`, and after the first component another one looks up `c`: the first one ends at `a`. -/
theorem lookup_disturbed :
    ¬Lts.Along (exec smallTree) (fun _ _ t => t.Undisturbed smallTree) boot
      [.enter 1 (.find (some 0) (some 0) [0x61, slash, 0x62]), .step 1, .enter 2 (.find (some 0) (some 0) [0x63]), .step 2,
        .step 1] := by
  intro h
  obtain ⟨-, h⟩ := h _ rfl
  obtain ⟨-, h⟩ := h _ rfl
  obtain ⟨-, h⟩ := h _ rfl
  obtain ⟨-, h⟩ := h _ rfl
  obtain ⟨h, -⟩ := h _ rfl
  exact absurd ((h 1 _ _ rfl).alone rfl) (by decide)

end Lookups
end HelinKern
