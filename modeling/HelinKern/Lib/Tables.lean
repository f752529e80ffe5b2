import HelinKern.Lib.Loop

/-! Tables in a memory of pages. A page is a row of entries, and an entry may lead to another page; what a path of indexes
    leads to from a root page, and how that changes when an entry is written that leads to a new page. -/

namespace Tables
open Function List Option

variable {α ι ε : Type}

def set [DecidableEq α] [DecidableEq ι] (mem : α → ι → ε) (t : α) (i : ι) (e : ε) : α → ι → ε :=
  update mem t (update (mem t) i e)

def walk (next : ε → Option α) (mem : α → ι → ε) (root : α) : List ι → Option α
  | [] => some root
  | i :: path => (next (mem root i)).bind fun t => walk next mem t path

variable {next : ε → Option α} {mem mem' : α → ι → ε} {root t u f : α} {i j : ι} {e : ε} {path : List ι}

@[simp] theorem set_self [DecidableEq α] [DecidableEq ι] (mem : α → ι → ε) (t : α) (i : ι) (e : ε) : set mem t i e t i = e := by
  unfold set
  rw [update_self, update_self]

theorem set_of_ne [DecidableEq α] [DecidableEq ι] (h : ¬(u = t ∧ j = i)) : set mem t i e u j = mem u j := by
  unfold set
  by_cases hu : u = t
  · subst hu
    rw [update_self, update_of_ne fun hj => h ⟨rfl, hj⟩]
  · rw [update_of_ne hu]

theorem set_comm [DecidableEq α] [DecidableEq ι] (mem : α → ι → ε) (e e' : ε) (h : ¬(u = t ∧ j = i)) :
    set (set mem t i e) u j e' = set (set mem u j e') t i e := by
  funext x k
  by_cases hxu : x = u ∧ k = j
  · obtain ⟨rfl, rfl⟩ := hxu
    rw [set_self, set_of_ne h, set_self]
  rw [set_of_ne hxu]
  by_cases hxt : x = t ∧ k = i
  · obtain ⟨rfl, rfl⟩ := hxt
    rw [set_self, set_self]
  · rw [set_of_ne hxt, set_of_ne hxt, set_of_ne hxu]

def filled [DecidableEq α] (mem : α → Nat → ε) (t : α) (n : Nat) (e : ε) : α → Nat → ε :=
  update mem t fun i => if i < n then e else mem t i

variable {n : Nat}

theorem filled_of_ne [DecidableEq α] {mem : α → Nat → ε} (h : u ≠ t) : filled mem t n e u = mem u :=
  update_of_ne h ..

theorem filled_self [DecidableEq α] {mem : α → Nat → ε} {i : Nat} (h : i < n) : filled mem t n e t i = e := by
  unfold filled
  rw [update_self, if_pos h]

theorem foldlM_filled [DecidableEq α] {σ : Type} {mem : α → Nat → ε} (put : (α → Nat → ε) → σ)
    {f : σ → Nat → Option σ}
    (h : ∀ mem' i, i < n → (∀ u, u ≠ t → mem' u = mem u) → f (put mem') i = some (put (set mem' t i e))) :
    (range n).foldlM f (put mem) = some (put (filled mem t n e)) := by
  obtain ⟨s, hs, rfl⟩ := Loop.foldlM_range (fun k s => s = put (filled mem t k e))
    (by
      have hsame : (fun i => if i < 0 then e else mem t i) = mem t := funext fun i => if_neg (Nat.not_lt_zero i)
      unfold filled
      rw [hsame, update_eq_self])
    (fun k s hk hs => by
      refine ⟨_, hs ▸ h _ k hk fun u hu => filled_of_ne hu, congrArg put ?_⟩
      unfold filled set
      dsimp only
      rw [update_idem, update_self]
      congr 1
      funext i
      by_cases hi : i = k
      · subst hi
        rw [update_self, if_pos (Nat.lt_succ_self i)]
      · rw [update_of_ne hi]
        exact if_congr (by omega) rfl rfl)
  exact hs

theorem walk_append (path path' : List ι) :
    walk next mem root (path ++ path') = (walk next mem root path).bind fun t => walk next mem t path' := by
  induction path generalizing root with
  | nil => rfl
  | cons i path ih =>
    show (next (mem root i)).bind _ = ((next (mem root i)).bind _).bind _
    rw [bind_assoc]
    exact congrArg _ (funext fun t => ih)

theorem walk_concat (path : List ι) (i : ι) :
    walk next mem root (path ++ [i]) = (walk next mem root path).bind fun t => next (mem t i) := by
  rw [walk_append]
  refine congrArg _ (funext fun t => ?_)
  show (next (mem t i)).bind some = next (mem t i)
  cases next (mem t i) <;> rfl

theorem walk_concat_of_some (h : walk next mem root path = some t) : walk next mem root (path ++ [i]) = next (mem t i) := by
  rw [walk_concat, h, bind_some]

theorem walk_replicate (h : next (mem root i) = some root) (n : Nat) (path : List ι) :
    walk next mem root (replicate n i ++ path) = walk next mem root path := by
  induction n with
  | zero => rfl
  | succ n ih =>
    rw [replicate_succ, cons_append]
    show (next (mem root i)).bind _ = _
    rw [h, bind_some, ih]

/-- Along the paths of `P`, which come with the paths to every page on the way, different paths lead to different pages. -/
structure Tree (next : ε → Option α) (mem : α → ι → ε) (root : α) (P : List ι → Prop) : Prop where
  nil : P []
  closed : ∀ path i, P (path ++ [i]) → P path
  inj : ∀ path path' t, P path → P path' → walk next mem root path = some t → walk next mem root path' = some t → path = path'

variable {P : List ι → Prop}

section
variable (h : Tree next mem root P)
  (hsame : ∀ path i u, P (path ++ [i]) → walk next mem root path = some u → next (mem' u i) = next (mem u i))
include h hsame

theorem Tree.walk_congr : P path → walk next mem' root path = walk next mem root path := by
  induction path using reverseRecOn with
  | nil => exact fun _ => rfl
  | append_singleton path i ih =>
    intro hP
    rw [walk_concat, walk_concat, ih (h.closed path i hP)]
    cases hu : walk next mem root path with
    | none => rfl
    | some u => exact hsame path i u hP hu

theorem Tree.congr : Tree next mem' root P := by
  refine ⟨h.nil, h.closed, fun path path' t hP hP' ht ht' => ?_⟩
  rw [h.walk_congr hsame hP] at ht
  rw [h.walk_congr hsame hP'] at ht'
  exact h.inj path path' t hP hP' ht ht'

end

/-- The entry `i` of the page at `path` led nowhere and now leads to `f`, which no path led to and from which nothing leads
    on. -/
structure Linked (next : ε → Option α) (mem : α → ι → ε) (root : α) (P : List ι → Prop) (path : List ι) (i : ι) (f : α)
    (mem' : α → ι → ε) : Prop where
  at_path : ∃ t, walk next mem root path = some t ∧ next (mem t i) = none ∧ next (mem' t i) = some f
  fresh : ∀ path, P path → walk next mem root path ≠ some f
  row : ∀ j, P (path ++ [i] ++ [j]) → next (mem' f j) = none
  same : ∀ path' j u, P (path' ++ [j]) → walk next mem root path' = some u → path' ++ [j] ≠ path ++ [i] →
    next (mem' u j) = next (mem u j)

theorem Linked.walk_eq [DecidableEq ι] (h : Tree next mem root P) (hl : Linked next mem root P path i f mem') {path' : List ι} :
    P path' → walk next mem' root path' = if path' = path ++ [i] then some f else walk next mem root path' := by
  obtain ⟨t, ht, hnone, hsome⟩ := hl.at_path
  induction path' using reverseRecOn with
  | nil =>
    intro _
    rw [if_neg (by simp)]
    rfl
  | append_singleton path' j ih =>
    intro hP
    have hP' := h.closed path' j hP
    rw [walk_concat, ih hP', walk_concat]
    by_cases hbelow : path' = path ++ [i]
    · -- below the new page nothing is mapped, as before
      subst hbelow
      rw [if_pos rfl, if_neg (by simp), bind_some, hl.row j hP, walk_concat_of_some ht, hnone]
      rfl
    · rw [if_neg hbelow]
      by_cases hat : path' ++ [j] = path ++ [i]
      · obtain ⟨rfl, hj⟩ := append_inj' hat rfl
        obtain rfl : j = i := (cons.inj hj).1
        rw [if_pos rfl, ht, bind_some, hsome]
      · rw [if_neg hat]
        cases hu : walk next mem root path' with
        | none => rfl
        | some u => exact hl.same path' j u hP hu hat

theorem Linked.tree [DecidableEq ι] (h : Tree next mem root P) (hl : Linked next mem root P path i f mem') :
    Tree next mem' root P := by
  refine ⟨h.nil, h.closed, fun p p' t hP hP' ht ht' => ?_⟩
  rw [hl.walk_eq h hP] at ht
  rw [hl.walk_eq h hP'] at ht'
  split at ht
  next hp =>
    cases ht
    split at ht'
    next hp' => rw [hp, hp']
    · exact absurd ht' (hl.fresh p' hP')
  · split at ht'
    · cases ht'
      exact absurd ht (hl.fresh p hP)
    · exact h.inj p p' t hP hP' ht ht'

/-- Nothing is written but the entry `i` of the page `t`, the page `f` and the entries of `E`. -/
def Beside (mem : α → ι → ε) (E : α → ι → Prop) (t : α) (i : ι) (f : α) (mem' : α → ι → ε) : Prop :=
  ∀ u j, u ≠ f → ¬(u = t ∧ j = i) → ¬E u j → mem' u j = mem u j

theorem beside_set [DecidableEq α] [DecidableEq ι] (mem : α → ι → ε) (E : α → ι → Prop) (t : α) (i : ι) (f : α) (e : ε) :
    Beside mem E t i f (set mem t i e) := fun _ _ _ hne _ => set_of_ne hne

theorem Beside.trans_set [DecidableEq α] [DecidableEq ι] {E : α → ι → Prop} (h : Beside mem E t i f mem') (hE : E u j) (e : ε) :
    Beside mem E t i f (set mem' u j e) := by
  intro x k hxf hne hEx
  have hat : ¬(x = u ∧ k = j) := by
    rintro ⟨rfl, rfl⟩
    exact hEx hE
  rw [set_of_ne hat]
  exact h x k hxf hne hEx

theorem Beside.trans_page {mem'' : α → ι → ε} {E : α → ι → Prop} (h : Beside mem E t i f mem')
    (hsame : ∀ u, u ≠ f → mem'' u = mem' u) : Beside mem E t i f mem'' := by
  intro u j huf hne hE
  rw [hsame u huf]
  exact h u j huf hne hE

/-- No path leads through the entries of `E`. -/
def Unused (next : ε → Option α) (mem : α → ι → ε) (root : α) (P : List ι → Prop) (E : α → ι → Prop) : Prop :=
  ∀ path j u, P (path ++ [j]) → walk next mem root path = some u → ¬E u j

/-! An entry that no path leads through may be written. -/

section
variable [DecidableEq α] [DecidableEq ι] (hE : Unused next mem root P fun x k => x = t ∧ k = i)
include hE

theorem Unused.same_set (e : ε) (hP : P (path ++ [j]))
    (hu : walk next mem root path = some u) : set mem t i e u j = mem u j := set_of_ne (hE path j u hP hu)

theorem Unused.walk_set (h : Tree next mem root P) (e : ε)
    (hP : P path) : walk next (set mem t i e) root path = walk next mem root path :=
  h.walk_congr (fun _ _ _ hP' hu => congrArg next (hE.same_set e hP' hu)) hP

theorem Unused.tree_set (h : Tree next mem root P) (e : ε) :
    Tree next (set mem t i e) root P := h.congr fun _ _ _ hP hu => congrArg next (hE.same_set e hP hu)

end

section
variable {E : α → ι → Prop}

section
variable (hb : Beside mem E t i f mem') (h : Tree next mem root P) (hE : Unused next mem root P E)
  (hf : ∀ path, P path → walk next mem root path ≠ some f)
include hb h hE hf

theorem Beside.same (hP : P (path ++ [j])) (hu : walk next mem root path = some u)
    (hne : ¬(u = t ∧ j = i)) : mem' u j = mem u j :=
  hb u j (fun huf => hf path (h.closed _ _ hP) (huf ▸ hu)) hne (hE path j u hP hu)

theorem Beside.walk_of_some (hnone : next (mem t i) = none) :
    P path → walk next mem root path = some u → walk next mem' root path = some u := by
  induction path using reverseRecOn generalizing u with
  | nil => exact fun _ hu => hu
  | append_singleton path j ih =>
    intro hP hu
    rw [walk_concat] at hu
    obtain ⟨x, hx, hu⟩ := bind_eq_some_iff.mp hu
    have hne : ¬(x = t ∧ j = i) := by
      rintro ⟨rfl, rfl⟩
      rw [hnone] at hu
      cases hu
    rw [walk_concat_of_some (ih (h.closed _ _ hP) hx), hb.same h hE hf hP hx hne, hu]

theorem Beside.linked (hP : P (path ++ [i])) (ht : walk next mem root path = some t)
    (hnone : next (mem t i) = none) (hsome : next (mem' t i) = some f)
    (hrow : ∀ j, P (path ++ [i] ++ [j]) → next (mem' f j) = none) : Linked next mem root P path i f mem' where
  at_path := ⟨t, ht, hnone, hsome⟩
  fresh := hf
  row := hrow
  same path' j u hP' hu hne := by
    refine congrArg next (hb.same h hE hf hP' hu fun hut => hne ?_)
    rw [h.inj path' path t (h.closed _ _ hP') (h.closed _ _ hP) (hut.1 ▸ hu) ht, hut.2]

end

end

/-- The pages are different, and no path leads to one of them. -/
def Fresh (next : ε → Option α) (mem : α → ι → ε) (root : α) (P : List ι → Prop) (frames : List α) : Prop :=
  frames.Nodup ∧ ∀ f ∈ frames, ∀ path, P path → walk next mem root path ≠ some f

/-- Every path leads where it did, and where it leads now is one of the pages of `frames`, of which `frames'` are left. -/
structure Extends (next : ε → Option α) (P : List ι → Prop) (mem : α → ι → ε) (root : α) (frames : List α) (mem' : α → ι → ε)
    (root' : α) (frames' : List α) : Prop where
  walk : ∀ path t, P path → walk next mem root path = some t → walk next mem' root' path = some t
  reached : ∀ path t, P path → Tables.walk next mem' root' path = some t → Tables.walk next mem root path = some t ∨ t ∈ frames
  left : frames' <:+ frames
  fresh : Fresh next mem root P frames → Fresh next mem' root' P frames'

variable {frames frames' frames'' : List α} {mem'' : α → ι → ε} {root' root'' : α}

theorem Extends.of_walk_eq (h : ∀ path, P path → Tables.walk next mem' root' path = Tables.walk next mem root path) :
    Extends next P mem root frames mem' root' frames where
  walk path _ hP ht := (h path hP).trans ht
  reached path _ hP ht := .inl ((h path hP).symm.trans ht)
  left := suffix_rfl
  fresh hf := ⟨hf.1, fun f hmem path hP => by rw [h path hP]; exact hf.2 f hmem path hP⟩

theorem Extends.trans (h : Extends next P mem root frames mem' root' frames')
    (h' : Extends next P mem' root' frames' mem'' root'' frames'') : Extends next P mem root frames mem'' root'' frames'' where
  walk path t hP ht := h'.walk path t hP (h.walk path t hP ht)
  reached path t hP ht := by
    rcases h'.reached path t hP ht with hold | hnew
    · exact h.reached path t hP hold
    · exact .inr (h.left.subset hnew)
  left := h'.left.trans h.left
  fresh hf := h'.fresh (h.fresh hf)

theorem Linked.extends [DecidableEq ι] (h : Tree next mem root P) (hl : Linked next mem root P path i f mem') :
    Extends next P mem root (f :: frames) mem' root frames where
  walk path' t hP ht := by
    obtain ⟨u, hu, hnone, -⟩ := hl.at_path
    rw [hl.walk_eq h hP, if_neg, ht]
    rintro rfl
    rw [walk_concat_of_some hu, hnone] at ht
    cases ht
  reached path' t hP ht := by
    rw [hl.walk_eq h hP] at ht
    split at ht
    · rw [← some.inj ht]
      exact .inr (mem_cons_self ..)
    · exact .inl ht
  left := suffix_cons ..
  fresh hf := by
    refine ⟨(nodup_cons.mp hf.1).2, fun g hg path' hP ht => ?_⟩
    rw [hl.walk_eq h hP] at ht
    split at ht
    · rw [← some.inj ht] at hg
      exact (nodup_cons.mp hf.1).1 hg
    · exact hf.2 g (mem_cons_of_mem _ hg) path' hP ht

end Tables
