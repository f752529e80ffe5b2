import Mathlib.Data.Fintype.Card
import Mathlib.Data.List.Pairwise
import Mathlib.Logic.Relation

/-! A search that follows the links of every node it comes to and does not mark what it has seen. -/

namespace Walk
open List Relation

variable {α : Type} (links : Option α → List α)

/-- The nodes a search comes to from `u` on, each before those it leads to; `none` if the calls nest deeper than `depth`. The
    node `none` is where a search begins. -/
def visit : Nat → Option α → Option (List α)
  | 0, _ => none
  | depth + 1, u => ((links u).mapM fun t => (visit depth (some t)).map (t :: ·)).map flatten

def Reached : Option α → Prop := ReflTransGen (fun u v => ∃ t ∈ links u, v = some t) none

/-- A node that is reached is reached by one link only. -/
structure OneWay : Prop where
  once : ∀ u, Reached links u → (links u).Nodup
  unique : ∀ u v t, Reached links u → Reached links v → t ∈ links u → t ∈ links v → u = v

variable {links} {depth : Nat} {u : Option α} {t : α} {l : List α}

theorem visit_succ : visit links (depth + 1) u = some l ↔ (∀ t ∈ links u, (visit links depth (some t)).isSome) ∧
    (links u).flatMap (fun t => t :: (visit links depth (some t)).getD []) = l := by
  have hall : ∀ (f : α → Option (List α)) (ts l : List α), (ts.mapM fun t => (f t).map (t :: ·)).map flatten = some l ↔
      (∀ t ∈ ts, (f t).isSome) ∧ ts.flatMap (fun t => t :: (f t).getD []) = l := by
    intro f ts
    induction ts with
    | nil => simp
    | cons t ts ih =>
      intro l
      cases hf : f t with
      | none => simp [hf]
      | some lt =>
        cases hm : ts.mapM fun t => (f t).map (t :: ·) with
        | none => simp_all
        | some ls =>
          rw [hm] at ih
          obtain ⟨hsome, hflat⟩ := (ih ls.flatten).mp rfl
          simpa [hf, hm, hflat] using fun _ => hsome
  exact hall ..

/-- What is visited is what the nodes that are visited lead to. -/
theorem visit_perm (h : visit links depth u = some l) : l.Perm (links u ++ l.flatMap fun t => links (some t)) := by
  induction depth generalizing u l with
  | zero => cases h
  | succ depth ih =>
    obtain ⟨hsome, rfl⟩ := visit_succ.mp h
    have hsplit := flatMap_append_perm (links u) (fun t => [t]) fun t => (visit links depth (some t)).getD []
    rw [flatMap_singleton'] at hsplit
    refine hsplit.symm.trans (Perm.append_left _ ?_)
    rw [flatMap_assoc]
    refine Perm.flatMap_left _ fun t ht => ?_
    obtain ⟨lt, hlt⟩ := Option.isSome_iff_exists.mp (hsome t ht)
    rw [flatMap_cons, hlt]
    exact ih hlt

theorem visit_reached (h : visit links depth u = some l) (hu : Reached links u) (ht : t ∈ l) : Reached links (some t) := by
  induction depth generalizing u l with
  | zero => cases h
  | succ depth ih =>
    obtain ⟨hsome, rfl⟩ := visit_succ.mp h
    obtain ⟨s, hs, ht⟩ := mem_flatMap.mp ht
    have hreached : Reached links (some s) := hu.tail ⟨s, hs, rfl⟩
    rcases mem_cons.mp ht with rfl | ht
    · exact hreached
    · obtain ⟨ls, hls⟩ := Option.isSome_iff_exists.mp (hsome s hs)
      rw [hls] at ht
      exact ih hls hreached ht

/-! ### Searches that end -/

/-- The nodes from `none` to the first one of the list, each linked to by the next. -/
def Path (links : Option α → List α) : List α → Prop
  | [] => True
  | t :: path => t ∈ links path.head? ∧ Path links path

theorem Path.reached {path : List α} (h : Path links path) : Reached links path.head? := by
  induction path with
  | nil => exact .refl
  | cons t path ih => exact (ih h.2).tail ⟨t, h.1, rfl⟩

theorem Path.of_append {path path' : List α} (h : Path links (path ++ path')) : Path links path' := by
  induction path with
  | nil => exact h
  | cons t path ih => exact ih h.2

theorem OneWay.path_nodup (h : OneWay links) {path : List α} (hpath : Path links path) : path.Nodup := by
  induction path with
  | nil => exact nodup_nil
  | cons t path ih =>
    have hnodup := ih hpath.2
    refine nodup_cons.mpr ⟨fun ht => ?_, hnodup⟩
    -- the node before `t` is the same both times, so that `t` would not be the first to be met again
    obtain ⟨before, after, rfl⟩ := append_of_mem ht
    have hafter := hpath.2.of_append
    have hsame := h.unique _ _ t hpath.2.reached hafter.2.reached hpath.1 hafter.1
    cases before with
    | nil =>
      rw [nil_append, head?_cons] at hsame
      exact (nodup_cons.mp hnodup).1 (mem_of_mem_head? hsame.symm)
    | cons s before =>
      rw [cons_append, head?_cons] at hsame
      exact (nodup_cons.mp hnodup).1 (mem_append_right _ (mem_cons_of_mem _ (mem_of_mem_head? hsame.symm)))

theorem OneWay.visit_isSome [Fintype α] (h : OneWay links) (n : Nat) {path : List α} (hpath : Path links path)
    (hlen : path.length + n = Fintype.card α) : (visit links (n + 1) path.head?).isSome := by
  induction n generalizing path with
  | zero =>
    refine Option.isSome_iff_exists.mpr ⟨_, visit_succ.mpr ⟨fun t ht => ?_, rfl⟩⟩
    have hle := (h.path_nodup (show Path links (t :: path) from ⟨ht, hpath⟩)).length_le_card
    rw [length_cons] at hle
    omega
  | succ n ih =>
    refine Option.isSome_iff_exists.mpr ⟨_, visit_succ.mpr ⟨fun t ht => ?_, rfl⟩⟩
    exact ih (show Path links (t :: path) from ⟨ht, hpath⟩) (by rw [length_cons]; omega)

theorem count_flatMap_le [DecidableEq α] {f : α → List α} {s x : α} (hs : count x (f s) ≤ 1) (h : ∀ t ∈ l, x ∈ f t → t = s) :
    count x (l.flatMap f) ≤ count s l := by
  induction l with
  | nil => exact Nat.le_refl 0
  | cons t l ih =>
    obtain ⟨ht, hl⟩ := forall_mem_cons.mp h
    have hle := ih hl
    rw [flatMap_cons, count_append]
    by_cases heq : t = s
    · subst heq
      rw [count_cons_self]
      omega
    · rw [count_cons_of_ne heq, count_eq_zero.mpr (mt ht heq)]
      omega

theorem OneWay.count_le_one [DecidableEq α] (h : OneWay links) (hvisit : visit links depth none = some l)
    (hu : Reached links u) : ∀ x, u = some x → count x l ≤ 1 := by
  have hperm := visit_perm hvisit
  have hreached : ∀ t ∈ l, Reached links (some t) := fun t ht => visit_reached hvisit .refl ht
  induction hu with
  | refl => exact nofun
  | @tail v w hv hlink ih =>
    rintro x rfl
    obtain ⟨x', hx, heq⟩ := hlink
    obtain rfl := Option.some.inj heq
    have hfrom (w : Option α) (hw : Reached links w) (hxw : x ∈ links w) : w = v := h.unique w v x hw hv hxw hx
    rw [hperm.count_eq, count_append]
    cases v with
    | none =>
      have hnone : count x (l.flatMap fun t => links (some t)) = 0 := by
        refine count_eq_zero.mpr fun hmem => ?_
        obtain ⟨t, ht, hxt⟩ := mem_flatMap.mp hmem
        cases hfrom _ (hreached t ht) hxt
      rw [hnone]
      exact nodup_iff_count_le_one.mp (h.once none hv) x
    | some s =>
      have hnone : count x (links none) = 0 := count_eq_zero.mpr fun hmem => by cases hfrom none .refl hmem
      have hle := count_flatMap_le (l := l) (f := fun t => links (some t))
        (nodup_iff_count_le_one.mp (h.once (some s) hv) x) fun t ht hxt => Option.some.inj (hfrom _ (hreached t ht) hxt)
      have := ih s rfl
      omega

theorem oneWay_of_visit (hvisit : visit links depth none = some l) (hnodup : l.Nodup) : OneWay links := by
  have hperm := visit_perm hvisit
  obtain ⟨hnone, hsome, hdisjoint⟩ := nodup_append'.mp (hperm.nodup_iff.mp hnodup)
  obtain ⟨honce, hpair⟩ := nodup_flatMap.mp hsome
  have hmem : ∀ u, Reached links u → ∀ t, u = some t → t ∈ l := by
    intro u hu
    induction hu with
    | refl => exact nofun
    | @tail v w hv hlink ih =>
      rintro t rfl
      obtain ⟨t', ht, heq⟩ := hlink
      obtain rfl := Option.some.inj heq
      refine hperm.mem_iff.mpr (mem_append.mpr ?_)
      cases v with
      | none => exact .inl ht
      | some s => exact .inr (mem_flatMap.mpr ⟨s, ih s rfl, ht⟩)
  refine ⟨fun u hu => ?_, fun u v t hu hv htu htv => ?_⟩
  · cases u with
    | none => exact hnone
    | some s => exact honce s (hmem _ hu s rfl)
  · cases u with
    | none =>
      cases v with
      | none => rfl
      | some s => exact absurd (mem_flatMap.mpr ⟨s, hmem _ hv s rfl, htv⟩) (hdisjoint htu)
    | some r =>
      cases v with
      | none => exact absurd (mem_flatMap.mpr ⟨r, hmem _ hu r rfl, htu⟩) (hdisjoint htv)
      | some s =>
        by_contra hne
        have : Std.Symm (Function.onFun List.Disjoint fun t => links (some t)) := ⟨fun _ _ h => h.symm⟩
        exact hpair.forall (hmem _ hu r rfl) (hmem _ hv s rfl) (fun h => hne (congrArg some h)) htu htv

/-- A search ends and comes to no node twice exactly if each node is reached by one link. -/
theorem visit_nodup_iff [Fintype α] [DecidableEq α] :
    (∃ depth l, visit links depth none = some l ∧ l.Nodup) ↔ OneWay links := by
  refine ⟨fun ⟨depth, l, hvisit, hnodup⟩ => oneWay_of_visit hvisit hnodup, fun h => ?_⟩
  obtain ⟨l, hvisit⟩ := Option.isSome_iff_exists.mp (h.visit_isSome (Fintype.card α) (show Path links [] from trivial) (Nat.zero_add _))
  refine ⟨_, l, hvisit, nodup_iff_count_le_one.mpr fun x => ?_⟩
  by_cases hx : x ∈ l
  · exact h.count_le_one hvisit (visit_reached hvisit .refl hx) x rfl
  · exact (count_eq_zero.mpr hx).trans_le (Nat.zero_le 1)

end Walk
