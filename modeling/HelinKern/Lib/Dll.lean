import Mathlib.Data.List.Nodup
import Mathlib.Logic.Function.Basic

/-! Doubly linked lists in a heap: a segment of cells between two neighbours, how it is cut and joined, and what
    writing one cell does to it. -/

namespace Dll
open List Option Function

structure Cell (α : Type) where
  value : α
  prev : Option Nat
  next : Option Nat

abbrev Heap (α : Type) := Nat → Option (Cell α)

variable {α : Type} {h h' : Heap α} {prev next : Option Nat} {l l₁ l₂ : List (Nat × α)} {a fuel b : Nat} {v : α}

def first : List (Nat × α) → Option Nat → Option Nat
  | [], next => next
  | (a, _) :: _, _ => some a

def last : Option Nat → List (Nat × α) → Option Nat
  | prev, [] => prev
  | _, (a, _) :: l => last (some a) l

/-- The cells of `l`, addresses and values, are linked in this order; `prev` and `next` are the neighbours of the
    first and of the last one. -/
def Segment (h : Heap α) : Option Nat → List (Nat × α) → Option Nat → Prop
  | _, [], _ => True
  | prev, (a, v) :: l, next => h a = some ⟨v, prev, first l next⟩ ∧ Segment h (some a) l next

theorem first_append : first (l₁ ++ l₂) next = first l₁ (first l₂ next) := by
  cases l₁ <;> rfl

theorem first_of_ne_nil (h : l ≠ []) (next next' : Option Nat) : first l next = first l next' := by
  obtain ⟨c, l, rfl⟩ := exists_cons_of_ne_nil h
  rfl

theorem exists_first (h : l ≠ []) : ∃ a, first l next = some a := by
  obtain ⟨c, l, rfl⟩ := exists_cons_of_ne_nil h
  exact ⟨c.1, rfl⟩

theorem nodup_concat (hnodup : (l.map Prod.fst).Nodup) (ha : a ∉ l.map Prod.fst) : ((l ++ [(a, v)]).map Prod.fst).Nodup := by
  rw [map_append, map_singleton, ← concat_eq_append]
  exact .concat ha hnodup

theorem last_append : last prev (l₁ ++ l₂) = last (last prev l₁) l₂ := by
  induction l₁ generalizing prev with
  | nil => rfl
  | cons c l₁ ih => exact ih

theorem last_mem (b : Nat) (l : List (Nat × α)) : ∃ c ∈ b :: l.map Prod.fst, last (some b) l = some c := by
  induction l generalizing b with
  | nil => exact ⟨b, mem_cons_self .., rfl⟩
  | cons d l ih =>
    obtain ⟨c, hc, hlast⟩ := ih d.1
    exact ⟨c, mem_cons_of_mem _ hc, hlast⟩

theorem segment_append : Segment h prev (l₁ ++ l₂) next ↔
    Segment h prev l₁ (first l₂ next) ∧ Segment h (last prev l₁) l₂ next := by
  induction l₁ generalizing prev with
  | nil => exact (iff_of_eq (true_and _)).symm
  | cons c l₁ ih =>
    obtain ⟨a, v⟩ := c
    show h a = some ⟨v, prev, first (l₁ ++ l₂) next⟩ ∧ Segment h (some a) (l₁ ++ l₂) next ↔
      (_ ∧ Segment h (some a) l₁ (first l₂ next)) ∧ Segment h (last (some a) l₁) l₂ next
    rw [ih, first_append, and_assoc]

theorem Segment.congr (hs : Segment h prev l next) (hh : ∀ c ∈ l, h' c.1 = h c.1) : Segment h' prev l next := by
  induction l generalizing prev with
  | nil => trivial
  | cons c l ih =>
    obtain ⟨a, v⟩ := c
    exact ⟨(hh (a, v) (mem_cons_self ..)).trans hs.1, ih hs.2 fun c hc => hh c (mem_cons_of_mem _ hc)⟩

theorem Segment.update (hs : Segment h prev l next) (ha : a ∉ l.map Prod.fst) (c : Option (Cell α)) :
    Segment (update h a c) prev l next := by
  refine hs.congr fun d hd => update_of_ne ?_ _ _
  rintro rfl
  exact ha (mem_map.mpr ⟨d, hd, rfl⟩)

theorem Segment.cell (hs : Segment h prev l next) (ha : a ∈ l.map Prod.fst) : h a ≠ none := by
  induction l generalizing prev with
  | nil => cases ha
  | cons c l ih =>
    rcases mem_cons.mp ha with rfl | ha
    · rw [hs.1]
      nofun
    · exact ih hs.2 ha

theorem Segment.set_next (hs : Segment h prev (l ++ [(a, v)]) next) (hnodup : ((l ++ [(a, v)]).map Prod.fst).Nodup)
    (next' : Option Nat) :
    h a = some ⟨v, last prev l, next⟩ ∧
      Segment (Function.update h a (some ⟨v, last prev l, next'⟩)) prev (l ++ [(a, v)]) next' := by
  rw [map_append, nodup_append] at hnodup
  have ha : a ∉ l.map Prod.fst := fun ha => hnodup.2.2 a ha a (mem_singleton.mpr rfl) rfl
  obtain ⟨hl, hcell, -⟩ := segment_append.mp hs
  exact ⟨hcell, segment_append.mpr ⟨hl.update ha _, update_self .., trivial⟩⟩

theorem Segment.set_prev (hs : Segment h prev ((a, v) :: l) next) (hnodup : (((a, v) :: l).map Prod.fst).Nodup)
    (prev' : Option Nat) :
    h a = some ⟨v, prev, first l next⟩ ∧
      Segment (Function.update h a (some ⟨v, prev', first l next⟩)) prev' ((a, v) :: l) next :=
  ⟨hs.1, update_self .., hs.2.update (nodup_cons.mp hnodup).1 _⟩

/-- The cells found by following `next`; `none` if a pointer leads to no cell, or after `fuel` cells. -/
def walk (h : Heap α) : (fuel : Nat) → Option Nat → Option (List (Nat × α))
  | _, none => some []
  | 0, some _ => none
  | fuel + 1, some a => (h a).bind fun x => (walk h fuel x.next).map ((a, x.value) :: ·)

theorem Segment.walk_eq (hs : Segment h prev l none) (hfuel : l.length ≤ fuel) :
    walk h fuel (first l none) = some l := by
  induction l generalizing prev fuel with
  | nil => cases fuel <;> rfl
  | cons c l ih =>
    obtain ⟨a, v⟩ := c
    cases fuel with
    | zero => cases hfuel
    | succ fuel =>
      show (h a).bind _ = _
      rw [hs.1, bind_some, ih hs.2 (Nat.le_of_succ_le_succ hfuel), map_some]

theorem Segment.walk_append (hs : Segment h prev l₁ next) (hw : walk h fuel next = some l₂) :
    walk h (l₁.length + fuel) (first l₁ next) = some (l₁ ++ l₂) := by
  induction l₁ generalizing prev with
  | nil => rwa [length_nil, Nat.zero_add]
  | cons c l₁ ih =>
    obtain ⟨a, v⟩ := c
    rw [length_cons, Nat.add_right_comm]
    show (h a).bind _ = _
    rw [hs.1, bind_some, ih hs.2]
    rfl

theorem Segment.concat {w : α} (hs : Segment h none (l ++ [(a, v)]) none)
    (hnodup : ((l ++ [(a, v)]).map Prod.fst).Nodup) (hb : b ∉ (l ++ [(a, v)]).map Prod.fst) :
    Segment (Function.update (Function.update h a (some ⟨v, last none l, some b⟩)) b (some ⟨w, some a, none⟩)) none
      (l ++ [(a, v)] ++ [(b, w)]) none := by
  refine segment_append.mpr ⟨(hs.set_next hnodup (some b)).2.update hb _, ?_, trivial⟩
  rw [last_append]
  exact update_self ..

theorem Segment.dropLast {w : α} (hs : Segment h none (l ++ [(a, v)] ++ [(b, w)]) none)
    (hnodup : ((l ++ [(a, v)] ++ [(b, w)]).map Prod.fst).Nodup) :
    Segment (Function.update (Function.update h a (some ⟨v, last none l, none⟩)) b none) none (l ++ [(a, v)]) none := by
  rw [map_append, nodup_append] at hnodup
  have hb : b ∉ (l ++ [(a, v)]).map Prod.fst := fun hb => hnodup.2.2 b hb b (mem_singleton.mpr rfl) rfl
  exact ((segment_append.mp hs).1.set_next hnodup.1 none).2.update hb none

theorem Segment.set_value {w : α} (hs : Segment h none (l ++ [(a, v)]) none) (hnodup : ((l ++ [(a, v)]).map Prod.fst).Nodup) :
    Segment (Function.update h a (some ⟨w, last none l, none⟩)) none (l ++ [(a, w)]) none := by
  rw [map_append, nodup_append] at hnodup
  have ha : a ∉ l.map Prod.fst := fun ha => hnodup.2.2 a ha a (mem_singleton.mpr rfl) rfl
  exact segment_append.mpr ⟨(segment_append.mp hs).1.update ha _, update_self .., trivial⟩

theorem Segment.next_iff_prev (hs : Segment h none l none) (hall : ∀ a, h a ≠ none → a ∈ l.map Prod.fst) :
    (∃ x, h a = some x ∧ x.next = some b) ↔ ∃ y, h b = some y ∧ y.prev = some a := by
  -- a cell splits the list, and its neighbours are the ends of the two parts
  have hsplit : ∀ {c}, c ∈ l.map Prod.fst → ∃ l₁ w l₂, l = l₁ ++ (c, w) :: l₂ := by
    intro c hc
    obtain ⟨⟨_, w⟩, hmem, rfl⟩ := mem_map.mp hc
    obtain ⟨l₁, l₂, heq⟩ := append_of_mem hmem
    exact ⟨l₁, w, l₂, heq⟩
  constructor
  · rintro ⟨x, hx, hnext⟩
    obtain ⟨l₁, w, l₂, rfl⟩ := hsplit (hall a (by rw [hx]; nofun))
    obtain ⟨-, hcell, hrest⟩ := segment_append.mp hs
    rw [hcell] at hx
    cases hx
    cases l₂ with
    | nil => cases hnext
    | cons c l₂ =>
      cases hnext
      exact ⟨_, hrest.1, rfl⟩
  · rintro ⟨y, hy, hprev⟩
    obtain ⟨l₁, w, l₂, rfl⟩ := hsplit (hall b (by rw [hy]; nofun))
    obtain ⟨hbefore, hcell, -⟩ := segment_append.mp hs
    rw [hcell] at hy
    cases hy
    rcases eq_nil_or_concat' l₁ with rfl | ⟨l₀, c, rfl⟩
    · cases hprev
    · rw [last_append] at hprev
      cases hprev
      exact ⟨_, (segment_append.mp hbefore).2.1, rfl⟩

def setNext (h : Heap α) (a : Nat) (next : Option Nat) : Heap α := update h a ((h a).map fun x => { x with next })

def setPrev (h : Heap α) (a : Nat) (prev : Option Nat) : Heap α := update h a ((h a).map fun x => { x with prev })

theorem setNext_of_ne (hne : b ≠ a) : setNext h a next b = h b := update_of_ne hne _ _

theorem setPrev_of_ne (hne : b ≠ a) : setPrev h a prev b = h b := update_of_ne hne _ _

theorem setNext_ne_none : setNext h a next b ≠ none ↔ h b ≠ none := by
  by_cases hb : b = a
  · subst hb
    rw [setNext, update_self, ne_eq, map_eq_none_iff]
  · rw [setNext_of_ne hb]

theorem setPrev_ne_none : setPrev h a prev b ≠ none ↔ h b ≠ none := by
  by_cases hb : b = a
  · subst hb
    rw [setPrev, update_self, ne_eq, map_eq_none_iff]
  · rw [setPrev_of_ne hb]

theorem Segment.setNext (hs : Segment h prev (l ++ [(a, v)]) next) (hnodup : ((l ++ [(a, v)]).map Prod.fst).Nodup)
    (next' : Option Nat) : Segment (setNext h a next') prev (l ++ [(a, v)]) next' := by
  obtain ⟨hcell, hs'⟩ := hs.set_next hnodup next'
  rwa [Dll.setNext, hcell, map_some]

theorem Segment.setPrev (hs : Segment h prev ((a, v) :: l) next) (hnodup : (((a, v) :: l).map Prod.fst).Nodup)
    (prev' : Option Nat) : Segment (setPrev h a prev') prev' ((a, v) :: l) next := by
  obtain ⟨hcell, hs'⟩ := hs.set_prev hnodup prev'
  rwa [Dll.setPrev, hcell, map_some]

def Ring (h : Heap α) (l : List (Nat × α)) : Prop := Segment h (last none l) l (first l none)

theorem last_of_ne_nil (h : l ≠ []) (prev prev' : Option Nat) : last prev l = last prev' l := by
  obtain ⟨c, l, rfl⟩ := exists_cons_of_ne_nil h
  rfl

theorem ring_append (h₁ : l₁ ≠ []) (h₂ : l₂ ≠ []) :
    Ring h (l₁ ++ l₂) ↔ Segment h (last none l₂) l₁ (first l₂ none) ∧ Segment h (last none l₁) l₂ (first l₁ none) := by
  unfold Ring
  rw [segment_append, first_append, last_append, last_of_ne_nil h₂ _ none, last_of_ne_nil h₁ (last none l₂) none,
    first_of_ne_nil h₁ _ none, first_of_ne_nil h₂ _ none]

theorem ring_append_comm : Ring h (l₁ ++ l₂) ↔ Ring h (l₂ ++ l₁) := by
  by_cases h₁ : l₁ = []
  · rw [h₁, nil_append, append_nil]
  by_cases h₂ : l₂ = []
  · rw [h₂, nil_append, append_nil]
  rw [ring_append h₁ h₂, ring_append h₂ h₁, and_comm]

section
variable {b p e : Nat} {w u : α}

theorem Ring.insert (hr : Ring h l) (hnodup : (l.map Prod.fst).Nodup) (hfirst : l = (b, w) :: l₁) (hlast : l = l₂ ++ [(p, u)])
    (he : e ∉ l.map Prod.fst) :
    Ring (setPrev (setNext (update h e (some ⟨v, some p, some b⟩)) p (some e)) b (some e)) (l ++ [(e, v)]) := by
  have hends : last none l = some p ∧ first l none = some b :=
    ⟨by rw [hlast, last_append]; rfl, by rw [hfirst]; rfl⟩
  have hb : e ≠ b := by
    rintro rfl
    exact he (hfirst ▸ mem_cons_self)
  have hp : e ≠ p := by
    rintro rfl
    exact he (hlast ▸ by simp)
  -- the neighbours of the old cells become `e` on both sides
  have hseg := hr.update he (some ⟨v, some p, some b⟩)
  have hnext := (hlast ▸ hseg).setNext (hlast ▸ hnodup) (some e)
  rw [← hlast] at hnext
  have hprev := (hfirst ▸ hnext).setPrev (hfirst ▸ hnodup) (some e)
  rw [← hfirst] at hprev
  have hne : l ≠ [] := by
    rw [hfirst]
    exact cons_ne_nil _ _
  unfold Ring
  rw [segment_append, last_append, first_append, first_of_ne_nil hne _ none, hends.2]
  refine ⟨hprev, ?_, trivial⟩
  rw [setPrev_of_ne hb, setNext_of_ne hp, update_self, last_of_ne_nil hne _ none, hends.1]
  rfl

theorem Ring.remove (hr : Ring h (l ++ [(e, v)])) (hnodup : ((l ++ [(e, v)]).map Prod.fst).Nodup) (hfirst : l = (b, w) :: l₁)
    (hlast : l = l₂ ++ [(p, u)]) :
    h e = some ⟨v, some p, some b⟩ ∧ Ring (update (setPrev (setNext h p (some b)) b (some p)) e none) l := by
  have hends : last none l = some p ∧ first l none = some b :=
    ⟨by rw [hlast, last_append]; rfl, by rw [hfirst]; rfl⟩
  have hne : l ≠ [] := by
    rw [hfirst]
    exact cons_ne_nil _ _
  rw [map_append, nodup_append] at hnodup
  have he : e ∉ l.map Prod.fst := fun he => hnodup.2.2 e he e (mem_singleton.mpr rfl) rfl
  obtain ⟨hseg, hcell⟩ := (ring_append hne (cons_ne_nil _ _)).mp hr
  rw [hends.1, hends.2] at hcell
  have hnext := (hlast ▸ hseg).setNext (hlast ▸ hnodup.1) (some b)
  rw [← hlast] at hnext
  have hprev := (hfirst ▸ hnext).setPrev (hfirst ▸ hnodup.1) (some p)
  rw [← hfirst] at hprev
  refine ⟨hcell.1, ?_⟩
  unfold Ring
  rw [hends.1, hends.2]
  exact hprev.update he none

theorem Ring.cell (hr : Ring h (l₁ ++ (a, v) :: l₂)) : h a = some ⟨v, last (some a) (l₂ ++ l₁), first (l₂ ++ l₁) (some a)⟩ :=
  (ring_append_comm.mp hr).1

theorem Ring.neighbours (hr : Ring h l) {i : Nat} (hi : l[i]? = some (a, v)) :
    h a = some ⟨v, l[(i + l.length - 1) % l.length]?.map Prod.fst, l[(i + 1) % l.length]?.map Prod.fst⟩ := by
  obtain ⟨l₁, l₂, rfl, rfl⟩ : ∃ l₁ l₂, l = l₁ ++ (a, v) :: l₂ ∧ l₁.length = i := by
    obtain ⟨hlt, hget⟩ := List.getElem?_eq_some_iff.mp hi
    exact ⟨l.take i, l.drop (i + 1), by rw [← hget, getElem_cons_drop, take_append_drop], by
      rw [length_take]; omega⟩
  rw [hr.cell, length_append, length_cons]
  congr 2
  · rcases eq_nil_or_concat' l₁ with rfl | ⟨l₀, c, rfl⟩
    · rw [append_nil]
      rcases eq_nil_or_concat' l₂ with rfl | ⟨l₃, c, rfl⟩
      · rfl
      · rw [last_append]
        simp [last]
    · rw [length_append, length_singleton, ← append_assoc, last_append,
        show (l₀.length + 1 + (l₀.length + 1 + (l₂.length + 1)) - 1) = l₀.length + (l₀.length + 1 + (l₂.length + 1)) by omega,
        Nat.add_mod_right, Nat.mod_eq_of_lt (by omega)]
      simp [last]
  · cases l₂ with
    | nil =>
      rw [length_nil, Nat.mod_self]
      cases l₁ <;> rfl
    | cons c l₂ =>
      rw [Nat.mod_eq_of_lt (by rw [length_cons]; omega)]
      simp [first]

theorem Ring.next_iff_prev (hr : Ring h l) (hall : ∀ a, h a ≠ none → a ∈ l.map Prod.fst) :
    (∃ x, h a = some x ∧ x.next = some b) ↔ ∃ y, h b = some y ∧ y.prev = some a := by
  -- the ring is cut open before the cell at hand
  have hcut : ∀ {c}, h c ≠ none → ∃ w m, Ring h ((c, w) :: m) := by
    intro c hc
    obtain ⟨⟨_, w⟩, hmem, rfl⟩ := mem_map.mp (hall c hc)
    obtain ⟨l₁, l₂, rfl⟩ := append_of_mem hmem
    exact ⟨w, l₂ ++ l₁, ring_append_comm.mp hr⟩
  constructor
  · rintro ⟨x, hx, hnext⟩
    obtain ⟨w, m, hm⟩ := hcut (by rw [hx]; exact some_ne_none x)
    cases hx.symm.trans hm.1
    cases m with
    | nil =>
      cases hnext
      exact ⟨_, hm.1, rfl⟩
    | cons c m =>
      cases hnext
      exact ⟨_, hm.2.1, rfl⟩
  · rintro ⟨y, hy, hprev⟩
    obtain ⟨w, m, hm⟩ := hcut (by rw [hy]; exact some_ne_none y)
    cases hy.symm.trans hm.1
    rcases eq_nil_or_concat' m with rfl | ⟨m, c, rfl⟩
    · cases hprev
      exact ⟨_, hm.1, rfl⟩
    have hlast := (segment_append.mp hm.2).2.1
    change last (some b) (m ++ [c]) = some a at hprev
    rw [last_append] at hprev
    cases hprev
    exact ⟨_, hlast, rfl⟩

end

end Dll
