import HelinKern.Clist
import HelinKern.Lib.Lts

/-! The cyclic list stays cyclic: its entries form one ring that begins with the head, and a search goes round it once. -/

namespace HelinKern
variable {detector : Nat → Bool} {prev : Option Nat} {slotSize : Nat}

namespace Clist
open Dll Lts Function List Option

variable {c c' : Clist} {l l' l₁ l₂ : List (Nat × Option Nat)} {a b e p : Nat} {v w u : Option Nat}

/-- The entries of `l`, the head first, are linked in a ring. -/
structure Holds (c : Clist) (l : List (Nat × Option Nat)) : Prop where
  head : c.head = first l none
  ring : Ring c.entry l
  nodup : (l.map Prod.fst).Nodup
  only : ∀ a, c.entry a ≠ none → a ∈ l.map Prod.fst

theorem Holds.new (slotSize : Nat) : Holds (Clist.new slotSize) [] where
  head := rfl
  ring := trivial
  nodup := nodup_nil
  only _ h := absurd rfl h

theorem Holds.rotate (h : Holds c (l₁ ++ l₂)) : Ring c.entry (l₂ ++ l₁) := ring_append_comm.mp h.ring

/-! ### Following pointers -/

theorem setNext_some (h : c.entry a ≠ none) (next : Option Nat) :
    c.setNext (some a) next = some { c with entry := Dll.setNext c.entry a next } := by
  obtain ⟨x, hx⟩ := ne_none_iff_exists'.mp h
  unfold setNext
  rw [bind_some, hx, map_some]

theorem setPrev_some (h : c.entry a ≠ none) (prev : Option Nat) :
    c.setPrev (some a) prev = some { c with entry := Dll.setPrev c.entry a prev } := by
  obtain ⟨x, hx⟩ := ne_none_iff_exists'.mp h
  unfold setPrev
  rw [bind_some, hx, map_some]

theorem insertFirst_eq :
    (c.setEntry e (some ⟨v, none, none⟩)).insertFirst e =
      some { c with head := some e, entry := update c.entry e (some ⟨v, some e, some e⟩) } := by
  simp [insertFirst, setEntry, setNext, setPrev, Dll.setNext, Dll.setPrev]

theorem link_eq (hp : c.entry p ≠ none) (hb : c.entry b ≠ none) (hpe : p ≠ e) (hbe : b ≠ e) :
    (c.setEntry e (some ⟨v, none, none⟩)).link e (some p) (some b) =
      some { c with entry := Dll.setPrev (Dll.setNext (update c.entry e (some ⟨v, some p, some b⟩)) p (some e)) b (some e) } := by
  let entry := update c.entry e (some ⟨v, some p, some b⟩)
  have hlinked : ((c.setEntry e (some ⟨v, none, none⟩)).setPrev (some e) (some p)).bind (·.setNext (some e) (some b)) =
      some { c with entry } := by
    simp [setEntry, setNext, setPrev, Dll.setNext, Dll.setPrev, entry]
  have hnext : { c with entry }.setNext (some p) (some e) = some { c with entry := Dll.setNext entry p (some e) } :=
    setNext_some ((update_of_ne hpe ..).trans_ne hp) _
  have hprev : { c with entry := Dll.setNext entry p (some e) }.setPrev (some b) (some e) =
      some { c with entry := Dll.setPrev (Dll.setNext entry p (some e)) b (some e) } :=
    setPrev_some (setNext_ne_none.mpr ((update_of_ne hbe ..).trans_ne hb)) _
  obtain ⟨c₁, h₁, h₂⟩ := bind_eq_some_iff.mp hlinked
  simp [link, h₁, h₂, hnext, hprev, entry]

structure Inserted (c : Clist) (l : List (Nat × Option Nat)) (e : Nat) (v : Option Nat) (c' : Clist) : Prop where
  slotSize : c'.slotSize = c.slotSize
  head : c'.head = c.head
  ring : Ring c'.entry (l ++ [(e, v)])
  only : ∀ a, c'.entry a ≠ none → a = e ∨ c.entry a ≠ none

theorem inserted_of_link (hr : Ring c.entry l) (hnodup : (l.map Prod.fst).Nodup) (hfirst : l = (b, w) :: l₁)
    (hlast : l = l₂ ++ [(p, u)]) (he : e ∉ l.map Prod.fst) :
    ∃ c', (c.setEntry e (some ⟨v, none, none⟩)).link e (some p) (some b) = some c' ∧ Inserted c l e v c' := by
  have hp : p ∈ l.map Prod.fst := by
    rw [hlast]
    simp
  have hb : b ∈ l.map Prod.fst := by
    rw [hfirst]
    simp
  refine ⟨_, link_eq (Segment.cell hr hp) (Segment.cell hr hb) (fun h => he (h ▸ hp)) (fun h => he (h ▸ hb)), rfl, rfl, hr.insert hnodup hfirst hlast he, fun a ha => ?_⟩
  rw [setPrev_ne_none, setNext_ne_none] at ha
  by_cases hae : a = e
  · exact Or.inl hae
  · rw [update_of_ne hae] at ha
    exact Or.inr ha

theorem Inserted.holds (hi : Inserted c (l₂ ++ l₁) e v c') (h : Holds c (l₁ ++ l₂)) (he : e ∉ (l₁ ++ l₂).map Prod.fst)
    (hring : Ring c'.entry (l₂ ++ l₁ ++ [(e, v)]) → Ring c'.entry l') (hperm : l'.Perm ((e, v) :: (l₁ ++ l₂)))
    (hhead : first l' none = first (l₁ ++ l₂) none) : Holds c' l' where
  head := by rw [hi.head, h.head, hhead]
  ring := hring hi.ring
  nodup := (hperm.map Prod.fst).nodup_iff.mpr (nodup_cons.mpr ⟨he, h.nodup⟩)
  only a ha := by
    rw [(hperm.map Prod.fst).mem_iff, map_cons, mem_cons]
    exact (hi.only a ha).imp id (h.only a)

theorem Holds.insertFirst (h : Holds c []) (e : Nat) (v : Option Nat) :
    ∃ c', (c.setEntry e (some ⟨v, none, none⟩)).insertFirst e = some c' ∧ c'.slotSize = c.slotSize ∧ Holds c' [(e, v)] := by
  refine ⟨_, insertFirst_eq, rfl, rfl, ⟨update_self .., trivial⟩, nodup_singleton e, fun a ha => ?_⟩
  by_cases hae : a = e
  · rw [hae]
    exact mem_singleton.mpr rfl
  · exact absurd (h.only a ((update_of_ne hae ..).symm.trans_ne ha)) not_mem_nil

theorem Holds.head_ne_none (h : Holds c l) (hl : l ≠ []) : c.head ≠ none := by
  obtain ⟨a, ha⟩ : ∃ a, first l none = some a := exists_first hl
  rw [h.head, ha]
  exact some_ne_none a

theorem deref_setEntry (hne : a ≠ e) (x : Option (Cell (Option Nat))) : (c.setEntry e x).deref (some a) = c.entry a :=
  update_of_ne hne _ _

theorem Holds.insertAfter (h : Holds c (l₁ ++ (p, u) :: l₂)) (he : e ∉ (l₁ ++ (p, u) :: l₂).map Prod.fst) (addr : Option Nat) :
    ∃ c', c.clistInsertEntryAfter (some p) addr e = some (e, c') ∧ c'.slotSize = c.slotSize ∧
      Holds c' (l₁ ++ (p, u) :: (e, addr) :: l₂) := by
  have hpe : p ≠ e := by
    rintro rfl
    exact he (by simp)
  have hlist : l₁ ++ (p, u) :: l₂ = (l₁ ++ [(p, u)]) ++ l₂ := by simp
  have hcell := h.ring.cell
  rw [hlist] at h he
  -- the ring is cut open behind `p`
  obtain ⟨⟨b, w⟩, m, hfirst⟩ := exists_cons_of_ne_nil (l := l₂ ++ (l₁ ++ [(p, u)])) (by simp)
  have hnext : first (l₂ ++ l₁) (some p) = some b := by
    have := congrArg (first · none) hfirst
    rwa [← append_assoc, first_append] at this
  have hnodup : ((l₂ ++ (l₁ ++ [(p, u)])).map Prod.fst).Nodup := (perm_append_comm.map Prod.fst).nodup_iff.mp h.nodup
  obtain ⟨c', hc', hi⟩ := inserted_of_link (v := addr) h.rotate hnodup hfirst (append_assoc ..).symm
    (fun hmem => he ((perm_append_comm.map Prod.fst).mem_iff.mp hmem))
  refine ⟨c', ?_, hi.slotSize, hi.holds h he (fun hring => ?_) ?_ ?_⟩
  · have hhead : (c.setEntry e (some ⟨addr, none, none⟩)).head ≠ none := h.head_ne_none (by simp)
    simp [clistInsertEntryAfter, hhead, deref_setEntry hpe, hcell, hnext, hc']
  · rw [append_assoc] at hring
    simpa using ring_append_comm.mp hring
  · rw [append_cons]
    exact perm_middle
  · cases l₁ <;> rfl

theorem Holds.insertBefore (h : Holds c (l₁ ++ (b, w) :: l₂)) (hslot : sizeofClistHead ≤ c.slotSize)
    (he : e ∉ (l₁ ++ (b, w) :: l₂).map Prod.fst) :
    ∃ c', c.clistInsertEntryBefore (some b) e = some (e, c') ∧ c'.slotSize = c.slotSize ∧
      Holds c' (if l₁ = [] then (b, w) :: l₂ ++ [(e, some e)] else l₁ ++ (e, some e) :: (b, w) :: l₂) := by
  have hbe : b ≠ e := by
    rintro rfl
    exact he (by simp)
  have hcell := h.ring.cell
  -- the ring is cut open before `b`
  have hlast : ∃ m p u, (b, w) :: l₂ ++ l₁ = m ++ [(p, u)] ∧ last (some b) (l₂ ++ l₁) = some p := by
    rcases eq_nil_or_concat' (l₂ ++ l₁) with hnil | ⟨m, ⟨p, u⟩, hm⟩
    · exact ⟨[], b, w, by rw [cons_append, hnil]; rfl, by rw [hnil]; rfl⟩
    · exact ⟨(b, w) :: m, p, u, by rw [cons_append, hm]; rfl, by rw [hm, last_append]; rfl⟩
  obtain ⟨m, p, u, hlast, hprev⟩ := hlast
  obtain ⟨c', hc', hi⟩ := inserted_of_link (v := some e) h.rotate
    ((perm_append_comm.map Prod.fst).nodup_iff.mp h.nodup) (cons_append ..) hlast
    (fun hmem => he ((perm_append_comm.map Prod.fst).mem_iff.mp hmem))
  refine ⟨c', ?_, hi.slotSize, hi.holds h he (fun hring => ?_) ?_ ?_⟩
  · have hhead : (c.setEntry e (some ⟨some e, none, none⟩)).head ≠ none := h.head_ne_none (by simp)
    simp [clistInsertEntryBefore, Nat.not_lt.mpr hslot, hhead, deref_setEntry hbe, hcell, hprev, hc']
  · split
    next hnil => rwa [hnil, append_nil] at hring
    · rw [append_assoc] at hring
      simpa using ring_append_comm.mp hring
  · split
    next hnil =>
      rw [hnil]
      exact perm_append_singleton ..
    · exact perm_middle
  · split
    next hnil =>
      rw [hnil]
      rfl
    next hne => exact first_append.trans ((first_of_ne_nil hne ..).trans first_append.symm)

theorem Holds.head_eq_iff (h : Holds c (l₁ ++ (e, v) :: l₂)) : c.head = some e ↔ l₁ = [] := by
  rw [h.head]
  cases l₁ with
  | nil => simp [first]
  | cons x l₁ =>
    have hne : x.1 ≠ e := by
      have hnodup := h.nodup
      rw [cons_append, map_cons, nodup_cons] at hnodup
      exact fun hx => hnodup.1 (by simp [hx])
    simp [first, hne]

theorem delete_eq (hcell : c.entry e = some ⟨v, some p, some b⟩) (hp : c.entry p ≠ none) (hb : c.entry b ≠ none)
    (hnext : (Dll.setPrev (Dll.setNext c.entry p (some b)) b (some p) e).map (·.next) = some (some b)) :
    c.clistDeleteEntry e = some ⟨c.slotSize, if c.head = some e then if b = e then none else some b else c.head,
      update (Dll.setPrev (Dll.setNext c.entry p (some b)) b (some p)) e none⟩ := by
  obtain ⟨x, hx, hxb⟩ := map_eq_some_iff.mp hnext
  have hprev : { c with entry := Dll.setNext c.entry p (some b) }.setPrev (some b) (some p) =
      some { c with entry := Dll.setPrev (Dll.setNext c.entry p (some b)) b (some p) } :=
    setPrev_some (setNext_ne_none.mpr hb) _
  simp only [clistDeleteEntry, hcell, setNext_some hp, hprev, moveHead, hx, hxb, bind_eq_bind, bind_some,
    map_some]
  by_cases hhead : c.head = some e
  · by_cases hbe : b = e
    · simp [hhead, setEntry]
    · simp [hhead, setEntry]
  · simp [hhead, setEntry]

theorem Holds.delete (h : Holds c (l₁ ++ (e, v) :: l₂)) :
    ∃ c', c.clistDeleteEntry e = some c' ∧ c'.slotSize = c.slotSize ∧ Holds c' (l₁ ++ l₂) := by
  have hring : Ring c.entry (l₂ ++ l₁ ++ [(e, v)]) := by
    have hring := h.ring
    rw [append_cons] at hring
    rw [append_assoc]
    exact ring_append_comm.mp hring
  have hnodup : ((l₂ ++ l₁ ++ [(e, v)]).map Prod.fst).Nodup := by
    have hperm : (l₂ ++ l₁ ++ [(e, v)]).Perm (l₁ ++ (e, v) :: l₂) := by
      rw [append_assoc, append_cons l₁ (e, v) l₂]
      exact perm_append_comm
    exact (hperm.map Prod.fst).nodup_iff.mpr h.nodup
  have hlive : ((l₂ ++ l₁).map Prod.fst).Nodup ∧ e ∉ (l₂ ++ l₁).map Prod.fst := by
    rw [map_append, nodup_append] at hnodup
    exact ⟨hnodup.1, fun he => hnodup.2.2 e he e (mem_singleton.mpr rfl) rfl⟩
  have honly : ∀ a, a ≠ e → c.entry a ≠ none → a ∈ (l₁ ++ l₂).map Prod.fst := by
    intro a hae ha
    simpa [hae] using h.only a ha
  by_cases hrest : l₂ ++ l₁ = []
  · -- the only entry is its own neighbour
    obtain ⟨rfl, rfl⟩ := append_eq_nil_iff.mp hrest
    have hcell : c.entry e = some ⟨v, some e, some e⟩ := hring.1
    have hne : c.entry e ≠ none := hcell.trans_ne (some_ne_none _)
    refine ⟨_, delete_eq hcell hne hne (by simp [Dll.setNext, Dll.setPrev, hcell]), rfl, ?_, trivial, nodup_nil, ?_⟩
    · rw [if_pos (h.head_eq_iff.mpr rfl), if_pos rfl]
      rfl
    · intro a ha
      have hae : a ≠ e := by
        rintro rfl
        exact ha (update_self ..)
      exact honly a hae (by simpa [Dll.setNext, Dll.setPrev, hae] using ha)
  · obtain ⟨⟨b, w⟩, m₁, hfirst⟩ := exists_cons_of_ne_nil hrest
    obtain ⟨m₂, ⟨p, u⟩, hlast⟩ := (eq_nil_or_concat' (l₂ ++ l₁)).resolve_left hrest
    obtain ⟨hcell, hring'⟩ := hring.remove hnodup hfirst hlast
    have hp : p ∈ (l₂ ++ l₁).map Prod.fst := by
      rw [hlast]
      simp
    have hb : b ∈ (l₂ ++ l₁).map Prod.fst := by
      rw [hfirst]
      simp
    have hentry : ∀ {a}, a ∈ (l₂ ++ l₁).map Prod.fst → c.entry a ≠ none := fun ha =>
      Segment.cell hring (by rw [map_append]; exact mem_append_left _ ha)
    have hpe : e ≠ p := fun he => hlive.2 (he ▸ hp)
    have hbe : e ≠ b := fun he => hlive.2 (he ▸ hb)
    refine ⟨_, delete_eq hcell (hentry hp) (hentry hb) (by rw [setPrev_of_ne hbe, setNext_of_ne hpe, hcell]; rfl), rfl, ?_,
      ring_append_comm.mp hring', (perm_append_comm.map Prod.fst).nodup_iff.mp hlive.1, ?_⟩
    · rw [if_neg hbe.symm]
      split
      next hhead =>
        rw [h.head_eq_iff.mp hhead, append_nil] at hfirst
        rw [h.head_eq_iff.mp hhead, hfirst]
        rfl
      next hhead =>
        have hl₁ : l₁ ≠ [] := fun hl₁ => hhead (h.head_eq_iff.mpr hl₁)
        rw [h.head, first_append, first_append]
        exact first_of_ne_nil hl₁ ..
    · intro a ha
      have hae : a ≠ e := by
        rintro rfl
        exact ha (update_self ..)
      exact honly a hae (setNext_ne_none.mp (setPrev_ne_none.mp ((update_of_ne hae ..).symm.trans_ne ha)))

/-- What a search looks at: the entries up to the first one that is found. -/
def tested (detector : Nat → Bool) (l : List Nat) : List Nat := l.takeWhile (fun a => !detector a) ++ (l.find? detector).toList

theorem tested_cons_of_found (h : detector a) (as : List Nat) :
    tested detector (a :: as) = [a] ∧ (a :: as).find? detector = some a := by
  simp [tested, h]

theorem tested_cons (h : detector a = false) (as : List Nat) :
    tested detector (a :: as) = a :: tested detector as ∧ (a :: as).find? detector = as.find? detector := by
  simp [tested, h]

variable {fuel : Nat}

theorem turn_eq (stop : Nat → Bool) (hs : Segment c.entry prev l c.head)
    (hhead : ∀ a ∈ (l.map Prod.fst).tail, c.head ≠ some a) (hfuel : l.length ≤ fuel) :
    c.turn stop fuel (first l none) = some (tested stop (l.map Prod.fst), (l.map Prod.fst).find? stop) := by
  induction l generalizing prev fuel with
  | nil => cases fuel <;> rfl
  | cons x l ih =>
    obtain ⟨a, v⟩ := x
    obtain ⟨fuel, rfl⟩ : ∃ n, fuel = n + 1 := ⟨fuel - 1, by rw [length_cons] at hfuel; omega⟩
    rw [map_cons]
    cases hstop : stop a with
    | true =>
      obtain ⟨htested, hfound⟩ := tested_cons_of_found hstop (l.map Prod.fst)
      rw [htested, hfound]
      exact if_pos hstop
    | false =>
      obtain ⟨htested, hfound⟩ := tested_cons hstop (l.map Prod.fst)
      rw [htested, hfound]
      have hstep : c.turn stop (fuel + 1) (some a) = if first l c.head = c.head then some ([a], none)
          else (c.turn stop fuel (first l c.head)).map fun r => (a :: r.1, r.2) := by
        simp only [turn, hstop, hs.1, bind_eq_bind, bind_some]
        cases c.turn stop fuel (first l c.head) <;> rfl
      refine hstep.trans ?_
      cases l with
      | nil => exact if_pos rfl
      | cons y l =>
        have hne : first (y :: l) c.head ≠ c.head := (hhead y.1 (by simp)).symm
        rw [if_neg hne, show first (y :: l) c.head = first (y :: l) none from rfl,
          ih hs.2 (fun b hb => hhead b (mem_of_mem_tail hb)) (Nat.le_of_succ_le_succ hfuel), map_some]

theorem turnFrom_eq (detector : Nat → Bool) (hs : Segment c.entry prev l (some p)) (hp : p ∉ l.map Prod.fst)
    (hfuel : l.length < fuel) : c.turnFrom p detector fuel (first l (some p)) =
      some (tested detector (l.map Prod.fst ++ [p]), (l.map Prod.fst ++ [p]).find? detector) := by
  induction l generalizing prev fuel with
  | nil =>
    obtain ⟨fuel, rfl⟩ : ∃ n, fuel = n + 1 := ⟨fuel - 1, by omega⟩
    cases hfound : detector p <;> simp [first, turnFrom, tested, hfound]
  | cons x l ih =>
    obtain ⟨a, v⟩ := x
    rw [length_cons] at hfuel
    obtain ⟨fuel, rfl⟩ : ∃ n, fuel = n + 1 := ⟨fuel - 1, by omega⟩
    rw [map_cons, mem_cons, not_or] at hp
    have hstep : c.turnFrom p detector (fuel + 1) (some a) = if detector a then some ([a], some a)
        else (c.turnFrom p detector fuel (first l (some p))).map fun r => (a :: r.1, r.2) := by
      simp only [turnFrom, if_neg (Ne.symm hp.1), hs.1, bind_eq_bind, bind_some]
      cases c.turnFrom p detector fuel (first l (some p)) <;> rfl
    rw [map_cons, cons_append]
    refine hstep.trans ?_
    cases hfound : detector a with
    | true =>
      rw [(tested_cons_of_found hfound _).1, (tested_cons_of_found hfound _).2]
      rfl
    | false =>
      rw [(tested_cons hfound _).1, (tested_cons hfound _).2, ih hs.2 hp.2 (by omega)]
      rfl

theorem Holds.exec {call : Call} (h : Holds c l) (hslot : c.slotSize = slotSize) (hl : Listed slotSize l call l') :
    ∃ c', c.exec call = some c' ∧ c'.slotSize = slotSize ∧ Holds c' l' := by
  subst hslot
  cases hl with
  | firstAfter pos addr e =>
    obtain ⟨c', hc', hsize, h'⟩ := h.insertFirst e addr
    refine ⟨c', ?_, hsize, h'⟩
    have hhead : (c.setEntry e (some ⟨addr, none, none⟩)).head = none := h.head
    simp [Clist.exec, clistInsertEntryAfter, hhead, hc']
  | firstBefore pos e hslot =>
    obtain ⟨c', hc', hsize, h'⟩ := h.insertFirst e (some e)
    refine ⟨c', ?_, hsize, h'⟩
    have hhead : (c.setEntry e (some ⟨some e, none, none⟩)).head = none := h.head
    simp [Clist.exec, clistInsertEntryBefore, Nat.not_lt.mpr hslot, hhead, hc']
  | after _ addr he =>
    obtain ⟨c', hc', hsize, h'⟩ := h.insertAfter he addr
    exact ⟨c', congrArg (Option.map Prod.snd) hc', hsize, h'⟩
  | before hslot hl₁ he =>
    obtain ⟨c', hc', hsize, h'⟩ := h.insertBefore hslot he
    rw [if_neg hl₁] at h'
    exact ⟨c', congrArg (Option.map Prod.snd) hc', hsize, h'⟩
  | beforeHead hslot he =>
    obtain ⟨c', hc', hsize, h'⟩ := (show Holds c ([] ++ _ :: _) from h).insertBefore hslot he
    exact ⟨c', congrArg (Option.map Prod.snd) hc', hsize, h'⟩
  | delete => exact h.delete

theorem Holds.run {calls : List Call} (hrun : Run (Listed slotSize) [] calls l) :
    ∃ c, calls.foldlM Clist.exec (Clist.new slotSize) = some c ∧ c.slotSize = slotSize ∧ Holds c l := by
  induction hrun with
  | refl => exact ⟨_, rfl, rfl, .new slotSize⟩
  | snoc _ hl ih =>
    obtain ⟨c, hc, hslot, h⟩ := ih
    obtain ⟨c', hc', hslot', h'⟩ := h.exec hslot hl
    refine ⟨c', ?_, hslot', h'⟩
    rw [foldlM_append, hc]
    simpa using hc'

/-- The entries of `l` and no others are linked in a cycle, which the list is left to at its head. -/
structure Cyclic (c : Clist) (l : List (Nat × Option Nat)) : Prop where
  head : c.head = l.head?.map Prod.fst
  nodup : (l.map Prod.fst).Nodup
  entries : ∀ a, c.entry a ≠ none ↔ a ∈ l.map Prod.fst
  neighbours : ∀ (i a : Nat) (v : Option Nat), l[i]? = some (a, v) → c.entry a =
    some ⟨v, l[(i + l.length - 1) % l.length]?.map Prod.fst, l[(i + 1) % l.length]?.map Prod.fst⟩
  inverse : ∀ a b, (∃ x, c.entry a = some x ∧ x.next = some b) ↔ ∃ y, c.entry b = some y ∧ y.prev = some a

theorem Holds.cyclic (h : Holds c l) : Cyclic c l where
  head := by
    rw [h.head]
    cases l <;> rfl
  nodup := h.nodup
  entries a := ⟨h.only a, Segment.cell h.ring⟩
  neighbours _ _ _ := h.ring.neighbours
  inverse _ _ := h.ring.next_iff_prev h.only

/-- The searches end after one turn, look at each entry at most once in the order of the cycle, and return the first one
    that is found; `clist_find_next` looks at the entry it begins behind last. -/
structure Searches (c : Clist) (l : List (Nat × Option Nat)) : Prop where
  size : ∀ fuel, l.length ≤ fuel → c.clistSize fuel = some l.length
  forEach : ∀ fuel, l.length ≤ fuel → c.clistForEach fuel = some (l.map Prod.fst)
  find : ∀ fuel detector, l.length ≤ fuel →
    c.clistFind fuel detector = some (tested detector (l.map Prod.fst), (l.map Prod.fst).find? detector)
  findNext : ∀ l₁ l₂ pos v fuel detector, l = l₁ ++ (pos, v) :: l₂ → l.length ≤ fuel →
    c.clistFindNext fuel pos detector =
      some (tested detector ((l₂ ++ l₁).map Prod.fst ++ [pos]), ((l₂ ++ l₁).map Prod.fst ++ [pos]).find? detector)

theorem Holds.turn (h : Holds c l) (stop : Nat → Bool) (hfuel : l.length ≤ fuel) :
    c.turn stop fuel c.head = some (tested stop (l.map Prod.fst), (l.map Prod.fst).find? stop) := by
  have hs := h.ring
  unfold Dll.Ring at hs
  rw [← h.head] at hs
  have heq := turn_eq stop hs (fun a ha hhead => ?_) hfuel
  · rwa [← h.head] at heq
  · have hnodup := h.nodup
    cases l with
    | nil => cases ha
    | cons x l =>
      rw [h.head] at hhead
      cases hhead
      exact (nodup_cons.mp hnodup).1 ha

theorem Holds.searches (h : Holds c l) : Searches c l := by
  have hall : ∀ as : List Nat, tested (fun _ => false) as = as := by
    intro as
    induction as with
    | nil => rfl
    | cons a as ih => rw [(tested_cons rfl as).1, ih]
  refine ⟨fun fuel hfuel => ?_, fun fuel hfuel => ?_, fun fuel detector => h.turn detector, ?_⟩
  · rw [clistSize, h.turn _ hfuel, hall, map_some, length_map]
  · rw [clistForEach, h.turn _ hfuel, hall, map_some]
  · rintro l₁ l₂ pos v fuel detector rfl hfuel
    have hring := h.rotate
    have hnodup : (((pos, v) :: l₂ ++ l₁).map Prod.fst).Nodup := (perm_append_comm.map Prod.fst).nodup_iff.mp h.nodup
    rw [clistFindNext, h.ring.cell]
    refine turnFrom_eq detector hring.2 (nodup_cons.mp hnodup).1 ?_
    simp only [length_append, length_cons] at hfuel ⊢
    omega

/-- In every state that calls on entries of the list lead to, the entries form one cycle in the order that the calls make,
    and the searches go round it once. -/
theorem clist_stays_cyclic {slotSize : Nat} {calls : List Call} (hrun : Run (Listed slotSize) [] calls l) :
    ∃ c, calls.foldlM Clist.exec (Clist.new slotSize) = some c ∧ c.Cyclic l ∧ c.Searches l := by
  obtain ⟨c, hc, -, h⟩ := Holds.run hrun
  exact ⟨c, hc, h.cyclic, h.searches⟩

/-- The calls of `clist_test` up to the first deletion. -/
theorem clist_stays_cyclic_test :
    ∃ c, [.insertAfter none (some 11) 1, .insertBefore (some 1) 2, .insertAfter (some 1) (some 13) 3,
        .insertAfter (some 3) (some 14) 4, .delete 1].foldlM Clist.exec (Clist.new 12) = some c ∧
      c.head = some 3 ∧ c.clistSize 3 = some 3 ∧ c.clistFind 3 (· = 2) = some ([3, 4, 2], some 2) := by
  have hrun : Run (Listed 12) [] [.insertAfter none (some 11) 1, .insertBefore (some 1) 2, .insertAfter (some 1) (some 13) 3,
      .insertAfter (some 3) (some 14) 4, .delete 1] [(3, some 13), (4, some 14), (2, some 2)] :=
    (((Run.single (.firstAfter ..)).snoc (.beforeHead (by decide) (by decide))).snoc
      (.after [] (some 13) (by decide))).snoc (.after [(1, some 11)] (some 14) (by decide)) |>.snoc
      (.delete [] _ 1 (some 11))
  obtain ⟨c, hc, hcyclic, hsearches⟩ := clist_stays_cyclic hrun
  exact ⟨c, hc, hcyclic.head, hsearches.size 3 (by decide), hsearches.find 3 _ (by decide)⟩

end Clist
end HelinKern
