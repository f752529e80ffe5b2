import HelinKern.Lib.Lts
import HelinKern.Queue

/-! The linked queue is a list: its nodes are linked both ways in the order of insertion, and a node is freed when
    it leaves the list. -/

namespace HelinKern
namespace Queue
open Dll Lts Function List Option

variable {α : Type} {q q' : Queue α} {l l₁ l₂ : List (Nat × α)} {a b : Nat} {v w : α} {x : Cell α}

/-- The queue holds the nodes of `l`, addresses and values. Memory of a node was freed once less often than it was
    allocated if the node is in the list, and as often if not. -/
structure Holds (q : Queue α) (l : List (Nat × α)) : Prop where
  size : q.size = l.length
  head : q.head = first l none
  tail : q.tail = last none l
  segment : Segment q.node none l none
  nodup : (l.map Prod.fst).Nodup
  only : ∀ a, q.node a ≠ none → a ∈ l.map Prod.fst
  ledger : ∀ a, q.log.count (.alloc a) = q.log.count (.free a) + (l.map Prod.fst).count a

theorem Holds.new : Holds (Queue.new (α := α)) [] where
  size := rfl
  head := rfl
  tail := rfl
  segment := trivial
  nodup := nodup_nil
  only _ h := absurd rfl h
  ledger _ := rfl

theorem Holds.size_ne_zero (h : Holds q l) (hl : l ≠ []) : q.size ≠ 0 := by
  rw [h.size]
  exact fun hlen => hl (length_eq_zero_iff.mp hlen)

/-! ### Following pointers -/

theorem deref_some (h : q.node a = some x) : q.deref (some a) = some (a, x) := by
  unfold deref
  rw [bind_some, h, map_some]

theorem setNext_some (h : q.node a = some x) (next : Option Nat) :
    q.setNext (some a) next = some (q.setNode a { x with next }) := by
  unfold setNext
  rw [deref_some h, map_some]

theorem setPrev_some (h : q.node a = some x) (prev : Option Nat) :
    q.setPrev (some a) prev = some (q.setNode a { x with prev }) := by
  unfold setPrev
  rw [deref_some h, map_some]

theorem only_of_update {node : Dll.Heap α} {c : Option (Cell α)} {p : Nat → Prop} (h : ∀ b, node b ≠ none → p b)
    (ha : p a) : ∀ b, update node a c b ≠ none → p b := by
  intro b hb
  by_cases hba : b = a
  · rwa [hba]
  · rw [update_of_ne hba] at hb
    exact h b hb

/-! ### The log of the memory -/

theorem count_alloc (log : List NodeEvent) (a b : Nat) :
    (NodeEvent.alloc a :: log).count (.alloc b) = log.count (.alloc b) + [a].count b ∧
      (NodeEvent.alloc a :: log).count (.free b) = log.count (.free b) := by
  simp [count_cons]

theorem count_free (log : List NodeEvent) (a b : Nat) :
    (NodeEvent.free a :: log).count (.free b) = log.count (.free b) + [a].count b ∧
      (NodeEvent.free a :: log).count (.alloc b) = log.count (.alloc b) := by
  simp [count_cons]

/-! ### `enqueue` -/

theorem Holds.enqueue_empty (h : Holds q []) (a : Nat) (v : α) :
    ∃ q', q.enqueue a v = some q' ∧ Holds q' [(a, v)] := by
  refine ⟨_, if_pos h.size, congrArg (· + 1) h.size, rfl, rfl, ⟨update_self .., trivial⟩,
    nodup_singleton a, ?_, ?_⟩
  · intro b hb
    by_cases hba : b = a
    · exact mem_singleton.mpr hba
    · exact absurd (h.only b (by rwa [← update_of_ne hba (some (Cell.mk v none none)) q.node])) nofun
  · intro b
    rw [(count_alloc ..).1, h.ledger b]
    rfl

theorem Holds.enqueue_snoc {t : Nat} (h : Holds q (l ++ [(t, w)])) (ha : q.node a = none) (v : α) :
    ∃ q', q.enqueue a v = some q' ∧ Holds q' (l ++ [(t, w)] ++ [(a, v)]) := by
  have hnot : a ∉ (l ++ [(t, w)]).map Prod.fst := fun hmem => h.segment.cell hmem ha
  have hat : t ≠ a := by
    rintro rfl
    exact hnot (by simp)
  obtain ⟨hcell, -⟩ := h.segment.set_next h.nodup (some a)
  have htail : q.tail = some t := h.tail.trans last_append
  have hsize : q.size ≠ 0 := h.size_ne_zero (by simp)
  -- the writes of `enqueue`, in order
  let q₁ : Queue α := { q.setNode a ⟨v, none, none⟩ with log := .alloc a :: q.log }
  let q₂ := q₁.setNode a ⟨v, some t, none⟩
  let q₃ := q₂.setNode t ⟨w, last none l, some a⟩
  have h₁ : q₁.node a = some ⟨v, none, none⟩ := update_self ..
  have h₂ : q₂.node t = some ⟨w, last none l, none⟩ := by
    show update (update q.node a _) a _ t = _
    rw [update_of_ne hat, update_of_ne hat, hcell]
  have hq : q.enqueue a v = some { q₃ with tail := some a, size := q.size + 1 } := by
    refine (if_neg hsize).trans ?_
    show (q₁.setPrev (some a) q.tail).bind _ = _
    rw [htail, setPrev_some h₁]
    show (q₂.setNext q.tail (some a)).bind _ = _
    rw [htail, setNext_some h₂]
    rfl
  have hnode : q₃.node = update (update q.node t (some ⟨w, last none l, some a⟩)) a
      (some ⟨v, some t, none⟩) := by
    show update (update (update q.node a _) a _) t _ = _
    rw [update_idem, update_comm hat.symm]
  refine ⟨_, hq, ?_, ?_, ?_, ?_, ?_, ?_, ?_⟩
  · rw [length_append, ← h.size]
    rfl
  · show q.head = _
    rw [h.head]
    cases l <;> rfl
  · rw [last_append]
    rfl
  · show Segment q₃.node none _ none
    rw [hnode]
    exact h.segment.concat h.nodup hnot
  · exact nodup_concat h.nodup hnot
  · show ∀ b, q₃.node b ≠ none → _
    rw [hnode]
    refine only_of_update (only_of_update (fun b hb => ?_) (by simp)) (by simp)
    rw [map_append]
    exact mem_append_left _ (h.only b hb)
  · intro b
    show (NodeEvent.alloc a :: q.log).count (.alloc b) = (NodeEvent.alloc a :: q.log).count (.free b) + _
    have hmap : (l ++ [(t, w)] ++ [(a, v)]).map Prod.fst = (l ++ [(t, w)]).map Prod.fst ++ [a] := map_append
    rw [(count_alloc ..).1, (count_alloc ..).2, h.ledger b, hmap, count_append, Nat.add_assoc]

theorem Holds.enqueue (h : Holds q l) (ha : q.node a = none) (v : α) :
    ∃ q', q.enqueue a v = some q' ∧ Holds q' (l ++ [(a, v)]) := by
  rcases eq_nil_or_concat' l with rfl | ⟨l, ⟨t, w⟩, rfl⟩
  · exact h.enqueue_empty a v
  · exact h.enqueue_snoc ha v

theorem Holds.unlinked (l₁ : List (Nat × α)) (h : Holds q (l₁ ++ (a, v) :: l₂)) (hsize : q'.size = q.size - 1)
    (hhead : q'.head = first (l₁ ++ l₂) none) (htail : q'.tail = last none (l₁ ++ l₂))
    (hsegment : Segment q'.node none (l₁ ++ l₂) none) (hnode : ∀ b, q'.node b ≠ none → b ≠ a ∧ q.node b ≠ none)
    (hlog : q'.log = .free a :: q.log) : Holds q' (l₁ ++ l₂) := by
  have hmap : (l₁ ++ (a, v) :: l₂).map Prod.fst = l₁.map Prod.fst ++ a :: l₂.map Prod.fst := map_append
  have hsub : (l₁ ++ l₂).Sublist (l₁ ++ (a, v) :: l₂) := (sublist_cons_self _ l₂).append_left l₁
  refine ⟨?_, hhead, htail, hsegment, h.nodup.sublist (hsub.map _), ?_, ?_⟩
  · rw [hsize, h.size, length_append, length_append, length_cons]
    omega
  · intro b hb
    obtain ⟨hba, hb⟩ := hnode b hb
    have hmem := h.only b hb
    rw [hmap] at hmem
    rw [map_append, mem_append]
    exact (mem_append.mp hmem).imp id fun hmem => (mem_cons.mp hmem).resolve_left hba
  · intro b
    rw [hlog, (count_free ..).1, (count_free ..).2, h.ledger b, hmap, map_append, count_append,
      count_append, ← singleton_append, count_append]
    omega

theorem Holds.not_mem (l₁ : List (Nat × α)) (h : Holds q (l₁ ++ (a, v) :: l₂)) : a ∉ l₁.map Prod.fst ∧ a ∉ l₂.map Prod.fst := by
  have hnodup := h.nodup
  rw [map_append, nodup_append] at hnodup
  exact ⟨fun ha => hnodup.2.2 a ha a (mem_cons_self ..) rfl, (nodup_cons.mp hnodup.2.1).1⟩

theorem node_of_update {node node' : Dll.Heap α} (h : ∀ b, node' b ≠ none → node b ≠ none) :
    ∀ b, update node' a none b ≠ none → b ≠ a ∧ node b ≠ none := by
  intro b hb
  by_cases hba : b = a
  · rw [hba, update_self] at hb
    exact absurd rfl hb
  · rw [update_of_ne hba] at hb
    exact ⟨hba, h b hb⟩

theorem Holds.dequeue_nil (h : Holds q []) : q.dequeue = some (none, q) := if_pos h.size

theorem Holds.dequeue_cons (h : Holds q ((a, v) :: l)) : ∃ q', q.dequeue = some (some v, q') ∧ Holds q' l := by
  have hcell : q.node a = some ⟨v, none, first l none⟩ := h.segment.1
  have hsize : q.size ≠ 0 := h.size_ne_zero nofun
  obtain ⟨-, hl⟩ := h.not_mem []
  have hhead : ({ q with size := q.size - 1 } : Queue α).deref q.head = some (a, ⟨v, none, first l none⟩) := by
    rw [h.head]
    exact deref_some hcell
  cases l with
  | nil =>
    refine ⟨{ q with size := q.size - 1, head := none, tail := none }.kfree a, ?_, ?_⟩
    · refine (if_neg hsize).trans ?_
      show bind _ _ = _
      rw [hhead]
      have htail : q.tail = some a := h.tail
      show some (some v, Queue.kfree (if q.tail = some a then _ else _) a) = _
      rw [if_pos htail]
      rfl
    · exact h.unlinked [] rfl rfl rfl trivial (node_of_update fun _ => id) rfl
  | cons c l =>
    obtain ⟨b, w⟩ := c
    have htail : q.tail ≠ some a := by
      obtain ⟨c, hc, hlast⟩ := last_mem b l
      rw [show q.tail = some c from h.tail.trans hlast]
      exact fun hca => hl (some.inj hca ▸ hc)
    obtain ⟨hb, hsegment⟩ := h.segment.2.set_prev (nodup_cons.mp h.nodup).2 none
    refine ⟨({ q with size := q.size - 1, head := some b }.setNode b ⟨w, none, first l none⟩).kfree a, ?_, ?_⟩
    · refine (if_neg hsize).trans ?_
      show bind _ _ = _
      rw [hhead]
      show bind (Queue.setPrev { q with size := q.size - 1, head := some b } (some b) none) _ = _
      rw [setPrev_some (q := { q with size := q.size - 1, head := some b }) hb]
      show some (some v, Queue.kfree (if q.tail = some a then _ else _) a) = _
      rw [if_neg htail]
    · refine h.unlinked [] rfl rfl h.tail (hsegment.update hl none) ?_ rfl
      exact node_of_update (only_of_update (fun _ => id) (by rw [hb]; nofun))

/-! ### `queue_remove` -/

theorem find_eq [DecidableEq α] {prev : Option Nat} {fuel : Nat} (hs : Segment q.node prev l none)
    (hfuel : l.length ≤ fuel) (v : α) :
    (v ∉ l.map Prod.snd ∧ q.find v fuel (first l none) = some none) ∨
      ∃ l₁ a l₂, l = l₁ ++ (a, v) :: l₂ ∧ v ∉ l₁.map Prod.snd ∧
        q.find v fuel (first l none) = some (some (a, ⟨v, last prev l₁, first l₂ none⟩)) := by
  induction l generalizing prev fuel with
  | nil =>
    refine .inl ⟨nofun, ?_⟩
    cases fuel <;> rfl
  | cons c l ih =>
    obtain ⟨a, w⟩ := c
    cases fuel with
    | zero => cases hfuel
    | succ fuel =>
      have hfind : q.find v (fuel + 1) (some a) =
          if w = v then some (some (a, ⟨w, prev, first l none⟩)) else q.find v fuel (first l none) := by
        show bind _ _ = _
        rw [deref_some hs.1]
        rfl
      show (_ ∧ q.find v (fuel + 1) (some a) = _) ∨ ∃ l₁ b l₂, _ ∧ _ ∧ q.find v (fuel + 1) (some a) = _
      rw [hfind]
      by_cases hw : w = v
      · subst hw
        rw [if_pos rfl]
        exact .inr ⟨[], a, l, rfl, nofun, rfl⟩
      rw [if_neg hw]
      rcases ih hs.2 (Nat.le_of_succ_le_succ hfuel) with ⟨hnot, heq⟩ | ⟨l₁, b, l₂, rfl, hnot, heq⟩
      · refine .inl ⟨fun hmem => ?_, heq⟩
        exact (mem_cons.mp hmem).elim (fun h => hw h.symm) hnot
      · refine .inr ⟨(a, w) :: l₁, b, l₂, rfl, fun hmem => ?_, heq⟩
        exact (mem_cons.mp hmem).elim (fun h => hw h.symm) hnot

theorem Holds.unlink_tail {p : Nat} {u : α} (h : Holds q (l ++ [(p, u)] ++ [(a, v)])) :
    ∃ q', q.unlink a ⟨v, some p, none⟩ = some q' ∧ Holds q' (l ++ [(p, u)]) := by
  obtain ⟨hbefore, hcell, -⟩ := segment_append.mp h.segment
  have hnodup := h.nodup
  rw [map_append] at hnodup
  obtain ⟨hp, -⟩ := hbefore.set_next (nodup_append.mp hnodup).1 none
  have htail : q.tail = some a := h.tail.trans last_append
  refine ⟨({ q with size := q.size - 1, tail := some p }.setNode p ⟨u, last none l, none⟩).kfree a, ?_, ?_⟩
  · unfold unlink
    rw [htail, deref_some hcell]
    rw [last_append]
    show bind (Queue.setNext { q with size := q.size - 1, tail := some p } (some p) none) _ = _
    rw [setNext_some (q := { q with size := q.size - 1, tail := some p }) hp]
    rfl
  · rw [← append_nil (l ++ [(p, u)])]
    refine h.unlinked _ rfl ?_ ?_ ?_ ?_ rfl
    · rw [append_nil]
      rw [h.head]
      cases l <;> rfl
    · rw [append_nil, last_append]
      rfl
    · rw [append_nil]
      exact h.segment.dropLast h.nodup
    · exact node_of_update (only_of_update (fun _ => id) (by rw [hp]; nofun))

theorem Holds.unlink_middle {p b : Nat} {u w : α} (h : Holds q (l₁ ++ [(p, u)] ++ (a, v) :: (b, w) :: l₂)) :
    ∃ q', q.unlink a ⟨v, some p, some b⟩ = some q' ∧ Holds q' (l₁ ++ [(p, u)] ++ (b, w) :: l₂) := by
  obtain ⟨hbefore, hcell, hafter⟩ := segment_append.mp h.segment
  obtain ⟨ha₁, ha₂⟩ := h.not_mem _
  have hnodup := h.nodup
  rw [map_append] at hnodup
  obtain ⟨hnodup₁, hnodup₂, hdisjoint⟩ := nodup_append.mp hnodup
  have hpb : b ≠ p := fun hbp => hdisjoint p (by simp) b (by simp) hbp.symm
  have hp₂ : p ∉ ((b, w) :: l₂).map Prod.fst := fun hmem => hdisjoint p (by simp) p (mem_cons_of_mem _ hmem) rfl
  have hb₁ : b ∉ (l₁ ++ [(p, u)]).map Prod.fst := fun hmem => hdisjoint b hmem b (by simp) rfl
  obtain ⟨hp, hsegment₁⟩ := hbefore.set_next hnodup₁ (some b)
  obtain ⟨hb, hsegment₂⟩ := hafter.set_prev (nodup_cons.mp hnodup₂).2 (some p)
  let q₁ := { q with size := q.size - 1 }.setNode p ⟨u, last none l₁, some b⟩
  have hb' : q₁.node b = some ⟨w, some a, first l₂ none⟩ := (update_of_ne hpb _ _).trans hb
  refine ⟨(q₁.setNode b ⟨w, some p, first l₂ none⟩).kfree a, ?_, ?_⟩
  · unfold unlink
    show bind (Queue.setNext { q with size := q.size - 1 } (some p) (some b)) _ = _
    rw [setNext_some (q := { q with size := q.size - 1 }) hp]
    show bind (q₁.setPrev (some b) (some p)) _ = _
    rw [setPrev_some hb']
    rfl
  · refine h.unlinked _ rfl ?_ ?_ ?_ ?_ rfl
    · show q.head = _
      rw [h.head]
      cases l₁ <;> rfl
    · have hlast : last none (l₁ ++ [(p, u)] ++ (b, w) :: l₂) = last (some b) l₂ := last_append
      rw [hlast]
      exact h.tail.trans last_append
    · refine Segment.update (segment_append.mpr ⟨?_, ?_⟩) ?_ none
      · exact hsegment₁.update hb₁ _
      · rw [last_append]
        show Segment (update (update q.node p _) b _) (some p) _ none
        rw [update_comm hpb.symm]
        exact hsegment₂.update hp₂ _
      · rw [map_append, mem_append]
        exact fun hmem => hmem.elim ha₁ ha₂
    · exact node_of_update (only_of_update (only_of_update (fun _ => id) (by rw [hp]; nofun)) (by rw [hb]; nofun))

theorem Holds.unlink (h : Holds q (l₁ ++ (a, v) :: l₂)) :
    ∃ q', q.unlink a ⟨v, last none l₁, first l₂ none⟩ = some q' ∧ Holds q' (l₁ ++ l₂) := by
  rcases eq_nil_or_concat' l₁ with rfl | ⟨l₁, ⟨p, u⟩, rfl⟩
  · obtain ⟨q', heq, hq'⟩ := h.dequeue_cons
    exact ⟨q', (if_pos rfl).trans (congrArg (Option.map Prod.snd) heq), hq'⟩
  rw [last_append]
  cases l₂ with
  | nil =>
    rw [append_nil]
    exact h.unlink_tail
  | cons c l₂ => exact h.unlink_middle

theorem Holds.remove [DecidableEq α] (h : Holds q l) (v : α) :
    ∃ q' l', q.remove v = some q' ∧ Holds q' l' ∧ l'.map Prod.snd = (l.map Prod.snd).erase v := by
  by_cases hsize : q.size = 0
  · have hl : l = [] := length_eq_zero_iff.mp (h.size.symm.trans hsize)
    subst hl
    exact ⟨q, [], if_pos hsize, h, rfl⟩
  have hremove : q.remove v = _ := if_neg hsize
  rw [h.head] at hremove
  rcases find_eq h.segment (Nat.le_of_eq h.size.symm) v with ⟨hnot, heq⟩ | ⟨l₁, a, l₂, rfl, hnot, heq⟩
  · rw [heq] at hremove
    exact ⟨q, l, hremove, h, (erase_of_not_mem hnot).symm⟩
  rw [heq] at hremove
  obtain ⟨q', hunlink, hq'⟩ := h.unlink
  refine ⟨q', l₁ ++ l₂, hremove.trans hunlink, hq', ?_⟩
  rw [map_append, map_append, erase_append_right _ hnot, map_cons, erase_cons_head]

theorem Holds.exec [DecidableEq α] {op : Op α} (h : Holds q l) (hop : q.Enabled op) :
    ∃ q' l', q.exec op = some q' ∧ Holds q' l' ∧ l'.map Prod.snd = op.apply (l.map Prod.snd) := by
  cases op with
  | enqueue a v =>
    obtain ⟨q', heq, hq'⟩ := h.enqueue hop v
    exact ⟨q', _, heq, hq', map_append⟩
  | dequeue =>
    cases l with
    | nil => exact ⟨q, [], congrArg (Option.map Prod.snd) h.dequeue_nil, h, rfl⟩
    | cons c l =>
      obtain ⟨q', heq, hq'⟩ := h.dequeue_cons
      exact ⟨q', l, congrArg (Option.map Prod.snd) heq, hq', rfl⟩
  | remove v => exact h.remove v

theorem Holds.run [DecidableEq α] {ops : List (Op α)} (hrun : Run Step (Queue.new (α := α)) ops q) :
    ∃ l, Holds q l ∧ l.map Prod.snd = ops.foldl Op.apply [] := by
  induction hrun with
  | refl => exact ⟨[], .new, rfl⟩
  | snoc _ hstep ih =>
    obtain ⟨l, hl, hvalues⟩ := ih
    obtain ⟨q', l', heq, hl', hvalues'⟩ := hl.exec hstep.1
    rw [hstep.2] at heq
    cases heq
    exact ⟨l', hl', by rw [hvalues', hvalues, foldl_append, foldl_cons, foldl_nil]⟩

theorem Holds.head_prev (h : Holds q l) (ha : q.head = some a) (hx : q.node a = some x) : x.prev = none := by
  cases l with
  | nil => cases ha.symm.trans h.head
  | cons c l =>
    obtain rfl : a = c.1 := some.inj (ha.symm.trans h.head)
    cases hx.symm.trans h.segment.1
    rfl

theorem Holds.tail_next (h : Holds q l) (ha : q.tail = some a) (hx : q.node a = some x) : x.next = none := by
  rcases eq_nil_or_concat' l with rfl | ⟨l, c, rfl⟩
  · cases ha.symm.trans h.tail
  · obtain rfl : a = c.1 := some.inj (ha.symm.trans (h.tail.trans last_append))
    cases hx.symm.trans (segment_append.mp h.segment).2.1
    rfl

/-- In every state the queue is the list that its calls make: following `next` from the head visits the nodes of
    this list and ends at the tail, `prev` is the inverse of `next`, each node that left was freed once, and every
    call that is possible succeeds. -/
theorem queue_is_list [DecidableEq α] {ops : List (Op α)} (hrun : Run Step (Queue.new (α := α)) ops q) :
    ∃ l, l.map Prod.snd = ops.foldl Op.apply [] ∧ q.size = l.length ∧ walk q.node q.size q.head = some l ∧
      q.tail = l.getLast?.map Prod.fst ∧
      (∀ a b, (∃ x, q.node a = some x ∧ x.next = some b) ↔ ∃ y, q.node b = some y ∧ y.prev = some a) ∧
      (∀ a x, q.head = some a → q.node a = some x → x.prev = none) ∧
      (∀ a x, q.tail = some a → q.node a = some x → x.next = none) ∧
      (q.size = 0 → q.head = none ∧ q.tail = none) ∧
      (∀ a, q.node a ≠ none ↔ a ∈ l.map Prod.fst) ∧
      (∀ a, q.log.count (.alloc a) = q.log.count (.free a) + (l.map Prod.fst).count a) ∧
      (∀ op, q.Enabled op → ∃ q', q.exec op = some q') ∧
      q.dequeue.map Prod.fst = some (l.map Prod.snd).head? := by
  obtain ⟨l, h, hvalues⟩ := Holds.run hrun
  refine ⟨l, hvalues, h.size, ?_, ?_, fun a b => h.segment.next_iff_prev h.only, fun a x => h.head_prev,
    fun a x => h.tail_next, ?_, fun a => ⟨h.only a, h.segment.cell⟩, h.ledger, ?_, ?_⟩
  · rw [h.head]
    exact h.segment.walk_eq (Nat.le_of_eq h.size.symm)
  · rw [h.tail]
    rcases eq_nil_or_concat' l with rfl | ⟨l, c, rfl⟩
    · rfl
    · rw [last_append, getLast?_append]
      rfl
  · intro hsize
    obtain rfl : l = [] := length_eq_zero_iff.mp (h.size.symm.trans hsize)
    exact ⟨h.head, h.tail⟩
  · intro op hop
    obtain ⟨q', -, heq, -⟩ := h.exec hop
    exact ⟨q', heq⟩
  · cases l with
    | nil => rw [h.dequeue_nil]; rfl
    | cons c l =>
      obtain ⟨q', heq, -⟩ := h.dequeue_cons
      rw [heq]
      rfl

def gets (q : Queue α) : Op α → Bool
  | .enqueue a _ => (q.node a).isNone
  | .dequeue | .remove _ => true

/-- Three values, the one in the middle removed, and the first one taken. -/
theorem queue_is_list_three : ∃ q l, Run Step Queue.new [.enqueue 1 10, .enqueue 2 20, .enqueue 3 30, .remove 20, .dequeue] q ∧
    walk q.node q.size q.head = some l ∧ l.map Prod.snd = [30] := by
  have heval : (Run.execAll Queue.exec (fun q op _ => q.gets op) (Queue.new (α := Nat))
      [.enqueue 1 10, .enqueue 2 20, .enqueue 3 30, .remove 20, .dequeue]).isSome = true := by decide
  obtain ⟨q, hq⟩ := isSome_iff_exists.mp heval
  have hexec : Run (fun (q : Queue Nat) op q' => q.exec op = some q' ∧ _) Queue.new _ q := Run.of_execAll id hq
  have hrun : Run Step Queue.new _ q := hexec.mono fun {q op q'} hstep => ⟨by
    cases op with
    | enqueue a v => exact isNone_iff_eq_none.mp hstep.2
    | dequeue => trivial
    | remove v => trivial, hstep.1⟩
  obtain ⟨l, hvalues, -, hwalk, -⟩ := queue_is_list hrun
  exact ⟨q, l, hrun, hwalk, hvalues⟩

end Queue
end HelinKern
