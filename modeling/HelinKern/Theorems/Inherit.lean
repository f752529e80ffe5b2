import HelinKern.Theorems.Descriptors

/-! The descriptors of a child: `sys_fork` copies the table slot by slot, and `sys_clone` opens the nodes again. -/

namespace HelinKern
open Function List Option

section
variable {α : Type} {f : Nat → Option α} {m n i : Nat}

theorem length_filterMap_range (h : ∀ j < m, f j ≠ none) : ((range m).filterMap f).length = m := by
  induction m with
  | zero => rfl
  | succ m ih =>
    obtain ⟨x, hx⟩ := ne_none_iff_exists'.mp (h m (Nat.lt_succ_self m))
    rw [range_succ, filterMap_append, length_append, ih fun j hj => h j (by omega)]
    simp [hx]

theorem getElem?_filterMap_range (h : ∀ j ≤ i, f j ≠ none) (hi : i < n) : ((range n).filterMap f)[i]? = f i := by
  obtain ⟨x, hx⟩ := ne_none_iff_exists'.mp (h i (Nat.le_refl i))
  have hlength := length_filterMap_range (m := i) fun j hj => h j (by omega)
  obtain ⟨k, rfl⟩ : ∃ k, n = i + 1 + k := ⟨n - (i + 1), by omega⟩
  rw [range_add, range_succ]
  simp [hlength, hx]

theorem length_filterMap_range_add (h : ∀ j < m, f j ≠ none) (k : Nat) :
    ((range (m + k)).filterMap f).length = m + ((range k).filterMap fun j => f (m + j)).length := by
  rw [range_add, filterMap_append, length_append, length_filterMap_range h, filterMap_map]
  rfl

end

namespace FdTable

variable {t : FdTable} {child i : Nat}

def reopened (t : FdTable) (child i : Nat) : Option FileDescriptor :=
  (t.fds i).bind fun d => if d.node = 0 then none else some ⟨child, d.node, 0, d.flags⟩

def packed (l : List FileDescriptor) : FdTable := ⟨fun i => l[i]?, l.length⟩

theorem packed_put (l : List FileDescriptor) (d : FileDescriptor) :
    ({ (packed l).put l.length (some d) with nextFd := l.length + 1 } : FdTable) = packed (l ++ [d]) := by
  simp only [packed, put, FdTable.mk.injEq]
  constructor
  · funext i
    by_cases hi : i = l.length
    · subst hi
      simp
    rw [update_of_ne hi]
    rcases Nat.lt_or_gt_of_ne hi with hlt | hgt
    · rw [getElem?_append_left hlt]
    · rw [getElem?_eq_none (by omega), getElem?_eq_none (by simp; omega)]
  · simp

theorem cloneFd_eq (t : FdTable) (child i : Nat) (l : List FileDescriptor) :
    cloneFd child (t, packed (l.take openLimit)) i =
      (t, packed ((l ++ (t.reopened child i).toList).take openLimit)) := by
  unfold cloneFd reopened
  cases hslot : t.fds i with
  | none =>
    have hsame : t.put i none = t := by
      unfold put
      rw [← hslot, update_eq_self]
    simp [hsame]
  | some d =>
    by_cases hnode : d.node = 0
    · simp [hnode, openFor]
    simp only [if_neg hnode, bind_some, Prod.mk.injEq, true_and]
    by_cases hroom : l.length < openLimit
    · rw [take_of_length_le (Nat.le_of_lt hroom), take_of_length_le (by simp; omega),
        openFor_of_lt child d.node d.flags hroom]
      exact packed_put l _
    · rw [openFor_of_limit child d.node d.flags (by simp [packed]; omega),
        take_append_of_le_length (by omega)]

theorem clone_eq (t : FdTable) (child : Nat) :
    t.clone child = (t, packed (((range t.nextFd).filterMap (t.reopened child)).take openLimit)) := by
  unfold clone
  generalize t.nextFd = n
  induction n with
  | zero => rfl
  | succ n ih =>
    rw [range_succ, foldl_append, ih, foldl_cons, cloneFd_eq, filterMap_append]
    rfl

def shared (d : FileDescriptor) : Nat × Int × Int := (d.node, d.flags, d.offset)

/-- The same slots are open in both tables, with the same node, flags and offset. -/
def Inherits (parent child : FdTable) : Prop := ∀ i < slots, (child.fds i).map shared = (parent.fds i).map shared

theorem inherits_fork (t : FdTable) (child : Nat) : Inherits t (t.fork child) := by
  intro i hi
  simp only [fork, if_pos hi, Option.map_map]
  rfl

/-- The open slots are the first ones, all below `next_fd`, and their descriptors have a node and were not moved; what
    lies behind the array is taken for a descriptor only if there is no free slot it could go to. -/
structure Packs (t : FdTable) : Prop where
  first : ∀ i < slots, t.fds i ≠ none → ∀ j < i, t.fds j ≠ none
  below : ∀ i < slots, t.fds i ≠ none → i < t.nextFd
  unmoved : ∀ i < slots, ∀ d, t.fds i = some d → d.node ≠ 0 ∧ d.offset = 0
  behind : ∀ i, slots ≤ i → i < t.nextFd → (∃ d, t.fds i = some d ∧ d.node ≠ 0) → ∀ j < slots, t.fds j ≠ none

theorem reopened_ne_none_iff : t.reopened child i ≠ none ↔ ∃ d, t.fds i = some d ∧ d.node ≠ 0 := by
  unfold reopened
  cases t.fds i with
  | none => simp
  | some d => by_cases hnode : d.node = 0 <;> simp [hnode]

theorem mem_reopened {d : FileDescriptor} {n : Nat} (h : d ∈ (range n).filterMap (t.reopened child)) :
    d.node ≠ 0 ∧ d.offset = 0 := by
  obtain ⟨i, -, hi⟩ := mem_filterMap.mp h
  obtain ⟨d', -, hd'⟩ := bind_eq_some_iff.mp hi
  split at hd'
  · cases hd'
  next hnode =>
    cases hd'
    exact ⟨hnode, rfl⟩

theorem clone_fds (t : FdTable) (child : Nat) (hi : i < slots) :
    (t.clone child).2.fds i = ((range t.nextFd).filterMap (t.reopened child))[i]? := by
  rw [clone_eq]
  exact getElem?_take_of_lt (Nat.lt_trans hi (by decide))

theorem Packs.reopened (h : Packs t) (hi : i < slots) (hopen : t.fds i ≠ none) (child : Nat) :
    ∀ j ≤ i, t.reopened child j ≠ none := by
  intro j hj
  have hj' : t.fds j ≠ none := by
    rcases Nat.eq_or_lt_of_le hj with rfl | hlt
    · exact hopen
    · exact h.first i hi hopen j hlt
  obtain ⟨d, hd⟩ := ne_none_iff_exists'.mp hj'
  exact reopened_ne_none_iff.mpr ⟨d, hd, (h.unmoved j (by omega) d hd).1⟩

theorem Packs.inherits (h : Packs t) (child : Nat) : Inherits t (t.clone child).2 := by
  intro i hi
  rw [clone_fds t child hi]
  cases hslot : t.fds i with
  | some d =>
    have hopen : t.fds i ≠ none := by simp [hslot]
    obtain ⟨hnode, hoffset⟩ := h.unmoved i hi d hslot
    rw [getElem?_filterMap_range (h.reopened hi hopen child) (h.below i hi hopen)]
    simp [FdTable.reopened, hslot, hnode, shared, hoffset]
  | none =>
    -- every open slot is below the first hole, so that the thread has fewer descriptors than `i`
    have hclosed : ∀ k, i ≤ k → k < t.nextFd → t.reopened child k = none := by
      intro k hk hnext
      by_contra hopen
      obtain ⟨d, hd, hnode⟩ := reopened_ne_none_iff.mp hopen
      by_cases hslots : k < slots
      · have hne : i ≠ k := by
          rintro rfl
          rw [hslot] at hd
          cases hd
        exact h.first k hslots (by simp [hd]) i (by omega) hslot
      · exact h.behind k (by omega) hnext ⟨d, hd, hnode⟩ i hi hslot
    have hlength : ((range t.nextFd).filterMap (t.reopened child)).length ≤ i := by
      rcases Nat.le_total t.nextFd i with hle | hle
      · exact (length_filterMap_le ..).trans (by simpa using hle)
      obtain ⟨k, hk⟩ : ∃ k, t.nextFd = i + k := ⟨t.nextFd - i, by omega⟩
      have hrest : (map (i + ·) (range k)).filterMap (t.reopened child) = [] := by
        rw [filterMap_eq_nil_iff]
        intro x hx
        obtain ⟨j, hj, rfl⟩ := mem_map.mp hx
        exact hclosed _ (by omega) (by have := mem_range.mp hj; omega)
      rw [hk, range_add, filterMap_append, hrest, append_nil]
      exact (length_filterMap_le ..).trans (by simp)
    rw [getElem?_eq_none hlength]

theorem Inherits.packs (h : Inherits t (t.clone child).2) : Packs t := by
  generalize hl : (range t.nextFd).filterMap (t.reopened child) = l at *
  have hslot : ∀ i < slots, l[i]?.map shared = (t.fds i).map shared := by
    intro i hi
    rw [← h i hi, clone_fds t child hi, hl]
  have hopen : ∀ i < slots, (t.fds i ≠ none ↔ i < l.length) := by
    intro i hi
    have := congrArg Option.isSome (hslot i hi)
    rw [isSome_map, isSome_map] at this
    rw [← isSome_iff_ne_none, ← this]
    simp
  have hmem : ∀ d ∈ l, d.node ≠ 0 ∧ d.offset = 0 := by
    intro d hd
    rw [← hl] at hd
    exact mem_reopened hd
  have hunmoved : ∀ i < slots, ∀ d, t.fds i = some d → d.node ≠ 0 ∧ d.offset = 0 := by
    intro i hi d hd
    have hlt := (hopen i hi).mp (by simp [hd])
    obtain ⟨hnode, hoffset⟩ := hmem _ (getElem_mem hlt)
    have hsame := hslot i hi
    rw [hd, getElem?_eq_getElem hlt] at hsame
    simp only [map_some, some.injEq, shared, Prod.mk.injEq] at hsame
    rw [← hsame.1, ← hsame.2.2]
    exact ⟨hnode, hoffset⟩
  refine ⟨?_, ?_, hunmoved, ?_⟩
  · intro i hi hi' j hj
    exact (hopen j (by omega)).mpr (by have := (hopen i hi).mp hi'; omega)
  · intro i hi hi'
    have hlt := (hopen i hi).mp hi'
    have hle : l.length ≤ t.nextFd := by
      rw [← hl]
      exact (length_filterMap_le ..).trans (by simp)
    omega
  · -- a descriptor behind the array would go to the first free slot
    intro i hi hnext hbehind j hj hfree
    have hle : l.length ≤ j := Nat.not_lt.mp fun hlt => (hopen j hj).mpr hlt hfree
    have hfirst : ∀ k < l.length, t.reopened child k ≠ none := by
      intro k hk
      obtain ⟨d, hd⟩ := ne_none_iff_exists'.mp ((hopen k (by omega)).mpr hk)
      exact reopened_ne_none_iff.mpr ⟨d, hd, (hunmoved k (by omega) d hd).1⟩
    obtain ⟨k, hk⟩ : ∃ k, t.nextFd = l.length + k := ⟨t.nextFd - l.length, by omega⟩
    have hlength := length_filterMap_range_add hfirst k
    rw [← hk, hl] at hlength
    have hnil : (range k).filterMap (fun j => t.reopened child (l.length + j)) = [] :=
      eq_nil_of_length_eq_zero (by omega)
    have hlast := filterMap_eq_nil_iff.mp hnil (i - l.length) (mem_range.mpr (by omega))
    rw [Nat.add_sub_cancel' (by omega)] at hlast
    exact reopened_ne_none_iff.mpr hbehind hlast

end FdTable

namespace FdTables
open FdTable

/-- The tables after a call by `parent`: its own is as it was, and that of the new process is the same. -/
def Passes (s : FdTables) (parent child : Nat) (s' : FdTables) : Prop :=
  s' parent = s parent ∧ ∀ t t', s parent = some t → s' child = some t' → Inherits t t'

/-- The child of `sys_fork` has the descriptors of its parent, and the thread of `sys_clone` has them exactly if the table
    of the caller is packed. -/
theorem children_inherit_iff (s : FdTables) (parent child : Nat) (t : FdTable) (hparent : s parent = some t)
    (hchild : s child = none) :
    (∃ s', s.exec (.fork parent child) = some s' ∧ s' child ≠ none ∧ s.Passes parent child s') ∧
      ∃ s', s.clone parent child = some s' ∧ s' child ≠ none ∧ s' parent = s parent ∧
        (s.Passes parent child s' ↔ t.Packs) := by
  have hne : parent ≠ child := by
    rintro rfl
    rw [hparent] at hchild
    cases hchild
  constructor
  · refine ⟨s.set child (t.fork child), by simp [exec, hparent, hchild], by simp [set], ?_, ?_⟩
    · exact update_of_ne hne ..
    · intro t₀ t' ht₀ ht'
      rw [hparent] at ht₀
      cases ht₀
      rw [show s.set child (t.fork child) child = some (t.fork child) from update_self ..] at ht'
      cases ht'
      exact inherits_fork t child
  · have hsame : (s.set parent (t.clone child).1).set child (t.clone child).2 = s.set child (t.clone child).2 := by
      rw [clone_eq]
      unfold set
      rw [← hparent, update_eq_self]
    refine ⟨s.set child (t.clone child).2, by simp [clone, hparent, hchild, hsame], by simp [set],
      update_of_ne hne .., ?_⟩
    constructor
    · intro h
      exact (h.2 t _ hparent (update_self ..)).packs
    · intro h
      refine ⟨update_of_ne hne .., ?_⟩
      intro t₀ t' ht₀ ht'
      rw [hparent] at ht₀
      cases ht₀
      rw [show s.set child (t.clone child).2 child = some (t.clone child).2 from update_self ..] at ht'
      cases ht'
      exact h.inherits child

/-- A process that opened one file. -/
theorem children_inherit_iff_open :
    let s := (start 1).set 1 (FdTable.empty.openFor 1 (some 7) 2).2
    ∃ s', s.clone 1 2 = some s' ∧ s.Passes 1 2 s' := by
  intro s
  obtain ⟨-, s', hs', -, -, hiff⟩ := children_inherit_iff s 1 2 (FdTable.empty.openFor 1 (some 7) 2).2
    (update_self ..) (by decide)
  have hzero : ∀ i, (FdTable.empty.openFor 1 (some 7) 2).2.fds i ≠ none → i = 0 := by
    intro i hi
    by_contra hne
    exact hi (update_of_ne hne ..)
  refine ⟨s', hs', hiff.mpr ⟨?_, ?_, ?_, ?_⟩⟩
  · intro i _ hi j hj
    have := hzero i hi
    omega
  · intro i _ hi
    rw [hzero i hi]
    decide
  · intro i _ d hd
    obtain rfl := hzero i (by simp [hd])
    cases hd
    decide
  · rintro i hi - ⟨d, hd, -⟩
    obtain rfl := hzero i (by simp [hd])
    exact absurd hi (by decide)

/-- `open`, `open`, `close(0)`: the thread has the second file in slot 0, and slot 1 is free. -/
theorem clone_moves_slot :
    let t := (((FdTable.empty.openFor 1 (some 7) 2).2.openFor 1 (some 8) 2).2.close 0 true).2
    (t.fds 0, t.fds 1) = (none, some ⟨1, 8, 0, 2⟩) ∧
      ((t.clone 2).2.fds 0, (t.clone 2).2.fds 1) = (some ⟨2, 8, 0, 2⟩, none) ∧ ¬Inherits t (t.clone 2).2 := by
  refine ⟨by decide, by decide, fun h => ?_⟩
  exact absurd (h 0 (by decide)) (by decide)

end FdTables
end HelinKern
