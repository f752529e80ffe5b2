import HelinKern.Lib.Scan
import HelinKern.Query
import HelinKern.Theorems.MapPage

/-! `arch_mmu_query` on i386 is a search for zero entries, and what it returns is free only if the pages there happen to be. -/

namespace HelinKern
variable {start size : Nat}

namespace Mmu
open Scan Option

variable {m : Mmu} {pd i j d n : Nat}

section
variable (hself : m.entry pd 1023 = selfEntry pd)
include hself

theorem loadEntry_ptAddr_absent (hi : i < 1024) (hj : j < 1024)
    (hp : (m.entry pd i).has pgPresent = false) : m.loadEntry pd (ptAddr i j) = none := by
  obtain ⟨hframe, hpresent, hsmall⟩ := pageTable_ptAddr hself hi hj
  unfold loadEntry translate
  dsimp only
  rw [hframe, hpresent, hsmall, pageTableIndex_ptAddr hi hj, hp]
  rfl

/-- Whether a directory entry is 0. Behind the directory the word at the address 0 is read. -/
def dirEmpty (m : Mmu) (pd d : Nat) : Option Bool :=
  if d < 1024 then some (m.entry pd d = .empty) else (m.loadEntry pd 0).map fun e => e = .empty

def tableEmpty (m : Mmu) (pd i j : Nat) : Option Bool :=
  if (m.entry pd i).has pgPresent then some (m.entry (m.entry pd i).frame j = .empty) else none

theorem loadEntry_dirEmpty (hd : d ≤ 1024) :
    (m.loadEntry pd (pdAddr d % wordSize)).map (fun e => decide (e = .empty)) = m.dirEmpty pd d := by
  unfold dirEmpty
  split
  next hlt =>
    have haddr : pdAddr d % wordSize = pdAddr d := by
      unfold pdAddr wordSize
      omega
    rw [haddr, loadEntry_pdAddr hself hlt]
    rfl
  · obtain rfl : d = 1024 := by omega
    rfl

theorem loadEntry_tableEmpty (hi : i < 1024) (hj : j < 1024) :
    (m.loadEntry pd (ptAddr i j)).map (fun e => decide (e = .empty)) = m.tableEmpty pd i j := by
  unfold tableEmpty
  cases hp : (m.entry pd i).has pgPresent with
  | true =>
    rw [loadEntry_ptAddr hself hi hj hp]
    rfl
  | false =>
    rw [loadEntry_ptAddr_absent hself hi hj hp]
    rfl

end

/-- Whether the search ends at a page because the directory entry that is reached there is 0. -/
def searchGate (m : Mmu) (pd first page : Nat) : Option Bool :=
  if page = first ∨ page % 1024 = 0 then m.dirEmpty pd (page / 1024) else some false

/-- The entry that is looked at for a page: its own behind the first directory entry, then that of the page 1024 before. -/
def searchLook (m : Mmu) (pd first page : Nat) : Option Bool :=
  m.tableEmpty pd (if page / 1024 = first / 1024 then page / 1024 else page / 1024 - 1) (page % 1024)

section
variable {gate look : Nat → Option Bool} {pt l c : Nat}

theorem queryTableLoads_eq (hgate : ∀ x, 1024 * d + 1024 ≤ x + l → x < 1024 * d + 1024 → gate x = some false)
    (hlook : ∀ j < 1024, look (1024 * d + j) = (m.loadEntry pd (ptAddr pt j)).map fun e => decide (e = .empty))
    (hl : l ≤ 1024) :
    scan gate look n l (1024 * d + (1024 - l)) c =
      (m.queryTableLoads pd pt n l c).map fun r => r.1.elim (.inr r.2) fun j => .inl (1024 * d + j) := by
  induction l generalizing c with
  | zero => rfl
  | succ l ih =>
    have hj : 1024 - (l + 1) < 1024 := by omega
    rw [scan, queryTableLoads, hgate _ (by omega) (by omega), hlook _ hj]
    cases hload : m.loadEntry pd (ptAddr pt (1024 - (l + 1))) with
    | none => rfl
    | some e =>
      have htally : tally c (decide (e = .empty)) = if e = .empty then c + 1 else 0 := by
        unfold tally
        by_cases he : e = .empty
        · rw [if_pos he, if_pos (decide_eq_true he)]
        · rw [if_neg he, if_neg (by rw [decide_eq_false he]; exact Bool.false_ne_true)]
      rw [map_some, bind_eq_bind, bind_some]
      dsimp only
      rw [htally]
      generalize (if e = .empty then c + 1 else 0) = c'
      split
      · rfl
      · rw [show 1024 * d + (1024 - (l + 1)) + 1 = 1024 * d + (1024 - l) by omega]
        exact ih (fun x hlo hhi => hgate x (by omega) hhi) (by omega)

def found : Nat ⊕ Nat → Option Nat
  | .inl page => some (4096 * page % wordSize)
  | .inr _ => none

theorem getVirtualAddress_eq (d j : Nat) : getVirtualAddress d j = 4096 * (1024 * d + j) := by
  unfold getVirtualAddress
  omega

theorem queryFromLoads_eq (first : Nat) {turns : Nat} (hself : m.entry pd 1023 = selfEntry pd) (hd : d + turns = 1025)
    (hj : j < 1024) (hfirst : first = 1024 * d + j ∨ j = 0 ∧ first / 1024 < d)
    (hpt : pt = if d = first / 1024 then d else d - 1) (hlt : 0 < turns → pt < 1024) :
    m.queryFromLoads pd n turns d pt j c =
      (scan (m.searchGate pd first) (m.searchLook pd first) n (1024 * turns - j) (1024 * d + j) c).map found := by
  induction turns generalizing d pt j c with
  | zero =>
    rw [show 1024 * 0 - j = 0 by omega]
    rfl
  | succ turns ih =>
    have hlook : ∀ j < 1024, m.searchLook pd first (1024 * d + j) =
        (m.loadEntry pd (ptAddr pt j)).map fun e => decide (e = .empty) := by
      intro j hj
      unfold searchLook
      rw [show (1024 * d + j) / 1024 = d by omega, show (1024 * d + j) % 1024 = j by omega, ← hpt,
        loadEntry_tableEmpty hself (hlt (Nat.succ_pos _)) hj]
    have hstart : m.searchGate pd first (1024 * d + j) = m.dirEmpty pd d := by
      unfold searchGate
      rw [if_pos (by omega), show (1024 * d + j) / 1024 = d by omega]
    have hinside : ∀ x, 1024 * d + j < x → x < 1024 * d + 1024 → m.searchGate pd first x = some false := by
      intro x hlo hhi
      unfold searchGate
      rw [if_neg (by omega)]
    rw [queryFromLoads, show 1024 * (turns + 1) - j = 1024 - j + 1024 * turns by omega, scan_add]
    have hdir := loadEntry_dirEmpty hself (show d ≤ 1024 by omega)
    cases hload : m.loadEntry pd (pdAddr d % wordSize) with
    | none =>
      rw [hload, map_none] at hdir
      rw [show 1024 - j = 1023 - j + 1 by omega, scan, hstart, ← hdir]
      rfl
    | some e =>
      rw [hload, map_some] at hdir
      rw [bind_eq_bind, bind_some]
      split
      next he =>
        rw [decide_eq_true he] at hdir
        rw [show 1024 - j = 1023 - j + 1 by omega, scan, hstart, ← hdir]
        show some (some (getVirtualAddress d j % wordSize)) = some (found (.inl (1024 * d + j)))
        rw [getVirtualAddress_eq]
        rfl
      next he =>
        rw [decide_eq_false he] at hdir
        have hgate : ∀ x, 1024 * d + 1024 ≤ x + (1024 - j) → x < 1024 * d + 1024 → m.searchGate pd first x = some false := by
          intro x hlo hhi
          rcases Nat.eq_or_lt_of_le (show 1024 * d + j ≤ x by omega) with heq | hgt
          · rw [← heq, hstart, ← hdir]
          · exact hinside x hgt hhi
        have hinner := queryTableLoads_eq (n := n) (c := c) hgate hlook (show 1024 - j ≤ 1024 by omega)
        rw [show 1024 - (1024 - j) = j by omega] at hinner
        rw [hinner]
        cases hresult : m.queryTableLoads pd pt n (1024 - j) c with
        | none => rfl
        | some result =>
          obtain ⟨stop, c'⟩ := result
          cases stop with
          | some k =>
            show some (some (getVirtualAddress d k % wordSize)) = some (found (.inl (1024 * d + k)))
            rw [getVirtualAddress_eq]
            rfl
          | none =>
            -- the table of the entry that was just searched is read again
            have hnext : m.queryFromLoads pd n turns (d + 1) d 0 c' = _ :=
              ih (by omega) (by decide) (.inr ⟨rfl, by omega⟩) (by rw [if_neg (by omega), Nat.add_sub_cancel]) fun _ => by omega
            rw [Nat.sub_zero, show 1024 * (d + 1) + 0 = 1024 * d + j + (1024 - j) by omega] at hnext
            exact hnext

theorem archMmuQueryLoads_eq (hself : m.entry pd 1023 = selfEntry pd) (hstart : start < wordSize) :
    m.archMmuQueryLoads pd start size =
      (scan (m.searchGate pd (start / 4096)) (m.searchLook pd (start / 4096)) (if size / 4096 = 0 then 1 else size / 4096)
        (1049600 - start / 4096) (start / 4096) 0).map found := by
  unfold wordSize at hstart
  have hdir : pageDirectoryIndex start = start / 4096 / 1024 := by
    unfold pageDirectoryIndex
    omega
  have htable : pageTableIndex start = start / 4096 % 1024 := rfl
  unfold archMmuQueryLoads
  rw [hdir, htable, queryFromLoads_eq (start / 4096) hself (by omega) (by omega) (.inl (by omega)) (by rw [if_pos rfl])
    fun _ => by omega]
  rw [show 1024 * (1025 - start / 4096 / 1024) - start / 4096 % 1024 = 1049600 - start / 4096 by omega,
    show 1024 * (start / 4096 / 1024) + start / 4096 % 1024 = start / 4096 by omega]

end

/-- The page is not mapped: its directory entry is 0, or it leads to a table in which the entry of the page is 0. -/
def Unmapped (m : Mmu) (pd page : Nat) : Prop :=
  m.entry pd (page / 1024) = .empty ∨
    (m.entry pd (page / 1024)).has pg4MB = false ∧ m.entry (m.entry pd (page / 1024)).frame (page % 1024) = .empty

instance (m : Mmu) (pd : Nat) : DecidablePred (m.Unmapped pd) := fun _ => inferInstanceAs (Decidable (_ ∨ _))

/-- The range from `r` on does not start before `start`, and its pages are not mapped and lie below `0xFFC00000`. -/
structure FreeRange (m : Mmu) (pd start size r : Nat) : Prop where
  le : start ≤ r
  free : ∀ page, 4096 * page < r + size → r < 4096 * page + 4096 → 4096 * page + 4096 ≤ 0xFFC00000 ∧ m.Unmapped pd page

/-- The search stops at the page, the first one at which a directory entry that it reaches is 0, or at which the last entries
    that it looked at are 0, as many as the size has whole pages. -/
def QueryStops (m : Mmu) (pd start size page : Nat) : Prop :=
  page < 1049600 ∧
    StopsAt (m.searchGate pd (start / 4096)) (m.searchLook pd (start / 4096)) (if size / 4096 = 0 then 1 else size / 4096)
      (start / 4096) page

theorem archMmuQueryLoads_eq_some_iff {r : Nat} (hself : m.entry pd 1023 = selfEntry pd) (hstart : start < wordSize) :
    m.archMmuQueryLoads pd start size = some (some r) ↔
      ∃ page, m.QueryStops pd start size page ∧ r = 4096 * page % wordSize := by
  unfold wordSize at hstart
  have hpos : 0 < if size / 4096 = 0 then 1 else size / 4096 := by
    split
    · decide
    · omega
  rw [archMmuQueryLoads_eq hself hstart, map_eq_some_iff]
  constructor
  · rintro ⟨stop, hscan, hfound⟩
    cases stop with
    | inr c => cases hfound
    | inl page =>
      obtain ⟨hlt, hstops⟩ := (scan_eq_inl_iff hpos).mp hscan
      exact ⟨page, ⟨by omega, hstops⟩, (some.inj hfound).symm⟩
  · rintro ⟨page, ⟨hlt, hstops⟩, rfl⟩
    exact ⟨.inl page, (scan_eq_inl_iff hpos).mpr ⟨by omega, hstops⟩, rfl⟩

/-- The pages that a range of the size takes from this page on are not mapped and end below `0xFFC00000`. The page may lie
    behind the last one, where addresses wrap around. -/
def RoomAt (m : Mmu) (pd start size page : Nat) : Prop :=
  start / 4096 ≤ page % 1048576 ∧ page % 1048576 + (size + 4095) / 4096 ≤ 1047552 ∧
    ∀ k < (size + 4095) / 4096, m.Unmapped pd (page % 1048576 + k)

/-- `arch_mmu_query` returns free pages exactly if there is room at the page at which its search stops. -/
theorem query_free_iff {start size : Nat} (hself : m.entry pd 1023 = selfEntry pd) (hstart : start < wordSize)
    (haligned : start % 4096 = 0) (hsize : 0 < size) :
    (∀ r, m.archMmuQueryLoads pd start size = some (some r) → m.FreeRange pd start size r) ↔
      ∀ page, m.QueryStops pd start size page → m.RoomAt pd start size page := by
  have hiff : ∀ page, m.FreeRange pd start size (4096 * page % wordSize) ↔ m.RoomAt pd start size page := by
    intro page
    have hr : 4096 * page % wordSize = 4096 * (page % 1048576) := by
      unfold wordSize
      omega
    rw [hr]
    unfold RoomAt
    generalize page % 1048576 = p
    constructor
    · rintro ⟨hle, hfree⟩
      refine ⟨by omega, ?_, fun k hk => (hfree (p + k) (by omega) (by omega)).2⟩
      have hlast := (hfree (p + (size + 4095) / 4096 - 1) (by omega) (by omega)).1
      omega
    · rintro ⟨hle, hend, hfree⟩
      refine ⟨by omega, fun q hlo hhi => ⟨by omega, ?_⟩⟩
      have hq := hfree (q - p) (by omega)
      rwa [show p + (q - p) = q by omega] at hq
  constructor
  · intro h page hstops
    exact (hiff page).mp (h _ ((archMmuQueryLoads_eq_some_iff hself hstart).mpr ⟨page, hstops, rfl⟩))
  · intro h r hr
    obtain ⟨page, hstops, rfl⟩ := (archMmuQueryLoads_eq_some_iff hself hstart).mp hr
    exact (hiff page).mpr (h page hstops)

theorem roomAt_of_onePage {page : Nat} (hsize : 0 < size) (hone : size ≤ 4096)
    (hstops : m.QueryStops pd start size page) (hdir : page / 1024 = start / 4096 / 1024) (hlow : start < 0xFFC00000)
    (hsmall : (m.entry pd (page / 1024)).has pg4MB = false) :
    m.RoomAt pd start size page := by
  obtain ⟨hlt, hle, hpasses, hhere⟩ := hstops
  have hpages : (size + 4095) / 4096 = 1 := by omega
  have hmod : page % 1048576 = page := by omega
  unfold RoomAt
  rw [hmod]
  refine ⟨hle, by omega, fun k hk => ?_⟩
  obtain rfl : k = 0 := by omega
  rcases hhere with hgate | ⟨-, hrun⟩
  · unfold searchGate dirEmpty at hgate
    split at hgate
    · rw [if_pos (by omega), some.injEq, decide_eq_true_eq] at hgate
      exact .inl hgate
    · cases hgate
  · have hhit := hrun.2 page (by split <;> omega) (Nat.le_refl page)
    unfold searchLook tableEmpty at hhit
    rw [if_pos hdir] at hhit
    split at hhit
    · rw [some.injEq, decide_eq_true_eq] at hhit
      exact .inr ⟨hsmall, hhit⟩
    · cases hhit

def sparse : Mmu :=
  { small with
    mem :=
      Paged.setWord (Paged.setWord (Paged.setWord (Paged.setWord (fun _ => 0) 1 1 0x2003) 1 1023 0x1003) 2 0 0x5003) 2 3
        0x6003 }

theorem sparse_self : sparse.entry 1 1023 = selfEntry 1 := by decide +kernel

theorem query_free_iff_onePage : sparse.entry 1 1023 = selfEntry 1 ∧
    ∀ r, sparse.archMmuQueryLoads 1 0x400000 4096 = some (some r) → sparse.FreeRange 1 0x400000 4096 r := by
  have hquery : sparse.archMmuQueryLoads 1 0x400000 4096 = some (some 0x401000) := by decide +kernel
  refine ⟨sparse_self, (query_free_iff sparse_self (by decide) (by decide) (by decide)).mpr fun page hstops => ?_⟩
  have hpage : some (some 0x401000) = some (some (4096 * page % wordSize)) :=
    hquery.symm.trans ((archMmuQueryLoads_eq_some_iff sparse_self (by decide)).mpr ⟨page, hstops, rfl⟩)
  have hlt := hstops.1
  obtain rfl : page = 0x401 := by
    have heq := some.inj (some.inj hpage)
    unfold wordSize at heq
    omega
  refine roomAt_of_onePage (by decide) (by decide) hstops (by decide) (by decide) ?_
  decide +kernel

/-- Two pages are asked for, the pages `0x401` and `0x402` are free, and the second one is returned, behind which `0x403` is in
    use. -/
theorem query_returns_used : sparse.archMmuQueryLoads 1 0x400000 8192 = some (some 0x402000) ∧
    ¬sparse.Unmapped 1 0x403 ∧ ¬sparse.FreeRange 1 0x400000 8192 0x402000 := by
  have hquery : sparse.archMmuQueryLoads 1 0x400000 8192 = some (some 0x402000) := by decide +kernel
  have hused : ¬sparse.Unmapped 1 0x403 := by decide +kernel
  exact ⟨hquery, hused, fun h => hused (h.free 0x403 (by decide) (by decide)).2⟩

end Mmu
end HelinKern
