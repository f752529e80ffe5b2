import HelinKern.Iso9660

/-! What lookups and reads in an ISO 9660 image come to. -/

namespace HelinKern
namespace Iso9660

/-! ### The cache of `iso9660_finddir` -/

namespace Caches
open Function List

variable {δ ν : Type} [DecidableEq δ] [DecidableEq ν] {finddirReal : δ → ν → Option (IsoNode ν)} {s : Caches δ ν} {dir : δ}
  {found : List (δ × ν × Nat)}

def nodeAt (s : Caches δ ν) (dir : δ) (a : Nat) : Option (IsoNode ν) := ((s.chain dir).lookup a).join

/-- Every call answers as the lookup in the image does and with a node that holds what was found there; a name in `found`
    gives its node again. -/
def Transparent (finddirReal : δ → ν → Option (IsoNode ν)) : List (δ × ν × Nat) → Caches δ ν → List (δ × ν) → Prop
  | _, _, [] => True
  | found, s, (dir, fName) :: calls => ∃ r t, s.iso9660Finddir finddirReal dir fName = some (r, t) ∧
      r.map (t.nodeAt dir) = (finddirReal dir fName).map some ∧ (∀ a, (dir, fName, a) ∈ found → r = some a) ∧
      Transparent finddirReal ((r.map fun a => (dir, fName, a)).toList ++ found) t calls

omit [DecidableEq ν] in
theorem push_chain_eq_nil (s : Caches δ ν) (dir d : δ) (node : Option (IsoNode ν)) :
    (s.push dir node).chain d = [] ↔ s.chain d = [] ∧ d ≠ dir := by
  unfold push
  dsimp only
  by_cases hd : d = dir
  · rw [hd, update_self]
    simp
  · rw [update_of_ne hd, and_iff_left hd]

theorem finddir_first (finddirReal : δ → ν → Option (IsoNode ν)) (fName : ν) (h : s.chain dir = []) :
    ∃ r, s.iso9660Finddir finddirReal dir fName = some (r, s.push dir (finddirReal dir fName)) ∧
      r.map ((s.push dir (finddirReal dir fName)).nodeAt dir) = (finddirReal dir fName).map some := by
  refine ⟨_, if_pos h, ?_⟩
  cases hreal : finddirReal dir fName with
  | none => rfl
  | some node =>
    simp only [Option.map_some, nodeAt, push, update_self, h, nil_append, lookup_cons_self, Option.join_some]

/-- The second lookup in a directory follows `cacheNode`. -/
theorem finddir_again (fName : ν) (h : s.chain dir ≠ []) (hnull : s.cacheNode = none) :
    s.iso9660Finddir finddirReal dir fName = none := by
  unfold iso9660Finddir
  rw [if_neg h, hnull]

theorem transparent_iff (hnull : s.cacheNode = none) (hfound : ∀ e ∈ found, s.chain e.1 ≠ []) (calls : List (δ × ν)) :
    Transparent finddirReal found s calls ↔ (calls.map Prod.fst).Nodup ∧ ∀ c ∈ calls, s.chain c.1 = [] := by
  induction calls generalizing s found with
  | nil => exact iff_of_true trivial ⟨nodup_nil, nofun⟩
  | cons call calls ih =>
    obtain ⟨dir, fName⟩ := call
    by_cases h : s.chain dir = []
    · obtain ⟨r, hcall, hnode⟩ := finddir_first finddirReal fName h
      have hseen : ∀ e ∈ (r.map fun a => (dir, fName, a)).toList ++ found,
          (s.push dir (finddirReal dir fName)).chain e.1 ≠ [] := by
        intro e he hnil
        obtain ⟨hnil, hdir⟩ := (push_chain_eq_nil ..).mp hnil
        rcases mem_append.mp he with he | he
        · obtain ⟨a, -, rfl⟩ := Option.map_eq_some_iff.mp (Option.mem_toList.mp he)
          exact hdir rfl
        · exact hfound e he hnil
      have hnext := ih (s := s.push dir (finddirReal dir fName)) hnull hseen
      constructor
      · rintro ⟨r', t, hcall', -, -, hrest⟩
        cases hcall.symm.trans hcall'
        obtain ⟨hnodup, hfree⟩ := hnext.mp hrest
        simp only [push_chain_eq_nil] at hfree
        refine ⟨nodup_cons.mpr ⟨fun hmem => ?_, hnodup⟩, forall_mem_cons.mpr ⟨h, fun c hc => (hfree c hc).1⟩⟩
        obtain ⟨c, hc, hdir⟩ := mem_map.mp hmem
        exact (hfree c hc).2 hdir
      · rintro ⟨hnodup, hfree⟩
        obtain ⟨hdir, hnodup⟩ := nodup_cons.mp hnodup
        refine ⟨r, _, hcall, hnode, fun a ha => absurd h (hfound _ ha), hnext.mpr ⟨hnodup, fun c hc => ?_⟩⟩
        exact (push_chain_eq_nil ..).mpr ⟨hfree c (mem_cons_of_mem _ hc), fun he => hdir (mem_map.mpr ⟨c, hc, he⟩)⟩
    · refine iff_of_false ?_ fun hall => h (hall.2 _ mem_cons_self)
      rintro ⟨r, t, hcall, -⟩
      rw [finddir_again fName h hnull] at hcall
      cases hcall

/-- The cache cannot be told from the lookups in the image exactly if no directory is searched twice. -/
theorem lookup_cache_transparent (finddirReal : δ → ν → Option (IsoNode ν)) (calls : List (δ × ν)) :
    Transparent finddirReal [] start calls ↔ (calls.map Prod.fst).Nodup :=
  (transparent_iff rfl (fun _ h => absurd h not_mem_nil) calls).trans (and_iff_left fun _ _ => rfl)

/-- A file is found, and the same lookup once more follows NULL. -/
theorem second_lookup_faults : ∃ s : Caches Nat Nat,
    start.iso9660Finddir (fun _ _ => some ⟨7, 20, 5, 0⟩) 0 7 = some (some 0, s) ∧
      s.iso9660Finddir (fun _ _ => some ⟨7, 20, 5, 0⟩) 0 7 = none := ⟨_, rfl, rfl⟩

end Caches

/-! ### Names -/

open List

namespace Directory

variable {d : Directory} {p cmplen : Nat} {ps : List Nat} {name f : Name}

/-- `iso9660_readdir` lists the record as `f`. -/
def Listed (d : Directory) (f : Name) (p : Nat) : Prop :=
  ∃ i, d.entries[i]? = some p ∧ d.iso9660Readdir i = some (some (f, d.extentStart p))

/-- The lookup of `f` answers with a record that is listed as `f`, or with nothing if there is none. -/
def Exact (d : Directory) (f : Name) : Prop :=
  ∃ r, d.iso9660FinddirReal f = some r ∧
    match r with
    | some node => ∃ p, d.Listed f p ∧ node = d.node p f
    | none => ∀ p, ¬d.Listed f p

end Directory
end Iso9660
end HelinKern
