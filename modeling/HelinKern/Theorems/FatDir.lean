import HelinKern.FatDir

/-! What `fat_creat` does to a directory. -/

namespace HelinKern
namespace Fat
open Word List

variable {n p x : Nat} {d : Memory} {name : Name} {cluster : Option Nat}

theorem putEntry_self (d : Memory) (p : Nat) (entry : Name) (hx : x < 32) :
    putEntry d p entry (32 * p + x) = entry.getD x 0 := by
  unfold putEntry
  rw [if_pos (by omega), Nat.add_sub_cancel_left]

theorem putEntry_of_outside {entry : Name} {i : Nat} (h : i < 32 * p ∨ 32 * p + 32 ≤ i) : putEntry d p entry i = d i :=
  if_neg (by omega)

/-- The directory that `fat_creat` leaves if the first free entry is `p`. -/
def created (d : Memory) (p : Nat) (name : Name) (cluster : Option Nat) : Memory :=
  putEntry (putEntry d p (longEntry name)) (p + 1) (shortEntry name cluster)

theorem created_short (d : Memory) (p : Nat) (name : Name) (cluster : Option Nat) (hx : x < 32) :
    created d p name cluster (32 * (p + 1) + x) = (shortEntry name cluster).getD x 0 := putEntry_self _ _ _ hx

theorem created_of_outside {i : Nat} (h : i < 32 * p ∨ 32 * (p + 1) + 32 ≤ i) : created d p name cluster i = d i :=
  (putEntry_of_outside (by omega)).trans (putEntry_of_outside (by omega))

theorem fatCreat_eq (hp : firstFree n d = some p) : fatCreat n d name cluster = some (created d p name cluster) := by
  rw [fatCreat, hp]
  rfl

theorem firstFree_eq_some : firstFree n d = some p ↔ isFree d p ∧ p < n ∧ ∀ q < p, isFree d q = false := by
  simp [firstFree, find?_range_eq_some]

/-- What a creation must not do: without room for both entries it fails, and nothing is written behind the cluster and to
    an entry in use. -/
def Careful (n : Nat) (d : Memory) (name : Name) (cluster : Option Nat) : Prop :=
  ∀ d', fatCreat n d name cluster = some d' →
    (∃ q, q + 1 < n ∧ isFree d q ∧ isFree d (q + 1)) ∧ (∀ i, 32 * n ≤ i → d' i = d i) ∧
      ∀ q < n, isFree d q = false → ∀ x < 32, d' (32 * q + x) = d (32 * q + x)

/-- `fat_creat` is careful with every name exactly if behind the first free entry there is another one. -/
theorem fat_creat_careful (n : Nat) (d : Memory) :
    (∀ name cluster, Careful n d name cluster) ↔ ∀ p, firstFree n d = some p → p + 1 < n ∧ isFree d (p + 1) = true := by
  refine ⟨fun h p hp => ?_, fun h name cluster d' hd' => ?_⟩
  · by_contra hno
    have hkept : ∀ name, (created d p name none) (32 * (p + 1) + 0) = d (32 * (p + 1) + 0) := by
      intro name
      obtain ⟨-, hout, hlive⟩ := h name none _ (fatCreat_eq hp)
      by_cases hlt : p + 1 < n
      · exact hlive (p + 1) hlt (by simpa [hlt] using hno) 0 (by omega)
      · exact hout _ (by omega)
    have ha := (created_short d p [0x61] none (by omega : 0 < 32)).symm.trans (hkept [0x61])
    have hb := (created_short d p [0x62] none (by omega : 0 < 32)).symm.trans (hkept [0x62])
    exact absurd (ha.trans hb.symm) (by decide)
  · obtain ⟨p, hp, rfl⟩ := Option.map_eq_some_iff.mp hd'
    obtain ⟨hlt, hfree⟩ := h p hp
    have hfreep := (firstFree_eq_some.mp hp).1
    refine ⟨⟨p, hlt, hfreep, hfree⟩, fun i hi => created_of_outside (by omega), fun q _ hq x hx => created_of_outside ?_⟩
    have hqp : q ≠ p := by
      rintro rfl
      simp [hfreep] at hq
    have hqp' : q ≠ p + 1 := by
      rintro rfl
      simp [hfree] at hq
    omega

/-- A deleted entry and an entry in use behind it, which is overwritten. -/
theorem creat_overwrites_next : ¬ Careful 128 (fun i => if i = 0 then 0xE5 else 0x58) [0x61] none := by
  intro h
  have hkept := (h _ rfl).2.2 1 (by decide) (by decide) 0 (by decide)
  exact absurd hkept (by decide)

end Fat
end HelinKern
