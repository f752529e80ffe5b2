import HelinKern.Lib.Lts
import HelinKern.Paging64

/-! On x86_64 `arch_mmu_mapPage` and `arch_mmu_getPhysical` agree for pages whose indexes lead past the entries 510 of the PML4
    and 511 of the tables below it, through which the tables show themselves. -/

namespace HelinKern
open Function List Option
variable {e : Entry64} {flags : BitVec 32} {f o : Nat}

namespace Entry64

def table (e : Entry64) : Option Nat := if e.present && e.write && !e.large then some e.page else none

theorem table_eq_some {t : Nat} :
    e.table = some t ↔ e.present ∧ e.write ∧ e.large = false ∧ e.page = t := by
  unfold table
  split
  next h =>
    rw [Bool.and_eq_true, Bool.and_eq_true, Bool.not_eq_true'] at h
    rw [some.injEq]
    exact ⟨fun heq => ⟨h.1.1, h.1.2, h.2, heq⟩, fun h' => h'.2.2.2⟩
  next h =>
    rw [Bool.and_eq_true, Bool.and_eq_true, Bool.not_eq_true'] at h
    exact ⟨nofun, fun h' => absurd ⟨⟨h'.1, h'.2.1⟩, h'.2.2.1⟩ h⟩

theorem table_empty : empty.table = none := rfl

theorem table_of_absent (h : e.present = false) : e.table = none := by
  unfold table
  rw [h]
  rfl

def TableFlags (e : Entry64) : Prop := e.flags = 3 ∨ e.flags = 7

theorem TableFlags.table (h : e.TableFlags) : e.table = some e.page := by
  unfold Entry64.table present write large
  rcases h with h | h <;> rw [h] <;> rfl

theorem TableFlags.present (h : e.TableFlags) : e.present := (table_eq_some.mp h.table).1

def GoodFlags (flags : BitVec 32) : Prop := flags = 3 ∨ flags = 7

theorem or_frame (h : GoodFlags flags) (e : Entry64) : (e.or flags).frame = e.frame := by
  rcases h with rfl | rfl
  · exact BitVec.or_zero
  · exact BitVec.or_zero

theorem or_frame_of_small (h : flags.toNat < 4096) (e : Entry64) : (e.or flags).frame = e.frame := by
  have hmsb : flags.msb = false := by
    rw [BitVec.msb_eq_false_iff_two_mul_lt]
    omega
  have hzero : (flags.signExtend 64 >>> 12).setWidth 52 = 0#52 := by
    apply BitVec.eq_of_toNat_eq
    rw [BitVec.signExtend_eq_setWidth_of_msb_false hmsb, BitVec.toNat_setWidth, BitVec.toNat_ushiftRight, BitVec.toNat_setWidth]
    simp only [BitVec.toNat_ofNat]
    omega
  unfold Entry64.or
  rw [hzero]
  exact BitVec.or_zero

theorem or_tableFlags (h : GoodFlags flags) (he : e.flags = 0) : (e.or flags).TableFlags := by
  unfold TableFlags Entry64.or
  rw [he]
  rcases h with rfl | rfl
  · exact .inl rfl
  · exact .inr rfl

theorem TableFlags.or (h : e.TableFlags) (hbelow : (e.low : Int) < flags.toInt) (hseven : flags.toInt ≤ 7) :
    (e.or flags).TableFlags ∧ (e.or flags).frame = e.frame := by
  have hlow : 3 ≤ e.low := by
    unfold low
    rcases h with h | h <;> rw [h] <;> decide
  have hcases : flags = 4 ∨ flags = 5 ∨ flags = 6 ∨ flags = 7 := by
    simp only [← BitVec.toInt_inj]
    have h₄ : (4 : BitVec 32).toInt = 4 := rfl
    have h₅ : (5 : BitVec 32).toInt = 5 := rfl
    have h₆ : (6 : BitVec 32).toInt = 6 := rfl
    have h₇ : (7 : BitVec 32).toInt = 7 := rfl
    omega
  have hsmall : flags.toNat < 4096 := by rcases hcases with rfl | rfl | rfl | rfl <;> decide
  refine ⟨.inr ?_, or_frame_of_small hsmall e⟩
  unfold Entry64.or
  rcases h with h | h <;> rw [h] <;> rcases hcases with rfl | rfl | rfl | rfl <;> rfl

theorem page_congr {e' : Entry64} (h : e'.frame = e.frame) : e'.page = e.page := by
  unfold page
  rw [h]

theorem page_ofPage (h : f < 1099511627776) : (ofPage f).page = f := by
  show f % 4503599627370496 % 1099511627776 = f
  omega

theorem ofPage_or_table (hf : f < 1099511627776) (h : GoodFlags flags) :
    ((ofPage f).or flags).table = some f := by
  rw [(or_tableFlags h rfl).table, page_congr (or_frame h _), page_ofPage hf]

end Entry64

namespace Mmu64
open Entry64 Tables

variable {m m' : Mmu64} {path : List Nat} {t u f i j v w a b c : Nat} {e : Entry64} {flags : BitVec 32}

/-! ### Paths -/

/-- The path leads through no entry that shows a table. -/
def Ordinary : List Nat → Prop
  | [] => True
  | [a] => a < 512 ∧ a ≠ 510
  | [a, b] => (a < 512 ∧ a ≠ 510) ∧ b < 511
  | [a, b, c] => (a < 512 ∧ a ≠ 510) ∧ b < 511 ∧ c < 511
  | _ => False

def window : List Nat → Nat
  | [] => pml4Addr
  | [a] => pdpAddr a
  | [a, b] => pdAddr a b
  | [a, b, c] => ptAddr a b c
  | _ => 0

def walk (m : Mmu64) (path : List Nat) : Option Nat := Tables.walk table m.mem m.cr3 path

theorem Ordinary.closed : ∀ path i, Ordinary (path ++ [i]) → Ordinary path
  | [], _, _ => trivial
  | [_], _, h => h.1
  | [_, _], _, h => ⟨h.1, h.2.1⟩
  | [_, _, _], _, h => h.elim
  | _ :: _ :: _ :: _ :: _, _, h => h.elim

theorem Ordinary.init (h : Ordinary (path ++ [i])) : Ordinary path := closed _ _ h

theorem Ordinary.length_le : ∀ {path}, Ordinary path → path.length ≤ 3
  | [], _ => by decide
  | [_], _ => by simp
  | [_, _], _ => by simp
  | [_, _, _], _ => by simp
  | _ :: _ :: _ :: _ :: _, h => h.elim

theorem Ordinary.last_lt : ∀ {path i}, Ordinary (path ++ [i]) → i < 512
  | [], _, h => h.1
  | [_], _, h => Nat.lt_succ_of_lt h.2
  | [_, _], _, h => Nat.lt_succ_of_lt h.2.2
  | [_, _, _], _, h => h.elim
  | _ :: _ :: _ :: _ :: _, _, h => h.elim

theorem Ordinary.last_lt_of_cons : ∀ {path i}, path ≠ [] → Ordinary (path ++ [i]) → i < 511
  | [], _, hne, _ => absurd rfl hne
  | [_], _, _, h => h.2
  | [_, _], _, _, h => h.2.2
  | [_, _, _], _, _, h => h.elim
  | _ :: _ :: _ :: _ :: _, _, _, h => h.elim

theorem Ordinary.head_ne : ∀ {a rest}, Ordinary (a :: rest) → a ≠ 510
  | _, [], h => h.2
  | _, [_], h => h.1.2
  | _, [_, _], h => h.1.2
  | _, _ :: _ :: _ :: _, h => h.elim

theorem window_page : ∀ path, window path % 4096 = 0
  | [] => by decide
  | [a] => by
    show pdpAddr a % 4096 = 0
    unfold pdpAddr
    omega
  | [a, b] => by
    show pdAddr a b % 4096 = 0
    unfold pdAddr
    omega
  | [a, b, c] => by
    show ptAddr a b c % 4096 = 0
    unfold ptAddr
    omega
  | _ :: _ :: _ :: _ :: _ => rfl

def indexes (v : Nat) : List Nat := [pdpIndex v, pdIndex v, ptIndex v, pageIndex v]

theorem indexes_eq {d : Nat} :
    indexes v = [a, b, c, d] ↔ pdpIndex v = a ∧ pdIndex v = b ∧ ptIndex v = c ∧ pageIndex v = d := by
  simp [indexes]

theorem indexes_window (hpath : Ordinary path) (ho : o < 4096) :
    indexes (window path + o) = List.replicate (4 - path.length) 510 ++ path := by
  match path, hpath with
  | [], _ =>
    show indexes (pml4Addr + o) = [510, 510, 510, 510]
    rw [indexes_eq]
    unfold pml4Addr pdpIndex pdIndex ptIndex pageIndex
    omega
  | [a], ⟨ha, _⟩ =>
    show indexes (pdpAddr a + o) = [510, 510, 510, a]
    rw [indexes_eq]
    unfold pdpAddr pdpIndex pdIndex ptIndex pageIndex
    omega
  | [a, b], ⟨⟨ha, _⟩, hb⟩ =>
    show indexes (pdAddr a b + o) = [510, 510, a, b]
    rw [indexes_eq]
    unfold pdAddr pdpIndex pdIndex ptIndex pageIndex
    omega
  | [a, b, c], ⟨⟨ha, _⟩, hb, hc⟩ =>
    show indexes (ptAddr a b c + o) = [510, a, b, c]
    rw [indexes_eq]
    unfold ptAddr pdpIndex pdIndex ptIndex pageIndex
    omega

/-! ### The recursive entry -/

theorem translate_of_walk (h : m.walk (indexes v) = some t) : m.translate v = some ⟨t, true⟩ := by
  obtain ⟨t₃, h₃, h⟩ := bind_eq_some_iff.mp h
  obtain ⟨t₂, h₂, h⟩ := bind_eq_some_iff.mp h
  obtain ⟨t₁, h₁, h⟩ := bind_eq_some_iff.mp h
  obtain ⟨t₀, h₀, h⟩ := bind_eq_some_iff.mp h
  obtain rfl : t₀ = t := some.inj h
  obtain ⟨hp₃, hw₃, hl₃, rfl⟩ := table_eq_some.mp h₃
  obtain ⟨hp₂, hw₂, hl₂, rfl⟩ := table_eq_some.mp h₂
  obtain ⟨hp₁, hw₁, hl₁, rfl⟩ := table_eq_some.mp h₁
  obtain ⟨hp₀, hw₀, -, rfl⟩ := table_eq_some.mp h₀
  unfold translate
  dsimp only
  rw [hp₃, hl₃, hp₂, hl₂, hp₁, hl₁, hp₀, hw₃, hw₂, hw₁, hw₀]
  rfl

/-- The table at the path can be reached through the recursive entry. -/
structure Reach (m : Mmu64) (path : List Nat) (t : Nat) : Prop where
  ordinary : Ordinary path
  self : (m.mem m.cr3 510).table = some m.cr3
  walk : m.walk path = some t

theorem Reach.translate (h : Reach m path t) (ho : o < 4096) : m.translate (window path + o) = some ⟨t, true⟩ := by
  refine translate_of_walk ?_
  rw [indexes_window h.ordinary ho]
  exact (walk_replicate h.self _ _).trans h.walk

theorem Reach.load (h : Reach m path t) (hi : i < 512) : m.load (window path + 8 * i) = some (m.mem t i) := by
  unfold Mmu64.load
  have hpage := window_page path
  rw [h.translate (by omega), map_some, show (window path + 8 * i) % 4096 / 8 = i by omega]

variable {mem mem' : Nat → Nat → Entry64} {cr3 : Nat} {frames : List Nat}

theorem Reach.store (h : Reach ⟨mem, cr3, frames⟩ path t) (hi : i < 512) (e : Entry64) :
    Mmu64.store ⟨mem, cr3, frames⟩ (window path + 8 * i) e = some ⟨Tables.set mem t i e, cr3, frames⟩ := by
  unfold Mmu64.store
  have hpage := window_page path
  rw [h.translate (by omega), bind_some, if_pos rfl, show (window path + 8 * i) % 4096 / 8 = i by omega]

theorem clear_window (h : ∀ mem', (∀ u, u ≠ t → mem' u = mem u) → Reach ⟨mem', cr3, frames⟩ path t) :
    Mmu64.clear ⟨mem, cr3, frames⟩ (window path) = some ⟨filled mem t 512 .empty, cr3, frames⟩ := by
  have hfilled := foldlM_filled (f := fun m i => m.store (window path + 8 * i) .empty) (Mmu64.mk · cr3 frames)
    fun mem' _ hi hsame => (h mem' hsame).store hi .empty
  exact hfilled

/-! ### Tables that are there -/

/-- The tables form a tree below the PML4, and the entries that lead to them may be written through. -/
structure Tabled (m : Mmu64) : Prop where
  self : (m.mem m.cr3 510).table = some m.cr3
  tree : Tables.Tree table m.mem m.cr3 Ordinary
  entry : ∀ path i t, Ordinary (path ++ [i]) → m.walk path = some t → (m.mem t i).present = false ∨ (m.mem t i).TableFlags

/-- Frames that `alloc_getPage` may hand out: they are different and none of them is a table. -/
def Fresh (m : Mmu64) (frames : List Nat) : Prop :=
  (∀ f ∈ frames, f < 1099511627776) ∧ Tables.Fresh table m.mem m.cr3 Ordinary frames

structure Grown (m m' : Mmu64) : Prop where
  tabled : Tabled m'
  ext : Extends table Ordinary m.mem m.cr3 m.frames m'.mem m'.cr3 m'.frames
  old : ∀ a b c t, Ordinary [a, b, c] → m.walk [a, b, c] = some t → m'.mem t = m.mem t
  new : ∀ a b c t, Ordinary [a, b, c] → m.walk [a, b, c] = none → m'.walk [a, b, c] = some t → ∀ i < 512, m'.mem t i = .empty

theorem Grown.walk (h : Grown m m') (hpath : Ordinary path) (ht : m.walk path = some t) : m'.walk path = some t :=
  h.ext.walk path t hpath ht

theorem Fresh.head (h : Fresh m m.frames) (hframes : m.frames = f :: frames) :
    f < 1099511627776 ∧ ∀ path, Ordinary path → m.walk path ≠ some f := by
  have hmem : f ∈ m.frames := by
    rw [hframes]
    exact mem_cons_self ..
  exact ⟨h.1 f hmem, h.2.2 f hmem⟩

theorem Grown.fresh (h : Grown m m') (hf : Fresh m m.frames) : Fresh m' m'.frames :=
  ⟨fun f hmem => hf.1 f (h.ext.left.subset hmem), h.ext.fresh hf.2⟩

theorem Tabled.reach (h : Tabled m) (path : List Nat) (hpath : Ordinary path) (ht : m.walk path = some t) : Reach m path t :=
  ⟨hpath, h.self, ht⟩

theorem Tabled.path_eq {path' : List Nat} (h : Tabled m) (hpath : Ordinary path) (hpath' : Ordinary path')
    (ht : m.walk path = some t) (ht' : m.walk path' = some t) : path = path' := h.tree.inj path path' t hpath hpath' ht ht'

theorem Grown.refl (h : Tabled m) : Grown m m where
  tabled := h
  ext := .of_walk_eq fun _ _ => rfl
  old _ _ _ _ _ _ := rfl
  new _ _ _ _ _ hnone hsome := absurd (hnone.symm.trans hsome) nofun

/-- Besides the entry `i` of the table `t` at a path and a new page, its entry 511 is written if it is not the PML4. -/
def Last (path : List Nat) (t u j : Nat) : Prop := u = t ∧ j = 511 ∧ path ≠ []

theorem Tabled.unused_last (h : Tabled m) (hpath : Ordinary path) (ht : m.walk path = some t) :
    Unused table m.mem m.cr3 Ordinary (Last path t) := by
  rintro path' j u hpath' hu ⟨rfl, rfl, hcons⟩
  rw [h.path_eq hpath hpath'.init ht hu] at hcons
  exact absurd (Ordinary.last_lt_of_cons hcons hpath') (by decide)

/-- A level of the walk can be entered: the flags are good for tables, or the entry is there and its flags are not below. -/
def Enters (e : Entry64) (flags : BitVec 32) : Prop := GoodFlags flags ∨ e.present = true ∧ flags.toInt ≤ e.low

theorem allocGetPage_cons (h : m.frames = f :: frames) :
    m.allocGetPage = (ofPage f, { m with frames }) := by
  unfold allocGetPage
  rw [h]

section
variable (h : Tabled m) (hpath : Ordinary (path ++ [i])) (ht : m.walk path = some t)
include h hpath ht

theorem Tabled.ne_leaf (habc : Ordinary [a, b, c]) (hu : m.walk [a, b, c] = some u) : u ≠ t := by
  rintro rfl
  have hlen := hpath.length_le
  rw [h.path_eq hpath.init habc ht hu] at hlen
  simp at hlen

theorem Tabled.step :
    (m.mem t i).present = false ∧ m.walk (path ++ [i]) = none ∨
      (m.mem t i).present ∧ m.walk (path ++ [i]) = some (m.mem t i).page := by
  have hwalk : m.walk (path ++ [i]) = (m.mem t i).table := walk_concat_of_some ht
  rcases h.entry path i t hpath ht with habsent | hflags
  · exact .inl ⟨habsent, hwalk.trans (table_of_absent habsent)⟩
  · exact .inr ⟨hflags.present, hwalk.trans hflags.table⟩

theorem Tabled.reflag (hold : (m.mem t i).TableFlags) (hnew : e.TableFlags) (hframe : e.frame = (m.mem t i).frame) :
    Grown m { m with mem := Tables.set m.mem t i e } := by
  have htable : e.table = (m.mem t i).table := by rw [hnew.table, hold.table, page_congr hframe]
  have hsame : ∀ u j, (Tables.set m.mem t i e u j).table = (m.mem u j).table := by
    intro u j
    by_cases hat : u = t ∧ j = i
    · rw [hat.1, hat.2, set_self, htable]
    · rw [set_of_ne hat]
  have hwalk : ∀ path, Ordinary path → Mmu64.walk { m with mem := Tables.set m.mem t i e } path = m.walk path :=
    fun path hpath => h.tree.walk_congr (fun _ j u _ _ => hsame u j) hpath
  refine ⟨⟨(hsame _ _).trans h.self, h.tree.congr fun _ j u _ _ => hsame u j, fun path' j u hpath' hu => ?_⟩,
    .of_walk_eq hwalk, fun a b c u habc hu => ?_, fun a b c u habc hnone hsome => ?_⟩
  · rw [hwalk path' hpath'.init] at hu
    dsimp only
    by_cases hat : u = t ∧ j = i
    · rw [hat.1, hat.2, set_self]
      exact .inr hnew
    · rw [set_of_ne hat]
      exact h.entry path' j u hpath' hu
  · funext d
    exact set_of_ne fun hat => h.ne_leaf hpath ht habc hu hat.1
  · rw [hwalk _ habc, hnone] at hsome
    cases hsome

/-! ### New tables -/

theorem Tabled.self_of_beside (hf : ∀ path, Ordinary path → m.walk path ≠ some f) (hb : Beside m.mem (Last path t) t i f mem') :
    (mem' m.cr3 510).table = some m.cr3 := by
  rw [hb m.cr3 510 (fun heq => hf [] trivial (congrArg some heq)) ?_ fun hlast => absurd hlast.2.1 (by decide)]
  · exact h.self
  · rintro ⟨hcr3, rfl⟩
    have hnil : m.walk [] = some t := congrArg some hcr3
    rw [h.path_eq hpath.init (show Ordinary [] from trivial) ht hnil] at hpath
    exact hpath.2 rfl

section
variable (habsent : (m.mem t i).present = false)
include habsent

theorem Tabled.link (hframes : m.frames = f :: frames) (hf : Fresh m m.frames) (hflags : GoodFlags flags)
    (hb : Beside m.mem (Last path t) t i f mem') (hat : mem' t i = (ofPage f).or flags) (hrow : ∀ j < 511, mem' f j = .empty)
    (hlast : path.length = 2 → mem' f 511 = .empty) :
    Mmu64.walk ⟨mem', m.cr3, frames⟩ (path ++ [i]) = some f ∧ Grown m ⟨mem', m.cr3, frames⟩ := by
  obtain ⟨hlt, hfresh⟩ := hf.head hframes
  have hE := h.unused_last hpath.init ht
  have htable : (mem' t i).table = some f := by rw [hat, ofPage_or_table hlt hflags]
  have hlinked : Linked table m.mem m.cr3 Ordinary path i f mem' := by
    refine hb.linked h.tree hE hfresh hpath ht (table_of_absent habsent) htable fun j hj => ?_
    rw [hrow j (Ordinary.last_lt_of_cons (by simp) hj), table_empty]
  have hwalk {path' : List Nat} (hpath' : Ordinary path') : Mmu64.walk ⟨mem', m.cr3, frames⟩ path' =
      if path' = path ++ [i] then some f else m.walk path' := hlinked.walk_eq h.tree hpath'
  refine ⟨(hwalk hpath).trans (if_pos rfl), ⟨h.self_of_beside hpath ht hfresh hb, hlinked.tree h.tree,
    fun path' j u hpath' hu => ?_⟩, ?_, fun a b c u habc hu => ?_, fun a b c u habc hnone hsome => ?_⟩
  · -- the entries of the tables
    rw [hwalk hpath'.init] at hu
    split at hu
    next heq =>
      obtain rfl : f = u := some.inj hu
      refine .inl ?_
      show (mem' f j).present = false
      rw [hrow j (Ordinary.last_lt_of_cons (by rw [heq]; simp) hpath')]
      rfl
    · by_cases hut : u = t ∧ j = i
      · rw [hut.1, hut.2]
        refine .inr ?_
        show (mem' t i).TableFlags
        rw [hat]
        exact or_tableFlags hflags rfl
      · show (mem' u j).present = false ∨ (mem' u j).TableFlags
        rw [hb.same h.tree hE hfresh hpath' hu hut]
        exact h.entry path' j u hpath' hu
  · rw [hframes]
    exact hlinked.extends h.tree
  · have hut := h.ne_leaf hpath ht habc hu
    funext d
    exact hb u d (fun huf => hfresh _ habc (huf ▸ hu)) (fun hat => hut hat.1) fun hat => hut hat.1
  · rw [hwalk habc] at hsome
    split at hsome
    next heq =>
      obtain rfl : f = u := some.inj hsome
      have hlen := congrArg List.length heq
      simp at hlen
      intro d hd
      rcases Nat.lt_or_ge d 511 with hlt | hge
      · exact hrow d hlt
      · obtain rfl : d = 511 := by omega
        exact hlast (by omega)
    · rw [hnone] at hsome
      cases hsome

theorem Tabled.reach_beside (frames : List Nat) (hf : ∀ path, Ordinary path → m.walk path ≠ some f)
    (hb : Beside m.mem (Last path t) t i f mem') : Reach ⟨mem', m.cr3, frames⟩ path t where
  ordinary := hpath.init
  self := h.self_of_beside hpath ht hf hb
  walk := hb.walk_of_some h.tree (h.unused_last hpath.init ht) hf (table_of_absent habsent) hpath.init ht

theorem Tabled.reach_filled (frames : List Nat) {mem₁ : Nat → Nat → Entry64} (hlt : f < 1099511627776)
    (hf : ∀ path, Ordinary path → m.walk path ≠ some f) (hgood : GoodFlags flags)
    (hb : Beside m.mem (Last path t) t i f mem₁) (hat : mem₁ t i = (ofPage f).or flags)
    (mem' : Nat → Nat → Entry64) (hsame : ∀ u, u ≠ f → mem' u = mem₁ u) : Reach ⟨mem', m.cr3, frames⟩ (path ++ [i]) f := by
  have htf : t ≠ f := fun heq => hf path hpath.init (heq ▸ ht)
  have hb' := hb.trans_page hsame
  have hwalk := (h.reach_beside hpath ht habsent frames hf hb').walk
  refine ⟨hpath, h.self_of_beside hpath ht hf hb', (walk_concat_of_some hwalk).trans ?_⟩
  dsimp only
  rw [hsame t htf, hat, ofPage_or_table hlt hgood]

end

/-! ### The three levels -/

theorem Tabled.enterTable (hlen : path.length ≤ 1) (hroom : m.frames ≠ []) (hf : Fresh m m.frames)
    (hflags : Enters (m.mem t i) flags) :
    ∃ m' u, m.enterTable (window path + 8 * i) (window (path ++ [i])) flags = some m' ∧ m'.walk (path ++ [i]) = some u ∧
      Grown m m' ∧ m.frames.length ≤ m'.frames.length + 1 ∧
      ((m.mem t i).present ∧ flags.toInt ≤ (m.mem t i).low → m' = m ∧ u = (m.mem t i).page) := by
  have hi := hpath.last_lt
  have hreach := h.reach _ hpath.init ht
  unfold Mmu64.enterTable
  rw [hreach.load hi, bind_eq_bind, bind_some]
  rcases h.entry path i t hpath ht with habsent | hold
  · have hgood : GoodFlags flags := hflags.resolve_right fun hp => by rw [habsent] at hp; cases hp.1
    obtain ⟨f, frames, hframes⟩ := exists_cons_of_ne_nil hroom
    obtain ⟨hlt, hfresh⟩ := hf.head hframes
    have htf : t ≠ f := fun heq => hfresh path hpath.init (heq ▸ ht)
    have hreach₁ : Reach { m with frames } path t := { hreach with }
    have hb := beside_set m.mem (Last path t) t i f ((ofPage f).or flags)
    have hnew := h.reach_filled hpath ht habsent frames hlt hfresh hgood hb (set_self ..)
    have hlast := (hnew (filled _ f 512 .empty) fun u hu => filled_of_ne hu).store (i := 511) (by decide) ((ofPage f).or 3)
    rw [if_neg (by rw [habsent]; nofun), allocGetPage_cons hframes]
    dsimp only
    rw [hreach₁.store hi, bind_eq_bind, bind_some, clear_window hnew, bind_some, hlast]
    generalize hmem₃ :
      Tables.set (filled (Tables.set m.mem t i ((ofPage f).or flags)) f 512 .empty) f 511 ((ofPage f).or 3) = mem₃
    have hbeside : Beside m.mem (Last path t) t i f mem₃ := by
      rw [← hmem₃]
      refine hb.trans_page fun u hu => ?_
      exact (update_of_ne hu ..).trans (filled_of_ne hu)
    have hat : mem₃ t i = (ofPage f).or flags := by
      rw [← hmem₃, set_of_ne fun hat => htf hat.1, filled_of_ne htf, set_self]
    have hrow : ∀ j < 511, mem₃ f j = .empty := by
      intro j hj
      rw [← hmem₃, set_of_ne (by omega), filled_self (by omega)]
    obtain ⟨hwalk, hgrown⟩ := h.link hpath ht habsent hframes hf hgood hbeside hat hrow fun htwo => by omega
    refine ⟨_, f, rfl, hwalk, hgrown, by rw [hframes]; exact Nat.le_refl _, fun hp => ?_⟩
    rw [habsent] at hp
    cases hp.1
  · rw [if_pos hold.present]
    split
    next hbelow =>
      have hgood : GoodFlags flags := hflags.resolve_right fun hp => by have := hp.2; omega
      have hnew : ((m.mem t i).clean.or flags).TableFlags := or_tableFlags hgood rfl
      have hframe : ((m.mem t i).clean.or flags).frame = (m.mem t i).frame := or_frame hgood _
      have hgrown := h.reflag hpath ht hold hnew hframe
      refine ⟨_, (m.mem t i).page, hreach.store hi _, hgrown.walk hpath ?_, hgrown, Nat.le_succ _, fun hp => ?_⟩
      · exact (walk_concat_of_some ht).trans hold.table
      · have := hp.2
        omega
    · exact ⟨m, (m.mem t i).page, rfl, (walk_concat_of_some ht).trans hold.table, .refl h, Nat.le_succ _, fun _ => ⟨rfl, rfl⟩⟩

end

theorem Tabled.enterPt (h : Tabled m) (habc : Ordinary [a, b, c]) (ht : m.walk [a, b] = some t)
    (hroom : m.frames ≠ []) (hf : Fresh m m.frames) (hseven : flags.toInt ≤ 7)
    (hflags : GoodFlags flags ∨ (m.mem t c).present) :
    ∃ m' u, m.enterPt (window [a, b]) c (window ([a, b] ++ [c])) flags = some m' ∧ m'.walk [a, b, c] = some u ∧ Grown m m' := by
  have hpath : Ordinary ([a, b] ++ [c]) := habc
  have hc : c < 511 := habc.2.2
  have hreach := h.reach _ hpath.init ht
  have hload : m.load (window [a, b] + 8 * c) = some (m.mem t c) := hreach.load (by omega)
  have hwalk : m.walk [a, b, c] = (m.mem t c).table := walk_concat_of_some ht
  unfold Mmu64.enterPt
  rw [hload, bind_eq_bind, bind_some]
  rcases h.entry _ c t hpath ht with habsent | hold
  · have hgood : GoodFlags flags := hflags.resolve_right fun hp => by rw [habsent] at hp; cases hp
    obtain ⟨f, frames, hframes⟩ := exists_cons_of_ne_nil hroom
    obtain ⟨hlt, hfresh⟩ := hf.head hframes
    have htf : t ≠ f := fun heq => hfresh _ hpath.init (heq ▸ ht)
    have hreach₁ : Reach { m with frames } [a, b] t := { hreach with }
    have hb₁ := beside_set m.mem (Last [a, b] t) t c f ((ofPage f).or flags)
    have hreach₂ := h.reach_beside hpath ht habsent frames hfresh hb₁
    generalize hself : (ofPage (window [a, b] / 4096)).or 3 = self
    have hstore₂ := hreach₂.store (i := 511) (by decide) self
    have hb : Beside m.mem (Last [a, b] t) t c f (Tables.set (Tables.set m.mem t c ((ofPage f).or flags)) t 511 self) :=
      hb₁.trans_set ⟨rfl, rfl, by simp⟩ self
    have hat : Tables.set (Tables.set m.mem t c ((ofPage f).or flags)) t 511 self t c = (ofPage f).or flags := by
      rw [set_of_ne (by omega), set_self]
    have hnew := h.reach_filled hpath ht habsent frames hlt hfresh hgood hb hat
    rw [if_neg (by rw [habsent]; nofun), allocGetPage_cons hframes]
    dsimp only
    rw [hreach₁.store (by omega), bind_eq_bind, bind_some, hstore₂, bind_some, clear_window hnew]
    refine ⟨_, f, rfl, h.link hpath ht habsent hframes hf hgood (hb.trans_page fun u hu => filled_of_ne hu) ?_
      (fun j hj => filled_self (by omega)) fun _ => filled_self (by decide)⟩
    rw [filled_of_ne htf, hat]
  · rw [if_pos hold.present]
    split
    next hbelow =>
      obtain ⟨hnew, hframe⟩ := hold.or hbelow hseven
      have hgrown := h.reflag hpath ht hold hnew hframe
      refine ⟨_, (m.mem t c).page, hreach.store (by omega) _, hgrown.walk hpath ?_, hgrown⟩
      exact hwalk.trans hold.table
    · exact ⟨m, (m.mem t c).page, rfl, hwalk.trans hold.table, .refl h⟩

theorem Grown.trans {m₁ m₂ : Mmu64} (h : Grown m m₁) (h' : Grown m₁ m₂) : Grown m m₂ := by
  refine ⟨h'.tabled, h.ext.trans h'.ext,
    fun a b c t habc ht => (h'.old a b c t habc (h.walk habc ht)).trans (h.old a b c t habc ht),
    fun a b c t habc hnone hsome i hi => ?_⟩
  cases hmid : m₁.walk [a, b, c] with
  | none => exact h'.new a b c t habc hmid hsome i hi
  | some u =>
    obtain rfl : u = t := some.inj ((h'.walk habc hmid).symm.trans hsome)
    rw [h'.old a b c u habc hmid]
    exact h.new a b c u habc hnone hmid i hi

/-- The address leads past the entries that show tables. -/
def Plain (v : Nat) : Prop := pdpIndex v ≠ 510 ∧ pdIndex v ≠ 511 ∧ ptIndex v ≠ 511

theorem Plain.ordinary (h : Plain v) : Ordinary [pdpIndex v, pdIndex v, ptIndex v] := by
  have hpdp : pdpIndex v < 512 := Nat.mod_lt _ (by decide)
  have hpd : pdIndex v < 512 := Nat.mod_lt _ (by decide)
  have hpt : ptIndex v < 512 := Nat.mod_lt _ (by decide)
  obtain ⟨h₃, h₂, h₁⟩ := h
  exact ⟨⟨hpdp, h₃⟩, by omega, by omega⟩

def physical (e : Entry64) (v : Nat) : Nat :=
  if e = .empty then 0 else (e.clean.toNat + v % 4096) % 18446744073709551616

def lookup (m : Mmu64) (v : Nat) : Nat :=
  match m.walk [pdpIndex v, pdIndex v, ptIndex v] with
  | none => 0
  | some t => physical (m.mem t (pageIndex v)) v

theorem window_nil : window [] = pml4Addr := rfl

theorem window_pdp (a : Nat) : window [a] = pdpAddr a := rfl

theorem window_pd (a b : Nat) : window [a, b] = pdAddr a b := rfl

theorem window_pt (a b c : Nat) : window [a, b, c] = ptAddr a b c := rfl

theorem walk_none_append (h : m.walk path = none) (rest : List Nat) : m.walk (path ++ rest) = none := by
  unfold walk at h ⊢
  rw [walk_append, h]
  rfl

theorem Tabled.getPhysical_eq (h : Tabled m) (hv : Plain v) : m.archMmuGetPhysical v = some (m.lookup v) := by
  have hord := hv.ordinary
  have hpage : pageIndex v < 512 := Nat.mod_lt _ (by decide)
  unfold archMmuGetPhysical lookup
  rw [← window_nil, ← window_pdp, ← window_pd, ← window_pt]
  generalize pdpIndex v = a at *
  generalize pdIndex v = b at *
  generalize ptIndex v = c at *
  have ha : Ordinary ([] ++ [a]) := hord.1
  have hb : Ordinary ([a] ++ [b]) := ⟨hord.1, hord.2.1⟩
  have hc : Ordinary ([a, b] ++ [c]) := hord
  have h₀ : m.walk [] = some m.cr3 := rfl
  rw [(h.reach [] trivial h₀).load ha.last_lt, bind_eq_bind, bind_some]
  rcases h.step ha h₀ with ⟨hp, hnone⟩ | ⟨hp, h₁⟩
  · rw [hp, show m.walk [a, b, c] = none from walk_none_append hnone [b, c]]
    rfl
  rw [hp, if_neg (by decide), (h.reach [a] ha h₁).load hb.last_lt, bind_some]
  rcases h.step hb h₁ with ⟨hp, hnone⟩ | ⟨hp, h₂⟩
  · rw [hp, show m.walk [a, b, c] = none from walk_none_append hnone [c]]
    rfl
  rw [hp, if_neg (by decide), (h.reach [a, b] hb h₂).load hc.last_lt, bind_some]
  rcases h.step hc h₂ with ⟨hp, hnone⟩ | ⟨hp, h₃⟩
  · rw [hp, show m.walk [a, b, c] = none from hnone]
    rfl
  rw [hp, if_neg (by decide), (h.reach [a, b, c] hc h₃).load hpage, bind_some,
    show m.walk [a, b, c] = some _ from h₃]
  dsimp only
  unfold physical
  split <;> rfl

theorem Grown.lookup (h : Grown m m') (hv : Plain v) : m'.lookup v = m.lookup v := by
  have hord := hv.ordinary
  have hpage : pageIndex v < 512 := Nat.mod_lt _ (by decide)
  unfold Mmu64.lookup
  cases hold : m.walk [pdpIndex v, pdIndex v, ptIndex v] with
  | none =>
    cases hnew : m'.walk [pdpIndex v, pdIndex v, ptIndex v] with
    | none => rfl
    | some t =>
      dsimp only
      rw [h.new _ _ _ t hord hold hnew _ hpage]
      exact if_pos rfl
  | some t =>
    rw [h.walk hord hold]
    dsimp only
    rw [h.old _ _ _ t hord hold]

/-- The way to the page table of the address is there, and the flags of its first two entries, which would be replaced, are
    not below `flags`. -/
def Leaves (m : Mmu64) (v : Nat) (flags : BitVec 32) : Prop :=
  let pml4e := m.mem m.cr3 (pdpIndex v)
  let pdpe := m.mem pml4e.page (pdIndex v)
  let pde := m.mem pdpe.page (ptIndex v)
  (pml4e.present = true ∧ flags.toInt ≤ pml4e.low) ∧ (pdpe.present = true ∧ flags.toInt ≤ pdpe.low) ∧ pde.present = true

theorem tableFlags_toInt_le (flags : BitVec 32) : (tableFlags flags).toInt ≤ 7 := by
  unfold tableFlags
  split
  · decide
  · omega

def enterTables (m : Mmu64) (v : Nat) (flags : BitVec 32) : Option Mmu64 := do
  let m ← m.enterTable (window [] + 8 * pdpIndex v) (window [pdpIndex v]) flags
  let m ← m.enterTable (window [pdpIndex v] + 8 * pdIndex v) (window [pdpIndex v, pdIndex v]) flags
  m.enterPt (window [pdpIndex v, pdIndex v]) (ptIndex v) (window [pdpIndex v, pdIndex v, ptIndex v]) flags

theorem archMmuMapPage_eq (m : Mmu64) (v : Nat) (p : Entry64) (flags : BitVec 32) :
    m.archMmuMapPage v p flags = (m.enterTables v (tableFlags flags)).bind fun m =>
      m.store (window [pdpIndex v, pdIndex v, ptIndex v] + 8 * pageIndex v) (p.or flags) := by
  unfold archMmuMapPage enterTables
  rw [window_nil, window_pdp, window_pd, window_pt]
  simp only [bind_eq_bind, bind_assoc]

theorem Tabled.storePage (h : Tabled m) (habc : Ordinary [a, b, c]) (ht : m.walk [a, b, c] = some t) (e : Entry64) :
    Tabled { m with mem := Tables.set m.mem t i e } ∧
      ∀ path, Ordinary path → Mmu64.walk { m with mem := Tables.set m.mem t i e } path = m.walk path := by
  have hE : Unused table m.mem m.cr3 Ordinary fun u j => u = t ∧ j = i :=
    fun _ _ _ hpath hu hat => h.ne_leaf hpath hu habc ht hat.1.symm
  have hwalk : ∀ path, Ordinary path → Mmu64.walk { m with mem := Tables.set m.mem t i e } path = m.walk path :=
    fun path hpath => hE.walk_set h.tree e hpath
  refine ⟨⟨?_, hE.tree_set h.tree e, ?_⟩, hwalk⟩
  · show (Tables.set m.mem t i e m.cr3 510).table = some m.cr3
    rw [set_of_ne, h.self]
    intro hat
    have hnil := h.path_eq (show Ordinary [] from trivial) habc (congrArg some hat.1) ht
    cases hnil
  · intro path' j u hpath' hu
    rw [hwalk path' hpath'.init] at hu
    show (Tables.set m.mem t i e u j).present = false ∨ (Tables.set m.mem t i e u j).TableFlags
    rw [hE.same_set e hpath' hu]
    exact h.entry path' j u hpath' hu

def pageOf (v : Nat) : Nat := v / 4096 % 68719476736

theorem pageOf_eq (h₃ : pdpIndex w = pdpIndex v) (h₂ : pdIndex w = pdIndex v) (h₁ : ptIndex w = ptIndex v)
    (h₀ : pageIndex w = pageIndex v) : pageOf w = pageOf v := by
  unfold pdpIndex at h₃
  unfold pdIndex at h₂
  unfold ptIndex at h₁
  unfold pageIndex at h₀
  unfold pageOf
  omega

theorem Tabled.lookup_storePage (h : Tabled m) (hv : Plain v) (ht : m.walk [pdpIndex v, pdIndex v, ptIndex v] = some t)
    (e : Entry64) (hw : Plain w) (hne : pageOf w ≠ pageOf v) :
    Mmu64.lookup { m with mem := Tables.set m.mem t (pageIndex v) e } w = m.lookup w := by
  have hwalk := (h.storePage hv.ordinary ht e (i := pageIndex v)).2
  unfold Mmu64.lookup
  rw [hwalk _ hw.ordinary]
  cases hu : m.walk [pdpIndex w, pdIndex w, ptIndex w] with
  | none => rfl
  | some u =>
    dsimp only
    rw [set_of_ne]
    rintro ⟨rfl, hpage⟩
    have hpath := h.path_eq hw.ordinary hv.ordinary hu ht
    injection hpath with h₃ hpath
    injection hpath with h₂ hpath
    injection hpath with h₁
    exact hne (pageOf_eq h₃ h₂ h₁ hpage)

theorem Tabled.lookup_self {p : Entry64} (h : Tabled m) (hv : Plain v) (haligned : v % 4096 = 0)
    (ht : m.walk [pdpIndex v, pdIndex v, ptIndex v] = some t) (hp : p.flags = 0) (hflags : flags.toNat < 4096) :
    Mmu64.lookup { m with mem := Tables.set m.mem t (pageIndex v) (p.or flags) } v = p.toNat := by
  have hwalk := (h.storePage hv.ordinary ht (p.or flags) (i := pageIndex v)).2
  have hframe := or_frame_of_small hflags p
  unfold Mmu64.lookup
  rw [hwalk _ hv.ordinary, ht]
  dsimp only
  rw [set_self]
  unfold physical
  have htoNat : p.toNat = 4096 * p.frame.toNat := by
    unfold Entry64.toNat
    rw [hp]
    rfl
  split
  next hempty =>
    have hzero : p.frame = 0 := by
      rw [← hframe, hempty]
      rfl
    rw [htoNat, hzero]
    rfl
  · have hclean : (p.or flags).clean.toNat = 4096 * p.frame.toNat := by
      show 4096 * (p.or flags).frame.toNat + 0 = 4096 * p.frame.toNat
      rw [hframe]
      rfl
    omega

/-- The four tables of the kernel are different pages of memory, its address is an ordinary one, and one page table is enough
    for it. -/
structure Boot64.Ok (b : Boot64) : Prop where
  distinct : [b.pdpt, b.pg, b.pt].Nodup ∧ b.pml4 ∉ [b.pdpt, b.pg, b.pt]
  low : b.pml4 < 1099511627776 ∧ ∀ f ∈ [b.pdpt, b.pg, b.pt], f < 1099511627776
  plain : Plain b.virtualBase
  pages : b.pages ≤ 512

def blank (b : Boot64) (mem : Nat → Nat → Entry64) : Nat → Nat → Entry64 :=
  let mem := update mem b.pdpt fun _ => .empty
  let mem := update mem b.pml4 fun _ => .empty
  let mem := update mem b.pg fun _ => .empty
  let mem := update mem b.pt fun _ => .empty
  Tables.set (Tables.set (Tables.set mem b.pml4 510 ((ofPage b.pml4).or 3)) b.pdpt 511 ((ofPage b.pdpt).or 3)) b.pg 511
    ((ofPage b.pg).or 3)

variable {k : Boot64} {mem : Nat → Nat → Entry64}

theorem Boot64.Ok.ne (hk : k.Ok) : (k.pdpt ≠ k.pg ∧ k.pdpt ≠ k.pt ∧ k.pg ≠ k.pt) ∧
    k.pml4 ≠ k.pdpt ∧ k.pml4 ≠ k.pg ∧ k.pml4 ≠ k.pt := by
  simpa [and_assoc] using hk.distinct

theorem blank_empty (ht : t ∈ [k.pml4, k.pdpt, k.pg, k.pt]) (hpg : ¬(t = k.pg ∧ i = 511)) (hpdpt : ¬(t = k.pdpt ∧ i = 511))
    (hpml4 : ¬(t = k.pml4 ∧ i = 510)) : blank k mem t i = .empty := by
  unfold blank
  rw [set_of_ne hpg, set_of_ne hpdpt, set_of_ne hpml4]
  simp only [update_apply]
  split
  · rfl
  split
  · rfl
  split
  · rfl
  split
  · rfl
  simp_all

theorem archMmuInit_eq (hk : k.Ok) (m : Mmu64) :
    archMmuInit k m =
      { m with
        mem := (List.range k.pages).foldl (fun mem i => Tables.set mem k.pt i ((ofPage (k.physicalPage + i)).or 7))
          (Tables.set (Tables.set (Tables.set (blank k m.mem) k.pml4 (pdpIndex k.virtualBase) ((ofPage k.pdpt).or 7)) k.pdpt
            (pdIndex k.virtualBase) ((ofPage k.pg).or 7)) k.pg (ptIndex k.virtualBase) ((ofPage k.pt).or 7))
        cr3 := k.pml4 } := by
  obtain ⟨hpdp, hpd, hpt⟩ := hk.plain
  have hne := hk.ne
  unfold archMmuInit blank
  dsimp only
  rw [set_comm (j := 510) _ _ _ (by omega),
    set_comm (u := k.pdpt) _ _ _ (by omega),
    set_comm (u := k.pdpt) (j := 511) _ _ _ (by omega),
    set_comm _ _ _ (by omega),
    set_comm (j := 511) _ _ _ (by omega),
    set_comm (j := 511) _ _ _ (by omega)]

theorem walk_blank (hk : k.Ok) (frames : List Nat) (hpath : Ordinary path)
    (ht : Mmu64.walk ⟨blank k mem, k.pml4, frames⟩ path = some t) : path = [] ∧ t = k.pml4 := by
  have hne := hk.ne
  cases path with
  | nil => exact ⟨rfl, (some.inj ht).symm⟩
  | cons a rest =>
    have hempty : blank k mem k.pml4 a = .empty :=
      blank_empty (mem_cons_self ..) (by omega) (by omega) fun hat => hpath.head_ne hat.2
    unfold Mmu64.walk Tables.walk at ht
    dsimp only at ht
    rw [hempty] at ht
    cases ht

theorem tabled_blank (hk : k.Ok) (frames : List Nat) : Tabled ⟨blank k mem, k.pml4, frames⟩ := by
  have hne := hk.ne
  refine ⟨?_, ⟨trivial, Ordinary.closed, fun path path' t hpath hpath' ht ht' => ?_⟩, fun path i t hpath ht => ?_⟩
  · have hself : blank k mem k.pml4 510 = (ofPage k.pml4).or 3 := by
      unfold blank
      rw [set_of_ne (by omega), set_of_ne (by omega), set_self]
    show (blank k mem k.pml4 510).table = some k.pml4
    rw [hself]
    exact ofPage_or_table hk.low.1 (.inl rfl)
  · exact (walk_blank hk frames hpath ht).1.trans (walk_blank hk frames hpath' ht').1.symm
  · obtain ⟨rfl, rfl⟩ := walk_blank hk frames hpath.init ht
    refine .inl ?_
    have hempty : blank k mem k.pml4 i = .empty :=
      blank_empty (mem_cons_self ..) (by omega) (by omega) fun hat => hpath.2 hat.2
    show (blank k mem k.pml4 i).present = false
    rw [hempty]
    rfl

theorem fresh_blank (hk : k.Ok) (frames : List Nat) : Fresh ⟨blank k mem, k.pml4, frames⟩ [k.pdpt, k.pg, k.pt] := by
  refine ⟨hk.low.2, hk.distinct.1, fun f hf path hpath ht => ?_⟩
  rw [(walk_blank hk frames hpath ht).2] at hf
  exact hk.distinct.2 hf

theorem Tabled.link_set (h : Tabled m) (hpath : Ordinary (path ++ [i])) (ht : m.walk path = some t)
    (habsent : m.mem t i = .empty) (hframes : m.frames = f :: frames) (hf : Fresh m m.frames)
    (hflags : GoodFlags flags) (hrow : ∀ j < 511, m.mem f j = .empty) (hlast : path.length = 2 → m.mem f 511 = .empty) :
    Mmu64.walk ⟨Tables.set m.mem t i ((ofPage f).or flags), m.cr3, frames⟩ (path ++ [i]) = some f ∧
      Grown m ⟨Tables.set m.mem t i ((ofPage f).or flags), m.cr3, frames⟩ := by
  have hft : f ≠ t := by
    rintro rfl
    exact hf.2.2 f (by rw [hframes]; exact mem_cons_self ..) path hpath.init ht
  have hsame : ∀ j, Tables.set m.mem t i ((ofPage f).or flags) f j = m.mem f j := fun j => set_of_ne fun hat => hft hat.1
  refine h.link hpath ht (by rw [habsent]; rfl) hframes hf hflags
    (beside_set m.mem _ t i f _) (set_self ..) ?_ ?_
  · exact fun j hj => (hsame j).trans (hrow j hj)
  · exact fun hlen => (hsame 511).trans (hlast hlen)

theorem grown_blank (mem : Nat → Nat → Entry64) (hk : k.Ok) :
    ∃ mem', mem' = Tables.set (Tables.set (Tables.set (blank k mem) k.pml4 (pdpIndex k.virtualBase) ((ofPage k.pdpt).or 7)) k.pdpt
        (pdIndex k.virtualBase) ((ofPage k.pg).or 7)) k.pg (ptIndex k.virtualBase) ((ofPage k.pt).or 7) ∧
      Mmu64.walk ⟨mem', k.pml4, []⟩ [pdpIndex k.virtualBase, pdIndex k.virtualBase, ptIndex k.virtualBase] = some k.pt ∧
      Grown ⟨blank k mem, k.pml4, [k.pdpt, k.pg, k.pt]⟩ ⟨mem', k.pml4, []⟩ := by
  have hord := hk.plain.ordinary
  have hne := hk.ne
  generalize pdpIndex k.virtualBase = a at *
  generalize pdIndex k.virtualBase = b at *
  generalize ptIndex k.virtualBase = c at *
  obtain ⟨⟨-, ha⟩, hb, hc⟩ := id hord
  have hgood : GoodFlags 7 := .inr rfl
  have hpml4 : blank k mem k.pml4 a = .empty := blank_empty (by simp) (by omega) (by omega) (by omega)
  have hpdpt : ∀ j < 511, blank k mem k.pdpt j = .empty := fun j hj => blank_empty (by simp) (by omega) (by omega) (by omega)
  have hpg : ∀ j < 511, blank k mem k.pg j = .empty := fun j hj => blank_empty (by simp) (by omega) (by omega) (by omega)
  have hpt : ∀ j, blank k mem k.pt j = .empty := fun j => blank_empty (by simp) (by omega) (by omega) (by omega)
  have hf₀ : Fresh ⟨blank k mem, k.pml4, [k.pdpt, k.pg, k.pt]⟩ [k.pdpt, k.pg, k.pt] := fresh_blank hk _
  obtain ⟨hw₁, hg₁⟩ := (tabled_blank hk [k.pdpt, k.pg, k.pt]).link_set (show Ordinary ([] ++ [a]) from hord.1) rfl hpml4 rfl hf₀
    hgood hpdpt nofun
  generalize hmem₁ : Tables.set (blank k mem) k.pml4 a ((ofPage k.pdpt).or 7) = mem₁ at *
  have hsame₁ : ∀ t j, t ≠ k.pml4 → mem₁ t j = blank k mem t j := fun t j ht => hmem₁ ▸ set_of_ne fun hat => ht hat.1
  have hf₁ := hg₁.fresh hf₀
  obtain ⟨hw₂, hg₂⟩ := hg₁.tabled.link_set (show Ordinary ([a] ++ [b]) from ⟨hord.1, hord.2.1⟩) hw₁
    ((hsame₁ _ _ (by omega)).trans (hpdpt b hb)) rfl hf₁ hgood (fun j hj => (hsame₁ _ _ (by omega)).trans (hpg j hj)) nofun
  generalize hmem₂ : Tables.set mem₁ k.pdpt b ((ofPage k.pg).or 7) = mem₂ at *
  have hsame₂ : ∀ t j, t ≠ k.pml4 → t ≠ k.pdpt → mem₂ t j = blank k mem t j :=
    fun t j ht ht' => hmem₂ ▸ (set_of_ne fun hat => ht' hat.1).trans (hsame₁ t j ht)
  obtain ⟨hw₃, hg₃⟩ := hg₂.tabled.link_set hord hw₂
    ((hsame₂ _ _ (by omega) (by omega)).trans (hpg c hc)) rfl (hg₂.fresh hf₁) hgood
    (fun j _ => (hsame₂ _ _ (by omega) (by omega)).trans (hpt j)) fun _ => (hsame₂ _ _ (by omega) (by omega)).trans (hpt 511)
  exact ⟨_, rfl, hw₃, (hg₁.trans hg₂).trans hg₃⟩

theorem tabled_archMmuInit (hk : k.Ok) (m : Mmu64) :
    Tabled (archMmuInit k m) ∧
      ∀ path t, Ordinary path → (archMmuInit k m).walk path = some t → t ∈ [k.pml4, k.pdpt, k.pg, k.pt] := by
  obtain ⟨mem₃, hmem₃, hw₃, hg₃⟩ := grown_blank m.mem hk
  rw [archMmuInit_eq hk m, ← hmem₃]
  have hord := hk.plain.ordinary
  obtain ⟨htabled, -, hreached⟩ := Loop.foldl_range
    (fun _ mem => Tabled ⟨mem, k.pml4, []⟩ ∧
      Mmu64.walk ⟨mem, k.pml4, []⟩ [pdpIndex k.virtualBase, pdIndex k.virtualBase, ptIndex k.virtualBase] = some k.pt ∧
      ∀ path t, Ordinary path → Mmu64.walk ⟨mem, k.pml4, []⟩ path = some t → t ∈ [k.pml4, k.pdpt, k.pg, k.pt])
    ⟨hg₃.tabled, hw₃, fun path t hpath ht => by
      rcases hg₃.ext.reached path t hpath ht with hold | hnew
      · rw [(walk_blank hk _ hpath hold).2]
        exact mem_cons_self ..
      · exact mem_cons_of_mem _ hnew⟩
    (fun i mem _ h => by
      obtain ⟨htabled, hw, hreached⟩ := h
      obtain ⟨htabled', hwalk⟩ := htabled.storePage hord hw ((ofPage (k.physicalPage + i)).or 7) (i := i)
      refine ⟨htabled', (hwalk _ hord).trans hw, fun path t hpath ht => ?_⟩
      exact hreached path t hpath ((hwalk path hpath).symm.trans ht))
  exact ⟨{ htabled with }, hreached⟩

/-- A call of `arch_mmu_mapPage` for a page and a frame of memory, with the frames that `alloc_getPage` hands out during the
    call. -/
structure MapCall where
  v : Nat
  p : Entry64
  flags : BitVec 32
  frames : List Nat

variable {call : MapCall}

def Canonical (v : Nat) : Prop := v < 140737488355328 ∨ 18446603336221196288 ≤ v ∧ v < 18446744073709551616

instance : DecidablePred Canonical := fun _ => inferInstanceAs (Decidable (_ ∨ _))

instance : DecidablePred Plain := fun _ => inferInstanceAs (Decidable (_ ∧ _))

theorem Canonical.page_eq (hv : Canonical v) (hw : Canonical w) (h : pageOf w = pageOf v) : w / 4096 = v / 4096 := by
  unfold Canonical at hv hw
  unfold pageOf at h
  omega

def exec (m : Mmu64) (call : MapCall) : Option Mmu64 :=
  if Canonical call.v ∧ call.v % 4096 = 0 ∧ call.p.flags = 0 then
    some (({ m with frames := call.frames }.archMmuMapPage call.v call.p call.flags).getD m)
  else none

/-- The call is for an ordinary page with flags below bit 12, the tables get flags with which they can be written, or none,
    and `alloc_getPage` has fresh frames for them. -/
structure Fits (m : Mmu64) (call : MapCall) : Prop where
  plain : Plain call.v
  small : call.flags.toNat < 4096
  flags : GoodFlags (tableFlags call.flags) ∨ Leaves m call.v (tableFlags call.flags)
  room : 3 ≤ call.frames.length
  fresh : Fresh m call.frames

/-- The call does not fault, the page is found where it was mapped, and every other page where it was. -/
structure Agrees (m : Mmu64) (call : MapCall) (m' : Mmu64) : Prop where
  done : { m with frames := call.frames }.archMmuMapPage call.v call.p call.flags = some m'
  self : m'.archMmuGetPhysical call.v = some call.p.toNat
  others : ∀ w, Canonical w → Plain w → w / 4096 ≠ call.v / 4096 →
    ∃ r, m.archMmuGetPhysical w = some r ∧ m'.archMmuGetPhysical w = some r

theorem Tabled.enterTables (h : Tabled m) (hfits : Fits m call) :
    ∃ m' t, Mmu64.enterTables { m with frames := call.frames } call.v (tableFlags call.flags) = some m' ∧
      m'.walk [pdpIndex call.v, pdIndex call.v, ptIndex call.v] = some t ∧ Grown { m with frames := call.frames } m' := by
  have h' : Tabled { m with frames := call.frames } := { h with }
  have hord := hfits.plain.ordinary
  have hflags := hfits.flags
  have hroom := hfits.room
  have hf : Fresh { m with frames := call.frames } call.frames := hfits.fresh
  unfold Leaves at hflags
  unfold Mmu64.enterTables
  generalize pdpIndex call.v = a at *
  generalize pdIndex call.v = b at *
  -- where the flags are not good for tables, nothing is changed on the way
  obtain ⟨m₁, t₁, he₁, hw₁, hg₁, hr₁, hk₁⟩ := h'.enterTable (show Ordinary ([] ++ [a]) from hord.1) rfl (by decide)
    (ne_nil_of_length_pos (Nat.lt_of_lt_of_le (by decide) hroom)) hf (hflags.imp_right And.left)
  dsimp only at hr₁ hk₁
  obtain ⟨m₂, t₂, he₂, hw₂, hg₂, hr₂, hk₂⟩ := hg₁.tabled.enterTable (show Ordinary ([a] ++ [b]) from ⟨hord.1, hord.2.1⟩) hw₁
    (by simp) (ne_nil_of_length_pos (by omega)) (hg₁.fresh hf) (hflags.imp_right fun hl => by
      obtain ⟨rfl, rfl⟩ := hk₁ hl.1
      exact hl.2.1)
  obtain ⟨m₃, t₃, he₃, hw₃, hg₃⟩ := hg₂.tabled.enterPt hord hw₂ (ne_nil_of_length_pos (by omega))
    (hg₂.fresh (hg₁.fresh hf)) (tableFlags_toInt_le _) (hflags.imp_right fun hl => by
      obtain ⟨rfl, rfl⟩ := hk₁ hl.1
      obtain ⟨rfl, rfl⟩ := hk₂ hl.2.1
      exact hl.2.2)
  refine ⟨m₃, t₃, ?_, hw₃, (hg₁.trans hg₂).trans hg₃⟩
  rw [show Mmu64.enterTable _ (window [] + 8 * a) (window [a]) _ = some m₁ from he₁, bind_eq_bind, bind_some,
    show m₁.enterTable (window [a] + 8 * b) (window [a, b]) _ = some m₂ from he₂]
  exact he₃

theorem Tabled.exec (h : Tabled m) (hfits : Fits m call) (hexec : m.exec call = some m') :
    Tabled m' ∧ Agrees m call m' := by
  unfold Mmu64.exec at hexec
  split at hexec
  case isFalse => cases hexec
  rename_i hdomain
  obtain ⟨hv, haligned, hp⟩ := hdomain
  have hpage : pageIndex call.v < 512 := Nat.mod_lt _ (by decide)
  obtain ⟨m₁, t, hm₁, ht, hgrown⟩ := h.enterTables hfits
  have hord := hfits.plain.ordinary
  have hstore := (hgrown.tabled.reach _ hord ht).store hpage (call.p.or call.flags)
  have hdone : { m with frames := call.frames }.archMmuMapPage call.v call.p call.flags =
      some { m₁ with mem := Tables.set m₁.mem t (pageIndex call.v) (call.p.or call.flags) } := by
    rw [archMmuMapPage_eq, hm₁, bind_some, hstore]
  rw [hdone, getD_some] at hexec
  obtain rfl := some.inj hexec
  have htabled := (hgrown.tabled.storePage hord ht (call.p.or call.flags) (i := pageIndex call.v)).1
  refine ⟨htabled, hdone, ?_, fun w hw hplain hne => ⟨m.lookup w, h.getPhysical_eq hplain, ?_⟩⟩
  · rw [htabled.getPhysical_eq hfits.plain, hgrown.tabled.lookup_self hfits.plain haligned ht hp hfits.small]
  · rw [htabled.getPhysical_eq hplain,
      hgrown.tabled.lookup_storePage hfits.plain ht _ hplain fun heq => hne (hv.page_eq hw heq), hgrown.lookup hplain]
    rfl

/-- In every run of fitting calls from `arch_mmu_init` on, mapping and lookup agree. -/
theorem map_agrees (hk : k.Ok) (m : Mmu64) (calls : List MapCall)
    (hfits : Lts.Along exec (fun m call _ => Fits m call) (archMmuInit k m) calls) :
    Lts.Along exec Agrees (archMmuInit k m) calls := by
  refine Lts.Along.mono (P := fun m call m' => Fits m call ∧ Agrees m call m') (fun _ h => h.2) ?_
  refine (Lts.along_iff Tabled (tabled_archMmuInit hk m).1 ?_ ?_ calls).mpr hfits
  · exact fun h hexec => ⟨fun hboth => hboth.1, fun hfits => ⟨hfits, (h.exec hfits hexec).2⟩⟩
  · exact fun h hexec hfits => (h.exec hfits hexec).1

def usual : Boot64 := ⟨1, 2, 3, 4, 0xffffffff80000000, 16, 20⟩

theorem usual_ok : usual.Ok := ⟨by decide, by decide, by decide, by decide⟩

def zeroed : Mmu64 := ⟨fun _ _ => .empty, 0, []⟩

def userPage : MapCall := ⟨0x400000, ofPage 100, 7, [10, 11, 12]⟩

theorem userPage_fits : Fits (archMmuInit usual zeroed) userPage where
  plain := by decide
  small := by decide
  flags := .inl (.inr (by decide))
  room := by decide
  fresh := by
    have hunused : ∀ f ∈ userPage.frames, f ∉ [usual.pml4, usual.pdpt, usual.pg, usual.pt] := by decide
    refine ⟨by decide, by decide, fun f hf path hpath ht => ?_⟩
    exact hunused f hf ((tabled_archMmuInit usual_ok zeroed).2 path f hpath ht)

theorem map_agrees_userPage : usual.Ok ∧ Fits (archMmuInit usual zeroed) userPage ∧
    Lts.Along exec Agrees (archMmuInit usual zeroed) [userPage] :=
  ⟨usual_ok, userPage_fits, map_agrees usual_ok zeroed [userPage] fun _ _ => ⟨userPage_fits, trivial⟩⟩

/-- A page whose index leads through the entry 511 of the page directory pointer table is a page directory: mapping
    `0xffffffffffc00000` changes the entry that leads to the page table of the kernel. -/
theorem map_changes_kernel :
    let m : Mmu64 := { archMmuInit usual zeroed with frames := [10, 11, 12] }
    Canonical 0xffffffffffc00000 ∧ pdpIndex 0xffffffffffc00000 ≠ 510 ∧ Canonical 0xffffffff80000000 ∧
      pdpIndex 0xffffffff80000000 ≠ 510 ∧ m.archMmuGetPhysical 0xffffffff80000000 = some 0x10000 ∧
      (m.archMmuMapPage 0xffffffffffc00000 (ofPage 100) 7).map (·.archMmuGetPhysical 0xffffffff80000000) = some (some 0) := by
  decide +kernel

end Mmu64
end HelinKern
