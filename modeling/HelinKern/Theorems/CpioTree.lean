import HelinKern.Cpio
import HelinKern.Lib.Spelling
import Mathlib.Data.List.TakeWhile

/-! The tree that `cpio_mount` builds from an archive: all nodes form one chain in the order of the entries, so a component
    is found at the first node from the current one on that has its name. -/

namespace HelinKern
open Function List Spelling

namespace Device

variable {dev : Device} {a m n : Nat} {xs ys : List (BitVec 8)}

theorem length_bytes (dev : Device) (a n : Nat) : (dev.bytes a n).length = n := by
  rw [bytes, length_map, length_range]

theorem bytes_succ (dev : Device) (a n : Nat) : dev.bytes a (n + 1) = dev.byte a :: dev.bytes (a + 1) n := by
  unfold bytes
  rw [range_succ_eq_map, map_cons, map_map]
  congr 1
  refine map_congr_left fun i _ => ?_
  show dev.byte (a + (i + 1)) = dev.byte (a + 1 + i)
  congr 1
  omega

theorem bytes_add (dev : Device) (a m n : Nat) : dev.bytes a (m + n) = dev.bytes a m ++ dev.bytes (a + m) n := by
  induction m generalizing a with
  | zero => rw [Nat.zero_add]; rfl
  | succ m ih =>
    rw [Nat.add_right_comm, bytes_succ, ih, bytes_succ, cons_append, Nat.add_right_comm a 1 m, Nat.add_assoc a m 1]

def Holds (dev : Device) (a : Nat) (xs : List (BitVec 8)) : Prop := dev.bytes a xs.length = xs

theorem holds_append : dev.Holds a (xs ++ ys) ↔ dev.Holds a xs ∧ dev.Holds (a + xs.length) ys := by
  unfold Holds
  rw [length_append, bytes_add]
  exact ⟨fun h => append_inj h (length_bytes ..), fun h => by rw [h.1, h.2]⟩

theorem Holds.drop (h : dev.Holds a xs) (hm : m ≤ xs.length) : dev.Holds (a + m) (xs.drop m) := by
  have h' := h
  rw [← take_append_drop m xs, holds_append, length_take, Nat.min_eq_left hm] at h'
  exact h'.2

theorem Holds.take (h : dev.Holds a xs) (m : Nat) : dev.Holds a (xs.take m) := by
  rw [← take_append_drop m xs, holds_append] at h
  exact h.1

theorem Holds.half {hi lo : BitVec 8} (h : dev.Holds a (lo :: hi :: xs)) : dev.half a = lo.toNat + 256 * hi.toNat := by
  unfold Holds at h
  rw [length_cons, length_cons, bytes_succ, bytes_succ] at h
  obtain ⟨hlo, h⟩ := cons.inj h
  obtain ⟨hhi, -⟩ := cons.inj h
  rw [Device.half, hlo, hhi]

theorem Holds.half_le16 {ns : List Nat} (h : dev.Holds a (ns.flatMap CpioEntry.le16)) {i w : Nat} (hi : ns[i]? = some w)
    (hw : w < 65536) : dev.half (a + 2 * i) = w := by
  induction ns generalizing a i with
  | nil => cases hi
  | cons v ns ih =>
    cases i with
    | zero =>
      cases hi
      rw [Nat.add_zero, h.half, BitVec.toNat_ofNat, BitVec.toNat_ofNat]
      omega
    | succ i =>
      rw [flatMap_cons, holds_append] at h
      have := ih h.2 hi
      rwa [show a + 2 * (i + 1) = a + (CpioEntry.le16 v).length + 2 * i by simp only [CpioEntry.le16, length_cons, length_nil]; omega]

end Device

namespace CpioEntry

variable {e : CpioEntry} {name : Text}

theorem length_pad (xs : List (BitVec 8)) : (pad xs).length = (xs.length + 1) / 2 * 2 := by
  rw [pad, length_append, length_replicate]
  omega

theorem length_header (e : CpioEntry) (name : Text) : ((e.header name).flatMap le16).length = hdrSize := rfl

theorem length_encode (e : CpioEntry) (name : Text) :
    (e.encode name).length = hdrSize + (name.length + 1 + 1) / 2 * 2 + (e.data.length + 1) / 2 * 2 := by
  rw [encode, length_append, length_append, length_pad, length_pad, length_append]
  exact (Nat.add_assoc ..).symm

def last (e : CpioEntry) : Text := e.path.getLast?.getD []

def hdr (e : CpioEntry) (name : Text) : CpioHdr :=
  ⟨cpioMagic, e.mode.toNat, e.mtime0.toNat, e.mtime1.toNat, name.length + 1, e.data.length / 65536, e.data.length % 65536⟩

variable {dev : Device} {a : Nat}

theorem read_hdr (h : dev.Holds a (e.encode name)) (hname : name.length + 1 < 65536) (hdata : e.data.length < 4294967296) :
    CpioHdr.read dev a = e.hdr name := by
  have hh := (Device.holds_append.mp h).1
  unfold CpioHdr.read hdr
  congr 1
  · exact hh.half_le16 (i := 0) rfl (by decide)
  · exact hh.half_le16 (i := 3) rfl e.mode.isLt
  · exact hh.half_le16 (i := 8) rfl e.mtime0.isLt
  · exact hh.half_le16 (i := 9) rfl e.mtime1.isLt
  · exact hh.half_le16 (i := 10) rfl hname
  · exact hh.half_le16 (i := 11) rfl (by omega)
  · exact hh.half_le16 (i := 12) rfl (by omega)

theorem size_hdr (e : CpioEntry) (name : Text) (hdata : e.data.length < 2147483648) : (e.hdr name).size = some e.data.length := by
  have h : e.data.length / 65536 * 0x10000 + e.data.length % 65536 = e.data.length := by omega
  unfold CpioHdr.size hdr
  rw [h]
  exact if_pos hdata

theorem length_hdr (e : CpioEntry) (name : Text) : (e.hdr name).length e.data.length = (e.encode name).length :=
  (length_encode e name).symm

theorem holds_name (h : dev.Holds a (e.encode name)) : dev.bytes (a + hdrSize) (name.length + 1) = name ++ [0] := by
  have hname := (Device.holds_append.mp (Device.holds_append.mp h).2).1
  have hraw := (Device.holds_append.mp hname).1
  rwa [length_header, Device.Holds, length_append] at hraw

theorem holds_data (h : dev.Holds a (e.encode name)) :
    dev.Holds (a + hdrSize + (name.length + 1) + (name.length + 1) % 2) e.data := by
  have hdata := (Device.holds_append.mp (Device.holds_append.mp h).2).2
  rw [length_header, length_pad, length_append, length_singleton] at hdata
  have := (Device.holds_append.mp hdata).1
  rwa [show a + hdrSize + (name.length + 1 + 1) / 2 * 2 = a + hdrSize + (name.length + 1) + (name.length + 1) % 2 by omega] at this

end CpioEntry

theorem cstr_of_terminated {name : Text} (h : 0 ∉ name) : cstr (name ++ [0]) = some name := by
  unfold cstr
  rw [takeWhile_append_of_pos]
  · simp
  · intro c hc
    simpa using ne_of_mem_of_not_mem hc h

theorem getElem?_concat {α : Type} {xs : List α} {x y : α} {k : Nat} (h : (xs ++ [x])[k]? = some y) :
    xs[k]? = some y ∨ k = xs.length ∧ y = x := by
  by_cases hk : k < xs.length
  · rw [getElem?_append_left hk] at h
    exact .inl h
  · rw [getElem?_append_right (Nat.le_of_not_lt hk), getElem?_singleton] at h
    obtain ⟨h0, h⟩ := Option.ite_none_right_eq_some.mp h
    exact .inr ⟨by omega, (Option.some.inj h).symm⟩

variable {path : List Text}

namespace CpioTree

variable {tree : CpioTree} {dev : Device} {es : List CpioEntry} {e : CpioEntry} {k n fuel : Nat} {name : Text}

theorem setInfo_infos (tree : CpioTree) (k : Nat) (f : Cpio → Cpio) (j : Nat) :
    (tree.setInfo k f).infos j = if j = k then f (tree.infos k) else tree.infos j :=
  update_apply ..

theorem setNode_nodes (tree : CpioTree) (k : Nat) (f : CpioNode → CpioNode) (j : Nat) :
    (tree.setNode k f).nodes j = if j = k then f (tree.nodes k) else tree.nodes j :=
  update_apply ..

theorem setNode_infos (tree : CpioTree) (k : Nat) (f : CpioNode → CpioNode) : (tree.setNode k f).infos = tree.infos := rfl

theorem setInfo_nodes (tree : CpioTree) (k : Nat) (f : Cpio → Cpio) : (tree.setInfo k f).nodes = tree.nodes := rfl

theorem setInfo_proj {β : Type} (tree : CpioTree) (π : Cpio → β) {f : Cpio → Cpio} (k j : Nat) (hf : ∀ p, π (f p) = π p) :
    π ((tree.setInfo k f).infos j) = π (tree.infos j) := by
  rw [setInfo_infos]
  split
  next hj => rw [hf, hj]
  · rfl

theorem setNode_proj {β : Type} (tree : CpioTree) (π : CpioNode → β) {f : CpioNode → CpioNode} (k j : Nat)
    (hf : ∀ p, π (f p) = π p) : π ((tree.setNode k f).nodes j) = π (tree.nodes j) := by
  rw [setNode_nodes]
  split
  next hj => rw [hf, hj]
  · rfl

def Chain (tree : CpioTree) (n : Nat) : Prop := ∀ k ≤ n, (tree.infos k).child = if k < n then some (k + 1) else none

theorem Chain.lastInfo (h : tree.Chain n) (hk : k ≤ n) (hf : n - k ≤ fuel) : tree.lastInfo fuel k = n := by
  induction fuel generalizing k with
  | zero =>
    rw [CpioTree.lastInfo]
    omega
  | succ fuel ih =>
    rw [CpioTree.lastInfo, h k hk]
    by_cases hlt : k < n
    · rw [if_pos hlt]
      exact ih hlt (by omega)
    · rw [if_neg hlt]
      exact Nat.le_antisymm hk (Nat.le_of_not_lt hlt)

structure Built (dev : Device) (es : List CpioEntry) (tree : CpioTree) : Prop where
  count : tree.count = es.length + 1
  top : (tree.infos 0).node = none
  chain : tree.Chain es.length
  info : ∀ k e, es[k]? = some e → (tree.infos (k + 1)).node = some (k + 1) ∧
    dev.Holds (tree.infos (k + 1)).data e.data ∧ (tree.infos (k + 1)).data < 2147483648
  node : ∀ k e, es[k]? = some e → (tree.nodes (k + 1)).name = e.last ∧ (tree.nodes (k + 1)).size = e.data.length

def names (es : List CpioEntry) : List Text := es.map CpioEntry.last

theorem Built.findFrom (h : Built dev es tree) (name : Text) (fuel k : Nat) (hf : es.length - k ≤ fuel) (hk : k ≤ es.length) :
    tree.findFrom name fuel (if k < es.length then some (k + 1) else none) =
      some ((first (names es) k name).map fun j => j + 1) := by
  induction fuel generalizing k with
  | zero =>
    rw [if_neg (by omega), first_of_length_le (by rw [names, length_map]; omega)]
    rfl
  | succ fuel ih =>
    by_cases hlt : k < es.length
    · have hget : es[k]? = some es[k] := getElem?_eq_getElem hlt
      have hname : (names es)[k]? = some es[k].last := by rw [names, getElem?_map, hget]; rfl
      rw [if_pos hlt, CpioTree.findFrom, (h.info k _ hget).1]
      dsimp only
      rw [(h.node k _ hget).1, h.chain (k + 1) hlt]
      by_cases heq : es[k].last = name
      · rw [if_pos heq, first_of_eq (hname.trans (congrArg some heq))]
        rfl
      · rw [if_neg heq, first_of_ne hname heq]
        exact ih (k + 1) (by omega) hlt
    · rw [if_neg hlt, first_of_length_le (by rw [names, length_map]; omega)]
      rfl

theorem Built.cpioFinddir_node (h : Built dev es tree) (name : Text) (hk : k < es.length) :
    tree.cpioFinddir (k + 1) name = some ((first (names es) k name).map fun j => j + 1) := by
  have := h.findFrom name tree.count k (by rw [h.count]; omega) (Nat.le_of_lt hk)
  rwa [if_pos hk] at this

theorem Built.cpioFinddir_root (h : Built dev es tree) (name : Text) (hes : es ≠ []) :
    tree.cpioFinddir 0 name = some ((first (names es) 0 name).map fun j => j + 1) := by
  have hpos : 0 < es.length := length_pos_iff.mpr hes
  have hfind := h.findFrom name es.length 0 (by omega) (Nat.zero_le _)
  rw [if_pos hpos] at hfind
  rw [cpioFinddir, h.count, CpioTree.findFrom, h.top, h.chain 0 (Nat.zero_le _), if_pos hpos]
  exact hfind

theorem Built.cpioFinddir_empty (h : Built dev [] tree) (name : Text) : tree.cpioFinddir 0 name = none := by
  rw [cpioFinddir, h.count, CpioTree.findFrom, h.top, h.chain 0 (Nat.zero_le _)]
  rfl

theorem Built.resolve_node (h : Built dev es tree) (path : List Text) (hk : k < es.length) :
    tree.resolve (k + 1) path = some ((walk (names es) k path).map fun j => j + 1) := by
  induction path generalizing k with
  | nil => rfl
  | cons c path ih =>
    rw [resolve, h.cpioFinddir_node c hk, walk]
    cases hj : first (names es) k c with
    | none => rfl
    | some j =>
      have hlt := (List.getElem?_eq_some_iff.mp (first_eq_some hj).2.1).1
      rw [names, length_map] at hlt
      exact ih hlt

theorem Built.resolve_root (h : Built dev es tree) (hes : es ≠ []) (hpath : path ≠ []) :
    tree.resolve 0 path = some ((walk (names es) 0 path).map fun j => j + 1) := by
  obtain ⟨c, path, rfl⟩ := exists_cons_of_ne_nil hpath
  rw [resolve, h.cpioFinddir_root c hes, walk]
  cases hj : first (names es) 0 c with
  | none => rfl
  | some j =>
    have hlt := (List.getElem?_eq_some_iff.mp (first_eq_some hj).2.1).1
    rw [names, length_map] at hlt
    exact h.resolve_node path hlt

theorem Built.resolve_empty (h : Built dev [] tree) (hpath : path ≠ []) : tree.resolve 0 path = none := by
  obtain ⟨c, path, rfl⟩ := exists_cons_of_ne_nil hpath
  rw [resolve, h.cpioFinddir_empty]
  rfl

variable {hdr : CpioHdr} {size data parent : Nat}

theorem newChildNode_count (tree : CpioTree) (parent child : Nat) : (tree.newChildNode parent child).count = tree.count := by
  unfold newChildNode
  split <;> rfl

theorem newChildNode_info (tree : CpioTree) (parent child j : Nat) :
    ((tree.newChildNode parent child).infos j).node = (tree.infos j).node ∧
      ((tree.newChildNode parent child).infos j).data = (tree.infos j).data := by
  unfold newChildNode
  split
  · exact ⟨rfl, rfl⟩
  constructor
  · refine (setInfo_proj _ Cpio.node _ _ (by intro; rfl)).trans ?_
    rw [setNode_infos]
    refine (setInfo_proj _ Cpio.node _ _ (by intro; rfl)).trans ?_
    exact setInfo_proj _ Cpio.node _ _ (by intro; rfl)
  · refine (setInfo_proj _ Cpio.data _ _ (by intro; rfl)).trans ?_
    rw [setNode_infos]
    refine (setInfo_proj _ Cpio.data _ _ (by intro; rfl)).trans ?_
    exact setInfo_proj _ Cpio.data _ _ (by intro; rfl)

theorem newChildNode_node (tree : CpioTree) (parent child j : Nat) :
    ((tree.newChildNode parent child).nodes j).name = (tree.nodes j).name ∧
      ((tree.newChildNode parent child).nodes j).size = (tree.nodes j).size := by
  unfold newChildNode
  split
  · exact ⟨rfl, rfl⟩
  · rw [setInfo_nodes]
    exact ⟨setNode_proj _ CpioNode.name _ _ (by intro; rfl), setNode_proj _ CpioNode.size _ _ (by intro; rfl)⟩

theorem newChildNode_child (tree : CpioTree) (parent child j : Nat) (hflags : (tree.nodes parent).flags = vfsDirectory) :
    ((tree.newChildNode parent child).infos j).child =
      if j = tree.lastInfo tree.count parent then some child else (tree.infos j).child := by
  unfold newChildNode
  rw [if_neg (not_not_intro hflags)]
  refine (setInfo_proj _ Cpio.child _ _ (by intro; rfl)).trans ?_
  rw [setNode_infos]
  refine (setInfo_proj _ Cpio.child _ _ (by intro; rfl)).trans ?_
  rw [setInfo_infos]
  split <;> rfl

def unlinked (tree : CpioTree) (name : Text) (hdr : CpioHdr) (size data parent : Nat) : CpioTree :=
  (tree.newNode name hdr size data).setNode parent fun n => { n with flags := vfsDirectory }

theorem unlinked_infos_of_lt (tree : CpioTree) (hk : k < tree.count) :
    (tree.unlinked name hdr size data parent).infos k = tree.infos k :=
  update_of_ne (Nat.ne_of_lt hk) ..

theorem unlinked_infos_new (tree : CpioTree) :
    (tree.unlinked name hdr size data parent).infos tree.count = ⟨none, some tree.count, data, 0, none⟩ :=
  update_self ..

theorem unlinked_node_of_lt (tree : CpioTree) (name : Text) (hdr : CpioHdr) (size data parent : Nat)
    (hk : k < tree.count) :
    ((tree.unlinked name hdr size data parent).nodes k).name = (tree.nodes k).name ∧
      ((tree.unlinked name hdr size data parent).nodes k).size = (tree.nodes k).size := by
  have hold : (tree.newNode name hdr size data).nodes k = tree.nodes k := update_of_ne (Nat.ne_of_lt hk) ..
  constructor
  · exact (setNode_proj _ CpioNode.name _ _ (by intro; rfl)).trans (congrArg _ hold)
  · exact (setNode_proj _ CpioNode.size _ _ (by intro; rfl)).trans (congrArg _ hold)

theorem unlinked_node_new (tree : CpioTree) (name : Text) (hdr : CpioHdr) (size data parent : Nat) :
    ((tree.unlinked name hdr size data parent).nodes tree.count).name = name ∧
      ((tree.unlinked name hdr size data parent).nodes tree.count).size = size := by
  have hnew : (tree.newNode name hdr size data).nodes tree.count = _ := update_self ..
  constructor
  · exact (setNode_proj _ CpioNode.name _ _ (by intro; rfl)).trans (congrArg _ hnew)
  · exact (setNode_proj _ CpioNode.size _ _ (by intro; rfl)).trans (congrArg _ hnew)

theorem unlinked_flags (tree : CpioTree) :
    ((tree.unlinked name hdr size data parent).nodes parent).flags = vfsDirectory := by
  unfold unlinked
  rw [setNode_nodes, if_pos rfl]

theorem start_built (dev : Device) (mountpoint : CpioNode) : Built dev [] (start mountpoint) where
  count := rfl
  top := rfl
  chain k hk := by
    rfl
  info := nofun
  node := nofun

theorem Built.setRoot (h : Built dev es tree) (f : CpioNode → CpioNode) : Built dev es (tree.setNode 0 f) :=
  { h with }

theorem Built.grow (h : Built dev es tree) (hparent : parent ≤ es.length) (hname : name = e.last) (hdata : dev.Holds data e.data)
    (hint : data < 2147483648) :
    Built dev (es ++ [e]) ((tree.unlinked name hdr e.data.length data parent).newChildNode parent tree.count) := by
  have hchain : (tree.unlinked name hdr e.data.length data parent).Chain es.length := by
    intro k hk
    rw [unlinked_infos_of_lt tree (by rw [h.count]; omega)]
    exact h.chain k hk
  have hlast := hchain.lastInfo hparent (show es.length - parent ≤ tree.count + 1 by rw [h.count]; omega)
  refine ⟨?_, ?_, fun k hk => ?_, fun k d hd => ?_, fun k d hd => ?_⟩
  · rw [newChildNode_count, length_append]
    exact congrArg (· + 1) h.count
  · rw [(newChildNode_info ..).1, unlinked_infos_of_lt tree (by rw [h.count]; omega), h.top]
  · rw [length_append, length_singleton] at hk ⊢
    rw [newChildNode_child _ _ _ _ (unlinked_flags tree)]
    refine (if_congr (by rw [show (unlinked ..).count = tree.count + 1 from rfl, hlast]) rfl rfl).trans ?_
    obtain hk | rfl := Nat.lt_or_eq_of_le hk
    · rw [hchain k (by omega), if_pos hk]
      by_cases hke : k = es.length
      · rw [if_pos hke, h.count, hke]
      · rw [if_neg hke, if_pos (by omega)]
    · rw [if_neg (by omega), if_neg (by omega), ← h.count, unlinked_infos_new]
  · rw [(newChildNode_info ..).1, (newChildNode_info ..).2]
    obtain hlt | ⟨rfl, rfl⟩ := getElem?_concat hd
    · have hk := (List.getElem?_eq_some_iff.mp hlt).1
      rw [unlinked_infos_of_lt tree (by rw [h.count]; omega)]
      exact h.info k d hlt
    · rw [← h.count, unlinked_infos_new]
      exact ⟨rfl, hdata, hint⟩
  · rw [(newChildNode_node ..).1, (newChildNode_node ..).2]
    obtain hlt | ⟨rfl, rfl⟩ := getElem?_concat hd
    · have hk := (List.getElem?_eq_some_iff.mp hlt).1
      have hold := unlinked_node_of_lt tree name hdr e.data.length data parent (show k + 1 < tree.count by rw [h.count]; omega)
      rw [hold.1, hold.2]
      exact h.node k d hlt
    · have hnew := unlinked_node_new tree name hdr d.data.length data parent
      rw [← h.count, hnew.1, hnew.2]
      exact ⟨hname, rfl⟩

end CpioTree
end HelinKern
