import HelinKern.Theorems.CpioTree

/-! The archive and the tree that `cpio_mount` makes of it: which node a path leads to, and what is read from it. -/

namespace HelinKern
open List Tokens Spelling
variable {raw : List (BitVec 8)} {pre post : List CpioEntry} {offset k : Nat} {path : List Text}

namespace CpioTree

/-! ### Paths of entries -/

variable {tree : CpioTree} {dev : Device} {es : List CpioEntry} {e : CpioEntry} {k fuel : Nat} {name : Text}
  {hdr : CpioHdr} {size parent : Nat} {q : List Text} {c : Text} {offset : Nat}

theorem last_of_path (h : e.path = q ++ [c]) : e.last = c := by
  rw [CpioEntry.last, h, getLast?_concat]
  rfl

theorem names_concat (es : List CpioEntry) (e : CpioEntry) : names (es ++ [e]) = names es ++ [e.last] := map_append

def Spelled (es : List CpioEntry) : Prop := ∀ k e, es[k]? = some e → Spelling.Spells (names es) 0 e.path k

theorem Spelled.exists (h : Spelled es) (hq : ∃ d ∈ es, d.path = q) : ∃ k, Spelling.Spells (names es) 0 q k := by
  obtain ⟨d, hd, rfl⟩ := hq
  obtain ⟨k, hk⟩ := getElem?_of_mem hd
  exact ⟨k, h k d hk⟩

theorem Spelled.concat (h : Spelled es) (hpath : e.path = q ++ [c]) (hparent : q ≠ [] → ∃ d ∈ es, d.path = q) :
    Spelled (es ++ [e]) := by
  intro k d hd
  rw [names_concat]
  obtain hd | ⟨rfl, rfl⟩ := getElem?_concat hd
  · exact (h k d hd).append_names _
  have hlast : (names es ++ [d.last])[es.length]? = some c := by
    rw [getElem?_append_right (by rw [names, length_map]), names, length_map, Nat.sub_self, last_of_path hpath]
    rfl
  rw [hpath]
  by_cases hq : q = []
  · rw [hq]
    exact ⟨es.length, Nat.zero_le _, hlast, rfl⟩
  obtain ⟨j, hj⟩ := h.exists (hparent hq)
  have hle : j ≤ es.length := by
    have hlt := hj.lt_length hq
    rw [names, length_map] at hlt
    exact Nat.le_of_lt hlt
  exact (hj.append_names _).append ⟨es.length, hle, hlast, rfl⟩

theorem head?_join (hq : q ≠ []) (hcomp : ∀ c ∈ q, IsComponent c) : (join slash q).head? ≠ some slash := by
  obtain ⟨c, q, rfl⟩ := exists_cons_of_ne_nil hq
  obtain ⟨hne, hslash, -⟩ := hcomp c mem_cons_self
  obtain ⟨b, c, rfl⟩ := exists_cons_of_ne_nil hne
  have hb : b ≠ slash := fun heq => hslash (heq ▸ mem_cons_self)
  by_cases hnil : q = []
  · subst hnil
    simpa [join] using hb
  · rw [join_cons hnil]
    simpa using hb

theorem find_join (tree : CpioTree) (hq : q ≠ []) (hcomp : ∀ c ∈ q, IsComponent c) :
    tree.find (join slash q) = tree.resolve 0 q := by
  have hdot : ∀ s : Text, slash ∉ s → ¬IsComponent s → join slash q ≠ s := by
    intro s hs hn heq
    have hsingle := eq_singleton_of_join hq hs heq
    exact hn (hcomp s (hsingle ▸ mem_singleton_self s))
  unfold find
  rw [if_neg, if_neg (hdot _ (by decide) (by decide)), tokens_join fun c hc => ⟨(hcomp c hc).1, (hcomp c hc).2.1⟩]
  rintro (h | h)
  · exact head?_join hq hcomp h
  · exact hdot _ (by decide) (by decide) h

theorem not_mem_join (hcomp : ∀ c ∈ q, IsComponent c) : 0 ∉ join slash q := by
  intro h
  obtain h | ⟨c, hc, h⟩ := mem_join h
  · exact absurd h (by decide)
  · exact (hcomp c hc).2.2.1 h

theorem takeWhile_eq_self {s : Text} (h : 0 ∉ s) : (s.takeWhile fun c => c ≠ 0) = s := by
  rw [takeWhile_eq_self_iff]
  intro c hc
  simpa using ne_of_mem_of_not_mem hc h

def linked (tree : CpioTree) (name : Text) (hdr : CpioHdr) (size offset parent : Nat) : CpioTree :=
  (tree.unlinked name hdr size (offset + hdrSize + hdr.namesize + hdr.namesize % 2) parent).newChildNode parent tree.count

theorem mountEntry_top (tree : CpioTree) (hdr : CpioHdr) (size offset : Nat) (hsplit : splitLast slash raw = none)
    (hname : cstr raw = some name) :
    tree.mountEntry hdr size offset raw = some (tree.linked name hdr size offset 0) := by
  unfold CpioTree.mountEntry
  rw [hsplit]
  dsimp only [Option.map_none, Option.getD_none]
  rw [hname]
  rfl

theorem mountEntry_below {raw' : List (BitVec 8)} {dir : Text} (tree : CpioTree) (hdr : CpioHdr) (size offset : Nat)
    (hsplit : splitLast slash raw = some (dir, raw')) (hname : cstr raw' = some name) (hdir : 0 ∉ dir)
    (hfind : tree.find dir = some (some parent)) :
    tree.mountEntry hdr size offset raw = some (tree.linked name hdr size offset parent) := by
  unfold CpioTree.mountEntry
  rw [hsplit]
  dsimp only [Option.map_some, Option.getD_some]
  rw [hname, takeWhile_eq_self hdir, hfind]
  rfl

theorem Built.mountEntry (h : Built dev es tree) (hs : Spelled es) (hpath : e.path = q ++ [c])
    (hcomp : ∀ c ∈ e.path, IsComponent c) (hparent : q ≠ [] → ∃ d ∈ es, d.path = q) (hholds : dev.Holds offset (e.encode e.name))
    (hint : offset + (e.encode e.name).length < 2147483648) :
    ∃ tree', tree.mountEntry (e.hdr e.name) e.data.length offset (e.name ++ [0]) = some tree' ∧ Built dev (es ++ [e]) tree' := by
  have hname : e.name = join slash (q ++ [c]) := by
    rw [CpioEntry.name, hpath, if_neg (by simp)]
  have hc : IsComponent c := hcomp c (hpath ▸ mem_append_right q (mem_singleton_self c))
  have hqcomp : ∀ c ∈ q, IsComponent c := fun c hc => hcomp c (hpath ▸ mem_append_left _ hc)
  have hslash : slash ∉ c ++ [0] := by
    rw [mem_append]
    exact not_or_intro hc.2.1 (by decide)
  have hdata : offset + hdrSize + (e.name.length + 1) + (e.name.length + 1) % 2 < 2147483648 := by
    have hlen := CpioEntry.length_encode e e.name
    omega
  have hgrow : ∀ parent ≤ es.length, Built dev (es ++ [e]) (tree.linked c (e.hdr e.name) e.data.length offset parent) :=
    fun parent hle => h.grow hle (last_of_path hpath).symm (CpioEntry.holds_data hholds) hdata
  have hcstr : cstr (c ++ [0]) = some c := cstr_of_terminated hc.2.2.1
  by_cases hq : q = []
  · have hname' : e.name = c := hname.trans (congrArg (fun q => join slash (q ++ [c])) hq)
    refine ⟨_, mountEntry_top tree _ _ _ ?_ ?_, hgrow 0 (Nat.zero_le _)⟩
    · rw [hname']
      exact splitLast_eq_none hslash
    · rw [hname', hcstr]
  · have hsplit : splitLast slash (e.name ++ [0]) = some (join slash q, c ++ [0]) := by
      rw [hname, join_concat hq, append_assoc, cons_append, splitLast_append hslash]
    have hes : es ≠ [] := by
      obtain ⟨d, hd, -⟩ := hparent hq
      exact ne_nil_of_mem hd
    obtain ⟨k, hk⟩ := hs.exists (hparent hq)
    have hfind : tree.find (join slash q) = some ((walk (names es) 0 q).map fun j => j + 1) := by
      rw [find_join tree hq hqcomp, h.resolve_root hes hq]
    cases hwalk : walk (names es) 0 q with
    | none => exact absurd hk (walk_eq_none hwalk k)
    | some j =>
      rw [hwalk] at hfind
      have hlt := (walk_eq_some hwalk).1.lt_length hq
      rw [names, length_map] at hlt
      exact ⟨_, mountEntry_below tree _ _ _ hsplit hcstr (not_mem_join hqcomp) hfind, hgrow (j + 1) hlt⟩

/-! ### The loop over the archive -/

theorem mountLoop_record (tree : CpioTree) (fuel : Nat) (h : dev.Holds offset (e.encode name))
    (hsize : ((offset + (e.encode name).length : Nat) : Int) ≤ dev.size) (hint : dev.size < 2147483648) (hname : name.length < 1024)
    (hzero : 0 ∉ name) :
    mountLoop dev (fuel + 1) offset tree =
      if name = [dot] then mountLoop dev fuel (offset + (e.encode name).length) tree
      else if name = trailerName then some (true, tree)
      else (tree.mountEntry (e.hdr name) e.data.length offset (name ++ [0])).bind fun tree =>
        mountLoop dev fuel (offset + (e.encode name).length) tree := by
  have hlen := CpioEntry.length_encode e name
  have hfits : ¬(1024 < (e.hdr name).namesize ∨ 2147483648 ≤ offset + (e.encode name).length) := by
    rintro (h' | h')
    · exact absurd h' (Nat.not_lt.mpr hname)
    · omega
  rw [mountLoop, if_neg (by omega), CpioEntry.read_hdr h (by omega) (by omega)]
  dsimp only
  rw [if_neg (show ¬(e.hdr name).magic ≠ cpioMagic from not_not_intro rfl), CpioEntry.size_hdr e name (by omega),
    Option.bind_some, CpioEntry.length_hdr, if_neg hfits, show (e.hdr name).namesize = name.length + 1 from rfl,
    CpioEntry.holds_name h, cstr_of_terminated hzero, Option.bind_some]

end CpioTree

namespace CpioArchive
open CpioTree

variable {a : CpioArchive} {dev : Device} {tree : CpioTree} {e : CpioEntry}

def namedOf (es : List CpioEntry) : List CpioEntry := es.filter fun e => e.path ≠ []

theorem namedOf_concat (es : List CpioEntry) (h : e.path ≠ []) : namedOf (es ++ [e]) = namedOf es ++ [e] := by
  unfold namedOf
  rw [filter_append, filter_cons_of_pos (by simpa using h), filter_nil]

theorem namedOf_concat_root (es : List CpioEntry) (h : e.path = []) : namedOf (es ++ [e]) = namedOf es := by
  unfold namedOf
  rw [filter_append, filter_cons_of_neg (by simpa using h), filter_nil, append_nil]

theorem name_ne (a : CpioArchive) (he : e ∈ a.entries) (hpath : e.path ≠ []) :
    e.name ≠ [dot] ∧ e.name ≠ trailerName ∧ 0 ∉ e.name := by
  have hname : e.name = join slash e.path := if_neg hpath
  rw [hname]
  refine ⟨fun heq => ?_, fun heq => ?_, not_mem_join (a.components e he)⟩
  · have hsingle := eq_singleton_of_join hpath (by decide) heq
    exact (a.components e he [dot] (hsingle ▸ mem_singleton_self _)).2.2.2.1 rfl
  · exact a.noTrailer e he (eq_singleton_of_join hpath (by decide) heq)

theorem parent_mem (a : CpioArchive) (hsplit : a.entries = pre ++ e :: post) {q : List Text} {c : Text}
    (hpath : e.path = q ++ [c]) (hq : q ≠ []) : ∃ d ∈ namedOf pre, d.path = q := by
  have hlt : pre.length < a.entries.length := by rw [hsplit, length_append, length_cons]; omega
  have hget : a.entries.get ⟨pre.length, hlt⟩ = e := by
    have hsome : a.entries[pre.length]? = some e := by
      rw [hsplit, getElem?_append_right (Nat.le_refl _), Nat.sub_self]
      rfl
    exact (List.getElem?_eq_some_iff.mp hsome).2
  have hparent := a.parents pre.length hlt
  rw [hget, hpath, dropLast_concat, length_append] at hparent
  obtain ⟨d, hd, -, rfl⟩ := hparent (Nat.succ_le_succ (length_pos_iff.mpr hq))
  rw [hsplit, take_left] at hd
  exact ⟨d, mem_filter.mpr ⟨hd, by simpa using hq⟩, rfl⟩

theorem mountLoop_eq (a : CpioArchive) (hsize : dev.size = a.encode.length) (hsplit : a.entries = pre ++ post)
    {fuel : Nat} (hfuel : post.length < fuel) (hholds : dev.Holds offset (encodeArchive post a.trailer a.rest))
    (hend : offset + (encodeArchive post a.trailer a.rest).length = a.encode.length)
    (hbuilt : Built dev (namedOf pre) tree) (hspelled : Spelled (namedOf pre)) :
    ∃ tree', mountLoop dev fuel offset tree = some (true, tree') ∧ Built dev (namedOf a.entries) tree' ∧
      Spelled (namedOf a.entries) := by
  have htotal : a.encode.length < 2147483648 := a.total
  induction post generalizing pre offset fuel tree with
  | nil =>
    obtain ⟨fuel, rfl⟩ := Nat.exists_eq_succ_of_ne_zero (Nat.ne_of_gt hfuel)
    obtain ⟨htrailer, -⟩ := Device.holds_append.mp (show dev.Holds offset (a.trailer.encode trailerName ++ a.rest) from hholds)
    have hlen : (encodeArchive [] a.trailer a.rest).length = (a.trailer.encode trailerName).length + a.rest.length := by
      rw [← length_append]
      rfl
    rw [mountLoop_record tree fuel htrailer (by omega) (by omega) (by decide) (by decide)]
    rw [hsplit, append_nil]
    exact ⟨tree, rfl, hbuilt, hspelled⟩
  | cons e post ih =>
    obtain ⟨fuel, rfl⟩ := Nat.exists_eq_succ_of_ne_zero (Nat.ne_zero_of_lt hfuel)
    have he : e ∈ a.entries := hsplit ▸ mem_append_right pre mem_cons_self
    have hcons : encodeArchive (e :: post) a.trailer a.rest = e.encode e.name ++ encodeArchive post a.trailer a.rest := by
      unfold encodeArchive
      rw [flatMap_cons, append_assoc]
    rw [hcons, Device.holds_append] at hholds
    rw [hcons, length_append] at hend
    have hrecord := mountLoop_record tree fuel hholds.1 (by omega) (by omega) (a.short e he)
    have hsplit' : a.entries = (pre ++ [e]) ++ post := by rw [hsplit, append_assoc, singleton_append]
    by_cases hpath : e.path = []
    · have hname : e.name = [dot] := if_pos hpath
      rw [hrecord (by rw [hname]; decide), if_pos hname]
      refine ih hsplit' (by simpa using hfuel) hholds.2 (by omega) ?_ ?_
      · rw [namedOf_concat_root pre hpath]
        exact hbuilt
      · rw [namedOf_concat_root pre hpath]
        exact hspelled
    · obtain ⟨hdot, htrailer, hzero⟩ := a.name_ne he hpath
      obtain ⟨q, c, hqc⟩ : ∃ q c, e.path = q ++ [c] := ⟨_, _, (dropLast_append_getLast hpath).symm⟩
      have hparent := a.parent_mem hsplit hqc
      obtain ⟨tree', hentry, hbuilt'⟩ := hbuilt.mountEntry hspelled hqc (a.components e he) hparent hholds.1 (by omega)
      rw [hrecord hzero, if_neg hdot, if_neg htrailer, hentry]
      refine ih hsplit' (by simpa using hfuel) hholds.2 (by omega) ?_ ?_
      · rw [namedOf_concat pre hpath]
        exact hbuilt'
      · rw [namedOf_concat pre hpath]
        exact hspelled.concat hqc hparent

theorem length_le_encode (es : List CpioEntry) (trailer : CpioEntry) (rest : List (BitVec 8)) :
    es.length < (encodeArchive es trailer rest).length := by
  have htrailer := CpioEntry.length_encode trailer trailerName
  have hes : es.length ≤ (es.flatMap fun e => e.encode e.name).length := by
    induction es with
    | nil => exact Nat.zero_le _
    | cons e es ih =>
      have he := CpioEntry.length_encode e e.name
      rw [flatMap_cons, length_append, length_cons]
      omega
  unfold encodeArchive
  rw [length_append, length_append]
  omega

theorem device_holds (a : CpioArchive) (garbage : Nat → BitVec 8) : (a.device garbage).Holds 0 a.encode := by
  unfold Device.Holds Device.bytes
  refine ext_getElem (by rw [length_map, length_range]) fun i hi hi' => ?_
  rw [getElem_map, getElem_range, Nat.zero_add]
  show (a.encode[i]?).getD (garbage i) = a.encode[i]
  rw [getElem?_eq_getElem hi', Option.getD_some]

theorem mount_built (a : CpioArchive) (garbage : Nat → BitVec 8) (mountpoint : CpioNode) :
    ∃ tree, cpioMount (a.device garbage) mountpoint = some (true, tree) ∧ Built (a.device garbage) a.named tree ∧
      Spelled a.named := by
  have hlen := length_le_encode a.entries a.trailer a.rest
  have hsize : (a.device garbage).size = a.encode.length := rfl
  have hencode : a.encode.length = (encodeArchive a.entries a.trailer a.rest).length := rfl
  obtain ⟨tree, hloop, hbuilt, hspelled⟩ := a.mountLoop_eq hsize (nil_append _).symm
    (show a.entries.length < (a.device garbage).size.toNat + 1 by omega) (a.device_holds garbage) (Nat.zero_add _)
    (start_built _ mountpoint) nofun
  unfold cpioMount
  rw [if_neg (by omega), hloop]
  exact ⟨_, rfl, hbuilt.setRoot _, hspelled⟩

/-! ### Resolving and reading -/

/-- The names of entries, taken in an order that never goes back, spell the path at no entry before its own one; and not at
    all if the archive does not have the path, but has a node. -/
def Unambiguous (a : CpioArchive) (path : List Text) : Prop :=
  match a.node path with
  | some k => ∀ j, Spelling.Spells (names a.named) 0 path j → k ≤ j + 1
  | none => a.named ≠ [] ∧ ∀ j, ¬Spelling.Spells (names a.named) 0 path j

theorem node_eq_some (h : a.node path = some k) :
    ∃ j e, k = j + 1 ∧ a.named[j]? = some e ∧ e.path = path := by
  obtain ⟨j, hj, rfl⟩ := Option.map_eq_some_iff.mp h
  obtain ⟨hlt, heq, -⟩ := findIdx?_eq_some_iff_getElem.mp hj
  exact ⟨j, a.named[j], rfl, getElem?_eq_getElem hlt, by simpa using heq⟩

theorem eq_of_path (a : CpioArchive) {d : CpioEntry} (hd : d ∈ a.entries) (he : e ∈ a.entries) (h : d.path = e.path) : d = e :=
  inj_on_of_nodup_map a.distinct hd he h

theorem resolve_iff (hbuilt : Built dev a.named tree) (hspelled : Spelled a.named) (hpath : path ≠ []) :
    tree.resolve 0 path = some (a.node path) ↔ a.Unambiguous path := by
  unfold Unambiguous
  by_cases hnil : a.named = []
  · have hnode : a.node path = none := by
      unfold node
      rw [hnil]
      rfl
    have hempty : Built dev [] tree := hnil ▸ hbuilt
    rw [hnode, hempty.resolve_empty hpath]
    exact ⟨nofun, fun h => absurd hnil h.1⟩
  rw [hbuilt.resolve_root hnil hpath, Option.some.injEq]
  cases hnode : a.node path with
  | none =>
    rw [Option.map_eq_none_iff]
    refine ⟨fun hwalk => ⟨hnil, walk_eq_none hwalk⟩, fun h => ?_⟩
    cases hwalk : walk (names a.named) 0 path with
    | none => rfl
    | some j => exact absurd (walk_eq_some hwalk).1 (h.2 j)
  | some k =>
    obtain ⟨i, e, rfl, hi, rfl⟩ := node_eq_some hnode
    have hown := hspelled i e hi
    cases hwalk : walk (names a.named) 0 e.path with
    | none => exact absurd hown (walk_eq_none hwalk i)
    | some j =>
      obtain ⟨hj, hleast⟩ := walk_eq_some hwalk
      have hle := hleast i hown
      constructor
      · rintro heq l hl
        have hjl := hleast l hl
        have hji : j + 1 = i + 1 := Option.some.inj heq
        omega
      · intro h
        have hij := h j hj
        exact congrArg some (show j + 1 = i + 1 by omega)

theorem read_iff {es : List CpioEntry} (hbuilt : Built dev es tree) (hk : es[k]? = some e)
    (hsize : e.data.length < 2147483648) {how : Nat} (hlt : offset + how < 9223372036854775808) :
    tree.cpioRead dev (k + 1) offset how = e.slice offset how ↔ offset < 4294967296 ∨ e.data.length ≤ offset % 4294967296 := by
  obtain ⟨-, hholds, hdata⟩ := hbuilt.info k e hk
  unfold cpioRead CpioEntry.slice
  dsimp only
  rw [(hbuilt.node k e hk).2]
  by_cases hend : e.data.length ≤ offset % 4294967296
  · rw [if_pos hend, drop_eq_nil_of_le (hend.trans (Nat.mod_le ..)), take_nil]
    exact ⟨fun _ => .inr hend, fun _ => rfl⟩
  rw [if_neg hend, Nat.mod_eq_of_lt (by omega),
    Nat.mod_eq_of_lt (show (tree.infos (k + 1)).data + offset < 18446744073709551616 by omega)]
  by_cases hword : offset < 4294967296
  · refine ⟨fun _ => .inl hword, fun _ => ?_⟩
    have hcount : (if e.data.length ≤ offset + how then (e.data.length + 18446744073709551616 - offset) % 18446744073709551616
        else how) = ((e.data.drop offset).take how).length := by
      rw [length_take, length_drop]
      split <;> omega
    have htake := (hholds.drop (show offset ≤ e.data.length by omega)).take how
    rw [hcount]
    exact congrArg _ htake
  · refine ⟨fun heq => ?_, fun h => absurd h (not_or_intro hword hend)⟩
    have hcount := congrArg Prod.fst heq
    rw [if_pos (by omega)] at hcount
    rw [length_take] at hcount
    omega

theorem data_lt (a : CpioArchive) (he : e ∈ a.entries) : e.data.length < 2147483648 := by
  obtain ⟨pre, post, hsplit⟩ := append_of_mem he
  have htotal := a.total
  have hlen := CpioEntry.length_encode e e.name
  rw [encodeArchive, hsplit, flatMap_append, flatMap_cons, length_append, length_append, length_append]
    at htotal
  omega

/-- Every well-formed archive is mounted. A path then leads to the node of its entry exactly if it is unambiguous, and a read
    takes the bytes of an entry exactly if the offset is not cut to one inside the data. -/
theorem mounted_initrd (a : CpioArchive) (garbage : Nat → BitVec 8) (mountpoint : CpioNode) :
    ∃ tree, cpioMount (a.device garbage) mountpoint = some (true, tree) ∧
      (∀ path, path ≠ [] → (tree.resolve 0 path = some (a.node path) ↔ a.Unambiguous path)) ∧
      ∀ e ∈ a.entries, ∀ k, a.node e.path = some k → ∀ offset how, offset + how < 9223372036854775808 →
        (tree.cpioRead (a.device garbage) k offset how = e.slice offset how ↔
          offset < 4294967296 ∨ e.data.length ≤ offset % 4294967296) := by
  obtain ⟨tree, hmount, hbuilt, hspelled⟩ := a.mount_built garbage mountpoint
  refine ⟨tree, hmount, fun path hpath => resolve_iff hbuilt hspelled hpath, fun e he k hk offset how hlt => ?_⟩
  obtain ⟨j, d, rfl, hj, hpath⟩ := node_eq_some hk
  obtain rfl := a.eq_of_path (List.mem_of_mem_filter (List.mem_of_getElem? hj)) he hpath
  exact read_iff hbuilt hj (a.data_lt he) hlt

def emptyEntry : CpioEntry := ⟨[], 0, 0, 0, 0, 0, 0, 0, 0, 0, []⟩

def smallArchive : CpioArchive where
  entries := [{ emptyEntry with path := [[0x61]], mode := 0x41ff }, { emptyEntry with path := [[0x62]], mode := 0x81ff, data := [1, 2] }]
  trailer := emptyEntry
  rest := []
  components := by decide
  distinct := by decide
  parents := by decide
  noTrailer := by decide
  short := by decide
  total := by decide

def smallMountpoint : CpioNode := ⟨[], 0, 0, vfsDirectory, 0, 0, 0, none⟩

/-- The file `b` is found, and read from its second byte on. -/
theorem mounted_initrd_file :
    ∃ tree, cpioMount (smallArchive.device fun _ => 0) smallMountpoint = some (true, tree) ∧
      tree.resolve 0 [[0x62]] = some (some 2) ∧ tree.cpioRead (smallArchive.device fun _ => 0) 2 1 5 = (1, [2]) := by
  obtain ⟨tree, hmount, hresolve, hread⟩ := mounted_initrd smallArchive (fun _ => 0) smallMountpoint
  refine ⟨tree, hmount, (hresolve [[0x62]] (by decide)).mpr ?_, ?_⟩
  · rintro (- | j) ⟨i, -, hi, heq⟩
    · rw [← heq] at hi
      exact absurd hi (by decide)
    · exact Nat.le_add_left 2 j
  · exact (hread _ (List.mem_cons_of_mem _ (List.mem_singleton_self _)) 2 (by decide) 1 5 (by decide)).mpr (.inl (by decide))

/-- The path `a/b`, which the archive does not have, leads to the file `b`. -/
theorem file_found_beside_directory :
    ((cpioMount (smallArchive.device fun _ => 0) smallMountpoint).map fun r => (r.1, r.2.resolve 0 [[0x61], [0x62]])) =
      some (true, some (some 2)) ∧ smallArchive.node [[0x61], [0x62]] = none := by
  decide +kernel

end CpioArchive
end HelinKern
