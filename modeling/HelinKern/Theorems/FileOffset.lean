import HelinKern.Theorems.FileAccess
import HelinKern.Theorems.Fifo

/-! The offset of a descriptor and what the calls on it return. -/

namespace HelinKern
open Option

/-- A value that was stored in an `int` differs from the original by a multiple of the size of the word. -/
theorem wrapInt_eq (x : Int) : ∃ n : Int, wrapInt x = x - 4294967296 * n := by
  have hparts := Int.bmod_add_bdiv x 4294967296
  exact ⟨x.bdiv 4294967296, by unfold wrapInt; omega⟩

variable {w : Written} {x size how type o : Int}

namespace Files

variable {s t : Files} {a : Account} {fd : Int} {d : FileDescriptor} {c : Transfer}

theorem desc_setOffset (hd : s.desc fd = some d) (offset : Int) :
    (s.setOffset fd d offset).desc fd = some { d with offset := wrapInt offset } := by
  unfold desc at hd ⊢
  split at hd
  · cases hd
  next hrange =>
    rw [if_neg hrange]
    exact Function.update_self ..

/-- `sys_read` or `sys_write` comes to the hook. -/
def Reaches (s : Files) (a : Account) (d : FileDescriptor) : Transfer → Prop
  | .read offset _ _ => s.hasPerm a d.node .read = true ∧ ¬(offset = 0 ∧ (s.node d.node).size < d.offset) ∧
      ¬(s.node d.node).size ≤ wrapInt (d.offset + offset)
  | .write _ => (s.node d.node).readOnly = false ∧ s.hasPerm a d.node .write = true
  | .seek _ _ => False

/-- An open file. -/
structure Opened (fd : Int) (d : FileDescriptor) (s : Files) : Prop where
  desc : s.desc fd = some d
  file : (s.node d.node).isSocket = false
  size : isInt (s.node d.node).size = true

theorem Opened.setOffset (h : Opened fd d s) (offset : Int) :
    Opened fd { d with offset := wrapInt offset } (s.setOffset fd d offset) :=
  ⟨desc_setOffset h.desc offset, h.file, h.size⟩

theorem Opened.take (h : Opened fd d s) (size : Int) : Opened fd d (s.take (s.node d.node) size) := by
  unfold Files.take
  split <;> exact { h with }

theorem Opened.put (h : Opened fd d s) (hw : isInt w.size) : Opened fd d (s.put d.node w) := by
  unfold Files.put
  split
  · refine ⟨h.desc, ?_, ?_⟩
    · rw [setNode_node_self]
      exact h.file
    · rw [setNode_node_self]
      exact hw
  · exact { h with }

inductive Leaves (s : Files) (a : Account) (d : FileDescriptor) : Transfer → Int → Prop
  | moved {c : Transfer} (h : s.Reaches a d c) (hint : isInt (s.result a d c) = true) :
      Leaves s a d c (wrapInt (d.offset + s.result a d c))
  | kept {c : Transfer} (h : ¬s.Reaches a d c) (hret : s.result a d c ≤ 0) (hseek : ∀ type how, c ≠ .seek type how) :
      Leaves s a d c d.offset
  | sought {type how : Int} (hint : isInt how = true) : Leaves s a d (.seek type how) (s.result a d (.seek type how))

theorem isInt_iff : isInt x ↔ -2147483648 ≤ x ∧ x < 2147483648 := decide_eq_true_iff

theorem wrapInt_of_isInt (h : isInt x) : wrapInt x = x := by
  obtain ⟨hlo, hhi⟩ := isInt_iff.mp h
  exact Int.bmod_eq_of_le (by omega) (by omega)

theorem read_leaves {offset : Int} (h : Opened fd d s) (hint : isInt how)
    (ht : s.sysRead a fd offset size how = some t) :
    ∃ o, Opened fd { d with offset := o } t ∧ Leaves s a d (.read offset size how) o := by
  unfold sysRead onDesc at ht
  rw [h.desc] at ht
  simp only at ht
  split at ht
  next hperm =>
    cases ht
    refine ⟨_, h, .kept (fun hr => by simp [hr.1] at hperm) ?_ fun _ _ h => by cases h⟩
    simp only [result, if_pos hperm]
    decide
  rename_i hperm
  rw [if_neg (by simp [h.file])] at ht
  split at ht
  next hoff =>
    cases ht
    refine ⟨_, h, .kept (fun hr => hr.2.1 hoff) ?_ fun _ _ h => by cases h⟩
    simp only [result, if_neg hperm, if_pos hoff, Int.le_refl]
  rename_i hoff
  split at ht
  next hend =>
    cases ht
    refine ⟨_, h, .kept (fun hr => hr.2.2 hend) ?_ fun _ _ h => by cases h⟩
    simp only [result, if_neg hperm, if_neg hoff, if_pos hend, Int.le_refl]
  rename_i hend
  have hresult : s.result a d (.read offset size how) = (s.node d.node).vfsRead how := by
    simp only [result, if_neg hperm, if_neg hoff, if_neg hend]
  have hreaches : s.Reaches a d (.read offset size how) := ⟨by simpa using hperm, hoff, hend⟩
  unfold FileNode.vfsRead at hresult
  split at ht
  next hnull =>
    cases ht
    rw [if_pos hnull] at hresult
    have hmoved := Leaves.moved hreaches (by rw [hresult]; decide)
    rw [hresult] at hmoved
    exact ⟨_, h.setOffset _, hmoved⟩
  next hnull =>
    cases ht
    rw [if_neg hnull] at hresult
    have hmoved := Leaves.moved hreaches (by rw [hresult]; exact hint)
    rw [hresult] at hmoved
    exact ⟨_, (h.take size).setOffset _, hmoved⟩

theorem write_leaves (h : Opened fd d s) (hint : isInt w.how) (hsize : isInt w.size)
    (ht : s.sysWrite a fd { w with how := (s.node d.node).vfsWrite w.how } = some t) :
    ∃ o, Opened fd { d with offset := o } t ∧ Leaves s a d (.write w) o := by
  unfold sysWrite onDesc at ht
  rw [h.desc] at ht
  simp only at ht
  split at ht
  next hro =>
    cases ht
    refine ⟨_, h, .kept (fun hr => by simp [hr.1] at hro) ?_ fun _ _ h => by cases h⟩
    simp only [result, if_pos hro]
    decide
  rename_i hro
  split at ht
  next hperm =>
    cases ht
    refine ⟨_, h, .kept (fun hr => by simp [hr.2] at hperm) ?_ fun _ _ h => by cases h⟩
    simp only [result, if_neg hro, if_pos hperm]
    decide
  rename_i hperm
  rw [if_neg (by simp [h.file])] at ht
  have hresult : s.result a d (.write w) = (s.node d.node).vfsWrite w.how := by
    simp only [result, if_neg hro, if_neg hperm]
  have hmoved : Leaves s a d (.write w) (wrapInt (d.offset + s.result a d (.write w))) := by
    refine .moved ⟨by simpa using hro, by simpa using hperm⟩ ?_
    rw [hresult]
    unfold FileNode.vfsWrite
    split
    · decide
    · exact hint
  rw [hresult] at hmoved
  split at ht
  · cases ht
    exact ⟨_, (h.put hsize).setOffset _, hmoved⟩
  · cases ht
    exact ⟨_, h.setOffset _, hmoved⟩

theorem seek_leaves (h : Opened fd d s) (hint : isInt how) (ht : s.sysSeek fd type how = some t) :
    ∃ o, Opened fd { d with offset := o } t ∧ Leaves s a d (.seek type how) o := by
  have hsought : Leaves s a d (.seek type how) _ := .sought hint
  unfold sysSeek onDesc at ht
  rw [h.desc] at ht
  simp only at ht
  simp only [result] at hsought
  split at ht
  next htype =>
    cases ht
    rw [if_pos htype] at hsought
    have hset := h.setOffset how
    rw [wrapInt_of_isInt hint] at hset
    exact ⟨how, hset, hsought⟩
  rename_i hset
  rw [if_neg hset] at hsought
  split at ht
  next htype =>
    cases ht
    rw [if_pos htype] at hsought
    exact ⟨_, h.setOffset _, hsought⟩
  rename_i hend
  rw [if_neg hend] at hsought
  split at ht
  next htype =>
    cases ht
    rw [if_pos htype] at hsought
    exact ⟨_, h.setOffset _, hsought⟩
  next hcur =>
    cases ht
    rw [if_neg hcur] at hsought
    exact ⟨_, h, hsought⟩

theorem transfer_leaves (h : Opened fd d s) (ht : s.transfer a fd c = some t) :
    ∃ o, Opened fd { d with offset := o } t ∧ Leaves s a d c o := by
  unfold transfer at ht
  rw [h.desc] at ht
  cases c with
  | read offset size how =>
    obtain ⟨hint, ht⟩ := ite_none_right_eq_some.mp ht
    exact read_leaves h hint ht
  | write w =>
    obtain ⟨hint, ht⟩ := ite_none_right_eq_some.mp ht
    exact write_leaves h hint.1 hint.2 ht
  | seek type how =>
    obtain ⟨hint, ht⟩ := ite_none_right_eq_some.mp ht
    exact seek_leaves h hint ht

/-- Where a call that returned `r` brings the offset: a transfer moves it by what it returns, and `sys_seek` of the type 2
    counts from the size of the file on. -/
def Lands (size before after r : Int) : Transfer → Prop
  | .read .. | .write _ => 0 ≤ r → after = before + r
  | .seek type how => type = 2 → after = size + how

/-- Besides, a call that fails leaves the offset, and one that does not leaves none that is negative. -/
def Follows (a : Account) (fd : Int) (s : Files) (c : Transfer) (t : Files) : Prop :=
  ∀ d, s.desc fd = some d → ∃ d', t.desc fd = some d' ∧ (s.result a d c < 0 → d'.offset = d.offset) ∧
    (0 ≤ s.result a d c → 0 ≤ d'.offset) ∧ Lands (s.node d.node).size d.offset d'.offset (s.result a d c) c

/-- A transfer that comes to a hook finds one that does not fail, within the range of an `int`. `sys_seek` is asked for no
    negative offset, and with the type 2 only for the size. -/
def FitsAt (s : Files) (a : Account) (d : FileDescriptor) : Transfer → Prop
  | .read offset size how => s.Reaches a d (.read offset size how) →
      (s.node d.node).fs ≠ .null ∧ 0 ≤ how ∧ d.offset + how < 2147483648
  | .write w => s.Reaches a d (.write w) →
      (s.node d.node).fs.hasWrite = true ∧ 0 ≤ w.how ∧ d.offset + w.how < 2147483648
  | .seek type how => (type = 0 → 0 ≤ how) ∧ (type = 2 → how = 0 ∧ 0 ≤ (s.node d.node).size) ∧
      (type = 1 → 0 ≤ d.offset + how ∧ d.offset + how < 2147483648)

def Fits (a : Account) (fd : Int) (s : Files) (c : Transfer) (_ : Files) : Prop :=
  ∀ d, s.desc fd = some d → s.FitsAt a d c

theorem moved_iff {r : Int} (hlo : 0 ≤ o) (hhi : o < 2147483648) (hr : isInt r) :
    ((r < 0 → wrapInt (o + r) = o) ∧ (0 ≤ r → 0 ≤ wrapInt (o + r)) ∧ (0 ≤ r → wrapInt (o + r) = o + r)) ↔
      0 ≤ r ∧ o + r < 2147483648 := by
  obtain ⟨hrlo, hrhi⟩ := isInt_iff.mp hr
  obtain ⟨n, hn⟩ := wrapInt_eq (o + r)
  have hlt := wrapInt_lt (o + r)
  have hle := le_wrapInt (o + r)
  omega

theorem seek_iff (hlo : 0 ≤ o) (hhi : o < 2147483648) (hs : isInt size) (hint : isInt how) :
    let r := if type = 0 then how else if type = 2 then wrapInt (size - how) else if type = 1 then wrapInt (o + how) else o
    ((r < 0 → r = o) ∧ (0 ≤ r → 0 ≤ r) ∧ (type = 2 → r = size + how)) ↔
      (type = 0 → 0 ≤ how) ∧ (type = 2 → how = 0 ∧ 0 ≤ size) ∧ (type = 1 → 0 ≤ o + how ∧ o + how < 2147483648) := by
  intro r
  obtain ⟨hslo, hshi⟩ := isInt_iff.mp hs
  obtain ⟨hwlo, hwhi⟩ := isInt_iff.mp hint
  obtain ⟨m, hm⟩ := wrapInt_eq (size - how)
  obtain ⟨n, hn⟩ := wrapInt_eq (o + how)
  have hmlt := wrapInt_lt (size - how)
  have hmle := le_wrapInt (size - how)
  have hnlt := wrapInt_lt (o + how)
  have hnle := le_wrapInt (o + how)
  simp only [r]
  split_ifs <;> omega

theorem result_seek_lt (hhi : d.offset < 2147483648) (hint : isInt how) :
    s.result a d (.seek type how) < 2147483648 := by
  simp only [result]
  split_ifs
  · exact (isInt_iff.mp hint).2
  · exact wrapInt_lt _
  · exact wrapInt_lt _
  · exact hhi

theorem Reaches.fitsAt_iff (hr : s.Reaches a d c) :
    s.FitsAt a d c ↔ 0 ≤ s.result a d c ∧ d.offset + s.result a d c < 2147483648 := by
  cases c with
  | read offset size how =>
    obtain ⟨hperm, hoff, hend⟩ := id hr
    simp only [FitsAt, hr, result, hperm, if_neg hoff, if_neg hend, FileNode.vfsRead]
    by_cases hnull : (s.node d.node).fs = .null <;> simp [hnull]
  | write w =>
    obtain ⟨hro, hperm⟩ := id hr
    simp only [FitsAt, hr, result, hperm, hro, FileNode.vfsWrite]
    by_cases hhook : (s.node d.node).fs.hasWrite = true <;> simp [hhook]
  | seek => exact hr.elim

theorem follows_iff (h : Opened fd d s) (hlo : 0 ≤ d.offset) (hhi : d.offset < 2147483648)
    (ht : s.transfer a fd c = some t) :
    (Follows a fd s c t ↔ Fits a fd s c t) ∧
      (Follows a fd s c t → ∃ d', Opened fd d' t ∧ 0 ≤ d'.offset ∧ d'.offset < 2147483648) := by
  obtain ⟨o, hopen, hleaves⟩ := transfer_leaves h ht
  have hfollows : Follows a fd s c t ↔ (s.result a d c < 0 → o = d.offset) ∧ (0 ≤ s.result a d c → 0 ≤ o) ∧
      Lands (s.node d.node).size d.offset o (s.result a d c) c := by
    unfold Follows
    rw [h.desc, hopen.desc]
    simp only [some.injEq, forall_eq', exists_eq_left']
  have hfits : Fits a fd s c t ↔ s.FitsAt a d c := by
    unfold Fits
    rw [h.desc]
    simp only [some.injEq, forall_eq']
  rw [hfollows, hfits]
  have hnonneg : (s.result a d c < 0 → o = d.offset) → (0 ≤ s.result a d c → 0 ≤ o) → 0 ≤ o := by omega
  refine ⟨?_, fun hf => ⟨_, hopen, hnonneg hf.1 hf.2.1, ?_⟩⟩
  · cases hleaves with
    | moved hr hint =>
      rw [hr.fitsAt_iff, ← moved_iff hlo hhi hint]
      cases c with
      | read | write => exact Iff.rfl
      | seek => exact hr.elim
    | kept hr hret hseek =>
      refine iff_of_true ⟨fun _ => rfl, fun _ => hlo, ?_⟩ ?_
      · cases c with
        | read | write => exact fun h0 => by omega
        | seek type how => exact absurd rfl (hseek type how)
      · cases c with
        | read | write => exact fun h => absurd h hr
        | seek type how => exact absurd rfl (hseek type how)
    | sought hint => exact seek_iff hlo hhi h.size hint
  · cases hleaves with
    | moved => exact wrapInt_lt _
    | kept => exact hhi
    | sought hint => exact result_seek_lt (a := a) hhi hint

/-- The offset of an open file follows the calls on it exactly as long as each of them fits. -/
theorem offset_follows_transfers (h : Opened fd d s) (hlo : 0 ≤ d.offset) (hhi : d.offset < 2147483648)
    (calls : List Transfer) :
    Lts.Along (fun s c => s.transfer a fd c) (Follows a fd) s calls ↔
      Lts.Along (fun s c => s.transfer a fd c) (Fits a fd) s calls := by
  refine Lts.along_iff (fun s => ∃ d, Opened fd d s ∧ 0 ≤ d.offset ∧ d.offset < 2147483648) ⟨d, h, hlo, hhi⟩ ?_ ?_ calls
  · rintro s c t ⟨d, h, hlo, hhi⟩ ht
    exact (follows_iff h hlo hhi ht).1
  · rintro s c t ⟨d, h, hlo, hhi⟩ ht hfits
    have hstep := follows_iff h hlo hhi ht
    exact hstep.2 (hstep.1.mpr hfits)

/-- A file of three bytes on a disc, opened by the user 1000. -/
def discFile : Files :=
  { sealedFile with node := fun m => { sealedFile.node m with fs := .mounted .iso9660 } }.openFor 1 0 0

theorem discFile_opened : Opened 0 ⟨1, 0, 0, 0⟩ discFile := ⟨rfl, rfl, rfl⟩

/-- Two bytes are read, and the third is skipped. -/
theorem offset_follows_transfers_disc : Lts.Along (fun s c => s.transfer ⟨1000, 1000⟩ 0 c) (Follows ⟨1000, 1000⟩ 0) discFile
    [.read 0 2 2, .seek 2 0] := by
  refine (offset_follows_transfers discFile_opened (by decide) (by decide) _).mpr ?_
  intro s hs
  cases hs
  refine ⟨fun d hd => ?_, fun t _ => ⟨fun d hd => ?_, trivial⟩⟩
  · cases hd
    exact fun _ => by decide
  · cases hd
    exact ⟨by decide, by decide, by decide⟩

/-- The disc cannot be read, and the offset goes back by the error; a seek by one from the end goes to the last byte. -/
theorem offset_moved_by_error :
    ¬Lts.Along (fun s c => s.transfer ⟨1000, 1000⟩ 0 c) (Follows ⟨1000, 1000⟩ 0) discFile [.read 0 2 (-1)] ∧
    ¬Lts.Along (fun s c => s.transfer ⟨1000, 1000⟩ 0 c) (Follows ⟨1000, 1000⟩ 0) discFile [.seek 2 1] := by
  refine ⟨fun h => ?_, fun h => ?_⟩
  · obtain ⟨d, hd, herror, -⟩ := (h _ rfl).1 _ rfl
    cases hd
    exact absurd (herror (by decide)) (by decide)
  · obtain ⟨d, hd, -, -, hend⟩ := (h _ rfl).1 _ rfl
    cases hd
    exact absurd (hend rfl) (by decide)

end Files
end HelinKern
