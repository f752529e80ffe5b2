import HelinKern.Shm

/-! The ids of shared memory. `shm_create` advances `shm_id` only for the key 0, so that the next object can get the id of
    one that exists; `shmat` then finds the older one. -/

namespace HelinKern
open Slots Function List Option
variable {current w phys : Nat} {r : Int × Shm}

namespace Shm

variable {k k' k'' : Shm} {o c a : Nat} {f : ShmObj → ShmObj} {op : Op}

/-! ### The parts of the handlers -/

@[simp] theorem modify_obj_self (k : Shm) (o : Nat) (f : ShmObj → ShmObj) : (k.modify o f).obj o = f (k.obj o) :=
  update_self ..

theorem modify_obj_of_ne (h : c ≠ o) (f : ShmObj → ShmObj) : (k.modify o f).obj c = k.obj c :=
  update_of_ne h _ _

theorem modify_field {β : Type} (g : ShmObj → β) (h : g (f (k.obj o)) = g (k.obj o)) (c : Nat) :
    g ((k.modify o f).obj c) = g (k.obj c) := by
  by_cases heq : c = o
  · subst heq
    rw [modify_obj_self, h]
  · rw [modify_obj_of_ne heq]

theorem walk_fst (k : Shm) (p : ShmObj → Bool) (os : List Nat) :
    (k.walk p os).1 = os.find? fun o => p (k.obj o) := by
  induction os generalizing k with
  | nil => rfl
  | cons o os ih =>
    unfold walk
    rw [find?_cons]
    cases hp : p (k.obj o) with
    | true => rw [if_pos rfl]
    | false =>
      rw [if_neg Bool.false_ne_true, ih]
      rfl

theorem walk_snd (k : Shm) (p : ShmObj → Bool) (os : List Nat) : ∃ visited : List Nat, (∀ o ∈ visited, o ∈ os) ∧
    (k.walk p os).2 =
      { k with log := (visited.map fun o => ShmEvent.read o (k.status o = .freed)) ++ k.log } := by
  induction os generalizing k with
  | nil => exact ⟨[], by simp, rfl⟩
  | cons o os ih =>
    unfold walk
    split
    · exact ⟨[o], by simp, rfl⟩
    obtain ⟨visited, hmem, heq⟩ := ih (k.touch o)
    refine ⟨visited ++ [o], ?_, ?_⟩
    · intro c hc
      rcases mem_append.mp hc with hc | hc
      · exact mem_cons_of_mem _ (hmem c hc)
      · rw [mem_singleton.mp hc]
        exact mem_cons_self ..
    · rw [heq, map_append, append_assoc]
      rfl

theorem release_eq (h : k.release o = some k') : ∃ pages, (k.obj o).pageQueue = some pages ∧
    k' = { k.modify o (fun x => { x with pageQueue := some [] }) with
      log := (pages.map fun p => ShmEvent.freePage o p (k.obj o).atCnt).reverse ++ k.log
      queue := k.queue.erase o } := by
  obtain ⟨pages, hpages, rfl⟩ := map_eq_some_iff.mp h
  exact ⟨pages, hpages, rfl⟩

/-! ### What every handler but `shm_create` keeps -/

structure Shrinks (k k' : Shm) : Prop where
  queue : k'.queue.Sublist k.queue
  id : ∀ o, k.status o ≠ .unused → (k'.obj o).id = (k.obj o).id
  pages : ∀ o ∈ k'.queue, (k'.obj o).pageQueue = (k.obj o).pageQueue
  returned : k'.returned = k.returned
  unused : ∀ o, k'.status o = .unused → k.status o = .unused

namespace Shrinks

theorem of_log (k : Shm) (log : List ShmEvent) (nodes : List Nat) : Shrinks k { k with log, nodes } :=
  ⟨.refl _, fun _ _ => rfl, fun _ _ => rfl, rfl, fun _ h => h⟩

theorem trans (h : Shrinks k k') (h' : Shrinks k' k'') : Shrinks k k'' where
  queue := h'.queue.trans h.queue
  id o ho := (h'.id o (mt (h.unused o) ho)).trans (h.id o ho)
  pages o ho := (h'.pages o ho).trans (h.pages o (h'.queue.subset ho))
  returned := h'.returned.trans h.returned
  unused o ho := h.unused o (h'.unused o ho)

theorem walk (k : Shm) (p : ShmObj → Bool) (os : List Nat) : Shrinks k (k.walk p os).2 := by
  obtain ⟨visited, -, heq⟩ := walk_snd k p os
  rw [heq]
  exact of_log ..

theorem modify (k : Shm) (o : Nat) (hid : (f (k.obj o)).id = (k.obj o).id)
    (hpages : (f (k.obj o)).pageQueue = (k.obj o).pageQueue) : Shrinks k (k.modify o f) :=
  ⟨.refl _, fun c _ => modify_field ShmObj.id hid c, fun c _ => modify_field ShmObj.pageQueue hpages c, rfl, fun _ h => h⟩

theorem kfree (k : Shm) (o : Nat) : Shrinks k (k.kfree o) where
  queue := .refl _
  id _ _ := rfl
  pages _ _ := rfl
  returned := rfl
  unused _ hc := MemStatus.unused_of_update hc nofun

theorem release (hnodup : k.queue.Nodup) (h : k.release o = some k') : Shrinks k k' := by
  obtain ⟨pages, -, rfl⟩ := release_eq h
  have hid (c : Nat) : ((k.modify o fun x => { x with pageQueue := some [] }).obj c).id = (k.obj c).id :=
    modify_field ShmObj.id rfl c
  refine ⟨erase_sublist, fun c _ => hid c, fun c hc => ?_, rfl, fun _ h => h⟩
  have hne : c ≠ o := fun heq => hnodup.not_mem_erase (heq ▸ hc)
  rw [modify_obj_of_ne hne]

end Shrinks

/-! ### What a call does -/

theorem shmFsClose_cases (h : k.shmFsClose current o = some k') :
    (((k.obj o).destroyed ∨ current ≠ (k.obj o).owner) ∧ k' = k.touch o) ∨
    (∃ k₁, (k.obj o).destroyed = false ∧ current = (k.obj o).owner ∧ (k.touch o).release o = some k₁ ∧ k' = k₁.kfree o) := by
  unfold shmFsClose at h
  dsimp only at h
  have hobj : (k.touch o).obj o = k.obj o := rfl
  rw [hobj] at h
  split at h
  next hdestroyed => exact .inl ⟨.inl hdestroyed, (some.inj h).symm⟩
  rename_i hdestroyed
  split at h
  next howner =>
    obtain ⟨k₁, hk₁, rfl⟩ := map_eq_some_iff.mp h
    exact .inr ⟨k₁, by simpa using hdestroyed, howner, hk₁, rfl⟩
  next howner => exact .inl ⟨.inr howner, (some.inj h).symm⟩

theorem mem_queue_of_walk {p : ShmObj → Bool} (h : (k.walk p k.queue).1 = some o) : o ∈ k.queue := by
  rw [walk_fst] at h
  exact mem_of_find?_eq_some h

variable {id : Int}

theorem shmat_cases {r : Int × List (Nat × Nat) × Shm} (h : k.shmat id w = some r) :
    r.2.2 = (k.find id).2 ∨ ∃ o, r.2.2 = (k.find id).2.modify o fun x => { x with atCnt := x.atCnt + 1 } := by
  unfold shmat at h
  split at h
  next heq =>
    rw [heq]
    cases h
    exact .inl rfl
  next o k₁ heq =>
    rw [heq]
    obtain ⟨pages, -, rfl⟩ := map_eq_some_iff.mp h
    exact .inr ⟨o, rfl⟩

def starts (phys : Nat) (b : ShmObj) : Bool := b.pageQueue.any fun pages => pages.head? = some phys

theorem shmdt_cases (h : k.shmdt phys = some r) :
    r.2 = (k.walk (starts phys) k.queue).2 ∨ ∃ o k₁, (k.walk (starts phys) k.queue).1 = some o ∧
      k₁ = (k.walk (starts phys) k.queue).2.modify o (fun x => { x with atCnt := x.atCnt - 1 }) ∧
      (r.2 = k₁ ∨ ∃ k₂, (k₁.obj o).atCnt ≤ 0 ∧ k₁.release o = some k₂ ∧
        r.2 = (k₂.modify o fun x => { x with destroyed := true }).kfree o) := by
  unfold shmdt at h
  split at h
  next heq => exact .inl ((congrArg Prod.snd (some.inj h)).symm.trans (congrArg Prod.snd heq).symm)
  rename_i o k₁ heq
  refine .inr ⟨o, _, congrArg Prod.fst heq, rfl, ?_⟩
  rw [show (k.walk (starts phys) k.queue).2 = k₁ from congrArg Prod.snd heq]
  dsimp only at h
  split at h
  next hat =>
    obtain ⟨k₂, hk₂, rfl⟩ := map_eq_some_iff.mp h
    exact .inr ⟨k₂, hat, hk₂, rfl⟩
  · cases h
    exact .inl rfl

theorem destroy_cases (h : k.destroy id = some r) :
    r.2 = (k.find id).2 ∨ ∃ o k₁, (k.find id).1 = some o ∧ ((k.find id).2.obj o).atCnt ≤ 0 ∧
      (k.find id).2.release o = some k₁ ∧ r.2 = k₁.modify o fun x => { x with destroyed := true } := by
  unfold destroy at h
  split at h
  next heq =>
    rw [heq]
    cases h
    exact .inl rfl
  next o k₁ heq =>
    rw [heq]
    split at h
    next hat =>
      obtain ⟨k₂, hk₂, rfl⟩ := map_eq_some_iff.mp h
      exact .inr ⟨o, k₂, rfl, hat, hk₂, rfl⟩
    · cases h
      exact .inl rfl

/-! ### What the calls leave alone -/

theorem Shrinks.shmFsClose (hnodup : k.queue.Nodup) (h : k.shmFsClose current o = some k') :
    Shrinks k k' := by
  have htouch : Shrinks k (k.touch o) := .of_log ..
  obtain ⟨-, rfl⟩ | ⟨k₁, -, -, hk₁, rfl⟩ := shmFsClose_cases h
  · exact htouch
  · exact (htouch.trans (.release hnodup hk₁)).trans (.kfree ..)

theorem Shrinks.shmat {r : Int × List (Nat × Nat) × Shm} (h : k.shmat id w = some r) : Shrinks k r.2.2 := by
  have hwalk : Shrinks k (k.find id).2 := .walk ..
  obtain heq | ⟨o, heq⟩ := shmat_cases h
  · rw [heq]
    exact hwalk
  · rw [heq]
    exact hwalk.trans (.modify (f := fun x => { x with atCnt := x.atCnt + 1 }) _ _ rfl rfl)

theorem Shrinks.shmdt (hnodup : k.queue.Nodup) (h : k.shmdt phys = some r) :
    Shrinks k r.2 := by
  have hwalk := Shrinks.walk k (starts phys) k.queue
  obtain heq | ⟨o, k₁, -, rfl, hr⟩ := shmdt_cases h
  · rw [heq]
    exact hwalk
  have hcount := hwalk.trans (.modify _ o (f := fun x => { x with atCnt := x.atCnt - 1 }) rfl rfl)
  obtain heq | ⟨k₂, -, hk₂, heq⟩ := hr
  · rw [heq]
    exact hcount
  · rw [heq]
    exact ((hcount.trans (.release (hcount.queue.nodup hnodup) hk₂)).trans
      (.modify (f := fun x => { x with destroyed := true }) _ _ rfl rfl)).trans (.kfree ..)

theorem Shrinks.destroy (hnodup : k.queue.Nodup) (h : k.destroy id = some r) : Shrinks k r.2 := by
  have hwalk : Shrinks k (k.find id).2 := .walk ..
  obtain heq | ⟨o, k₁, -, -, hk₁, heq⟩ := destroy_cases h
  · rw [heq]
    exact hwalk
  · rw [heq]
    exact (hwalk.trans (.release (hwalk.queue.nodup hnodup) hk₁)).trans
      (.modify (f := fun x => { x with destroyed := true }) _ _ rfl rfl)

def ids (k : Shm) : List Int := k.queue.map fun o => (k.obj o).id

structure Ident (k : Shm) : Prop where
  nodup : k.queue.Nodup
  ids : k.ids.Nodup
  pages : ∀ o ∈ k.queue, (k.obj o).pageQueue ≠ none
  returned : ∀ r ∈ k.returned, r.2 ∈ k.queue → (k.obj r.2).id = r.1
  queue_used : ∀ o ∈ k.queue, k.status o ≠ .unused
  returned_used : ∀ r ∈ k.returned, k.status r.2 ≠ .unused

theorem Ident.init (obj : Nat → ShmObj) : Ident (init obj) :=
  ⟨.nil, .nil, nofun, nofun, nofun, nofun⟩

theorem Ident.shrinks (h : Ident k) (hk : Shrinks k k') : Ident k' where
  nodup := hk.queue.nodup h.nodup
  ids := by
    have hsame : k'.ids = k'.queue.map fun o => (k.obj o).id :=
      map_congr_left fun o ho => hk.id o (h.queue_used o (hk.queue.subset ho))
    rw [hsame]
    exact (hk.queue.map _).nodup h.ids
  pages o ho := by
    rw [hk.pages o ho]
    exact h.pages o (hk.queue.subset ho)
  returned r hr ho := by
    rw [hk.returned] at hr
    rw [hk.id r.2 (h.returned_used r hr)]
    exact h.returned r hr (hk.queue.subset ho)
  queue_used o ho := mt (hk.unused o) (h.queue_used o (hk.queue.subset ho))
  returned_used r hr := by
    rw [hk.returned] at hr
    exact mt (hk.unused r.2) (h.returned_used r hr)

/-- Ids are different, and `shmat` with an id that `shm_create` returned maps, as long as its object is in the queue, the
    pages of that object at one address after another, and counts it. -/
def Identifies (k : Shm) : Prop :=
  k.ids.Nodup ∧
    ∀ r ∈ k.returned, r.2 ∈ k.queue → ∀ w : Nat, ∃ pages k',
      (k.obj r.2).pageQueue = some pages ∧
        k.shmat r.1 w = some ((w : Int), pages.mapIdx (fun i p => ((w + 4096 * i) % 4294967296, p)), k') ∧
        (k'.obj r.2).atCnt = (k.obj r.2).atCnt + 1

theorem Ident.find (h : Ident k) (ho : o ∈ k.queue) : (k.find (k.obj o).id).1 = some o := by
  unfold Shm.find
  rw [walk_fst]
  obtain ⟨c, hc⟩ : ∃ c, k.queue.find? (fun c => decide ((k.obj c).id = (k.obj o).id)) = some c :=
    isSome_iff_exists.mp (find?_isSome.mpr ⟨o, ho, by simp⟩)
  rw [hc]
  have hid : (k.obj c).id = (k.obj o).id := by simpa using find?_some hc
  exact congrArg some (inj_on_of_nodup_map h.ids (mem_of_find?_eq_some hc) ho hid)

theorem Ident.identifies (h : Ident k) : k.Identifies := by
  refine ⟨h.ids, fun r hr ho w => ?_⟩
  obtain ⟨pages, hpages⟩ := ne_none_iff_exists'.mp (h.pages r.2 ho)
  have hfind := h.find ho
  rw [h.returned r hr ho] at hfind
  obtain ⟨visited, -, hwalk⟩ := walk_snd k (fun b => decide (b.id = r.1)) k.queue
  have hobj : (k.find r.1).2.obj = k.obj := by
    unfold Shm.find
    rw [hwalk]
  refine ⟨pages, (k.find r.1).2.modify r.2 fun x => { x with atCnt := x.atCnt + 1 }, hpages, ?_, ?_⟩
  · unfold Shm.shmat
    rw [show k.find r.1 = (some r.2, (k.find r.1).2) from Prod.ext hfind rfl]
    dsimp only
    rw [hobj, hpages]
    rfl
  · rw [modify_obj_self, hobj]

theorem Ident.settles {q : Prop} (h : Ident k) (hq : q) : (k.Identifies ↔ q) ∧ (q → Ident k) :=
  ⟨iff_of_true h.identifies hq, fun _ => h⟩

/-! ### `shm_create` -/

def withNew (k : Shm) (caller : Nat) (key size : Int) (a : Nat) (pages : List Nat) : Shm :=
  { k with
    obj := update k.obj a (k.newObj caller key size pages)
    status := update k.status a .alive
    shmId := if key = 0 then wrapInt (k.shmId + 1) else k.shmId
    queue := k.queue ++ [a] }

variable {caller : Nat} {key size flags : Int} {pages : List Nat} {opened : Bool} {r : Int × Shm}

theorem withNew_obj_self : (k.withNew caller key size a pages).obj a = k.newObj caller key size pages :=
  update_self ..

theorem withNew_obj_of_ne (h : c ≠ a) : (k.withNew caller key size a pages).obj c = k.obj c :=
  update_of_ne h _ _

theorem withNew_used : (k.withNew caller key size a pages).status a ≠ .unused := by
  show update k.status a .alive a ≠ .unused
  rw [update_self]
  exact nofun

theorem shmCreate_cases (h : k.shmCreate caller key size flags a pages opened = some r) :
    (flags = 0 ∧ (k.findByKey key).1 = none ∧ r = (-1, (k.findByKey key).2)) ∨
    (∃ o, flags = 0 ∧ (k.findByKey key).1 = some o ∧ (k.findByKey key).2.createNode caller o opened = some r) ∨
    (flags ≠ 0 ∧ (k.withNew caller key size a pages).createNode caller a opened = some r) := by
  unfold shmCreate at h
  by_cases hflags : flags = 0
  · rw [if_pos hflags] at h
    split at h
    next heq =>
      rw [heq]
      exact .inl ⟨hflags, rfl, (some.inj h).symm⟩
    next o k' heq =>
      rw [heq]
      exact .inr (.inl ⟨o, hflags, rfl, h⟩)
  · rw [if_neg hflags] at h
    exact .inr (.inr ⟨hflags, h⟩)

theorem createNode_cases (h : k.createNode caller o opened = some r) :
    ∃ k₁, ((opened ∧ k₁ = { k with nodes := o :: k.nodes }) ∨
        (opened = false ∧ k.shmFsClose caller o = some k₁)) ∧
      r = ((k₁.obj o).id, { k₁.touch o with returned := ((k₁.obj o).id, o) :: k₁.returned }) := by
  obtain ⟨k₁, hk₁, rfl⟩ := map_eq_some_iff.mp h
  refine ⟨k₁, ?_, rfl⟩
  cases opened with
  | true => exact .inl ⟨rfl, (some.inj hk₁).symm⟩
  | false => exact .inr ⟨rfl, hk₁⟩

theorem Ident.returning (h : Ident k) (hk : Shrinks k k') (ho : k'.status o ≠ .unused) :
    Ident { k'.touch o with returned := ((k'.obj o).id, o) :: k'.returned } := by
  have hident := h.shrinks hk
  refine { hident with returned := ?_, returned_used := ?_ }
  · rintro r (_ | ⟨_, hr⟩)
    · exact fun _ => rfl
    · exact hident.returned r hr
  · rintro r (_ | ⟨_, hr⟩)
    · exact ho
    · exact hident.returned_used r hr

theorem Ident.createNode (h : Ident k) (ho : k.status o ≠ .unused) (hr : k.createNode caller o opened = some r) :
    Ident r.2 := by
  obtain ⟨k₁, hk₁, rfl⟩ := createNode_cases hr
  have hshrinks : Shrinks k k₁ := by
    obtain ⟨-, rfl⟩ | ⟨-, hclose⟩ := hk₁
    · exact .of_log ..
    · exact .shmFsClose h.nodup hclose
  exact h.returning hshrinks (mt (hshrinks.unused o) ho)

theorem Ident.not_mem_queue (h : Ident k) (ha : k.status a = .unused) : a ∉ k.queue := fun hmem => h.queue_used a hmem ha

theorem Ident.withNew_ids (h : Ident k) (ha : k.status a = .unused) :
    (k.withNew caller key size a pages).ids = k.ids ++ [k.shmId] := by
  have hold : k.queue.map (fun o => ((k.withNew caller key size a pages).obj o).id) = k.ids :=
    map_congr_left fun o ho => by rw [withNew_obj_of_ne (ne_of_mem_of_not_mem ho (h.not_mem_queue ha))]
  have hnew : ((k.withNew caller key size a pages).obj a).id = k.shmId := by
    rw [withNew_obj_self]
    rfl
  show (k.queue ++ [a]).map _ = _
  rw [map_append, hold, map_singleton, hnew]

theorem ids_nodup_concat_iff (h : Ident k) :
    (k.ids ++ [k.shmId]).Nodup ↔ ∀ o ∈ k.queue, (k.obj o).id ≠ k.shmId := by
  rw [nodup_append, and_iff_right h.ids]
  simp [Shm.ids]

theorem Ident.withNew (h : Ident k) (ha : k.status a = .unused) (hid : ∀ o ∈ k.queue, (k.obj o).id ≠ k.shmId)
    (hsize : 0 < size) : Ident (k.withNew caller key size a pages) := by
  have hne {o : Nat} (ho : k.status o ≠ .unused) : o ≠ a := fun heq => ho (heq ▸ ha)
  have hstatus {o : Nat} (ho : k.status o ≠ .unused) : (k.withNew caller key size a pages).status o ≠ .unused := by
    show update k.status a .alive o ≠ .unused
    rwa [update_of_ne (hne ho)]
  refine ⟨?_, ?_, ?_, ?_, ?_, fun r hr => hstatus (h.returned_used r hr)⟩
  · show (k.queue ++ [a]).Nodup
    rw [← concat_eq_append]
    exact h.nodup.concat (h.not_mem_queue ha)
  · rw [h.withNew_ids ha, ids_nodup_concat_iff h]
    exact hid
  · intro o ho
    rcases mem_append.mp ho with ho | ho
    · rw [withNew_obj_of_ne (hne (h.queue_used o ho))]
      exact h.pages o ho
    · rw [mem_singleton.mp ho, withNew_obj_self]
      simp [newObj, hsize]
  · intro r hr ho
    have hr2 := hne (h.returned_used r hr)
    rw [withNew_obj_of_ne hr2]
    refine h.returned r hr ((mem_append.mp ho).resolve_right fun hmem => hr2 (mem_singleton.mp hmem))
  · intro o ho
    rcases mem_append.mp ho with ho | ho
    · exact hstatus (h.queue_used o ho)
    · rw [mem_singleton.mp ho]
      exact withNew_used

theorem Shrinks.of_unopened (hmem : a ∉ k.queue) (ha : k.status a = .unused)
    (h : (k.withNew caller key size a pages).shmFsClose caller a = some k') : Shrinks k k' ∧ k'.status a = .freed := by
  unfold Shm.shmFsClose at h
  dsimp only at h
  have hobj : ((k.withNew caller key size a pages).touch a).obj a = k.newObj caller key size pages := withNew_obj_self
  rw [hobj, if_neg (by exact Bool.false_ne_true), if_pos (by rfl)] at h
  obtain ⟨k₁, hk₁, rfl⟩ := map_eq_some_iff.mp h
  obtain ⟨pages', -, rfl⟩ := release_eq hk₁
  have hqueue : (k.queue ++ [a]).erase a = k.queue := by
    rw [erase_append_right _ hmem, erase_cons_head, append_nil]
  have hother {o : Nat} (ho : o ≠ a) : (((k.withNew caller key size a pages).touch a).modify a fun x =>
      { x with pageQueue := some [] }).obj o = k.obj o :=
    (modify_obj_of_ne ho _).trans (withNew_obj_of_ne ho)
  refine ⟨⟨?_, ?_, ?_, rfl, ?_⟩, update_self ..⟩
  · show ((k.queue ++ [a]).erase a).Sublist k.queue
    rw [hqueue]
  · intro o ho
    have hne : o ≠ a := fun heq => ho (heq ▸ ha)
    exact congrArg ShmObj.id (hother hne)
  · intro o ho
    have ho : o ∈ (k.queue ++ [a]).erase a := ho
    rw [hqueue] at ho
    exact congrArg ShmObj.pageQueue (hother (ne_of_mem_of_not_mem ho hmem))
  · intro o ho
    by_cases heq : o = a
    · rw [heq]
      exact ha
    · have ho : update (update k.status a .alive) a .freed o = .unused := ho
      rwa [update_of_ne heq, update_of_ne heq] at ho

/-- A new object that stays has an id that no object has, and pages. -/
def FreshId (k : Shm) : Op → Prop
  | .create _ _ size flags _ _ opened =>
    flags = 0 ∨ opened = false ∨ ((∀ o ∈ k.queue, (k.obj o).id ≠ k.shmId) ∧ 0 < size)
  | _ => True

theorem Ident.of_identifies (h : Ident k) (ha : k.status a = .unused)
    (hr : (k.withNew caller key size a pages).createNode caller a true = some r) (hk : r.2.Identifies) :
    (∀ o ∈ k.queue, (k.obj o).id ≠ k.shmId) ∧ 0 < size := by
  obtain ⟨k₁, hk₁ | hk₁, rfl⟩ := createNode_cases hr
  · obtain ⟨-, rfl⟩ := hk₁
    obtain ⟨hids, hmaps⟩ := hk
    have hids : (k.withNew caller key size a pages).ids.Nodup := hids
    rw [h.withNew_ids ha, ids_nodup_concat_iff h] at hids
    refine ⟨hids, ?_⟩
    obtain ⟨pages', -, hpages, -⟩ := hmaps _ (mem_cons_self ..) (mem_append_right _ (mem_singleton_self a)) 0
    have hpages : ((k.withNew caller key size a pages).obj a).pageQueue = some pages' := hpages
    rw [withNew_obj_self] at hpages
    unfold newObj at hpages
    split at hpages
    · assumption
    · cases hpages
  · cases hk₁.1

theorem Ident.create (h : Ident k) (hk : k.exec (.create caller key size flags a pages opened) = some k') :
    (k'.Identifies ↔ k.FreshId (.create caller key size flags a pages opened)) ∧
      (k.FreshId (.create caller key size flags a pages opened) → Ident k') := by
  obtain ⟨henabled, hk⟩ := ite_none_right_eq_some.mp hk
  obtain ⟨r, hr, rfl⟩ := map_eq_some_iff.mp hk
  have hwalk : Shrinks k (k.findByKey key).2 := .walk ..
  obtain ⟨hflags, -, rfl⟩ | ⟨o, hflags, hfind, hr⟩ | ⟨hflags, hr⟩ := shmCreate_cases hr
  · exact (h.shrinks hwalk).settles (.inl hflags)
  · have ho : o ∈ k.queue := mem_queue_of_walk hfind
    exact ((h.shrinks hwalk).createNode (mt (hwalk.unused o) (h.queue_used o ho)) hr).settles (.inl hflags)
  · have ha := (henabled.resolve_left hflags).1
    cases opened with
    | false =>
      obtain ⟨k₁, hk₁ | ⟨-, hclose⟩, rfl⟩ := createNode_cases hr
      · cases hk₁.1
      · obtain ⟨hshrinks, hfreed⟩ := Shrinks.of_unopened (h.not_mem_queue ha) ha hclose
        exact (h.returning hshrinks (by rw [hfreed]; exact nofun)).settles (.inr (.inl rfl))
    | true =>
      have hident (hfresh : k.FreshId (.create caller key size flags a pages true)) : Ident r.2 := by
        obtain ⟨hid, hsize⟩ := (hfresh.resolve_left hflags).resolve_left nofun
        exact (h.withNew ha hid hsize).createNode withNew_used hr
      exact ⟨⟨fun hk => .inr (.inr (h.of_identifies ha hr hk)), fun hfresh => (hident hfresh).identifies⟩, hident⟩

theorem Ident.exec (h : Ident k) (hk : k.exec op = some k') :
    (k'.Identifies ↔ k.FreshId op) ∧ (k.FreshId op → Ident k') := by
  cases op with
  | create => exact h.create hk
  | attach id w =>
    obtain ⟨r, hr, rfl⟩ := map_eq_some_iff.mp hk
    exact (h.shrinks (.shmat hr)).settles trivial
  | detach phys =>
    obtain ⟨r, hr, rfl⟩ := map_eq_some_iff.mp hk
    exact (h.shrinks (.shmdt h.nodup hr)).settles trivial
  | destroy id =>
    obtain ⟨r, hr, rfl⟩ := map_eq_some_iff.mp hk
    exact (h.shrinks (.destroy h.nodup hr)).settles trivial
  | close current o =>
    obtain ⟨-, hk⟩ := ite_none_right_eq_some.mp hk
    exact (h.shrinks ((Shrinks.of_log k k.log (k.nodes.erase o)).trans (.shmFsClose h.nodup hk))).settles trivial

/-- Ids identify objects in every state of a run only if every new object gets an id that is not in use, and pages; then
    they do. -/
theorem shm_identity (obj : Nat → ShmObj) (ops : List Op) :
    Lts.Along Shm.exec (fun _ _ k => k.Identifies) (init obj) ops ↔
      Lts.Along Shm.exec (fun k op _ => k.FreshId op) (init obj) ops :=
  Lts.along_iff Ident (.init obj) (fun h hk => (h.exec hk).1) (fun h hk => (h.exec hk).2) ops

/-- A private object, one that others find by its key, and one more process that attaches it. -/
theorem shm_identity_shared :
    Lts.Along Shm.exec (fun _ _ k => k.Identifies) (init fun _ => ⟨0, 0, 0, 0, none, 0, false⟩)
      [.create 1 0 4096 1 10 [100, 101] true, .create 1 7 1 1 11 [102] true, .create 2 7 1 0 0 [] true,
        .attach 1 0x40000000] := by
  refine (shm_identity _ _).mpr ?_
  rintro k ⟨rfl⟩
  refine ⟨.inr (.inr ⟨nofun, by decide⟩), ?_⟩
  rintro k ⟨rfl⟩
  refine ⟨.inr (.inr ⟨?_, by decide⟩), ?_⟩
  · rintro o (_ | ⟨_, ⟨⟩⟩)
    decide
  rintro k ⟨rfl⟩
  refine ⟨.inl rfl, ?_⟩
  rintro k ⟨rfl⟩
  exact ⟨trivial, trivial⟩

/-- Two objects with the keys 1 and 2 both get the id 0. -/
theorem shm_ids_clash :
    ¬Lts.Along Shm.exec (fun _ _ k => k.Identifies) (init fun _ => ⟨0, 0, 0, 0, none, 0, false⟩)
      [.create 1 1 1 1 10 [100] true, .create 1 2 1 1 11 [101] true] := by
  intro h
  obtain ⟨-, h⟩ := h _ rfl
  obtain ⟨⟨hids, -⟩, -⟩ := h _ rfl
  exact absurd hids (by decide)

end Shm
end HelinKern
