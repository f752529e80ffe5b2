import HelinKern.Theorems.Shm

/-! The pages of shared memory, which closing a descriptor frees without asking who is attached. -/

namespace HelinKern
open Slots Function List Option ShmEvent

/-! ### What may happen -/

/-- The page that an event frees, with its object. -/
def ShmEvent.freedPage : ShmEvent → Option (Nat × Nat)
  | .freePage o p _ => some (o, p)
  | .read .. => none

/-- Each page of an object is freed at most once and while its object counts no attach, and no object is read after it
    was freed. -/
structure ShmSafe (log : List ShmEvent) : Prop where
  once : (log.filterMap ShmEvent.freedPage).Nodup
  unattached : ∀ o p n, ShmEvent.freePage o p n ∈ log → n ≤ 0
  alive : ∀ o, ShmEvent.read o true ∉ log

variable {visited : List Nat} {n id : Int}

namespace ShmSafe

variable {log : List ShmEvent} {status : Nat → MemStatus} {o : Nat}

theorem nil : ShmSafe [] := ⟨.nil, nofun, nofun⟩

theorem reads (h : ShmSafe log) (hvisited : ∀ o ∈ visited, status o ≠ .freed) :
    ShmSafe ((visited.map fun o => read o (status o = .freed)) ++ log) := by
  have hnone : (visited.map fun o => read o (status o = .freed)).filterMap freedPage = [] := by
    rw [filterMap_map, filterMap_eq_nil_iff]
    exact fun _ _ => rfl
  refine ⟨?_, ?_, ?_⟩
  · rw [filterMap_append, hnone]
    exact h.once
  · intro o p n hmem
    refine h.unattached o p n ((mem_append.mp hmem).resolve_left fun hmem => ?_)
    obtain ⟨c, -, hc⟩ := mem_map.mp hmem
    cases hc
  · intro o hmem
    rcases mem_append.mp hmem with hmem | hmem
    · obtain ⟨c, hc, heq⟩ := mem_map.mp hmem
      simp only [read.injEq, decide_eq_true_eq] at heq
      exact hvisited c hc heq.2
    · exact h.alive o hmem

theorem frees (h : ShmSafe log) {pages : List Nat} (hpages : pages.Nodup) (hnew : ∀ p n, freePage o p n ∉ log)
    (hn : n ≤ 0) :
    ShmSafe ((pages.map fun p => freePage o p n).reverse ++ log) := by
  have hfreed : ((pages.map fun p => freePage o p n).reverse).filterMap freedPage =
      (pages.map fun p => (o, p)).reverse := by
    rw [filterMap_reverse, filterMap_map]
    exact congrArg List.reverse (filterMap_eq_map ▸ rfl)
  refine ⟨?_, ?_, ?_⟩
  · rw [filterMap_append, hfreed, nodup_append]
    refine ⟨nodup_reverse.mpr (hpages.map fun p q heq => congrArg Prod.snd heq), h.once, ?_⟩
    rintro x hx y hy rfl
    obtain ⟨p, -, rfl⟩ := mem_map.mp (mem_reverse.mp hx)
    obtain ⟨e, he, heq⟩ := mem_filterMap.mp hy
    cases e with
    | freePage o' p' m =>
      cases heq
      exact hnew p m he
    | read => cases heq
  · intro c p m hmem
    rcases mem_append.mp hmem with hmem | hmem
    · obtain ⟨q, -, heq⟩ := mem_map.mp (mem_reverse.mp hmem)
      cases heq
      exact hn
    · exact h.unattached c p m hmem
  · intro c hmem
    rcases mem_append.mp hmem with hmem | hmem
    · obtain ⟨q, -, heq⟩ := mem_map.mp (mem_reverse.mp hmem)
      cases heq
    · exact h.alive c hmem

end ShmSafe

namespace Shm

variable {k k' : Shm} {o c a current caller : Nat} {key size flags : Int} {pages : List Nat} {opened : Bool}
  {op : Op} {r : Int × Shm}

structure Tracked (k : Shm) : Prop where
  nodup : k.queue.Nodup
  alive : ∀ o ∈ k.queue, k.status o = .alive
  pages : ∀ o ∈ k.queue, ∀ pages, (k.obj o).pageQueue = some pages →
    pages ≠ [] ∧ pages.Nodup ∧ ∀ p n, ShmEvent.freePage o p n ∉ k.log
  nodes : ∀ o ∈ k.nodes, k.status o ≠ .unused
  unused : ∀ a, k.status a = .unused → ∀ p n, ShmEvent.freePage a p n ∉ k.log
  safe : ShmSafe k.log

structure Ok (k : Shm) : Prop extends Tracked k where
  queued : ∀ o, k.status o = .alive → (o ∈ k.queue ↔ (k.obj o).destroyed = false)

theorem Ok.init (obj : Nat → ShmObj) : Ok (init obj) :=
  ⟨⟨.nil, nofun, nofun, nofun, fun _ _ => nofun, .nil⟩, fun _ h => by cases h⟩

theorem Ok.not_freed (h : Ok k) (ho : o ∈ k.queue) : k.status o ≠ .freed := by
  rw [h.alive o ho]
  exact nofun

theorem Ok.used (h : Ok k) (ho : o ∈ k.queue) : k.status o ≠ .unused := by
  rw [h.alive o ho]
  exact nofun

theorem mem_reads {log : List ShmEvent} {status : Nat → MemStatus} {p : Nat}
    (h : freePage o p n ∈ (visited.map fun o => read o (status o = .freed)) ++ log) :
    freePage o p n ∈ log := by
  refine (mem_append.mp h).resolve_left fun h => ?_
  obtain ⟨c, -, hc⟩ := mem_map.mp h
  cases hc

theorem Ok.reads (h : Ok k) (hvisited : ∀ o ∈ visited, k.status o ≠ .freed) :
    Ok { k with log := (visited.map fun o => read o (k.status o = .freed)) ++ k.log } :=
  { h with
    pages o ho pages hpages := by
      obtain ⟨hne, hnodup, hnew⟩ := h.pages o ho pages hpages
      exact ⟨hne, hnodup, fun p n hmem => hnew p n (mem_reads hmem)⟩
    unused a ha p n hmem := h.unused a ha p n (mem_reads hmem)
    safe := h.safe.reads hvisited }

theorem Ok.touch (h : Ok k) (ho : k.status o ≠ .freed) : Ok (k.touch o) := by
  have hvisited : ∀ c ∈ [o], k.status c ≠ .freed := by simpa using ho
  exact h.reads hvisited

theorem Ok.walk (h : Ok k) (p : ShmObj → Bool) : Ok (k.walk p k.queue).2 ∧ (k.walk p k.queue).2.queue = k.queue ∧
    (k.walk p k.queue).2.obj = k.obj := by
  obtain ⟨visited, hmem, heq⟩ := walk_snd k p k.queue
  rw [heq]
  exact ⟨h.reads fun o ho => h.not_freed (hmem o ho), rfl, rfl⟩

theorem Ok.setAtCnt (h : Ok k) (o : Nat) (g : Int → Int) : Ok (k.modify o fun x => { x with atCnt := g x.atCnt }) :=
  { h with
    pages c hc := by
      rw [modify_field ShmObj.pageQueue rfl]
      exact h.pages c hc
    queued c hc := by
      rw [modify_field ShmObj.destroyed rfl]
      exact h.queued c hc }

theorem Ok.setNodes (h : Ok k) {nodes : List Nat} (hnodes : ∀ o ∈ nodes, k.status o ≠ .unused) : Ok { k with nodes } :=
  { h with nodes := hnodes }

/-! ### The end of an object -/

structure Retired (k : Shm) (o : Nat) : Prop extends Tracked k where
  used : k.status o ≠ .unused
  gone : o ∉ k.queue
  queued : ∀ c, c ≠ o → k.status c = .alive → (c ∈ k.queue ↔ (k.obj c).destroyed = false)

theorem Retired.ok (h : Retired k o) (hdone : k.status o = .freed ∨ (k.obj o).destroyed) : Ok k where
  toTracked := h.toTracked
  queued c hc := by
    by_cases heq : c = o
    · subst heq
      refine iff_of_false h.gone fun hdestroyed => ?_
      rcases hdone with hfreed | hmarked
      · rw [hc] at hfreed
        cases hfreed
      · rw [hdestroyed] at hmarked
        cases hmarked
    · exact h.queued c heq hc

theorem Ok.release (h : Ok k) (ho : o ∈ k.queue) (hat : (k.obj o).atCnt ≤ 0) (hk : k.release o = some k') :
    Retired k' o := by
  obtain ⟨pages, hpages, rfl⟩ := release_eq hk
  obtain ⟨-, hnodup, hnew⟩ := h.pages o ho pages hpages
  have hne {c : Nat} (hc : c ∈ k.queue.erase o) : c ≠ o := fun heq => h.nodup.not_mem_erase (heq ▸ hc)
  have hlog {c p : Nat} {n : Int} (hc : c ≠ o)
      (hmem : freePage c p n ∈ (pages.map fun p => freePage o p (k.obj o).atCnt).reverse ++ k.log) :
      freePage c p n ∈ k.log := by
    refine (mem_append.mp hmem).resolve_left fun hmem => ?_
    obtain ⟨q, -, heq⟩ := mem_map.mp (mem_reverse.mp hmem)
    cases heq
    exact hc rfl
  have hused := h.used ho
  refine ⟨⟨h.nodup.erase o, fun c hc => h.alive c (mem_of_mem_erase hc), fun c hc pages' hpages' => ?_, h.nodes,
    fun a ha p n hmem => ?_, h.safe.frees hnodup hnew hat⟩, hused, h.nodup.not_mem_erase, fun c hc halive => ?_⟩
  · have hpages' : ((k.modify o fun x => { x with pageQueue := some [] }).obj c).pageQueue = some pages' := hpages'
    rw [modify_obj_of_ne (hne hc)] at hpages'
    obtain ⟨h₁, h₂, h₃⟩ := h.pages c (mem_of_mem_erase hc) pages' hpages'
    exact ⟨h₁, h₂, fun p n hmem => h₃ p n (hlog (hne hc) hmem)⟩
  · have hao : a ≠ o := fun heq => hused (heq ▸ ha)
    exact h.unused a ha p n (hlog hao hmem)
  · show c ∈ k.queue.erase o ↔ ((k.modify o fun x => { x with pageQueue := some [] }).obj c).destroyed = false
    rw [mem_erase_of_ne hc, modify_obj_of_ne hc]
    exact h.queued c halive

theorem Retired.mark (h : Retired k o) : Retired (k.modify o fun x => { x with destroyed := true }) o :=
  { h with
    pages c hc := by
      rw [modify_field ShmObj.pageQueue rfl]
      exact h.pages c hc
    queued c hc := by
      rw [modify_obj_of_ne hc]
      exact h.queued c hc }

theorem Retired.kfree (h : Retired k o) : Retired (k.kfree o) o := by
  have hother {c : Nat} (hc : c ≠ o) : (k.kfree o).status c = k.status c := update_of_ne hc _ _
  have hunused {c : Nat} (hc : (k.kfree o).status c = .unused) : k.status c = .unused :=
    MemStatus.unused_of_update hc nofun
  refine ⟨⟨h.nodup, fun c hc => ?_, h.pages, fun c hc => mt hunused (h.nodes c hc), fun c hc => h.unused c (hunused hc),
    h.safe⟩, mt hunused h.used, h.gone, fun c hc => ?_⟩
  · rw [hother fun heq => h.gone (heq ▸ hc)]
    exact h.alive c hc
  · rw [hother hc]
    exact h.queued c hc

/-! ### `shm_fs_close` -/

/-- What closing a descriptor of `o` should find: an object that was not freed, and that is marked, belongs to another
    process, or is not attached. -/
def Closable (k : Shm) (current o : Nat) : Prop :=
  k.status o ≠ .freed ∧ ((k.obj o).destroyed = true ∨ current ≠ (k.obj o).owner ∨ (k.obj o).atCnt ≤ 0)

theorem shmFsClose_log (h : k.shmFsClose current o = some k') : ∃ log, k'.log = log ++ (k.touch o).log := by
  obtain ⟨-, rfl⟩ | ⟨k₁, -, -, hk₁, rfl⟩ := shmFsClose_cases h
  · exact ⟨[], rfl⟩
  · obtain ⟨pages, -, rfl⟩ := release_eq hk₁
    exact ⟨_, rfl⟩

theorem Ok.shmFsClose (h : Ok k) (ho : k.status o ≠ .unused) (hclose : k.Closable current o)
    (hk : k.shmFsClose current o = some k') : Ok k' := by
  have htouch := h.touch hclose.1
  obtain ⟨-, rfl⟩ | ⟨k₁, hdestroyed, howner, hk₁, rfl⟩ := shmFsClose_cases hk
  · exact htouch
  have halive : k.status o = .alive := MemStatus.eq_alive ho hclose.1
  have hat : (k.obj o).atCnt ≤ 0 := by
    rcases hclose.2 with hmarked | hother | hat
    · rw [hdestroyed] at hmarked
      cases hmarked
    · exact absurd howner hother
    · exact hat
  exact (htouch.release ((h.queued o halive).mpr hdestroyed) hat hk₁).kfree.ok (.inl (update_self ..))

theorem Ok.closable (h : Ok k) (ho : k.status o ≠ .unused) (hk : k.shmFsClose current o = some k')
    (hsafe : ShmSafe k'.log) : k.Closable current o := by
  have hfreed : k.status o ≠ .freed := by
    intro hfreed
    obtain ⟨log, hlog⟩ := shmFsClose_log hk
    refine hsafe.alive o ?_
    rw [hlog]
    unfold Shm.touch
    simp [hfreed]
  refine ⟨hfreed, ?_⟩
  obtain ⟨hquiet, -⟩ | ⟨k₁, hdestroyed, howner, hk₁, rfl⟩ := shmFsClose_cases hk
  · exact hquiet.imp id .inl
  obtain ⟨pages, hpages, rfl⟩ := release_eq hk₁
  have halive : k.status o = .alive := MemStatus.eq_alive ho hfreed
  obtain ⟨hne, -⟩ := h.pages o ((h.queued o halive).mpr hdestroyed) pages hpages
  obtain ⟨p, hp⟩ := exists_mem_of_ne_nil pages hne
  refine .inr (.inr (hsafe.unattached o p _ ?_))
  exact mem_append_left _ (mem_reverse.mpr (mem_map.mpr ⟨p, hp, rfl⟩))

/-! ### `shm_create` -/

theorem Ok.withNew (h : Ok k) (ha : k.status a = .unused)
    (hpages : 0 < size → pages.Nodup ∧ (pages.length : Int) = size / 4096 + 1) :
    Ok (k.withNew caller key size a pages) := by
  have hqueue : a ∉ k.queue := fun hmem => h.used hmem ha
  have hself : (k.withNew caller key size a pages).status a = .alive := update_self ..
  have hother {c : Nat} (hc : c ≠ a) : (k.withNew caller key size a pages).status c = k.status c :=
    update_of_ne hc _ _
  have hmem {c : Nat} : c ∈ (k.withNew caller key size a pages).queue ↔ c ∈ k.queue ∨ c = a := by
    show c ∈ k.queue ++ [a] ↔ _
    simp
  refine ⟨⟨?_, ?_, ?_, ?_, ?_, h.safe⟩, ?_⟩
  · show (k.queue ++ [a]).Nodup
    rw [← concat_eq_append]
    exact h.nodup.concat hqueue
  · intro c hc
    rcases hmem.mp hc with hc | rfl
    · rw [hother (ne_of_mem_of_not_mem hc hqueue)]
      exact h.alive c hc
    · exact hself
  · intro c hc pages' hpages'
    rcases hmem.mp hc with hc | rfl
    · rw [withNew_obj_of_ne (ne_of_mem_of_not_mem hc hqueue)] at hpages'
      exact h.pages c hc pages' hpages'
    rw [withNew_obj_self] at hpages'
    obtain ⟨hsize, rfl⟩ : 0 < size ∧ pages = pages' := by simpa [newObj] using hpages'
    obtain ⟨hnodup, hlength⟩ := hpages hsize
    refine ⟨?_, hnodup, h.unused c ha⟩
    rintro rfl
    simp only [length_nil] at hlength
    omega
  · intro c hc
    by_cases heq : c = a
    · rw [heq, hself]
      intro hunused
      cases hunused
    · rw [hother heq]
      exact h.nodes c hc
  · intro c hc
    by_cases heq : c = a
    · rw [heq, hself] at hc
      cases hc
    · rw [hother heq] at hc
      exact h.unused c hc
  · intro c hc
    rw [hmem]
    by_cases heq : c = a
    · rw [heq, withNew_obj_self]
      exact iff_of_true (.inr rfl) rfl
    · rw [hother heq] at hc
      rw [withNew_obj_of_ne heq, or_iff_left heq]
      exact h.queued c hc

theorem Ok.settles {q : Prop} (h : Ok k) (hq : q) : (ShmSafe k.log ↔ q) ∧ (q → Ok k) := ⟨iff_of_true h.safe hq, fun _ => h⟩

theorem Ok.createNode (h : Ok k) (ho : o ∈ k.queue) (hr : k.createNode caller o opened = some r) :
    (ShmSafe r.2.log ↔ opened ∨ (k.obj o).owner ≠ caller) ∧
      (opened ∨ (k.obj o).owner ≠ caller → Ok r.2) := by
  have halive := h.alive o ho
  have hreturned {k : Shm} (hok : Ok k) (returned : List (Int × Nat)) : Ok { k with returned } :=
    { hok with }
  obtain ⟨k₁, ⟨rfl, rfl⟩ | ⟨rfl, hclose⟩, rfl⟩ := createNode_cases hr
  · have hnodes : ∀ c ∈ o :: k.nodes, k.status c ≠ .unused := by
      rintro c (_ | ⟨_, hc⟩)
      · exact h.used ho
      · exact h.nodes c hc
    exact (hreturned ((h.setNodes hnodes).touch (h.not_freed ho)) (((k.obj o).id, o) :: k.returned)).settles (.inl rfl)
  · have hundestroyed := (h.queued o halive).mp ho
    obtain ⟨hquiet, rfl⟩ | ⟨k₂, -, howner, hk₂, rfl⟩ := shmFsClose_cases hclose
    · have howner : caller ≠ (k.obj o).owner := hquiet.resolve_left (by simp [hundestroyed])
      exact (hreturned ((h.touch (h.not_freed ho)).touch (h.not_freed ho)) (((k.obj o).id, o) :: k.returned)).settles
        (.inr howner.symm)
    have hcond : ¬(false ∨ (k.obj o).owner ≠ caller) := by simp [howner]
    refine ⟨iff_of_false (fun hsafe => ?_) hcond, fun h => absurd h hcond⟩
    -- the object was freed by the close, and its id is read afterwards
    refine hsafe.alive o ?_
    have hfreed : (k₂.kfree o).status o = .freed := update_self ..
    unfold Shm.touch
    simp [hfreed]

/-- A node that finds no descriptor does not belong to its object's owner, and a descriptor is closed at a good moment. -/
def Clean (k : Shm) : Op → Prop
  | .create caller key _ flags _ _ opened =>
    opened = true ∨ (flags = 0 ∧ ∀ o, (k.findByKey key).1 = some o → (k.obj o).owner ≠ caller)
  | .close current o => k.Closable current o
  | _ => True

theorem Ok.create (h : Ok k) (hk : k.exec (.create caller key size flags a pages opened) = some k') :
    (ShmSafe k'.log ↔ k.Clean (.create caller key size flags a pages opened)) ∧
      (k.Clean (.create caller key size flags a pages opened) → Ok k') := by
  obtain ⟨henabled, hk⟩ := ite_none_right_eq_some.mp hk
  obtain ⟨r, hr, rfl⟩ := map_eq_some_iff.mp hk
  obtain ⟨hok, hqueue, hobj⟩ := h.walk fun b => decide (b.key = key)
  obtain ⟨hflags, hfind, rfl⟩ | ⟨o, hflags, hfind, hr⟩ | ⟨hflags, hr⟩ := shmCreate_cases hr
  · refine hok.settles (.inr ⟨hflags, ?_⟩)
    intro o ho
    rw [hfind] at ho
    cases ho
  · have ho : o ∈ k.queue := mem_queue_of_walk hfind
    have hclean : k.Clean (.create caller key size flags a pages opened) ↔
        opened ∨ (k.obj o).owner ≠ caller := by
      unfold Clean
      simp [hflags, hfind]
    have hmem : o ∈ (k.findByKey key).2.queue := by
      unfold findByKey
      rwa [hqueue]
    have hnode := hok.createNode hmem hr
    rw [hobj] at hnode
    rw [hclean]
    exact hnode
  · obtain ⟨ha, hpages⟩ := henabled.resolve_left hflags
    have hnew : Ok (k.withNew caller key size a pages) := h.withNew ha hpages
    have hnode := hnew.createNode (mem_append_right _ (mem_singleton_self a)) hr
    have hclean : k.Clean (.create caller key size flags a pages opened) ↔
        opened ∨ ((k.withNew caller key size a pages).obj a).owner ≠ caller := by
      unfold Clean
      rw [withNew_obj_self]
      simp [hflags, newObj]
    rw [hclean]
    exact hnode

theorem Ok.shmat {w : Nat} {r : Int × List (Nat × Nat) × Shm} (h : Ok k) (hr : k.shmat id w = some r) :
    Ok r.2.2 := by
  have hwalk : Ok (k.find id).2 := (h.walk _).1
  obtain heq | ⟨o, heq⟩ := shmat_cases hr
  · rw [heq]
    exact hwalk
  · rw [heq]
    exact hwalk.setAtCnt o fun n => n + 1

theorem Ok.shmdt {phys : Nat} (h : Ok k) (hr : k.shmdt phys = some r) : Ok r.2 := by
  obtain ⟨hok, hqueue, -⟩ := h.walk (starts phys)
  obtain heq | ⟨o, k₁, hfind, rfl, hr⟩ := shmdt_cases hr
  · rw [heq]
    exact hok
  have hcount := hok.setAtCnt o fun n => n - 1
  obtain heq | ⟨k₂, hat, hk₂, heq⟩ := hr
  · rw [heq]
    exact hcount
  have ho : o ∈ (k.walk (starts phys) k.queue).2.queue := by
    rw [hqueue]
    exact mem_queue_of_walk hfind
  rw [heq]
  exact (hcount.release ho hat hk₂).mark.kfree.ok (.inl (update_self ..))

theorem Ok.destroy (h : Ok k) (hr : k.destroy id = some r) : Ok r.2 := by
  obtain ⟨hok, hqueue, -⟩ := h.walk fun b => decide (b.id = id)
  obtain heq | ⟨o, k₁, hfind, hat, hk₁, heq⟩ := destroy_cases hr
  · rw [heq]
    exact hok
  have ho : o ∈ (k.find id).2.queue := by
    unfold Shm.find
    rw [hqueue]
    exact mem_queue_of_walk hfind
  rw [heq]
  exact (hok.release ho hat hk₁).mark.ok (.inr (by rw [modify_obj_self]))

theorem Ok.exec (h : Ok k) (hk : k.exec op = some k') :
    (ShmSafe k'.log ↔ k.Clean op) ∧ (k.Clean op → Ok k') := by
  cases op with
  | create => exact h.create hk
  | attach id w =>
    obtain ⟨r, hr, rfl⟩ := map_eq_some_iff.mp hk
    exact (h.shmat hr).settles trivial
  | detach phys =>
    obtain ⟨r, hr, rfl⟩ := map_eq_some_iff.mp hk
    exact (h.shmdt hr).settles trivial
  | destroy id =>
    obtain ⟨r, hr, rfl⟩ := map_eq_some_iff.mp hk
    exact (h.destroy hr).settles trivial
  | close current o =>
    obtain ⟨ho, hk⟩ := ite_none_right_eq_some.mp hk
    have hnodes : Ok { k with nodes := k.nodes.erase o } := h.setNodes fun c hc => h.nodes c (mem_of_mem_erase hc)
    have hused := h.nodes o ho
    exact ⟨⟨hnodes.closable hused hk, fun hclean => (hnodes.shmFsClose hused hclean hk).safe⟩,
      fun hclean => hnodes.shmFsClose hused hclean hk⟩

/-- Pages and objects are used well in a run only if every close comes at a good moment, those of nodes without a
    descriptor included; then they are. -/
theorem shm_page_lifetime (obj : Nat → ShmObj) (ops : List Op) :
    Lts.Along Shm.exec (fun _ _ k => ShmSafe k.log) (init obj) ops ↔
      Lts.Along Shm.exec (fun k op _ => k.Clean op) (init obj) ops :=
  Lts.along_iff Ok (.init obj) (fun h hk => (h.exec hk).1) (fun h hk => (h.exec hk).2) ops

/-- Process 1 makes an object, process 2 attaches and detaches it, and 1 makes another one and closes it. -/
theorem shm_page_lifetime_detach :
    Lts.Along Shm.exec (fun _ _ k => ShmSafe k.log) (init fun _ => ⟨0, 0, 0, 0, none, 0, false⟩)
      [.create 1 0 4096 1 10 [100, 101] true, .attach 0 0x40000000, .detach 100, .create 1 0 1 1 11 [100] true,
        .close 1 11] := by
  refine (shm_page_lifetime _ _).mpr ?_
  rintro k ⟨rfl⟩
  refine ⟨.inl rfl, ?_⟩
  rintro k ⟨rfl⟩
  refine ⟨trivial, ?_⟩
  rintro k ⟨rfl⟩
  refine ⟨trivial, ?_⟩
  rintro k ⟨rfl⟩
  refine ⟨.inl rfl, ?_⟩
  rintro k ⟨rfl⟩
  exact ⟨⟨nofun, .inr (.inr (by decide))⟩, trivial⟩

/-- The owner closes its descriptor while process 2 is attached. -/
theorem shm_page_freed_attached :
    ¬Lts.Along Shm.exec (fun _ _ k => ShmSafe k.log) (init fun _ => ⟨0, 0, 0, 0, none, 0, false⟩)
      [.create 1 0 1 1 10 [100] true, .attach 0 0x40000000, .close 1 10] := by
  intro h
  obtain ⟨-, h⟩ := h _ rfl
  obtain ⟨-, h⟩ := h _ rfl
  obtain ⟨hsafe, -⟩ := h _ rfl
  exact absurd (hsafe.unattached 10 100 1 (by decide)) (by decide)

end Shm
end HelinKern
