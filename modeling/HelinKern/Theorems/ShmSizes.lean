import HelinKern.Theorems.Shm

/-! The pages of a shared memory object: from `shm_create` on as many as its size needs, and after its end none. -/

namespace HelinKern
namespace Shm
open List Option

variable {k k' k'' : Shm} {o : Nat} {f : ShmObj → ShmObj} {op : Op}

def Sized (k : Shm) : Prop :=
  ∀ o ∈ k.queue, ∀ pages, (k.obj o).pageQueue = some pages →
    0 < (k.obj o).size ∧ (pages.length : Int) ≤ (k.obj o).size / 4096 + 1

structure KeepsSizes (k k' : Shm) : Prop where
  queue : ∀ o ∈ k'.queue, o ∈ k.queue
  size : ∀ o, (k'.obj o).size = (k.obj o).size
  pages : ∀ o, (k'.obj o).pageQueue = (k.obj o).pageQueue ∨
    (k'.obj o).pageQueue = some [] ∧ ∃ pages, (k.obj o).pageQueue = some pages

namespace KeepsSizes

theorem of_obj (hqueue : k'.queue = k.queue) (hobj : k'.obj = k.obj) : KeepsSizes k k' :=
  ⟨fun _ ho => hqueue ▸ ho, fun _ => by rw [hobj], fun _ => by rw [hobj]; exact .inl rfl⟩

theorem trans (h : KeepsSizes k k') (h' : KeepsSizes k' k'') : KeepsSizes k k'' := by
  refine ⟨fun o ho => h.queue o (h'.queue o ho), fun o => (h'.size o).trans (h.size o), fun o => ?_⟩
  rcases h'.pages o with heq | ⟨hnil, pages, hpages⟩
  · rw [heq]
    exact h.pages o
  refine .inr ⟨hnil, ?_⟩
  rcases h.pages o with heq | ⟨-, hsome⟩
  · exact ⟨pages, heq ▸ hpages⟩
  · exact hsome

theorem walk (k : Shm) (p : ShmObj → Bool) (os : List Nat) : KeepsSizes k (k.walk p os).2 := by
  obtain ⟨visited, -, heq⟩ := walk_snd k p os
  rw [heq]
  exact of_obj rfl rfl

theorem modify (k : Shm) (o : Nat) (hsize : (f (k.obj o)).size = (k.obj o).size)
    (hpages : (f (k.obj o)).pageQueue = (k.obj o).pageQueue) : KeepsSizes k (k.modify o f) :=
  ⟨fun _ ho => ho, modify_field ShmObj.size hsize, fun c => .inl (modify_field ShmObj.pageQueue hpages c)⟩

theorem release (h : k.release o = some k') : KeepsSizes k k' := by
  obtain ⟨pages, hpages, rfl⟩ := release_eq h
  refine ⟨fun c hc => mem_of_mem_erase hc, fun c => ?_, fun c => ?_⟩
  · exact modify_field (f := fun x => { x with pageQueue := some [] }) ShmObj.size rfl c
  · dsimp only
    by_cases hc : c = o
    · subst hc
      rw [modify_obj_self]
      exact .inr ⟨rfl, pages, hpages⟩
    · rw [modify_obj_of_ne hc]
      exact .inl rfl

theorem shmFsClose {current : Nat} (h : k.shmFsClose current o = some k') : KeepsSizes k k' := by
  have htouch : KeepsSizes k (k.touch o) := of_obj rfl rfl
  obtain ⟨-, rfl⟩ | ⟨k₁, -, -, hk₁, rfl⟩ := shmFsClose_cases h
  · exact htouch
  · exact (htouch.trans (release hk₁)).trans (of_obj rfl rfl)

variable {r : Int × Shm}

theorem createNode {caller : Nat} {opened : Bool} (h : k.createNode caller o opened = some r) : KeepsSizes k r.2 := by
  obtain ⟨k₁, hk₁, rfl⟩ := createNode_cases h
  have hclose : KeepsSizes k k₁ := by
    rcases hk₁ with ⟨-, rfl⟩ | ⟨-, hk₁⟩
    · exact of_obj rfl rfl
    · exact shmFsClose hk₁
  exact hclose.trans (of_obj rfl rfl)

theorem shmdt {phys : Nat} (h : k.shmdt phys = some r) : KeepsSizes k r.2 := by
  have hwalk := walk k (starts phys) k.queue
  obtain heq | ⟨o, k₁, -, rfl, hr⟩ := shmdt_cases h
  · rw [heq]
    exact hwalk
  have hcount := hwalk.trans (modify _ o (f := fun x => { x with atCnt := x.atCnt - 1 }) rfl rfl)
  obtain heq | ⟨k₂, -, hk₂, heq⟩ := hr
  · rw [heq]
    exact hcount
  · rw [heq]
    exact ((hcount.trans (release hk₂)).trans (modify (f := fun x => { x with destroyed := true }) _ _ rfl rfl)).trans
      (of_obj rfl rfl)

theorem destroy {id : Int} (h : k.destroy id = some r) : KeepsSizes k r.2 := by
  have hwalk : KeepsSizes k (k.find id).2 := walk ..
  obtain heq | ⟨o, k₁, -, -, hk₁, heq⟩ := destroy_cases h
  · rw [heq]
    exact hwalk
  · rw [heq]
    exact (hwalk.trans (release hk₁)).trans (modify (f := fun x => { x with destroyed := true }) _ _ rfl rfl)

theorem shmat {id : Int} {w : Nat} {r : Int × List (Nat × Nat) × Shm} (h : k.shmat id w = some r) : KeepsSizes k r.2.2 := by
  have hwalk : KeepsSizes k (k.find id).2 := walk ..
  obtain heq | ⟨o, heq⟩ := shmat_cases h
  · rw [heq]
    exact hwalk
  · rw [heq]
    exact hwalk.trans (modify (f := fun x => { x with atCnt := x.atCnt + 1 }) _ _ rfl rfl)

end KeepsSizes

theorem Sized.keeps (h : Sized k) (hk : KeepsSizes k k') : Sized k' := by
  intro o ho pages hpages
  rw [hk.size o]
  rcases hk.pages o with heq | ⟨hnil, pages', hpages'⟩
  · exact h o (hk.queue o ho) pages (heq ▸ hpages)
  obtain ⟨hpos, -⟩ := h o (hk.queue o ho) pages' hpages'
  rw [hnil] at hpages
  cases hpages
  rw [length_nil]
  omega

theorem Sized.withNew (h : Sized k) {caller a : Nat} {key size : Int} {pages : List Nat}
    (hpages : 0 < size → (pages.length : Int) = size / 4096 + 1) : Sized (k.withNew caller key size a pages) := by
  intro o ho pages' hpages'
  by_cases hne : o = a
  · subst hne
    rw [withNew_obj_self] at hpages' ⊢
    unfold newObj at hpages' ⊢
    split at hpages'
    next hpos =>
      cases hpages'
      exact ⟨hpos, Int.le_of_eq (hpages hpos)⟩
    · cases hpages'
  · rw [withNew_obj_of_ne hne] at hpages' ⊢
    refine h o ?_ pages' hpages'
    rcases mem_append.mp ho with ho | ho
    · exact ho
    · exact absurd (mem_singleton.mp ho) hne

theorem Sized.exec (h : Sized k) (hk : k.exec op = some k') : Sized k' := by
  cases op with
  | create caller key size flags a pages opened =>
    unfold Shm.exec at hk
    dsimp only at hk
    split at hk
    next hallowed =>
      obtain ⟨r, hr, rfl⟩ := map_eq_some_iff.mp hk
      obtain ⟨-, -, rfl⟩ | ⟨o, -, -, hnode⟩ | ⟨hflags, hnode⟩ := shmCreate_cases hr
      · exact h.keeps (.walk ..)
      · exact (h.keeps (.walk ..)).keeps (.createNode hnode)
      · obtain ⟨-, hpages⟩ := hallowed.resolve_left hflags
        exact (h.withNew fun hpos => (hpages hpos).2).keeps (.createNode hnode)
    · cases hk
  | attach id where_ =>
    obtain ⟨r, hr, rfl⟩ := map_eq_some_iff.mp hk
    exact h.keeps (.shmat hr)
  | detach phys =>
    obtain ⟨r, hr, rfl⟩ := map_eq_some_iff.mp hk
    exact h.keeps (.shmdt hr)
  | destroy id =>
    obtain ⟨r, hr, rfl⟩ := map_eq_some_iff.mp hk
    exact h.keeps (.destroy hr)
  | close current o =>
    unfold Shm.exec at hk
    dsimp only at hk
    split at hk
    · have hnodes : KeepsSizes k { k with nodes := k.nodes.erase o } := .of_obj rfl rfl
      exact (h.keeps hnodes).keeps (.shmFsClose hk)
    · cases hk

def Reachable (k : Shm) : Prop := ∃ obj ops, Lts.Run (fun k op k' => k.exec op = some k') (init obj) ops k

theorem Reachable.sized (h : Reachable k) : Sized k := by
  obtain ⟨obj, ops, hrun⟩ := h
  refine hrun.invariant Sized ?_ fun h hstep => h.exec hstep
  intro o ho
  cases ho

end Shm

end HelinKern
