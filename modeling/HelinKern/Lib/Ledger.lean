import Mathlib.Data.List.Nodup

/-! Blocks that are taken and given back, with a record of what was given back without being taken.

Blocks are numbered as they are taken. A pointer can be given back if it is the start of a block that is live. -/

/-- The live blocks, the number of the next one, and the pointers that were freed although no live block starts there. -/
structure Ledger (π : Type) where
  live : List Nat
  next : Nat
  wild : List π
  lt_next : ∀ b ∈ live, b < next
  nodup : live.Nodup

namespace Ledger
open List

variable {π : Type}

def alloc (s : Ledger π) : Nat × Ledger π :=
  (s.next,
    { live := s.next :: s.live
      next := s.next + 1
      wild := s.wild
      lt_next := fun b hb => by
        rcases mem_cons.mp hb with rfl | hb
        · exact Nat.lt_succ_self _
        · exact Nat.lt_succ_of_lt (s.lt_next b hb)
      nodup := nodup_cons.mpr ⟨fun h => Nat.lt_irrefl _ (s.lt_next _ h), s.nodup⟩ })

/-- `start p` is the block that the pointer `p` is the start of. -/
def free (start : π → Option Nat) (s : Ledger π) (p : π) : Ledger π :=
  match start p with
  | some b =>
    if b ∈ s.live then
      { s with
        live := s.live.erase b
        lt_next := fun c hc => s.lt_next c (mem_of_mem_erase hc)
        nodup := s.nodup.erase b }
    else { s with wild := p :: s.wild }
  | none => { s with wild := p :: s.wild }

end Ledger
