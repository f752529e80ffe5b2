import HelinKern.Theorems.FrameLifetime

/-! What the processes of a run do not share: page tables, pages they may write, and frames with the allocator. -/

namespace HelinKern
open Mmu Lts

variable {role : Nat → Role} {m : Mmu} {live : List Nat} {pd q i i' f : Nat} {s : Machine}

namespace Machine

section
variable {s₀ : Machine} {ops : List SpaceOp} (hok : s₀.Ok) (hrun : Run (fun s op t => s.Step op t ∧ s.Good op) s₀ ops s)
include hok hrun

end

end Machine
end HelinKern
