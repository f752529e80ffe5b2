import HelinKern.Lib.Ledger
import HelinKern.Lookup

/-! Which blocks `strtok` of `src/lib/string.c` frees. `oldword` is NULL, the copy that the end of the last scan made, or a
    pointer into the string that is scanned, behind its start. -/

namespace HelinKern
open List

/-- The blocks that `strtok` takes and frees, and `oldword` with the text at it; `some b` is the copy in the block `b`, and
    `none` a pointer into a string. -/
structure Scanner where
  heap : Ledger (Option Nat)
  oldword : Option (Option Nat × Text)

namespace Scanner

def start : Scanner := ⟨⟨[], 0, [], nofun, nodup_nil⟩, none⟩

/-- A call that has `text` at `s`: the token. -/
def call (st : Scanner) (delim : BitVec 8 → Bool) (text : Text) : Option Text × Scanner :=
  let s := text.dropWhile delim
  if s = [] then
    let heap := match st.oldword with
      | none => st.heap
      | some (p, _) => st.heap.free id p
    (none, ⟨heap.alloc.2, some (some heap.alloc.1, [])⟩)
  else (some (s.takeWhile (!delim ·)), { st with oldword := some (none, (s.dropWhile (!delim ·)).drop 1) })

/-- The calls with NULL after a token. -/
def scanRest (delim : BitVec 8 → Bool) : Nat → Scanner → Scanner
  | 0, st => st
  | n + 1, st =>
    match st.call delim ((st.oldword.map (·.2)).getD []) with
    | (none, st) => st
    | (some _, st) => scanRest delim n st

/-- A complete scan; every token is at least one byte. -/
def scan (st : Scanner) (s : (BitVec 8 → Bool) × Text) : Scanner :=
  match st.call s.1 s.2 with
  | (none, st) => st
  | (some _, st) => scanRest s.1 s.2.length st

end Scanner
end HelinKern
