import RegCode.Text.Basic

/-!
# Sorted tables

A table of packed entries, in the order of the disjoint ranges that they stand for, is searched by
halving.
-/

namespace RegCode.Text.Sorted

/-- The entry whose range holds `c`, among those from `lo` to before `hi`. The range of an entry, its
ends included, is given by `range`; `steps` bounds the number of halvings. -/
def findBetween (table : Array Nat) (range : Nat → Nat × Nat) (c : Nat) :
    Nat → Nat → Nat → Option Nat
  | 0, _, _ => none
  | steps + 1, lo, hi =>
    if lo < hi then
      let mid := (lo + hi) / 2
      let entry := table.getD mid 0
      if c < (range entry).1 then findBetween table range c steps lo mid
      else if (range entry).2 < c then findBetween table range c steps (mid + 1) hi
      else some entry
    else none

def find (table : Array Nat) (range : Nat → Nat × Nat) (c : Nat) : Option Nat :=
  findBetween table range c (table.size.log2 + 1) 0 table.size

end RegCode.Text.Sorted
