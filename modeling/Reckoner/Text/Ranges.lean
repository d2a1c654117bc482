/-! Sets of characters given as ranges of code points. -/

namespace Reckoner.Text

/-- Whether the code point of `c` lies in one of `ranges`, whose ends are included. -/
def inRanges (ranges : List (Nat × Nat)) (c : Char) : Bool :=
  ranges.any fun range => decide (range.1 ≤ c.toNat) && decide (c.toNat ≤ range.2)

theorem inRanges_of_mem {ranges : List (Nat × Nat)} {c : Char} (low high : Nat)
    (hmem : (low, high) ∈ ranges) (hlow : low ≤ c.toNat) (hhigh : c.toNat ≤ high) :
    inRanges ranges c = true :=
  List.any_eq_true.mpr ⟨(low, high), hmem, by simp [hlow, hhigh]⟩

end Reckoner.Text
