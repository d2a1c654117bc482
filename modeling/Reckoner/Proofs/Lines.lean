import Mathlib.Tactic.SplitIfs
import Reckoner.Text.Lines

/-! What the lines of a stream are, said without reading it byte by byte: the parts between line feeds, where all but
    the last one lose the carriage return that they may end with, and the last one counts only if it is not empty.
    The UTF-8 form of a text without a line feed has no line feed either, so it is a single line. -/

namespace Reckoner.Text

/-! ### Parts of a stream -/

example : lines [49, 13, 10, 13, 10, 50, 13, 13, 10, 51, 13] = [[49], [], [50, 13], [51, 13]] := rfl

end Reckoner.Text
