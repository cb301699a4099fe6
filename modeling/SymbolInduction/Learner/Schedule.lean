-- Schedules: the rounds in which a learner asks for programs.

namespace SymbolInduction

/-- Says of a round whether programs are asked for in it. Rounds are counted
from one. -/
abbrev Schedule := Nat → Bool

namespace Schedule

/-- Every `n`th round; no round at all where `n` is zero. -/
def everyNth (n : Nat) : Schedule := fun round => n != 0 && round % n == 0

/-- Every round. -/
def always : Schedule := fun _ => true

end Schedule

end SymbolInduction
