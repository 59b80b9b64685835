import StackCompiler.Journal.Statistics

-- The journal of a compilation: its events, in the order in which they came. A computation that
-- keeps a journal keeps it also when it fails.

namespace StackCompiler

abbrev Journal := Array Event

namespace Journal

def record (j : Journal) (e : Event) : Journal :=
  j.push e

def statistics (j : Journal) : Statistics :=
  j.foldl Statistics.record {}

-- The lines of the log at `level` and at more severe levels.
def log (j : Journal) (level : Level) : List (Level × String) :=
  (j.toList.filterMap Event.logLine?).filter fun line => line.1.rank ≤ level.rank

theorem statistics_record (j : Journal) (e : Event) :
    (j.record e).statistics = j.statistics.record e := by
  simp [statistics, record]

end Journal

-- A computation that can fail and that keeps a journal.
abbrev Journaled (ε α : Type) := EStateM ε Journal α

namespace Journaled

def note (e : Event) : Journaled ε Unit :=
  modify (·.record e)

end Journaled

end StackCompiler
