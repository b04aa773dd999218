import Mathlib
import MipsWords.Proofs.OperandRuns

/-!
# A run without its log

What is left of a run when its notices are taken out are its results: the lines
and the failures, in order. The standard output, the status and the failures are
read off these alone, so two runs with the same results can differ in their log
and in nothing else. An operand leaves one result, and so an accepted command
line leaves one for each of its operands.
-/

namespace MipsWords.Command

/-- The lines and the failures of a run. -/
def Run.results (r : Run) : List Event := r.events.filter fun e => !e.isNotice

/-- A line, or the failure of an input. -/
def Event.ofResult (input : String) : Except Error String → Event
  | .ok text => .line text
  | .error error => .failure (input ++ ": " ++ error.message)

/-- What an operand leaves behind. -/
def Item.outcome (names : Lookup) (style : Style) (x : Item) : Event :=
  .ofResult x.input (x.result names style)

theorem filter_notices {es : List Event} (h : ∀ e ∈ es, e.isNotice = true) :
    es.filter (fun e => !e.isNotice) = [] := by
  simpa using h

theorem Item.results_events (names : Lookup) (style : Style) (x : Item) :
    (x.events names style).filter (fun e => !e.isNotice) = [x.outcome names style] := by
  obtain ⟨noted, hnoted, heq⟩ := x.events_eq names style
  rw [heq, List.filter_append, filter_notices hnoted, List.nil_append, outcome]
  cases x.result names style <;> rfl

/-- An accepted command line leaves one result for each operand, in the order of the operands. -/
theorem Invocation.Accepted.results_run {files : Files} {i : Invocation} {s : Settings} {t : Table}
    (h : i.Accepted files s t) (level : Level) :
    (i.run files level).results = i.job.items.map (Item.outcome t.resolve s.style) := by
  rw [Run.results, Invocation.run, h.settings]
  simp only [h.events_eq]
  rw [List.filter_append, filter_notices (isNotice_of_mem_tableNotices t _), List.nil_append,
    List.filter_flatMap]
  simp only [Item.results_events]
  exact List.map_eq_flatMap.symm

end MipsWords.Command
