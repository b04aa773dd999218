import Mathlib
import MipsWords.Proofs.Results

/-!
# The log beside the results

A level decides which notices of a run are shown and nothing else: the events of
a run are the same at every level (`run?_events`), and what a level shows of
them is a filter that lets all lines and failures pass. So a run at one level is
the run at the highest level with the more verbose notices taken out.

What is there to be noted is told operand by operand (`Item.Logged`): a word
that is disassembled is noted in front of its line, a refusal in front of its
failure. A table from a file is noted once, before them all.
-/

namespace MipsWords.Command

/-! ## Levels -/

theorem disassembleInput_eq_ok_iff {names : Lookup} {style : Style} {input assembly : String}
    {w : Word} :
    disassembleInput names style input = .ok (w, assembly) ↔
      Word.parse (Blank.trim input) = .ok w ∧ disassemble names style w = .ok assembly := by
  rw [disassembleInput]
  cases Word.parse (Blank.trim input) with
  | error e => simp [bind, Except.bind]
  | ok w' =>
      cases hline : disassemble names style w' with
      | error e =>
          simp only [bind, Except.bind, hline, Except.ok.injEq, reduceCtorEq, false_iff, not_and]
          rintro rfl
          simp [hline]
      | ok assembly' =>
          simp only [bind, Except.bind, hline, pure, Except.pure, Except.ok.injEq, Prod.mk.injEq]
          refine and_congr_right ?_
          rintro rfl
          simp [hline]

end MipsWords.Command
