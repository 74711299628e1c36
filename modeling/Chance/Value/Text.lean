import Chance.Pmf.Text
import Chance.Value

/-!
# Values as text and as summaries

`text` is the short form.  A summary is a JSON object with the kind first; the support of a mass
function is sorted by outcome, so it does not depend on the order in which outcomes occurred.
-/

namespace Chance
namespace Value

def text : Value Float → String
  | .bool s => s.text
  | .int s => s.text
  | .float s => s.text
  | .continuous s => s.text
  | .distribution d => d.text

/-- the entries by rank, entries of one rank in the order of the mass function -/
def sorted {α M : Type} [Outcome α] (s : Pmf α M) : List (α × M) :=
  s.entries.mergeSort fun e f => decide (Outcome.rank e.1 ≤ Outcome.rank f.1)

def pmfSummary {α : Type} [Outcome α] (kind : String) (write : α → Json) (s : Pmf α Float) : Json :=
  .object [("kind", .string kind), ("support", .array ((sorted s).map fun e =>
    .object [("value", write e.1), ("mass", .number (.float e.2))]))]

def summary : Value Float → Json
  | .bool s => pmfSummary "bool" .bool s
  | .int s => pmfSummary "int" (fun n => .number (.integer n.toInt)) s
  | .float s => pmfSummary "float" (fun x => .number (.float x.toFloat)) s
  | .continuous s => .object
    [("kind", .string "continuous"), ("distribution", s.law.toJson),
      ("a", .number (.float s.offset)), ("b", .number (.float s.scale))]
  | .distribution d => .object
    [("kind", .string "distribution"), ("name", .string d.name), ("text", .string d.text)]

/-- the summary with one member a line -/
def summaryText (v : Value Float) : String := v.summary.pretty

end Value
end Chance
