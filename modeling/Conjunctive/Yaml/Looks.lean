import Conjunctive.Yaml.Timestamp

/-!
# The kind that a plain scalar looks like

The looks of a scalar are tried in order: nothing, the two signs with a meaning of their
own, truth values, floats, integers and times. A newline at the end does not count, unless
there is nothing before it.
-/

namespace Conjunctive

namespace Yaml

/-- The kind that a scalar without quotes and without a tag is of. -/
def looks (s : String) : Kind :=
  let cs := withoutNewline s.toList
  let word := String.ofList cs
  if s = "\n" then .text
  else if nullWords.contains word then .null
  else if word = "<<" then .merge
  else if word = "=" then .default
  else if isTruth word then .bool
  else if isFloat cs then .float
  else if isInt cs then .int
  else if isTime cs then .time
  else .text

end Yaml

end Conjunctive
