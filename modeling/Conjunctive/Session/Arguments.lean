import Conjunctive.Text.Decimal
import Conjunctive.Text.Split
import Conjunctive.Value.Basic

/-!
# Arguments of the command line

An option is named in full or by the start of its name, if no other option starts in
the same way. Its value is the next argument, or follows an equality sign; two hyphens
after an equality sign give it an empty list for a value. Nothing but options is accepted,
and of several values for one option the last counts.

First it is settled for every argument whether it names an option; one that could name
several is refused. Then the options are gone through in order, and what goes wrong first
counts. Arguments that belong to no option are passed over, since help may still be asked
for after them.
-/

namespace Conjunctive

/-- What the command line asks for. -/
structure Arguments where
  /-- The settings file. -/
  config : Value
  /-- The file of queries. -/
  queries : Value
  /-- The file for the results, if one is named. -/
  output : Value
  showsProgress : Bool

/-- An option of the command line. -/
inductive Flag where
  | config
  | queries
  | output
  | progress
  | help
  deriving DecidableEq

namespace Flag

/-- The options by their long names. -/
def table : List (String × Flag) :=
  [("--config", config), ("--queries-file", queries), ("--output", output),
    ("--progress", progress), ("--help", help)]

/-- Whether an option takes a value. -/
def takesValue : Flag → Bool
  | config | queries | output => true
  | progress | help => false

end Flag

/-- What an argument is, taken by itself. -/
inductive Argument where
  /-- A value, or something that is no option. -/
  | value (s : String)
  /-- An option, and the value that follows an equality sign. -/
  | option (f : Flag) (value : Option String)
  /-- What follows the letter of help. -/
  | letters (cs : List Char)
  /-- The start of an option that is not known. -/
  | unknown
  /-- The mark after which there are no options. -/
  | mark
  deriving DecidableEq

namespace Argument

/-- Whether an argument is a number with a minus sign in front. -/
def isNegativeNumber (cs : List Char) : Bool :=
  let line := if cs.getLast? = some '\n' then cs.dropLast else cs
  match line with
  | '-' :: cs =>
    match Text.splitAt '.' cs with
    | [whole] => !whole.isEmpty && whole.all Text.isDecimal
    | [whole, fraction] =>
      whole.all Text.isDecimal && !fraction.isEmpty && fraction.all Text.isDecimal
    | _ => false
  | _ => false

/-- The options whose names start in a way, unless one has just this name. -/
def flagsNamed (name : String) : List Flag :=
  match List.lookup name Flag.table with
  | some f => [f]
  | none => (Flag.table.filter fun p => p.1.startsWith name).map Prod.snd

/-- What an argument is that starts with two hyphens: none if it could be several
options. -/
def ofLong? (s : String) : Option Argument :=
  let name := s.toList.takeWhile (· != '=')
  let value := match s.toList.drop name.length with
    | [] => none
    | _ :: cs => some (String.ofList cs)
  match flagsNamed (String.ofList name) with
  | [f] => some (.option f value)
  | [] => some (if s.contains ' ' then .value s else .unknown)
  | _ => none

/-- What an argument is: none if it could be several options. -/
def of? (s : String) : Option Argument :=
  match s.toList with
  | ['-', '-'] => some .mark
  | '-' :: '-' :: _ => ofLong? s
  | '-' :: 'h' :: cs => some (.letters cs)
  | '-' :: c :: cs =>
    let isValue := isNegativeNumber ('-' :: c :: cs) || s.contains ' '
    some (if isValue then .value s else .unknown)
  | _ => some (.value s)

/-- What arguments are. After the mark all are values. -/
def ofAll? : List String → Option (List Argument)
  | [] => some []
  | s :: ss => do
    let a ← of? s
    if a = .mark then some (.mark :: ss.map .value)
    else do
      let as ← ofAll? ss
      pure (a :: as)

end Argument

namespace Arguments

/-- The arguments of an empty command line. -/
def defaults : Arguments :=
  ⟨.text "config/cq.yaml", .text "test_data/queries.cq", .null, false⟩

/-- Give an option a value. -/
def give (a : Arguments) (value : Value) : Flag → Arguments
  | .config => { a with config := value }
  | .queries => { a with queries := value }
  | .output => { a with output := value }
  | .progress | .help => a

/-- The value that follows an equality sign. -/
def valueAfterSign (s : String) : Value := if s = "--" then .list [] else .text s

end Arguments

/-- What a command line amounts to. -/
inductive Invocation where
  | run (a : Arguments)
  | help
  | refused

namespace Invocation

/-- What follows the letter of help amounts to: nothing but the same letter may follow,
perhaps after an equality sign. -/
def ofLetters (cs : List Char) : Invocation :=
  let letters := if cs.head? = some '=' ∧ 1 < cs.length then cs.drop 1 else cs
  if letters.all (· == 'h') then help else refused

/-- Go through arguments, some having been read already, which were all known or not. -/
def ofArguments (a : Arguments) (known : Bool) : List Argument → Invocation
  | [] => if known then run a else refused
  | .value _ :: rest | .unknown :: rest | .mark :: rest => ofArguments a false rest
  | .letters cs :: _ => ofLetters cs
  | .option f (some value) :: rest =>
    if f.takesValue then ofArguments (a.give (Arguments.valueAfterSign value) f) known rest
    else refused
  | .option .progress none :: rest => ofArguments { a with showsProgress := true } known rest
  | .option .help none :: _ => help
  | .option f none :: .value s :: rest => ofArguments (a.give (.text s) f) known rest
  | .option _ none :: _ => refused

/-- Read the arguments of a command line. -/
def read (args : List String) : Invocation :=
  match Argument.ofAll? args with
  | some as => ofArguments .defaults true as
  | none => refused

end Invocation

end Conjunctive
