import Conjunctive.Value.Basic

/-!
# The order of keys

The keys of a map are written in order if every two of them can be compared: texts, bytes,
numbers, days, moments by universal time and moments by the clock, each with their like.
Otherwise they stay as they are.

What is not a number can be compared with numbers, but comes before none and after none.
Hence it matters how keys are put in order: those that stand in order from the start stay
or, if they all go down, are turned round; each further key is put where halving the keys
before it leads.
-/

namespace Conjunctive

namespace Yaml

/-- Keys that can be compared with each other. -/
inductive KeyClass where
  | text
  | bytes
  | number
  | day
  | instant (universal : Bool)
  deriving DecidableEq

/-- With which keys a key can be compared. -/
def keyClass? (v : Value) : Option KeyClass :=
  match v.denotation with
  | .text _ => some .text
  | .bytes _ => some .bytes
  | .number _ | .infinity _ | .notANumber _ => some .number
  | .date _ => some .day
  | .instant universal _ => some (.instant universal)
  | .nothing | .unbound | .collection _ => none

/-- Whether a key comes before another with which it can be compared. -/
def keyLt (v w : Value) : Bool :=
  match v.denotation, w.denotation with
  | .text s, .text t => decide (s < t)
  | .bytes bs, .bytes cs => decide (bs < cs)
  | .number p, .number q => decide (p < q)
  | .number _, .infinity negative => !negative
  | .infinity negative, .number _ => negative
  | .infinity negative, .infinity other => negative && !other
  | .date d, .date e => decide (d.ordinal < e.ordinal)
  | .instant _ m, .instant _ n => decide (m < n)
  | _, _ => false

variable {α : Type}

/-- The length of the longest beginning in which each neighbour of the item before it is
in a relation to it. -/
def runLength (next : α → α → Bool) : α → List α → Nat
  | _, [] => 0
  | a, b :: bs => if next a b then 1 + runLength next b bs else 0

/-- The items with a beginning that is in order, its length being given. A beginning that
goes down is turned round. -/
def startOrdered (lt : α → α → Bool) : List α → Nat × List α
  | a :: b :: cs =>
    if lt b a then
      let n := 2 + runLength (fun x y => lt y x) b cs
      (n, ((a :: b :: cs).take n).reverse ++ (a :: b :: cs).drop n)
    else (2 + runLength (fun x y => !lt y x) b cs, a :: b :: cs)
  | as => (as.length, as)

/-- The place among items for one that comes last of those it does not come before. The
first bound is on how often the items are halved. -/
def placeFor (lt : α → α → Bool) (items : Array α) (a : α) : Nat → Nat → Nat → Nat
  | 0, low, _ => low
  | bound + 1, low, high =>
    if low < high then
      let middle := low + (high - low) / 2
      match items[middle]? with
      | none => low
      | some b =>
        if lt a b then placeFor lt items a bound low middle
        else placeFor lt items a bound (middle + 1) high
    else low

/-- Put an item among others. -/
def place (lt : α → α → Bool) (items : Array α) (a : α) : Array α :=
  (items.toList.insertIdx (placeFor lt items a items.size 0 items.size) a).toArray

/-- Items put in order. -/
def ordered (lt : α → α → Bool) (as : List α) : List α :=
  let (n, bs) := startOrdered lt as
  ((bs.drop n).foldl (place lt) (bs.take n).toArray).toList

/-- The entries of a map in the order of their keys, or as they are if some keys cannot
be compared. -/
def sorted (es : List (Value × α)) : List (Value × α) :=
  match es with
  | [] => []
  | e :: _ =>
    match keyClass? e.1 with
    | none => es
    | some c =>
      if es.all fun f => keyClass? f.1 == some c then ordered (fun x y => keyLt x.1 y.1) es
      else es

end Yaml

end Conjunctive
