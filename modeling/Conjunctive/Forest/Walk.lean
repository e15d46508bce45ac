import Conjunctive.Forest.Basic

/-!
# Walks through a forest

A walk from below goes level by level: it starts with a level of nodes, and a
parent enters the next level when the last of its children has been visited.
A walk from above goes along the links to children, again level by level.

The walks take a bound on the number of levels. There are never more levels
than nodes, since each level holds a node that no earlier level holds.
-/

namespace Conjunctive

namespace Forest

/-- Whether a node is among those done. -/
def isDone (done : List Hyperedge) (n : Hyperedge) : Bool :=
  done.any fun m => m.vertices == n.vertices

/-- The parent of a node if all its children are done. -/
def readyParent? (f : Forest) (done : List Hyperedge) (n : Hyperedge) : Option Hyperedge :=
  (f.parent? n).filter fun p => (f.children p).all (isDone done)

/-- Visit the nodes of a level one after the other. Gives all nodes done and the
parents that became ready. -/
def visitLevel (f : Forest) (done next : List Hyperedge) :
    List Hyperedge → List Hyperedge × List Hyperedge
  | [] => (done, next)
  | n :: ns =>
    let done := done ++ [n]
    f.visitLevel done ((f.readyParent? done n).toList.foldl addNode next) ns

/-- The walk from below that starts with a level, some nodes being done. -/
def bottomUpFrom (f : Forest) : Nat → List Hyperedge → List Hyperedge → List Hyperedge
  | 0, _, _ => []
  | fuel + 1, level, done =>
    if level.isEmpty then []
    else
      let (done, next) := f.visitLevel done [] level
      level ++ f.bottomUpFrom fuel next done

/-- All nodes, each after its children. -/
def bottomUp (f : Forest) : List Hyperedge := f.bottomUpFrom f.nodes.length f.leaves []

/-- All nodes that have children, each after those of its children that have
children. -/
def innerBottomUp (f : Forest) : List Hyperedge :=
  let start := (f.leaves.filterMap (f.readyParent? f.leaves)).foldl addNode []
  f.bottomUpFrom f.nodes.length start f.leaves

/-- The links from the nodes of a level downward. -/
def topDownFrom (f : Forest) : Nat → List Hyperedge → List (Hyperedge × Hyperedge)
  | 0, _ => []
  | fuel + 1, level =>
    if level.isEmpty then []
    else
      let links := level.flatMap fun n => (f.children n).map fun c => (n, c)
      links ++ f.topDownFrom fuel (links.map Prod.snd)

/-- All links from a parent to a child, each after the link that leads to its
parent. -/
def topDown (f : Forest) : List (Hyperedge × Hyperedge) := f.topDownFrom f.nodes.length f.roots

end Forest

end Conjunctive
