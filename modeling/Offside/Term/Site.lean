import Offside.Term.Basic
/-!
# Sites

A site tells apart nodes that look alike.  `Term.enumerate` gives a fresh site to every leaf, node and
signature that has none; `Term.graft` puts a new term in every place of the one with a given site, which
is how a change to a node is seen by everything that holds it.
-/

namespace Offside

namespace Term

/-- A fresh site, unless there is one already. -/
def freshSite : Site → StateM Nat Site
  | some n => return some n
  | none => do
    let n ← get
    set (n + 1)
    return some n

mutual

/-- Gives sites to everything in a term that has none. -/
def enumerate : Term → StateM Nat Term
  | .seq items => do return .seq (← enumerateAll items)
  | .arm b r => do return .arm b (← enumerate r)
  | .signature s a r => do return .signature (← freshSite s) a r
  | .leaf k s v => do
    let s ← freshSite s
    return .leaf k s (← enumerate v)
  | .node k s kids => do
    let s ← freshSite s
    return .node k s (← enumerateAll kids)
  | t => return t

def enumerateAll : List Term → StateM Nat (List Term)
  | [] => return []
  | t :: ts => do
    let t ← enumerate t
    return t :: (← enumerateAll ts)

end

mutual

/-- Puts `new` in every place of the term with site `n`. -/
def graft (n : Nat) (new : Term) : Term → Term
  | .seq items => .seq (graftAll n new items)
  | .arm b r => .arm b (graft n new r)
  | .signature s a r => if s = some n then new else .signature s a r
  | .leaf k s v => if s = some n then new else .leaf k s (graft n new v)
  | .node k s kids => if s = some n then new else .node k s (graftAll n new kids)
  | t => t

def graftAll (n : Nat) (new : Term) : List Term → List Term
  | [] => []
  | t :: ts => graft n new t :: graftAll n new ts

end

/-- Gives a term a site of its own, but not what is below it. -/
def mark (t : Term) : StateM Nat Term :=
  match t with
  | .signature s a r => do return .signature (← freshSite s) a r
  | .leaf k s v => do return .leaf k (← freshSite s) v
  | .node k s kids => do return .node k (← freshSite s) kids
  | t => return t

end Term

end Offside
