import Offside.Error
/-!
# Transforming trees

`Term.transform` applies a function to every node of a tree.  The root comes first; then, below each
node, the children in order, each after its own children.  What the function makes of a child is not
visited again.

The function may fail or keep a record: it runs in any monad that can raise an error.
-/

namespace Offside

namespace Term

variable {m : Type → Type} [Monad m] (f : Term → m Term)

mutual

/-- Transforms everything below a node. -/
def transformBelow : Term → m Term
  | .node k s kids => do return .node k s (← transformAll kids)
  | t => return t

/-- Transforms terms in order, each after what is below it. -/
def transformAll : List Term → m (List Term)
  | [] => return []
  | t :: ts => do
    let t ← transformBelow t
    let t ← f t
    return t :: (← transformAll ts)

end

/-- Transforms a tree.  What the function makes of the root must have members that can be replaced. -/
def transform [MonadExcept Error m] (t : Term) : m Term := do
  match ← f t with
  | .node k s kids => return .node k s (← transformAll f kids)
  | .seq items => return .seq (← transformAll f items)
  | .text s => if s.isEmpty then return .text s else throw .wrongKind
  | _ => throw .wrongKind

end Term

end Offside
