/-!
Handles of basic blocks. A handle names its graph by the tag the graph drew when it was made, and
its block by creation order, so handles of different graphs never coincide.
-/

namespace FlowLoops

/-- A handle to a basic block: the tag of its graph and its place in creation order. -/
structure BlockId where
  graph : Nat
  index : Nat
deriving DecidableEq, Repr, Inhabited

namespace BlockId

def name (b : BlockId) : String := "bb" ++ toString b.index

instance : ToString BlockId := ⟨name⟩

/-- Handles are ordered by the age of their graphs, then by the age of the blocks. -/
instance : Ord BlockId := ⟨fun a b => (compare a.graph b.graph).then (compare a.index b.index)⟩

end BlockId

end FlowLoops
