import FlowLoops.Graph.BlockId

/-!
Loops. A loop is written down along its way: from its header over its body to its latch, and with
the header once more to close the round.
-/

namespace FlowLoops

/-- The loop of one back edge, as the blocks along it with the header at both ends. -/
structure Loop where
  blocks : List BlockId
deriving DecidableEq, Repr

namespace Loop

def header? (l : Loop) : Option BlockId := l.blocks.head?

def body (l : Loop) : List BlockId := l.blocks.dropLast

def latch? (l : Loop) : Option BlockId := l.body.getLast?

def length (l : Loop) : Nat := l.body.length

def Contains (l : Loop) (b : BlockId) : Prop := b ∈ l.body

instance (l : Loop) (b : BlockId) : Decidable (l.Contains b) :=
  inferInstanceAs (Decidable (b ∈ l.body))

end Loop

end FlowLoops
