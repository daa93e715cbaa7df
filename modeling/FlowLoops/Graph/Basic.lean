import FlowLoops.AnalysisError

/-!
Control-flow graphs. Blocks are kept in creation order and edges in insertion order; self-loops and
parallel edges are kept as they come. Each block also lists the ends of its own edges, so its
successors and predecessors are read off without a pass over all edges.
-/

namespace FlowLoops

/-- A basic block: its content, which nothing interprets, and the other ends of its edges. -/
structure Block where
  content : String
  outgoing : Array Nat
  incoming : Array Nat
deriving DecidableEq, Repr, Inhabited

structure Edge where
  source : Nat
  target : Nat
deriving DecidableEq, Repr, Inhabited

/-- A control-flow graph. The tag tells its handles from those of every other graph. -/
structure Graph where
  tag : Nat
  blocks : Array Block
  edges : Array Edge
  entry : Option BlockId
deriving DecidableEq, Repr, Inhabited

namespace Graph

def empty (tag : Nat) : Graph := ⟨tag, #[], #[], none⟩

def blockCount (g : Graph) : Nat := g.blocks.size

def edgeCount (g : Graph) : Nat := g.edges.size

def handle (g : Graph) (index : Nat) : BlockId := ⟨g.tag, index⟩

def handles (g : Graph) : List BlockId := (List.range g.blockCount).map g.handle

def Owns (g : Graph) (b : BlockId) : Prop := b.graph = g.tag ∧ b.index < g.blocks.size

instance (g : Graph) (b : BlockId) : Decidable (g.Owns b) :=
  inferInstanceAs (Decidable (_ ∧ _))

def block (g : Graph) (b : BlockId) : Except Fault Block :=
  if owned : g.Owns b then
    have inside : b.index < g.blocks.size := owned.2
    .ok g.blocks[b.index]
  else .error (.foreignBlock b)

def content (g : Graph) (b : BlockId) : Except Fault String :=
  (g.block b).map (·.content)

/-- One successor per edge out of the block, in insertion order. -/
def successors (g : Graph) (b : BlockId) : Except Fault (List BlockId) :=
  (g.block b).map fun block => block.outgoing.toList.map g.handle

def predecessors (g : Graph) (b : BlockId) : Except Fault (List BlockId) :=
  (g.block b).map fun block => block.incoming.toList.map g.handle

def addBlock (g : Graph) (content : String) : Graph :=
  { g with blocks := g.blocks.push ⟨content, #[], #[]⟩ }

def issueBlock (g : Graph) (content : String) : Graph × BlockId :=
  (g.addBlock content, g.handle g.blockCount)

def link (g : Graph) (source target : Nat) : Graph :=
  { g with
    blocks :=
      (g.blocks.modify source fun b => { b with outgoing := b.outgoing.push target }).modify target
        fun b => { b with incoming := b.incoming.push source }
    edges := g.edges.push ⟨source, target⟩ }

/-- Adds the edge between two blocks. Both have to be the graph's own. -/
-- inlined, so that a graph that nothing else holds is changed in place
@[inline]
def connect (g : Graph) (source target : BlockId) : Except Fault Graph := do
  unless g.Owns source do throw (.foreignBlock source)
  unless g.Owns target do throw (.foreignBlock target)
  return g.link source.index target.index

/-- The same for handles from anywhere. A foreign one is refused before anything is asserted. -/
def connectChecked (g : Graph) (source target : BlockId) : Except BuildFailure Graph := do
  for b in [source, target] do
    unless g.Owns b do throw (.violation (.foreignBlock b))
  (g.connect source target).mapError .fault

def designate (g : Graph) (b : BlockId) : Except Fault Graph :=
  if g.Owns b then .ok { g with entry := some b } else .error (.foreignBlock b)

/-- A copy under a tag of its own. It accepts none of the handles of the first graph; its entry is
its own block at the same index. -/
def copy (g : Graph) (tag : Nat) : Graph :=
  { g with tag := tag, entry := g.entry.map fun b => ⟨tag, b.index⟩ }

end Graph

end FlowLoops
