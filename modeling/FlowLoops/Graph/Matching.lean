import FlowLoops.Graph.Basic

/-!
Equality of graphs up to the numbering of their blocks. Two graphs match if they have as many blocks
and edges and their blocks can be paired so that contents, numbers of edges out and in, and the
relation of being joined by an edge agree. A pairing is looked for block by block, each block next
to those already paired if there is one.
-/

namespace FlowLoops

/-- Whether two blocks agree in themselves: in content and in how many edges leave and enter. -/
def Block.alike (a b : Block) : Bool :=
  a.content == b.content && a.outgoing.size == b.outgoing.size &&
    a.incoming.size == b.incoming.size

namespace Graph

def joined (g : Graph) (i j : Nat) : Bool := (g.blocks[i]?).any fun b => b.outgoing.contains j

def fits (g h : Graph) (pairs : List (Nat × Nat)) (i j : Nat) : Bool :=
  ((g.blocks[i]?).any fun a => (h.blocks[j]?).any fun b => a.alike b) &&
    g.joined i i == h.joined j j &&
    pairs.all fun p => g.joined i p.1 == h.joined j p.2 && g.joined p.1 i == h.joined p.2 j

def extend (g h : Graph) : List Nat → List (Nat × Nat) → List Nat → Bool
  | [], _, _ => true
  | i :: rest, pairs, free =>
    free.any fun j => g.fits h pairs i j && g.extend h rest ((i, j) :: pairs) (free.erase j)

/-- Puts blocks in an order in which each is joined to an earlier one if any block left is. -/
def searchOrder (g : Graph) : Nat → List Nat → List Nat → List Nat
  | 0, _, left => left
  | n + 1, picked, left =>
    let next := left.find? fun i => picked.any fun a => g.joined i a || g.joined a i
    match next <|> left.head? with
    | none => []
    | some i => i :: g.searchOrder n (i :: picked) (left.erase i)

/-- Whether two graphs are equal up to the numbering of their blocks. Entries do not count. -/
def alike (g h : Graph) : Bool :=
  g.blockCount == h.blockCount && g.edgeCount == h.edgeCount &&
    g.extend h (g.searchOrder g.blockCount [] (List.range g.blockCount)) []
      (List.range h.blockCount)

end Graph

end FlowLoops
