import FlowLoops.Proofs.Graph.Growth
import Mathlib.Data.Fintype.Card
import Mathlib.Logic.Equiv.Fintype

/-! Pairings of the blocks of two graphs: of equal content, with as many edges out and in, and
joined by an edge on the one side where they are on the other. They compose and can be turned
round. -/

namespace FlowLoops

theorem exists_perm_extending {n m : Nat} (e : Fin n ≃ Fin m) :
    ∃ σ : Equiv.Perm Nat, (∀ i : Fin n, σ i = e i) ∧ ∀ k, σ k < m ↔ k < n := by
  obtain rfl : n = m := Fin.equiv_iff_eq.mp ⟨e⟩
  refine ⟨Equiv.Perm.extendDomain e Fin.equivSubtype, fun i => ?_, fun k => ?_⟩
  · exact Equiv.Perm.extendDomain_apply_image e Fin.equivSubtype i
  · by_cases hk : k < n
    · rw [Equiv.Perm.extendDomain_apply_subtype e Fin.equivSubtype hk]
      exact iff_of_true (e _).isLt hk
    · rw [Equiv.Perm.extendDomain_apply_not_subtype e Fin.equivSubtype hk]

namespace Graph

def multiplicity (g : Graph) (i j : Nat) : Nat := g.edges.toList.count ⟨i, j⟩

def outDegree (g : Graph) (i : Nat) : Nat := g.edges.toList.countP (·.source = i)

def inDegree (g : Graph) (i : Nat) : Nat := g.edges.toList.countP (·.target = i)

/-- A bijection of the blocks of two graphs that keeps contents, how many edges leave and enter a
block, and between which blocks there are edges at all. -/
structure Pairing (g h : Graph) where
  index : Fin g.blockCount ≃ Fin h.blockCount
  content : ∀ i, h.contents[(index i).val]? = g.contents[i.val]?
  outDegree : ∀ i, h.outDegree (index i) = g.outDegree i
  inDegree : ∀ i, h.inDegree (index i) = g.inDegree i
  joined : ∀ i j, 0 < h.multiplicity (index i) (index j) ↔ 0 < g.multiplicity i j

namespace Pairing
variable {g h k : Graph}

def refl (g : Graph) : Pairing g g :=
  ⟨.refl _, fun _ => rfl, fun _ => rfl, fun _ => rfl, fun _ _ => Iff.rfl⟩

def symm (p : Pairing g h) : Pairing h g where
  index := p.index.symm
  content i := by simpa using (p.content (p.index.symm i)).symm
  outDegree i := by simpa using (p.outDegree (p.index.symm i)).symm
  inDegree i := by simpa using (p.inDegree (p.index.symm i)).symm
  joined i j := by simpa using (p.joined (p.index.symm i) (p.index.symm j)).symm

def trans (p : Pairing g h) (q : Pairing h k) : Pairing g k where
  index := p.index.trans q.index
  content i := (q.content (p.index i)).trans (p.content i)
  outDegree i := (q.outDegree (p.index i)).trans (p.outDegree i)
  inDegree i := (q.inDegree (p.index i)).trans (p.inDegree i)
  joined i j := (q.joined (p.index i) (p.index j)).trans (p.joined i j)

end Pairing
end Graph
end FlowLoops
