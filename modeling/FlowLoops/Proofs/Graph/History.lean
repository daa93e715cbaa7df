import FlowLoops.Proofs.Graph.Growth

/-! Histories of a graph: the calls made on it, with handles of any graph. A call that is refused
leaves the graph as it was, and the accepted ones tell its blocks and edges in their order. -/

namespace FlowLoops
namespace Graph

inductive Call
  | addBlock (content : String)
  | connect (source target : BlockId)
  | connectChecked (source target : BlockId)
  | designate (b : BlockId)
deriving DecidableEq, Repr

namespace Call

def perform (g : Graph) : Call → Option Graph
  | addBlock content => some (g.addBlock content)
  | connect source target => (g.connect source target).toOption
  | connectChecked source target => (g.connectChecked source target).toOption
  | designate b => (g.designate b).toOption

def edge? : Call → Option Edge
  | connect source target | connectChecked source target => some ⟨source.index, target.index⟩
  | addBlock _ | designate _ => none

def addsBlock : Call → Bool
  | addBlock _ => true
  | connect .. | connectChecked .. | designate _ => false

end Call

def after (g : Graph) : List Call → Graph
  | [] => g
  | c :: rest => ((c.perform g).getD g).after rest

def accepted (g : Graph) : List Call → List Call
  | [] => []
  | c :: rest =>
    match c.perform g with
    | none => g.accepted rest
    | some h => c :: h.accepted rest

def drawn (g : Graph) (calls : List Call) : List Edge := (g.accepted calls).filterMap Call.edge?

variable {g h : Graph} {c : Call} {calls : List Call}

theorem toOption_eq_some_iff {ε α : Type} {x : Except ε α} {a : α} :
    x.toOption = some a ↔ x = .ok a := by
  cases x <;> simp [Except.toOption]

namespace Call

theorem perform_cases (made : c.perform g = some h) :
    (∃ content, c = .addBlock content ∧ h = g.addBlock content) ∨
      (∃ source target, c.addsBlock = false ∧ c.edge? = some ⟨source.index, target.index⟩ ∧
        (g.Owns source ∧ g.Owns target) ∧ h = g.link source.index target.index) ∨
      ∃ b, c = .designate b ∧ g.Owns b ∧ h = { g with entry := some b } := by
  cases c with
  | addBlock content => exact .inl ⟨content, rfl, (Option.some.inj made).symm⟩
  | connect source target =>
    have linked := connect_eq_ok.mp (toOption_eq_some_iff.mp made)
    exact .inr (.inl ⟨source, target, rfl, rfl, linked⟩)
  | connectChecked source target =>
    have linked := connectChecked_eq_ok.mp (toOption_eq_some_iff.mp made)
    exact .inr (.inl ⟨source, target, rfl, rfl, linked⟩)
  | designate b =>
    exact .inr (.inr ⟨b, rfl, designate_eq_ok.mp (toOption_eq_some_iff.mp made)⟩)

theorem not_addsBlock_of_refused (refused : c.perform g = none) : c.addsBlock = false := by
  cases c with
  | addBlock content => cases refused
  | connect source target => rfl
  | connectChecked source target => rfl
  | designate b => rfl

theorem grows_perform (made : c.perform g = some h) : g.Grows h := by
  rcases perform_cases made with ⟨content, -, rfl⟩ | ⟨s, t, -, -, ⟨hs, ht⟩, rfl⟩ | ⟨b, -, hb, rfl⟩
  · exact .addBlock content .refl
  · exact .link .refl hs ht
  · exact .designate .refl hb

theorem edges_perform (made : c.perform g = some h) :
    h.edges.toList = g.edges.toList ++ c.edge?.toList := by
  rcases perform_cases made with ⟨content, rfl, rfl⟩ | ⟨s, t, -, edge, -, rfl⟩ | ⟨b, rfl, -, rfl⟩
  · exact (List.append_nil _).symm
  · rw [edges_link, edge, Option.toList_some]
  · exact (List.append_nil _).symm

theorem blockCount_perform (made : c.perform g = some h) :
    h.blockCount = g.blockCount + if c.addsBlock then 1 else 0 := by
  rcases perform_cases made with ⟨content, rfl, rfl⟩ | ⟨s, t, other, -, -, rfl⟩ | ⟨b, rfl, -, rfl⟩
  · exact blockCount_addBlock g content
  · rw [blockCount_link, other]
    rfl
  · rfl

end Call

theorem grows_after (g : Graph) (calls : List Call) : g.Grows (g.after calls) := by
  induction calls generalizing g with
  | nil => exact .refl
  | cons c rest ih =>
    rw [after]
    cases made : c.perform g with
    | none => exact ih g
    | some h => exact (Call.grows_perform made).trans (ih h)

theorem Reachable.after (hg : g.Reachable) (calls : List Call) : (g.after calls).Reachable :=
  (grows_after g calls).reachable hg

theorem edges_after (g : Graph) (calls : List Call) :
    (g.after calls).edges.toList = g.edges.toList ++ g.drawn calls := by
  induction calls generalizing g with
  | nil => exact (List.append_nil _).symm
  | cons c rest ih =>
    rw [after, drawn, accepted]
    cases made : c.perform g with
    | none => exact ih g
    | some h =>
      rw [Option.getD_some, ih h, Call.edges_perform made, List.append_assoc, drawn]
      cases edge : c.edge? with
      | none => rw [List.filterMap_cons_none edge, Option.toList_none, List.nil_append]
      | some e => rw [List.filterMap_cons_some edge, Option.toList_some, List.singleton_append]

theorem blockCount_after (g : Graph) (calls : List Call) :
    (g.after calls).blockCount = g.blockCount + calls.countP Call.addsBlock := by
  induction calls generalizing g with
  | nil => rfl
  | cons c rest ih =>
    rw [after, List.countP_cons]
    cases made : c.perform g with
    | none =>
      rw [Option.getD_none, ih g, Call.not_addsBlock_of_refused made]
      rfl
    | some h =>
      rw [Option.getD_some, ih h, Call.blockCount_perform made]
      omega

end Graph
end FlowLoops
