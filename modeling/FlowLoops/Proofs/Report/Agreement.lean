import FlowLoops.Proofs.Graph.Copy
import FlowLoops.Report

/-! Reports whose loops lie in their graphs can be rendered. Rendering does not tell reports apart
that agree in all but the tags of their graphs. -/

namespace FlowLoops

section MapM
variable {ε α β γ δ : Type} {f : α → Except ε γ} {f' : β → Except ε γ}

theorem mapM_eq_of_forall₂ {l : List α} {l' : List β}
    (each : List.Forall₂ (fun a b => f a = f' b) l l') : l.mapM f = l'.mapM f' := by
  induction each with
  | nil => rfl
  | cons first _ ih => rw [List.mapM_cons, List.mapM_cons, first, ih]

theorem mapM_eq_of_map_eq {key : α → δ} {key' : β → δ} {l : List α} {l' : List β}
    (same : l.map key = l'.map key') (each : ∀ a ∈ l, ∀ b ∈ l', key a = key' b → f a = f' b) :
    l.mapM f = l'.mapM f' := by
  induction l generalizing l' with
  | nil =>
    rw [List.map_nil, eq_comm, List.map_eq_nil_iff] at same
    rw [same, List.mapM_nil, List.mapM_nil]
  | cons a rest ih =>
    cases l' with
    | nil => cases same
    | cons b rest' =>
      rw [List.map_cons, List.map_cons, List.cons.injEq] at same
      have first : f a = f' b := each a List.mem_cons_self b List.mem_cons_self same.1
      have others := ih same.2 fun c hc d hd =>
        each c (List.mem_cons_of_mem _ hc) d (List.mem_cons_of_mem _ hd)
      rw [List.mapM_cons, List.mapM_cons, first, others]

theorem exists_mapM_eq_ok {l : List α} (each : ∀ a ∈ l, ∃ c, f a = .ok c) :
    ∃ cs, l.mapM f = .ok cs := by
  induction l with
  | nil => exact ⟨[], rfl⟩
  | cons a rest ih =>
    obtain ⟨c, first⟩ := each a List.mem_cons_self
    obtain ⟨cs, others⟩ := ih fun b hb => each b (List.mem_cons_of_mem _ hb)
    exact ⟨c :: cs, by rw [List.mapM_cons, first, others]; rfl⟩

theorem mapM_cons_eq_ok {a : α} {l : List α} {cs : List γ} :
    (a :: l).mapM f = .ok cs ↔ ∃ c rest, f a = .ok c ∧ l.mapM f = .ok rest ∧ cs = c :: rest := by
  constructor
  · intro made
    rw [List.mapM_cons] at made
    cases first : f a with
    | error e =>
      rw [first] at made
      cases made
    | ok c =>
      cases others : l.mapM f with
      | error e =>
        rw [first, others] at made
        cases made
      | ok rest =>
        rw [first, others] at made
        exact ⟨c, rest, rfl, rfl, (Except.ok.inj made).symm⟩
  · rintro ⟨c, rest, first, others, rfl⟩
    rw [List.mapM_cons, first, others]
    rfl

theorem exists_of_mem_mapM {l : List α} {cs : List γ} (made : l.mapM f = .ok cs) :
    ∀ c ∈ cs, ∃ a ∈ l, f a = .ok c := by
  induction l generalizing cs with
  | nil =>
    obtain rfl := Except.ok.inj made
    exact List.forall_mem_nil _
  | cons a l ih =>
    obtain ⟨c, rest, first, others, rfl⟩ := mapM_cons_eq_ok.mp made
    rw [List.forall_mem_cons]
    refine ⟨⟨a, List.mem_cons_self, first⟩, fun d hd => ?_⟩
    obtain ⟨b, hb, made⟩ := ih others d hd
    exact ⟨b, List.mem_cons_of_mem _ hb, made⟩

theorem forall₂_of_mapM_eq_ok {l : List α} {l' : List β} {cs : List γ}
    (made : l.mapM f = .ok cs) (made' : l'.mapM f' = .ok cs) :
    List.Forall₂ (fun a b => ∃ c, f a = .ok c ∧ f' b = .ok c) l l' := by
  induction cs generalizing l l' with
  | nil =>
    cases l with
    | nil =>
      cases l' with
      | nil => exact .nil
      | cons b l' =>
        obtain ⟨c, rest, -, -, same⟩ := mapM_cons_eq_ok.mp made'
        cases same
    | cons a l =>
      obtain ⟨c, rest, -, -, same⟩ := mapM_cons_eq_ok.mp made
      cases same
  | cons c cs ih =>
    cases l with
    | nil => cases made
    | cons a l =>
      cases l' with
      | nil => cases made'
      | cons b l' =>
        obtain ⟨_, _, first, others, same⟩ := mapM_cons_eq_ok.mp made
        obtain ⟨rfl, rfl⟩ := List.cons.inj same
        obtain ⟨_, _, first', others', same'⟩ := mapM_cons_eq_ok.mp made'
        obtain ⟨rfl, rfl⟩ := List.cons.inj same'
        exact .cons ⟨c, first, first'⟩ (ih others others')

theorem mapM_map_except (f : α → Except ε γ) (g : γ → δ) (l : List α) :
    (l.mapM fun a => (f a).map g) = (l.mapM f).map (List.map g) := by
  induction l with
  | nil => rfl
  | cons a rest ih =>
    rw [List.mapM_cons, List.mapM_cons, ih]
    cases f a with
    | error e => rfl
    | ok b =>
      cases rest.mapM f with
      | error e => rfl
      | ok bs => rfl

end MapM

def Loop.indices (l : Loop) : List Nat := l.blocks.map (·.index)

theorem Loop.indices_counterpart (h : Graph) (l : Loop) :
    (l.map h.counterpart).indices = l.indices := by
  rw [Loop.indices, Loop.map, List.map_map]
  rfl

theorem Loop.map_indices_counterpart (h : Graph) (loops : List Loop) :
    (loops.map (Loop.map h.counterpart)).map Loop.indices = loops.map Loop.indices := by
  rw [List.map_map]
  exact List.map_congr_left fun l _ => l.indices_counterpart h

namespace Report
variable {r k : Report}

/-- The same report, as far as indices, contents and the order of loops tell. -/
structure Agrees (r k : Report) : Prop where
  name : r.name = k.name
  blocks : r.graph.blocks = k.graph.blocks
  edges : r.graph.edges = k.graph.edges
  entry : r.graph.entry.map (·.index) = k.graph.entry.map (·.index)
  loops : r.loops.map Loop.indices = k.loops.map Loop.indices

def Owning (r : Report) : Prop := ∀ l ∈ r.loops, ∀ b ∈ l.blocks, r.graph.Owns b

theorem Owning.exists_mapM_loops {γ : Type} {f : BlockId → Except Fault γ} (owning : r.Owning)
    (each : ∀ b, r.graph.Owns b → ∃ c, f b = .ok c) :
    ∃ cs, (r.loops.mapM fun l => l.blocks.mapM f) = .ok cs :=
  exists_mapM_eq_ok fun l hl => exists_mapM_eq_ok fun b hb => each b (owning l hl b hb)

theorem Owning.exists_text (owning : r.Owning) : ∃ s, r.text = .ok s := by
  obtain ⟨loops, contents⟩ : ∃ cs, r.loops.mapM r.contents = .ok cs :=
    owning.exists_mapM_loops fun b hb => Graph.exists_content hb
  exact ⟨_, by rw [Report.text, contents]; rfl⟩

theorem Owning.exists_toValue (owning : r.Owning) : ∃ v, r.toValue = .ok v := by
  obtain ⟨loops, values⟩ : ∃ vs, (r.loops.mapM fun l => l.blocks.mapM r.blockValue) = .ok vs := by
    refine owning.exists_mapM_loops fun b hb => ?_
    obtain ⟨s, content⟩ := Graph.exists_content hb
    exact ⟨_, by rw [blockValue, content]; rfl⟩
  exact ⟨_, by rw [Report.toValue, values]; rfl⟩

theorem exists_sections {rs : List Report} {body : Report → Except Fault String}
    (each : ∀ r ∈ rs, ∃ s, body r = .ok s) : ∃ s, sections rs body = .ok s := by
  obtain ⟨bodies, mapped⟩ : ∃ bodies, (rs.mapM fun r => do
      let text ← body r
      return if rs.length > 1 then "== " ++ r.name ++ "\n" ++ text else text) = .ok bodies := by
    refine exists_mapM_eq_ok fun r hr => ?_
    obtain ⟨s, made⟩ := each r hr
    exact ⟨_, by rw [made]; rfl⟩
  exact ⟨_, by rw [sections, mapped]; rfl⟩

theorem exists_render {rs : List Report} (owning : ∀ r ∈ rs, r.Owning) (f : Format) :
    ∃ s, render rs f = .ok s := by
  cases f with
  | text => exact exists_sections fun r hr => (owning r hr).exists_text
  | dot => exact exists_sections fun r _ => ⟨_, rfl⟩
  | json =>
    obtain ⟨values, mapped⟩ := exists_mapM_eq_ok fun r hr => (owning r hr).exists_toValue
    exact ⟨_, by rw [render, mapped]; rfl⟩

theorem Agrees.symm (agree : Agrees r k) : Agrees k r :=
  ⟨agree.name.symm, agree.blocks.symm, agree.edges.symm, agree.entry.symm, agree.loops.symm⟩

theorem Agrees.trans {m : Report} (first : Agrees r k) (second : Agrees k m) : Agrees r m :=
  ⟨first.name.trans second.name, first.blocks.trans second.blocks, first.edges.trans second.edges,
    first.entry.trans second.entry, first.loops.trans second.loops⟩

section Rendering
variable (agree : Agrees r k) (owning : r.Owning) (owning' : k.Owning)
include agree

theorem Agrees.content {b c : BlockId} (hb : r.graph.Owns b) (hc : k.graph.Owns c)
    (same : b.index = c.index) : r.graph.content b = k.graph.content c := by
  obtain ⟨block, listed⟩ : ∃ block, r.graph.blocks[b.index]? = some block :=
    ⟨_, Array.getElem?_eq_getElem hb.2⟩
  have listed' : k.graph.blocks[c.index]? = some block := by
    rw [← agree.blocks, ← same]
    exact listed
  rw [Graph.content_eq_ok.mpr ⟨hb, _, listed, rfl⟩, Graph.content_eq_ok.mpr ⟨hc, _, listed', rfl⟩]

include owning owning'

theorem Agrees.mapM_loops {γ : Type} {f f' : BlockId → Except Fault γ}
    (each : ∀ b c, r.graph.Owns b → k.graph.Owns c → b.index = c.index → f b = f' c) :
    (r.loops.mapM fun l => l.blocks.mapM f) = k.loops.mapM fun l => l.blocks.mapM f' := by
  refine mapM_eq_of_map_eq agree.loops fun l hl m hm same => ?_
  exact mapM_eq_of_map_eq same fun b hb c hc => each b c (owning l hl b hb) (owning' m hm c hc)

theorem Agrees.text : r.text = k.text := by
  have contents : r.loops.mapM r.contents = k.loops.mapM k.contents :=
    agree.mapM_loops owning owning' fun b c hb hc => agree.content hb hc
  have count : r.graph.blockCount = k.graph.blockCount := congrArg Array.size agree.blocks
  rw [Report.text, contents, count]
  rfl

theorem Agrees.toValue : r.toValue = k.toValue := by
  have values : (r.loops.mapM fun l => l.blocks.mapM r.blockValue) =
      k.loops.mapM fun l => l.blocks.mapM k.blockValue := by
    refine agree.mapM_loops owning owning' fun b c hb hc same => ?_
    rw [blockValue, blockValue, agree.content hb hc same, same]
  have count : r.graph.blockCount = k.graph.blockCount := congrArg Array.size agree.blocks
  have entry : r.graph.entry.map (fun b => Json.Value.number b.index) =
      k.graph.entry.map fun b => Json.Value.number b.index := by
    have numbers := congrArg (Option.map Json.Value.number) agree.entry
    rwa [Option.map_map, Option.map_map] at numbers
  rw [Report.toValue, Report.toValue, values, count, entry, agree.name]

omit owning owning'

theorem Agrees.dot : r.graph.dot = k.graph.dot := by
  rw [Graph.dot, Graph.dot, agree.blocks, agree.edges]

end Rendering

theorem sections_congr {rs ks : List Report} {body : Report → Except Fault String}
    (each : List.Forall₂ (fun r k => r.name = k.name ∧ body r = body k) rs ks) :
    sections rs body = sections ks body := by
  rw [sections, sections, each.length_eq]
  congr 1
  refine mapM_eq_of_forall₂ (each.imp fun r k same => ?_)
  rw [same.1, same.2]

theorem render_congr {rs ks : List Report}
    (each : List.Forall₂ (fun r k => Agrees r k ∧ r.Owning ∧ k.Owning) rs ks) (f : Format) :
    render rs f = render ks f := by
  cases f with
  | text =>
    refine sections_congr (each.imp fun r k ⟨agree, owning, owning'⟩ => ?_)
    exact ⟨agree.name, agree.text owning owning'⟩
  | dot =>
    refine sections_congr (each.imp fun r k ⟨agree, _, _⟩ => ?_)
    exact ⟨agree.name, congrArg Except.ok agree.dot⟩
  | json =>
    have values : rs.mapM toValue = ks.mapM toValue :=
      mapM_eq_of_forall₂ (each.imp fun r k ⟨agree, owning, owning'⟩ =>
        agree.toValue owning owning')
    rw [render, render, values]

end Report
end FlowLoops
