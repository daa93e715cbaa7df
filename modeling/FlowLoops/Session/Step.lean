import FlowLoops.Session.Basic

/-!
What each step of a session does.
-/

namespace FlowLoops.Session

/-- A graph built from a text, under the next tag. The tag is taken once the text holds a
description. -/
def build (s : Session) (text : String) : Result :=
  match Description.parse text.toList with
  | .error r => s.refuse (.unreadable (r.message text.toList))
  | .ok d =>
    match d.build s.nextTag with
    | .error e => { s with nextTag := s.nextTag + 1 }.refuse e.toFailure.toRefusal
    | .ok g => s.addGraph g

def createBlocks (g : Graph) (stem : String) (count : Nat) : Graph :=
  (List.range count).foldl (fun g i => g.addBlock (stem ++ toString i)) g

def report (s : Session) (loopSet : Nat) (name : String) (g : Graph)
    (taken : Session → Session) : Result :=
  s.withLoops loopSet fun loops =>
    let s := taken s
    { s with reports := s.reports.push ⟨name, g, loops⟩ }.answer (.newReport s.reports.size)

def render (s : Session) (first last : Nat) (format : String) : Result :=
  if first ≤ last ∧ last ≤ s.reports.size then
    match Format.ofName? format with
    | none => s.refuse .unknownFormat
    | some f => s.answerWith .text (Report.render (s.reports.extract first last).toList f)
  else s.refuse (.missing .report)

def perform (s : Session) : Step → Result
  | .create => s.addGraph (.empty s.nextTag)
  | .copy graph => s.withGraph graph fun g => s.addGraph (g.copy s.nextTag)
  | .build text => s.build text
  | .block graph content =>
    s.withGraph graph fun g =>
      let (g, b) := g.issueBlock content
      (s.setGraph graph g).addHandle b fun place => .newBlock place b
  | .many graph count stem =>
    s.withGraph graph fun g =>
      let after := createBlocks g stem count
      let issued := (List.range count).map fun i => g.handle (g.blockCount + i)
      ((s.setGraph graph after).addHandles issued).answer
        (.newBlocks s.handles.size after.blockCount)
  | .blocks graph =>
    s.withGraph graph fun g =>
      (s.addHandles g.handles).answer (.listed s.handles.size (g.handles.map (·.index)))
  | .edge graph source target => s.insertEdges graph [(source, target)]
  | .tryEdge graph source target =>
    s.withGraph graph fun g => s.withHandle source fun a => s.withHandle target fun b =>
      match g.connectChecked a b with
      | .error e => s.refuse e.toFailure.toRefusal
      | .ok g => (s.setGraph graph g).answer (.edgeCount g.edgeCount)
  | .edges graph base pairs =>
    s.insertEdges graph (pairs.map fun p => (base + p.1, base + p.2))
  | .affine graph base n count a b c d =>
    s.insertEdges graph ((List.range count).map fun i =>
      (base + (a * i + b) % n, base + (c * i + d) % n))
  | .owns graph handle =>
    s.withGraph graph fun g => s.withHandle handle fun b => s.answer (.flag (decide (g.Owns b)))
  | .successors graph handle =>
    s.withGraph graph fun g => s.withHandle handle fun b =>
      s.answerWith (fun l => .numbers (l.map (·.index))) (g.successors b)
  | .predecessors graph handle =>
    s.withGraph graph fun g => s.withHandle handle fun b =>
      s.answerWith (fun l => .numbers (l.map (·.index))) (g.predecessors b)
  | .content graph handle =>
    s.withGraph graph fun g => s.withHandle handle fun b => s.answerWith .text (g.content b)
  | .pad graph handle alignment width precision =>
    s.withGraph graph fun g => s.withHandle handle fun b =>
      s.answerWith (fun content => .texts
        [String.ofList (Text.pad content.toList alignment width precision), b.name, ""])
        (g.content b)
  | .setEntry graph handle =>
    s.withGraph graph fun g => s.withHandle handle fun b =>
      match g.designate b with
      | .error fault => s.refuse (.fault fault)
      | .ok g => (s.setGraph graph g).answer .nothing
  | .entry graph =>
    s.withGraph graph fun g =>
      match g.entry with
      | none => s.answer .nothing
      | some b => s.addHandle b fun place => .newHandle place b.index
  | .size graph => s.withGraph graph fun g => s.answer (.numbers [g.blockCount, g.edgeCount])
  | .dump graph => s.withGraph graph fun g => s.answer (.graph g)
  | .dot graph => s.withGraph graph fun g => s.answer (.text g.dot)
  | .equal left right =>
    s.withGraph left fun g => s.withGraph right fun h => s.answer (.flag (g.alike h))
  | .compare left right =>
    s.withHandle left fun a => s.withHandle right fun b => s.answer (.order (Ord.compare a b))
  | .detect graph =>
    s.withGraph graph fun g => s.detect g fun s loops =>
      { s with loopSets := s.loopSets.push loops }.answer (.newLoops s.loopSets.size loops)
  | .summary graph =>
    s.withGraph graph fun g => s.detect g fun s loops =>
      s.answerWith .summaries (loops.mapM fun l => do
        let (header, latch) ← ends l
        return (header.index, latch.index, l.length))
  | .loop loopSet index =>
    s.withLoop loopSet index fun l =>
      s.answerWith (fun (header, latch) => .loop l header.index latch.index) (ends l)
  | .contains loopSet index handle =>
    s.withLoop loopSet index fun l => s.withHandle handle fun b =>
      s.answer (.flag (decide (l.Contains b)))
  | .loopsEqual left right =>
    s.withLoops left fun a => s.withLoops right fun b => s.answer (.flag (decide (a = b)))
  | .report graph loopSet name =>
    s.withGraph graph fun g =>
      s.report loopSet name g fun s => { s with graphs := s.graphs.setIfInBounds graph none }
  | .reportClone graph loopSet name =>
    s.withGraph graph fun g =>
      s.report loopSet name (g.copy s.nextTag) fun s => { s with nextTag := s.nextTag + 1 }
  | .render first last format => s.render first last format
  | .openTracer title =>
    let (trace, tracer) := s.trace.enter title
    { s with trace, tracers := s.tracers.push (some tracer) }.answer (.newTracer s.tracers.size)
  | .event tracer text =>
    s.withTracer tracer fun t => { s with trace := s.trace.note t text }.answer .nothing
  | .closeTracer tracer =>
    s.withTracer tracer fun t =>
      let (trace, closed) := s.trace.leave t
      let s := { s with trace, tracers := s.tracers.setIfInBounds tracer none }
      s.answerWith (fun _ => .nothing) closed

def takeRecords (s : Session) : Session × Array Record :=
  ({ s with trace := { s.trace with records := #[] } }, s.trace.records)

end FlowLoops.Session
