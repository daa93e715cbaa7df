import FlowLoops.Description.Basic
import FlowLoops.Json.Record

/-!
Reading descriptions. The label of a block, both ends of an edge and the blocks of a graph have to
be given; contents and the entry may be null or left out, and edges left out.
-/

namespace FlowLoops.Description

open Json

structure BlockDraft where
  label : Option String
  content : Option (Option String)

def blockShape : Shape BlockDraft Block where
  name := "struct Block"
  fields := [
    ⟨"label", fun d => d.label.isSome, Reader.text.map fun s d => { d with label := some s }⟩,
    ⟨"content", fun d => d.content.isSome,
      Reader.optionalText.map fun s d => { d with content := some s }⟩]
  required := 2
  blank := ⟨none, none⟩
  finish d :=
    match d.label with
    | none => .error "label"
    | some label => .ok ⟨label, d.content.join⟩

structure EdgeDraft where
  source : Option String
  target : Option String

def edgeShape : Shape EdgeDraft Edge where
  name := "struct Edge"
  fields := [
    ⟨"from", fun d => d.source.isSome, Reader.text.map fun s d => { d with source := some s }⟩,
    ⟨"to", fun d => d.target.isSome, Reader.text.map fun s d => { d with target := some s }⟩]
  required := 2
  blank := ⟨none, none⟩
  finish d :=
    match d.source, d.target with
    | none, _ => .error "from"
    | some _, none => .error "to"
    | some source, some target => .ok ⟨source, target⟩

structure Draft where
  entry : Option (Option String)
  blocks : Option (List Block)
  edges : Option (List Edge)

def shape : Shape Draft Description where
  name := "struct Graph"
  fields := [
    ⟨"entry", fun d => d.entry.isSome,
      Reader.optionalText.map fun s d => { d with entry := some s }⟩,
    ⟨"blocks", fun d => d.blocks.isSome,
      (Reader.list blockShape.reader).map fun l d => { d with blocks := some l }⟩,
    ⟨"edges", fun d => d.edges.isSome,
      (Reader.list edgeShape.reader).map fun l d => { d with edges := some l }⟩]
  required := 2
  blank := ⟨none, none, none⟩
  finish d :=
    match d.blocks with
    | none => .error "blocks"
    | some blocks => .ok ⟨d.entry.join, blocks, d.edges.getD []⟩

def parse (text : List Char) : Except Reject Description := shape.reader.whole text

end FlowLoops.Description
