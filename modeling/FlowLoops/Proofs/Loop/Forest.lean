import FlowLoops.Loop.Detection
import FlowLoops.Proofs.Search.FinishOrder

/-! What a finished search leaves behind: a way to every block, and the edges that lead back into
the way to their source. The loops detected are those of these edges, each read off a way. -/

namespace FlowLoops
variable {g : Graph} {way : BlockId → List BlockId} {found : List BackEdge} {u v : BlockId}

def Reported (loops : List Loop) (latch header : BlockId) : Prop :=
  ∃ l ∈ loops, l.latch? = some latch ∧ l.header? = some header

structure Forest (g : Graph) (way : BlockId → List BlockId) (found : List BackEdge) : Prop where
  isWay : ∀ u, g.Owns u → IsWay g way u
  back_iff : ∀ u v, ⟨u, v⟩ ∈ found ↔ g.Adjacent u v ∧ v ∈ way u
  acyclic : Acyclic fun u v => g.Adjacent u v ∧ ⟨u, v⟩ ∉ found

theorem Search.Run.forest (hg : g.Reachable) {s : Search} (run : Run g s) (hw : Ways g s way)
    (finished : ∀ b, g.Owns b → s.Finished b) : Forest g way s.backEdges.toList := by
  refine ⟨fun u hu => ?_, fun u v => ?_, run.acyclic hg finished⟩
  · have entered : ¬ s.Fresh u := fun fresh => fresh.not_finished (finished u hu)
    exact (hw.entered u hu entered).1
  · constructor
    · intro he
      obtain ⟨passed, mem⟩ := hw.back ⟨u, v⟩ he
      exact ⟨(run.invariant hg).adjacent_of_passed passed, mem⟩
    · rintro ⟨adjacent, mem⟩
      have passed : s.Passed g u v := .inr ⟨finished u adjacent.owns_left, adjacent⟩
      exact hw.passed u v passed mem

theorem exists_forest (hg : g.Reachable) :
    ∃ way found, Forest g way found ∧ g.loops = .ok (found.map (loopAlong way)) := by
  obtain ⟨s, made, run, -, finished⟩ := Search.exists_run hg
  obtain ⟨way, hw⟩ := run.exists_ways hg
  refine ⟨way, s.backEdges.toList, run.forest hg hw finished, ?_⟩
  rw [Graph.loops, made, ← hw.loops]
  rfl

theorem IsWay.last (hw : IsWay g way u) : (way u).getLast? = some u := by
  obtain ⟨m, -, walk⟩ := hw.walk
  exact walk.last

theorem IsWay.split (hw : IsWay g way u) (hv : v ∈ way u) :
    ∃ front rest, way u = front ++ v :: rest ∧
      (way u).drop ((way u).idxOf v) = v :: rest ∧ (v :: rest).getLast? = some u := by
  obtain ⟨front, rest, split, off⟩ := List.eq_append_cons_of_mem hv
  have at_front : (way u).idxOf v = front.length := by
    rw [split, List.idxOf_append_of_notMem off, List.idxOf_cons_self, Nat.add_zero]
  refine ⟨front, rest, split, ?_, ?_⟩
  · rw [at_front, split, List.drop_left]
  · have last := hw.last
    rwa [split, List.getLast?_append_of_ne_nil _ (List.cons_ne_nil v rest)] at last

theorem IsWay.body_loopAlong (hw : IsWay g way u) (hv : v ∈ way u) :
    ∃ front rest, way u = front ++ v :: rest ∧ (v :: rest).getLast? = some u ∧
      loopAlong way ⟨u, v⟩ = ⟨v :: rest ++ [v]⟩ := by
  obtain ⟨front, rest, split, suffix, last⟩ := hw.split hv
  exact ⟨front, rest, split, last, by rw [loopAlong, suffix]⟩

theorem Forest.ends_loopAlong (hf : Forest g way found) {e : BackEdge} (he : e ∈ found) :
    (loopAlong way e).latch? = some e.latch ∧ (loopAlong way e).header? = some e.header := by
  obtain ⟨u, v⟩ := e
  obtain ⟨adjacent, mem⟩ := (hf.back_iff u v).mp he
  obtain ⟨front, rest, -, last, loop⟩ := (hf.isWay u adjacent.owns_left).body_loopAlong mem
  rw [loop]
  constructor
  · rw [Loop.latch?, Loop.body, List.dropLast_concat, last]
  · rfl

theorem Forest.reported_iff (hf : Forest g way found) :
    Reported (found.map (loopAlong way)) u v ↔ g.Adjacent u v ∧ v ∈ way u := by
  rw [← hf.back_iff]
  constructor
  · rintro ⟨l, hl, latch, header⟩
    obtain ⟨e, he, rfl⟩ := List.mem_map.mp hl
    obtain ⟨latch', header'⟩ := hf.ends_loopAlong he
    obtain rfl := Option.some.inj (latch.symm.trans latch')
    obtain rfl := Option.some.inj (header.symm.trans header')
    exact he
  · intro he
    exact ⟨_, List.mem_map_of_mem he, hf.ends_loopAlong he⟩

end FlowLoops
