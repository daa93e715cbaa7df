import FlowLoops.Proofs.Search.Recursive

/-! The search when later copies of an edge are left out. It visits the same blocks along the same
paths, since a copy leads to a block visited before; it only misses the repeats of loops. -/

namespace FlowLoops

section EraseDups
variable {α β : Type} [DecidableEq α] [DecidableEq β]

theorem eraseDups_concat (l : List α) (a : α) :
    (l ++ [a]).eraseDups = l.eraseDups ++ if a ∈ l then [] else [a] := by
  rw [List.eraseDups_append, List.cons_removeAll]
  by_cases mem : a ∈ l <;> simp [mem, List.removeAll, List.eraseDups_cons]

theorem nodup_eraseDups (l : List α) : l.eraseDups.Nodup := by
  induction l using List.reverseRecOn with
  | nil => exact List.nodup_nil
  | append_singleton l a ih =>
    rw [eraseDups_concat]
    split
    · rwa [List.append_nil]
    next off =>
      refine List.nodup_append.mpr ⟨ih, List.nodup_singleton a, ?_⟩
      rintro b hb c hc rfl
      exact off (List.mem_singleton.mp hc ▸ List.mem_eraseDups.mp hb)

theorem eraseDups_filter (p : α → Bool) (l : List α) :
    (l.filter p).eraseDups = l.eraseDups.filter p := by
  induction l using List.reverseRecOn with
  | nil => rfl
  | append_singleton l a ih =>
    rw [eraseDups_concat, List.filter_append, List.filter_append, ← ih]
    by_cases kept : p a
    · have single : [a].filter p = [a] := by simp [kept]
      rw [single, eraseDups_concat]
      by_cases mem : a ∈ l <;> simp [mem, kept]
    · by_cases mem : a ∈ l <;> simp [mem, kept]

theorem eraseDups_map_of_injOn {f : α → β} {l : List α}
    (inj : ∀ a ∈ l, ∀ b ∈ l, f a = f b → a = b) : (l.map f).eraseDups = l.eraseDups.map f := by
  induction l using List.reverseRecOn with
  | nil => rfl
  | append_singleton l a ih =>
    have mem_iff : f a ∈ l.map f ↔ a ∈ l := by
      refine ⟨fun image => ?_, List.mem_map_of_mem⟩
      obtain ⟨b, hb, same⟩ := List.mem_map.mp image
      have last : a ∈ l ++ [a] := List.mem_append_right l List.mem_cons_self
      exact inj b (List.mem_append_left _ hb) a last same ▸ hb
    have ih := ih fun b hb c hc => inj b (List.mem_append_left _ hb) c (List.mem_append_left _ hc)
    rw [List.map_append, List.map_singleton, eraseDups_concat, eraseDups_concat, List.map_append,
      ih]
    by_cases mem : a ∈ l <;> simp [mem, mem_iff]

theorem removeAll_cons_of_mem {a : α} {l : List α} (mem : a ∈ l) (rest : List α) :
    (a :: rest).removeAll l = rest.removeAll l := by
  simp [List.cons_removeAll, mem]

theorem eraseDups_removeAll_cons {a : α} {l : List α} (off : a ∉ l) (rest : List α) :
    ((a :: rest).removeAll l).eraseDups = a :: (rest.removeAll (a :: l)).eraseDups := by
  have first : (a :: rest).removeAll l = a :: rest.removeAll l := by
    simp [List.cons_removeAll, off]
  rw [first, List.eraseDups_cons, List.removeAll_cons, List.removeAll, List.removeAll,
    List.filter_comm]

end EraseDups

namespace Tour
variable {g h : Graph} {w w' : Tour} {v next : BlockId}

structure Condenses (w w' : Tour) : Prop where
  visited_eq : w'.visited = w.visited
  onStack_eq : w'.onStack = w.onStack
  path_eq : w'.path = w.path
  loops_eq : w'.loops = w.loops.eraseDups

def Spent (w : Tour) (v : BlockId) : Prop :=
  (v ∈ w.onStack ∧ (⟨w.path.drop (w.path.idxOf v) ++ [v]⟩ : Loop) ∈ w.loops) ∨
    (v ∉ w.onStack ∧ v ∈ w.visited)

theorem Spent.mono (spent : w.Spent v) (onStack : w'.onStack = w.onStack)
    (path : w'.path = w.path) (visited : w.visited ⊆ w'.visited) (loops : w.loops ⊆ w'.loops) :
    w'.Spent v := by
  rw [Spent, onStack, path]
  rcases spent with ⟨active, closed⟩ | ⟨inactive, seen⟩
  · exact .inl ⟨active, loops closed⟩
  · exact .inr ⟨inactive, visited seen⟩

theorem Spent.close (spent : w.Spent v) : (w.close next).Spent v :=
  spent.mono rfl rfl (Finset.Subset.refl _) (List.subset_append_left _ _)

theorem spent_close (active : next ∈ w.onStack) : (w.close next).Spent next :=
  .inl ⟨active, List.mem_append_right _ List.mem_cons_self⟩

theorem Condenses.enter (c : Condenses w w') (b : BlockId) :
    Condenses (w.enter b) (w'.enter b) := by
  obtain ⟨visited, onStack, path, loops⟩ := c
  refine ⟨?_, ?_, ?_, loops⟩
  · rw [Tour.enter, Tour.enter, visited]
  · rw [Tour.enter, Tour.enter, onStack]
  · rw [Tour.enter, Tour.enter, path]

theorem Condenses.leave (c : Condenses w w') (b : BlockId) :
    Condenses (w.leave b) (w'.leave b) := by
  obtain ⟨visited, onStack, path, loops⟩ := c
  refine ⟨visited, ?_, ?_, loops⟩
  · rw [Tour.leave, Tour.leave, onStack]
  · rw [Tour.leave, Tour.leave, path]

theorem Condenses.close_of_spent (c : Condenses w w') (active : next ∈ w.onStack)
    (spent : w.Spent next) : Condenses (w.close next) w' := by
  have closed : (⟨w.path.drop (w.path.idxOf next) ++ [next]⟩ : Loop) ∈ w.loops := by
    rcases spent with ⟨-, closed⟩ | ⟨inactive, -⟩
    · exact closed
    · exact absurd active inactive
  refine ⟨c.visited_eq, c.onStack_eq, c.path_eq, ?_⟩
  rw [Tour.close, eraseDups_concat, if_pos closed, List.append_nil]
  exact c.loops_eq

theorem Condenses.close (c : Condenses w w') (nodup : (w'.close next).loops.Nodup) :
    Condenses (w.close next) (w'.close next) := by
  refine ⟨c.visited_eq, c.onStack_eq, c.path_eq, ?_⟩
  rw [Tour.close, List.nodup_append] at nodup
  have new : (⟨w.path.drop (w.path.idxOf next) ++ [next]⟩ : Loop) ∉ w.loops := by
    intro mem
    rw [c.path_eq, c.loops_eq] at nodup
    exact nodup.2.2 _ (List.mem_eraseDups.mpr mem) _ List.mem_cons_self rfl
  rw [Tour.close, Tour.close, eraseDups_concat, if_neg new, c.path_eq, c.loops_eq]

theorem Condenses.visit_of_call (simple : ∀ u, h.targets u = (g.targets u).eraseDups)
    (c : Condenses w w') (nodup : (w'.visit h next).loops.Nodup)
    (call : ∀ v : Tour, Condenses (w.enter next) v →
      (v.examine h ((g.targets next).removeAll []).eraseDups).val.loops.Nodup →
      Condenses ((w.enter next).examine g (g.targets next)).val
        (v.examine h ((g.targets next).removeAll []).eraseDups).val) :
    Condenses (w.visit g next) (w'.visit h next) := by
  have edges : h.targets next = ((g.targets next).removeAll []).eraseDups := by
    rw [simple, List.removeAll_nil]
  rw [visit, edges] at nodup
  rw [visit, visit, edges]
  exact (call _ (c.enter next) nodup).leave next

/-- The other search passes what is ahead without copies of what was passed and without repeats. -/
theorem Condenses.examine (simple : ∀ u, h.targets u = (g.targets u).eraseDups)
    {ahead passed : List BlockId} (c : Condenses w w') (spent : ∀ v ∈ passed, w.Spent v)
    (nodup : (w'.examine h (ahead.removeAll passed).eraseDups).val.loops.Nodup) :
    Condenses (w.examine g ahead).val (w'.examine h (ahead.removeAll passed).eraseDups).val := by
  induction w, ahead using Tour.examine.induct g generalizing w' passed with
  | case1 w =>
    rw [examine_nil, List.nil_removeAll, List.eraseDups_nil, examine_nil]
    exact c
  | case2 w next rest onStack ih =>
    have spent' : ∀ v ∈ passed, (w.close next).Spent v := fun v hv => (spent v hv).close
    rw [examine_onStack onStack]
    by_cases mem : next ∈ passed
    · rw [removeAll_cons_of_mem mem] at nodup ⊢
      exact ih (c.close_of_spent onStack (spent next mem)) spent' nodup
    · have onStack' : next ∈ w'.onStack := c.onStack_eq ▸ onStack
      rw [eraseDups_removeAll_cons mem, examine_onStack onStack'] at nodup ⊢
      have closed := c.close (nodup.sublist (loops_prefix_examine _).sublist)
      exact ih closed (List.forall_mem_cons.mpr ⟨spent_close onStack, spent'⟩) nodup
  | case3 w next rest inactive visited ih =>
    rw [examine_visited inactive visited]
    by_cases mem : next ∈ passed
    · rw [removeAll_cons_of_mem mem] at nodup ⊢
      exact ih c spent nodup
    · have inactive' : next ∉ w'.onStack := c.onStack_eq ▸ inactive
      have visited' : next ∈ w'.visited := c.visited_eq ▸ visited
      rw [eraseDups_removeAll_cons mem, examine_visited inactive' visited'] at nodup ⊢
      exact ih c (List.forall_mem_cons.mpr ⟨.inr ⟨inactive, visited⟩, spent⟩) nodup
  | case4 w next rest inactive unseen inner _ call ih₁ ih₂ =>
    have mem : next ∉ passed := fun looked => by
      rcases spent next looked with ⟨active, -⟩ | ⟨-, seen⟩
      · exact inactive active
      · exact unseen seen
    have inactive' : next ∉ w'.onStack := c.onStack_eq ▸ inactive
    have unseen' : next ∉ w'.visited := c.visited_eq ▸ unseen
    have visited : next ∈ (w.visit g next).visited := visited_visit (Finset.mem_insert_self _ _)
    have spent' : ∀ v ∈ next :: passed, (w.visit g next).Spent v := by
      refine List.forall_mem_cons.mpr ⟨.inr ⟨?_, visited⟩, fun v hv => ?_⟩
      · exact onStack_visit inactive ▸ inactive
      · exact (spent v hv).mono (onStack_visit inactive) path_visit
          ((Finset.subset_insert _ _).trans visited_visit) loops_prefix_visit.subset
    rw [eraseDups_removeAll_cons mem, examine_unvisited inactive' unseen'] at nodup ⊢
    rw [examine_unvisited inactive unseen]
    have visits : Condenses (w.visit g next) (w'.visit h next) :=
      c.visit_of_call simple (nodup.sublist (loops_prefix_examine _).sublist) fun v entered =>
        ih₁ entered (by simp)
    rw [visit, call] at visits spent' ⊢
    exact ih₂ visits spent' nodup

theorem Condenses.visitAll (simple : ∀ u, h.targets u = (g.targets u).eraseDups)
    {roots : List BlockId} (c : Condenses w w') (nodup : (w'.visitAll h roots).loops.Nodup) :
    Condenses (w.visitAll g roots) (w'.visitAll h roots) := by
  induction roots generalizing w w' with
  | nil => exact c
  | cons root rest ih =>
    rw [Tour.visitAll] at nodup ⊢
    rw [Tour.visitAll, ← c.visited_eq]
    split
    next seen =>
      rw [if_pos seen] at nodup
      exact ih c nodup
    next unseen =>
      rw [if_neg unseen] at nodup
      have visits : Condenses (w.visit g root) (w'.visit h root) :=
        c.visit_of_call simple (nodup.sublist (loops_prefix_visitAll rest).sublist)
          fun v entered => entered.examine simple (by simp)
      exact ih visits nodup

end Tour
end FlowLoops
