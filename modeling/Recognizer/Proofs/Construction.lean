/-
# The construction is an exploration

The construction of a deterministic automaton fills a numbering of the sets met, a graph and a
worklist, and reports each set when it meets it.  All of this can be read off the exploration that
meets the same sets in the same order (`Construction.reached`): the state of a set is its position
in the order of discovery.  Meeting a set keeps it so (`reached_meet`), hence following the symbols
of a state does (`reached_foldlM_follow`), and hence a whole run does (`reached_run`).  A set keeps
its position when others are met behind it; that is why the transitions that were added early are
still those that the exploration tells at its end.

So the construction makes the automaton of the exploration and reports its discoveries, and it is
cut off where the exploration is (`Nfa.determinize_eq`).
-/
import Recognizer.Dfa.Determinize
import Recognizer.Proofs.Exploration

namespace Recognizer

variable {α : Type} {n : Nfa α} {o : DeterminizeOptions} {e e' : Exploration StateSet}
  {s t node : StateSet} {ts : List (Transition α)} {steps : List (α × StateSet)}

/-! ## 1. Numbers that stay -/

/-- One more discovery is reported behind the others. -/
theorem discoveries_concat (sets : List StateSet) (s : StateSet) :
    (discoveries (sets ++ [s]) : List (Event α)) =
      discoveries sets ++ [.discovery sets.length s] := by
  simp [discoveries, List.zipIdx_append]

namespace Dfa

/-- A set keeps its state when others are met behind it. -/
theorem stateOf_stays (h : e.discovered <+: e'.discovered) (hs : s ∈ e.discovered) :
    stateOf e' s = stateOf e s := by
  obtain ⟨more, hmore⟩ := h
  rw [stateOf, stateOf, Exploration.number, Exploration.number, ← hmore,
    List.idxOf_append_of_mem hs]

/-- A set that is met last has the last state. -/
theorem stateOf_last (hs : s ∉ e.discovered) (h : e'.discovered = e.discovered ++ [s]) :
    stateOf e' s = .ofNat e.discovered.length := by
  rw [stateOf, Exploration.number, h, List.idxOf_append_of_notMem hs, List.idxOf_cons_self,
    Nat.add_zero]

end Dfa

namespace Construction

open Dfa (stateOf transitionsFrom stateOf_stays stateOf_last)

/-! ## 2. What has been made when an exploration has come to some point -/

/-- The construction with the sets that an exploration met and with some transitions. -/
def ofExploration (n : Nfa α) (e : Exploration StateSet) (ts : List (Transition α)) :
    Construction α where
  graph := .make 0 ts ((e.discovered.filter fun s => s.intersects n.acceptingSet).map (stateOf e))
  numbering := e.discovered.map fun s => (s, stateOf e s)
  pending := e.pending.map fun s => (stateOf e s, s)

/-- The construction has come as far as the exploration, and has reported its discoveries. -/
def reached (n : Nfa α) (e : Exploration StateSet) (ts : List (Transition α)) :
    Recorded α (Construction α) :=
  ⟨discoveries e.discovered, .ok (ofExploration n e ts)⟩

/-- There is no room for one set more than those that were met and reported. -/
def cutOff {β : Type} (o : DeterminizeOptions) (met : List StateSet) : Recorded α β :=
  ⟨discoveries met, .error (.stateLimitExceeded (met.length + 1) o.maxStates)⟩

theorem lookup_ofExploration : (ofExploration n e ts).numbering.lookup s =
    if s ∈ e.discovered then some (stateOf e s) else none := by
  rw [ofExploration]
  by_cases hs : s ∈ e.discovered
  · rw [if_pos hs, List.lookup_graph _ hs]
  · rw [if_neg hs, List.lookup_eq_none_iff, List.forall_mem_map]
    exact fun t ht => bne_iff_ne.mpr fun hst => hs (hst ▸ ht)

/-- What a set adds that is met for the first time. -/
theorem ofExploration_discover (hpending : e.pending ⊆ e.discovered)
    (hs : s ∉ e.discovered) :
    ofExploration n (e.discover o.order s) ts =
      { graph :=
          if s.intersects n.acceptingSet then
            (ofExploration n e ts).graph.addAccepting (.ofNat e.discovered.length)
          else (ofExploration n e ts).graph
        numbering := (ofExploration n e ts).numbering ++ [(s, .ofNat e.discovered.length)]
        pending :=
          o.order.push (ofExploration n e ts).pending [(.ofNat e.discovered.length, s)] } := by
  have hlast : stateOf (e.discover o.order s) s = .ofNat e.discovered.length := stateOf_last hs rfl
  have hstays : ∀ t ∈ e.discovered, stateOf (e.discover o.order s) t = stateOf e t :=
    fun t ht => stateOf_stays (List.prefix_append _ _) ht
  rw [ofExploration, mk.injEq, Exploration.discovered_discover, Exploration.pending_discover]
  generalize stateOf (e.discover o.order s) = number at hlast hstays
  refine ⟨?_, ?_, ?_⟩
  · have haccepting : (e.discovered.filter fun t => t.intersects n.acceptingSet).map number =
        (e.discovered.filter fun t => t.intersects n.acceptingSet).map (stateOf e) :=
      List.map_congr_left fun t ht => hstays t (List.mem_of_mem_filter ht)
    rw [List.filter_append, List.map_append, haccepting, List.filter_singleton]
    cases s.intersects n.acceptingSet with
    | true =>
      rw [if_pos rfl, cond_true, List.map_singleton, hlast]
      exact (StateGraph.addAccepting_make _ _ _ _).symm
    | false =>
      rw [if_neg (by simp), cond_false, List.map_nil, List.append_nil]
      rfl
  · have hnumbering : e.discovered.map (fun t => (t, number t)) =
        e.discovered.map fun t => (t, stateOf e t) :=
      List.map_congr_left fun t ht => congrArg (t, ·) (hstays t ht)
    rw [List.map_append, hnumbering, List.map_singleton, hlast]
    rfl
  · have hworklist : e.pending.map (fun t => (number t, t)) =
        e.pending.map fun t => (stateOf e t, t) :=
      List.map_congr_left fun t ht => congrArg (·, t) (hstays t (hpending ht))
    rw [← o.order.push_map, hworklist, List.map_singleton, hlast]
    rfl

/-! ## 3. One set and one state -/

/-- **Meeting a set** is the same for both. -/
theorem reached_meet (hpending : e.pending ⊆ e.discovered) (s : StateSet) :
    (reached n e ts >>= fun c => c.meet n o s) =
      match e.meet o.order o.room s with
      | .ok e' => ⟨discoveries e'.discovered, .ok (ofExploration n e' ts, stateOf e' s)⟩
      | .error met => cutOff o met := by
  have hlength : (ofExploration n e ts).numbering.length = e.discovered.length :=
    List.length_map _
  rw [reached, Recorded.ok_bind, Construction.meet, lookup_ofExploration, Exploration.meet]
  by_cases hs : s ∈ e.discovered
  · rw [if_pos hs, if_pos hs]
    exact Recorded.append_silent _ _
  · rw [if_neg hs, if_neg hs, hlength, DeterminizeOptions.nextState_eq]
    by_cases hroom : e.discovered.length < o.room
    · have hlt : e.discovered.length < UInt32.size := Nat.lt_of_lt_of_le hroom o.room_le
      have hnumber : (UInt32.ofNat e.discovered.length).toNat = e.discovered.length :=
        UInt32.toNat_ofNat_of_lt' hlt
      rw [if_pos hroom, if_pos hroom]
      dsimp only
      rw [Exploration.discovered_discover, discoveries_concat, ofExploration_discover hpending hs,
        stateOf_last hs rfl]
      simp only [Recorded.silent, Recorded.tell, Recorded.ok_bind, hnumber]
      rfl
    · rw [if_neg hroom, if_neg hroom]
      exact Recorded.append_silent _ _

/-- **Following a symbol** adds the transition to the state of the set. -/
theorem reached_follow (hpending : e.pending ⊆ e.discovered) (q : StateId) (step : α × StateSet) :
    (reached n e ts >>= fun c => follow n o q c step) =
      match e.meet o.order o.room step.2 with
      | .ok e' => reached n e' (ts ++ [⟨q, step.1, stateOf e' step.2⟩])
      | .error met => cutOff o met := by
  have hassoc : (reached n e ts >>= fun c => follow n o q c step) =
      (reached n e ts >>= fun c => c.meet n o step.2) >>= fun p =>
        pure (p.1.addTransition ⟨q, step.1, p.2⟩) :=
    (Recorded.bind_assoc _ _ _).symm
  rw [hassoc, reached_meet hpending]
  cases e.meet o.order o.room step.2 with
  | ok e' => exact Recorded.append_silent _ _
  | error met => rfl

/-- **Following symbols** one after the other.  The state of a set that is met on the way is its
state at the end. -/
theorem reached_foldlM_follow (hpending : e.pending ⊆ e.discovered)
    (hroom : e.discovered.length ≤ o.room) (q : StateId) :
    (reached n e ts >>= fun c => steps.foldlM (follow n o q) c) =
      match (steps.map (·.2)).foldlM (Exploration.meet o.order o.room) e with
      | .ok e' => reached n e' (ts ++ steps.map fun step => ⟨q, step.1, stateOf e' step.2⟩)
      | .error met => cutOff o met := by
  induction steps generalizing e ts with
  | nil =>
    rw [List.map_nil, List.foldlM_nil]
    dsimp only [pure, Except.pure]
    rw [List.map_nil, List.append_nil]
    exact Recorded.append_silent _ _
  | cons step steps ih =>
    have hassoc : (reached n e ts >>= fun c => (step :: steps).foldlM (follow n o q) c) =
        (reached n e ts >>= fun c => follow n o q c step) >>=
          fun c => steps.foldlM (follow n o q) c :=
      (Recorded.bind_assoc _ _ _).symm
    rw [hassoc, reached_follow hpending, List.map_cons, List.foldlM_cons]
    cases hmeet : e.meet o.order o.room step.2 with
    | error met => rfl
    | ok e₁ =>
      have hroom₁ := Exploration.meet_within hroom hmeet
      dsimp only [bind, Except.bind]
      refine (ih (Exploration.pending_subset_of_meet hpending hmeet) hroom₁).trans ?_
      cases hrest : (steps.map (·.2)).foldlM (Exploration.meet o.order o.room) e₁ with
      | error met => rfl
      | ok e' =>
        have hstays : stateOf e' step.2 = stateOf e₁ step.2 :=
          stateOf_stays (Exploration.foldlM_meet_extends hroom₁ hrest)
            (Exploration.mem_discovered_of_meet hmeet)
        dsimp only
        rw [List.map_cons, hstays, List.append_assoc, List.singleton_append]

/-! ## 4. A whole run -/

variable [Ord α] {c : Construction α} {q : StateId} {rest : List (StateId × StateSet)}

theorem run_of_pending_nil (h : c.pending = []) : c.run n o = pure c := by
  rw [run]
  split
  · rfl
  · rename_i hpending
    exact absurd (h.symm.trans hpending) (List.cons_ne_nil _ _).symm

theorem run_of_pending_cons (h : c.pending = (q, s) :: rest) : c.run n o =
    expand n o { c with pending := rest } q s >>= fun c' => c'.run n o := by
  rw [run]
  split
  · rename_i hpending
    exact absurd (h.symm.trans hpending) (List.cons_ne_nil _ _)
  · rename_i hpending
    obtain ⟨hfirst, rfl⟩ := List.cons.inj (h.symm.trans hpending)
    obtain ⟨rfl, rfl⟩ := Prod.mk.inj hfirst
    exact Recorded.attach_bind _ (run n o)

/-- The transitions out of the sets that were expanded. -/
def transitionsOf (n : Nfa α) (e : Exploration StateSet) : List (Transition α) :=
  e.expanded.flatMap (transitionsFrom n e)

/-- The transitions out of a set stay as they are when more sets are met. -/
theorem transitionsFrom_stays (h : e.discovered <+: e'.discovered) (hs : s ∈ e.discovered)
    (hclosed : ∀ t ∈ (n.successors s).map (·.2), t ∈ e.discovered) :
    transitionsFrom n e' s = transitionsFrom n e s := by
  refine List.map_congr_left ?_
  rintro ⟨a, t⟩ hstep
  have htarget : t ∈ e.discovered := hclosed t (List.mem_map.mpr ⟨(a, t), hstep, rfl⟩)
  dsimp only
  rw [stateOf_stays h hs, stateOf_stays h htarget]

/-- An expansion adds the transitions out of the set that it expands. -/
theorem transitionsOf_expand {rest : List StateSet}
    (hc : e.Consistent (fun s => (n.successors s).map (·.2)) n.startSet o.room)
    (hpending : e.pending = node :: rest)
    (he' : e' = e.expand (fun s => (n.successors s).map (·.2)) o.order node rest) :
    transitionsOf n e' = transitionsOf n e ++ (n.successors node).map fun step =>
      ⟨stateOf e node, step.1, stateOf e' step.2⟩ := by
  have hprefix : e.discovered <+: e'.discovered := he' ▸ List.prefix_append _ _
  have hexpanded : e'.expanded = e.expanded ++ [node] := he' ▸ rfl
  have hearlier : e.expanded.flatMap (transitionsFrom n e') =
      e.expanded.flatMap (transitionsFrom n e) :=
    List.flatMap_congr fun s hs =>
      transitionsFrom_stays hprefix (hc.perm.mem_iff.mpr (List.mem_append_left _ hs))
        (hc.closed s hs)
  have hnode : stateOf e' node = stateOf e node :=
    stateOf_stays hprefix (hc.mem_discovered_of_pending hpending)
  rw [transitionsOf, hexpanded, List.flatMap_append, hearlier, List.flatMap_singleton,
    transitionsFrom, hnode]
  rfl

/-- **Looking at a pending state** is expanding its set. -/
theorem reached_next {rest : List StateSet}
    (hc : e.Consistent (fun s => (n.successors s).map (·.2)) n.startSet o.room)
    (hpending : e.pending = node :: rest)
    (he' : e' = e.expand (fun s => (n.successors s).map (·.2)) o.order node rest) :
    (reached n e (transitionsOf n e) >>= fun c => c.run n o) =
      if e'.discovered.length ≤ o.room then
        reached n e' (transitionsOf n e') >>= fun c => c.run n o
      else cutOff o (e'.discovered.take o.room) := by
  -- Before the first symbol is followed, the node is taken from the worklist.
  let e₀ : Exploration StateSet := ⟨e.discovered, e.expanded ++ [node], rest⟩
  have hrest : e₀.pending ⊆ e₀.discovered := by
    intro s hs
    refine hc.perm.mem_iff.mpr (List.mem_append_right _ ?_)
    rw [hpending]
    exact List.mem_cons_of_mem _ hs
  have hroom : e₀.discovered.length ≤ o.room := hc.within
  have hrun : (ofExploration n e (transitionsOf n e)).run n o =
      expand n o (ofExploration n e₀ (transitionsOf n e)) (stateOf e node) node >>=
        fun c => c.run n o :=
    run_of_pending_cons (congrArg (List.map _) hpending)
  have hassoc : (reached n e (transitionsOf n e) >>= fun c => c.run n o) =
      (reached n e₀ (transitionsOf n e) >>= fun c =>
        (n.successors node).foldlM (follow n o (stateOf e node)) c) >>= fun c => c.run n o := by
    rw [Recorded.bind_assoc, reached, reached, Recorded.ok_bind, Recorded.ok_bind, hrun]
    rfl
  have hmeet : ((n.successors node).map (·.2)).foldlM (Exploration.meet o.order o.room) e₀ =
      if e'.discovered.length ≤ o.room then .ok e' else .error (e'.discovered.take o.room) := by
    rw [he']
    exact Exploration.foldlM_meet hroom
  rw [hassoc, reached_foldlM_follow hrest hroom, hmeet]
  by_cases hlimit : e'.discovered.length ≤ o.room
  · rw [if_pos hlimit, if_pos hlimit, transitionsOf_expand hc hpending he']
  · rw [if_neg hlimit, if_neg hlimit]
    rfl

/-- **A run of the construction** comes as far as the run of the exploration. -/
theorem reached_run (hc : e.Consistent (fun s => (n.successors s).map (·.2)) n.startSet o.room) :
    (reached n e (transitionsOf n e) >>= fun c => c.run n o) =
      match e.run (fun s => (n.successors s).map (·.2)) o.order o.room with
      | .ok e' => reached n e' (transitionsOf n e')
      | .error met => cutOff o met := by
  fun_induction Exploration.run _ o.order o.room e with
  | case1 e hpending =>
    have hdone : (ofExploration n e (transitionsOf n e)).pending = [] :=
      congrArg (List.map _) hpending
    rw [reached, Recorded.ok_bind, run_of_pending_nil hdone]
    exact Recorded.append_silent _ _
  | case2 e node rest hpending e₁ hlimit ih =>
    rw [reached_next hc hpending rfl, if_pos hlimit]
    exact ih (hc.expand hpending hlimit)
  | case3 e node rest hpending e₁ hlimit =>
    rw [reached_next hc hpending rfl, if_neg hlimit]

theorem reached_start (n : Nfa α) :
    (⟨[.discovery 0 n.startSet], .ok (start n)⟩ : Recorded α (Construction α)) =
      reached n (.start n.startSet) (transitionsOf n (.start n.startSet)) := by
  have hnumber : stateOf (Exploration.start n.startSet) n.startSet = 0 := by
    rw [stateOf, Exploration.number, Exploration.start, List.idxOf_cons_self]
    rfl
  refine congrArg (Recorded.mk _ <| .ok ·) ?_
  rw [start, ofExploration, mk.injEq]
  refine ⟨?_, ?_, ?_⟩
  · rw [Exploration.start, List.filter_singleton]
    cases n.startSet.intersects n.acceptingSet with
    | true =>
      exact (StateGraph.addAccepting_make _ _ _ _).trans
        (congrArg (fun number => StateGraph.make 0 [] [number]) hnumber.symm)
    | false => rfl
  · exact congrArg (fun number => [(n.startSet, number)]) hnumber.symm
  · exact congrArg (fun number => [(number, n.startSet)]) hnumber.symm

/-- The automaton that has been made when nothing is pending is that of the exploration. -/
theorem finish_ofExploration (n : Nfa α) (e : Exploration StateSet) :
    (ofExploration n e (transitionsOf n e)).finish n =
      ⟨[.determinization n.states.size (Dfa.ofExploration n e).numStates
        (Dfa.ofExploration n e).transitions.length], .ok (Dfa.ofExploration n e)⟩ := by
  have hcount : (ofExploration n e (transitionsOf n e)).numbering.length = e.discovered.length :=
    List.length_map _
  have hsets : (ofExploration n e (transitionsOf n e)).numbering.map (·.1) = e.discovered := by
    simp [ofExploration, Function.comp_def]
  simp only [finish, hcount, hsets]
  rfl

end Construction

/-! ## 5. The automaton and the events -/

variable [Ord α]

/-- **The construction gives the automaton of the exploration** and reports its discoveries; it is
cut off where the exploration is. -/
theorem Nfa.determinize_eq (n : Nfa α) (o : DeterminizeOptions) : n.determinize o =
    match n.subsets o with
    | .ok e => ⟨discoveries e.discovered ++ [.determinization n.states.size
        (Dfa.ofExploration n e).numStates (Dfa.ofExploration n e).transitions.length],
        .ok (Dfa.ofExploration n e)⟩
    | .error met =>
      ⟨discoveries met, .error (.stateLimitExceeded (met.length + 1) o.maxStates)⟩ := by
  have hassoc : n.determinize o =
      (⟨[.discovery 0 n.startSet], .ok (Construction.start n)⟩ >>= fun c => c.run n o) >>=
        fun c => c.finish n :=
    (Recorded.bind_assoc ⟨[.discovery 0 n.startSet], .ok (Construction.start n)⟩ _ _).symm
  rw [hassoc, Construction.reached_start,
    Construction.reached_run (Exploration.consistent_start o.one_le_room), subsets, explore]
  cases (Exploration.start n.startSet).run (fun s => (n.successors s).map (·.2)) o.order o.room with
  | error met => rfl
  | ok e =>
    dsimp only
    rw [Construction.reached, Recorded.ok_bind, Construction.finish_ofExploration]

end Recognizer
