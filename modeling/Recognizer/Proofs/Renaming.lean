/-
# Renamed graphs

Renaming the states of a graph can make two of them one.  The list of accepting states then becomes
shorter, since a state that is listed again is left out.  What is left is still in the order in which
the states first stood in the list, and so one renaming after another is one renaming
(`StateGraph.rename_rename`), whatever states become one on the way.

* `firsts_eraseDups`: what is left of a list without repetitions;
* `StateGraph.mem_states_rename_iff`: the states of a renamed graph;
* `StateGraph.rename_congr`: only what becomes of its states matters;
* `Nfa.mem_after_rename`: what a word leads to is renamed, whether states become one or not, and so no
  word that is accepted is lost.
-/
import Recognizer.Proofs.Layout
import Recognizer.Proofs.Simulation

namespace Recognizer

/-! ## 1. First occurrences -/

section Firsts

variable {β γ : Type} [DecidableEq β] [DecidableEq γ] {l m : List β} {b : β}

/-- `Firsts l m`: the list `m` holds the entries of `l`, each once, in the order in which they first
stand in `l`. -/
structure Firsts (l m : List β) : Prop where
  mem_iff : ∀ b, b ∈ m ↔ b ∈ l
  ordered : m.Pairwise fun b c => l.idxOf b < l.idxOf c

theorem Firsts.nodup (h : Firsts l m) : m.Nodup :=
  h.ordered.imp fun hlt heq => absurd hlt (by rw [heq]; exact Nat.lt_irrefl _)

/-- **A list without its repetitions holds the first occurrences.** -/
theorem firsts_eraseDups (l : List β) : Firsts l l.eraseDups where
  mem_iff := fun _ => List.mem_eraseDups
  ordered := by
    -- What is added at the end leaves the first positions of the entries before it as they are.
    induction l using List.reverseRecOn with
    | nil => exact List.Pairwise.nil
    | append_singleton l b ih =>
      have hbefore : ∀ c ∈ l.eraseDups, (l ++ [b]).idxOf c = l.idxOf c := fun c hc =>
        List.idxOf_append_of_mem (List.mem_eraseDups.mp hc)
      have hkept : l.eraseDups.Pairwise fun c d => (l ++ [b]).idxOf c < (l ++ [b]).idxOf d :=
        ih.imp_of_mem fun hc hd hlt => by rwa [hbefore _ hc, hbefore _ hd]
      rw [eraseDups_concat]
      by_cases hb : b ∈ l
      · rwa [if_pos hb]
      · rw [if_neg hb]
        refine List.pairwise_append.mpr ⟨hkept, List.pairwise_singleton _ _, fun c hc d hd => ?_⟩
        rw [hbefore c hc, List.mem_singleton.mp hd, List.idxOf_append_of_notMem hb]
        exact Nat.lt_add_right _ (List.idxOf_lt_length_of_mem (List.mem_eraseDups.mp hc))

/-- Repetitions can be left out before a list is mapped as well as after. -/
theorem eraseDups_map_eraseDups (f : β → γ) (l : List β) :
    (l.eraseDups.map f).eraseDups = (l.map f).eraseDups := by
  induction l using List.reverseRecOn with
  | nil => rfl
  | append_singleton l b ih =>
    have hmem : f b ∈ l.eraseDups.map f ↔ f b ∈ l.map f := by
      simp only [List.mem_map, List.mem_eraseDups]
    rw [eraseDups_concat, List.map_append, List.map_singleton, eraseDups_concat]
    by_cases hb : b ∈ l
    · rw [if_pos hb, if_pos (List.mem_map_of_mem hb), ih]
    · rw [if_neg hb, List.map_append, List.map_singleton, eraseDups_concat, ih]
      exact if_congr hmem rfl rfl

end Firsts

/-! ## 2. Renamings -/

namespace StateGraph

variable {α : Type} {g : StateGraph α} {q : StateId} {f f' : StateId → StateId}

/-- An accepting state is accepting under its new name. -/
theorem IsAccepting.rename (f : StateId → StateId) (h : g.IsAccepting q) :
    (g.rename f).IsAccepting (f q) :=
  List.mem_eraseDups.mpr (List.mem_map_of_mem h)

/-- A renamed state is a state of the renamed graph. -/
theorem mem_states_rename (hq : q ∈ g.states) : f q ∈ (g.rename f).states := by
  rw [mem_states] at hq ⊢
  rcases hq with rfl | hacc | ⟨t, ht, hend⟩
  · exact Or.inl rfl
  · exact Or.inr (Or.inl (IsAccepting.rename f hacc))
  · refine Or.inr (Or.inr ⟨t.rename f, List.mem_map_of_mem ht, ?_⟩)
    exact hend.imp (congrArg f) (congrArg f)

/-- The renamed graph has no other states. -/
theorem mem_states_rename_iff : q ∈ (g.rename f).states ↔ ∃ p ∈ g.states, f p = q := by
  refine ⟨fun hq => ?_, fun ⟨p, hp, heq⟩ => heq ▸ mem_states_rename hp⟩
  rcases mem_states.mp hq with rfl | hacc | ⟨t, ht, hend⟩
  · exact ⟨g.initial, g.initial_mem_states, rfl⟩
  · obtain ⟨p, hp, rfl⟩ := List.mem_map.mp (List.mem_eraseDups.mp hacc)
    exact ⟨p, mem_states.mpr (Or.inr (Or.inl hp)), rfl⟩
  · obtain ⟨u, hu, rfl⟩ := List.mem_map.mp ht
    rcases hend with rfl | rfl
    · exact ⟨u.source, source_mem_states hu, rfl⟩
    · exact ⟨u.target, target_mem_states hu, rfl⟩

/-- Only what becomes of the states of a graph matters. -/
theorem rename_congr (h : ∀ q ∈ g.states, f q = f' q) : g.rename f = g.rename f' := by
  have htransitions : g.transitions.map (·.rename f) = g.transitions.map (·.rename f') := by
    refine List.map_congr_left fun t ht => ?_
    rw [Transition.rename, Transition.rename, h _ (source_mem_states ht),
      h _ (target_mem_states ht)]
  have haccepting : g.accepting.map f = g.accepting.map f' :=
    List.map_congr_left fun q hq => h q (mem_states.mpr (Or.inr (Or.inl hq)))
  rw [rename, rename, h g.initial g.initial_mem_states, htransitions, haccepting]

/-- **One renaming after another is one renaming.** -/
theorem rename_rename (g : StateGraph α) (f f' : StateId → StateId) :
    (g.rename f).rename f' = g.rename (f' ∘ f) := by
  have htransitions : (g.transitions.map (·.rename f)).map (·.rename f') =
      g.transitions.map (·.rename (f' ∘ f)) := by
    rw [List.map_map]
    rfl
  have haccepting : ((g.accepting.map f).eraseDups.map f').eraseDups =
      (g.accepting.map (f' ∘ f)).eraseDups := by
    rw [eraseDups_map_eraseDups, List.map_map]
  simp only [rename, make, htransitions, haccepting, Function.comp_apply]

/-- A renaming that leaves the states as they are leaves the graph as it is. -/
theorem rename_eq_self (h : ∀ q ∈ g.states, f q = q) : g.rename f = g :=
  (rename_congr h).trans g.rename_id

end StateGraph

/-! ## 3. Renamed automata -/

namespace Nfa

variable {α : Type} [Ord α] {n : Nfa α} {p q : StateId} {w : List α}

/-- Where silent transitions lead, they lead under the new names too. -/
theorem leads_rename (f : StateId → StateId) (h : Leads n.silentEdges p q) :
    Leads (n.rename f).silentEdges (f p) (f q) := by
  refine h.map fun p q he => ?_
  obtain ⟨t, ht, hsilent, rfl, rfl⟩ := mem_silentEdges.mp he
  have hrenamed : (f t.source, f t.target) ∈ (n.rename f).silentEdges :=
    mem_silentEdges.mpr ⟨t.rename f, List.mem_map_of_mem ht, hsilent, rfl, rfl⟩
  exact Leads.refl.tail hrenamed

/-- **What a word leads to, it leads to under the new names too.** -/
theorem mem_after_rename (f : StateId → StateId) (h : q ∈ n.after w) :
    f q ∈ (n.rename f).after w := by
  -- The last symbol comes off first: the set after a word is the move from the set before it.
  induction w using List.reverseRecOn generalizing q with
  | nil =>
    obtain ⟨p, hp, hleads⟩ := mem_closure.mp h
    obtain rfl := StateSet.mem_singleton.mp hp
    exact mem_closure.mpr ⟨f n.initial, StateSet.mem_singleton.mpr rfl, leads_rename f hleads⟩
  | append_singleton w a ih =>
    rw [after_concat] at h ⊢
    obtain ⟨t, ht, hsource, hsame, hleads⟩ := mem_move.mp h
    exact mem_move.mpr
      ⟨t.rename f, List.mem_map_of_mem ht, ih hsource, hsame, leads_rename f hleads⟩

/-- What the simulation accepts, it accepts under the new names. -/
theorem accepts_rename_of_accepts (f : StateId → StateId) (h : n.accepts w = true) :
    (n.rename f).accepts w = true := by
  obtain ⟨q, hq, haccepting⟩ := accepts_eq_true_iff.mp h
  exact accepts_eq_true_iff.mpr ⟨f q, mem_after_rename f hq, haccepting.rename f⟩

/-- What some path accepts, a renamed path accepts. -/
theorem Accepts.rename (f : StateId → StateId) (h : n.Accepts w) : (n.rename f).Accepts w := by
  obtain ⟨q, haccepting, hpath⟩ := h
  have hrenamed : ∀ t ∈ n.transitions, t.rename f ∈ (n.rename f).transitions :=
    fun t ht => List.mem_map_of_mem ht
  have hsilent : ∀ a, n.IsEpsilon a ↔ (n.rename f).IsEpsilon a := fun _ => Iff.rfl
  exact ⟨f q, haccepting.rename f, hpath.renamed hsilent hrenamed⟩

end Nfa

end Recognizer
