/-
# What a successful operator has done

The operators are sequences of steps each of which can fail.  An operator that succeeds has passed
all of them, and its result is put together from what they returned.  One statement for each
operator says this, so that no later proof has to look into an operator again.

* `concat_eq_ok_iff`, `alternate_eq_ok_iff`, `star_eq_ok_iff`, `expand_eq_ok_iff`: the operators;
* `copies_eq_ok_iff`: the copies of an expansion stand at `sites`, each of which starts where the
  one before it ends;
* `star_epsilon`, `concat_epsilon`, `alternate_epsilon`, `expand_epsilon`: the result has the
  epsilon of the first operand, and the second operand has the same one.
-/
import Recognizer.Nfa.Algebra
import Recognizer.Proofs.Allotment

namespace Recognizer

variable {α : Type}

theorem bind_eq_ok_iff {ε β γ : Type} {x : Except ε β} {k : β → Except ε γ} {c : γ} :
    (x >>= k) = .ok c ↔ ∃ b, x = .ok b ∧ k b = .ok c := by
  cases x with
  | ok b =>
    constructor
    · exact fun h => ⟨b, rfl, h⟩
    · rintro ⟨b', hb, h⟩
      rw [Except.ok.inj hb]
      exact h
  | error e =>
    constructor
    · exact fun h => absurd h (by simp [bind, Except.bind])
    · rintro ⟨b, hb, -⟩
      exact absurd hb (by simp)

theorem pure_eq_ok_iff {ε β : Type} {b c : β} : (pure b : Except ε β) = .ok c ↔ b = c :=
  ⟨Except.ok.inj, congrArg _⟩

theorem Graft.carryOut_eq_ok_iff {g : Graft α} {c : Copy α} :
    g.carryOut = .ok c ↔ g.base.Fits g.unfused.length ∧ c = g.copy := by
  rw [carryOut_eq]
  split
  · rename_i h
    simp [h, eq_comm]
  · rename_i h
    simp [h]

theorem StateGraph.lt_of_nextAvailable {g : StateGraph α} {next q : StateId}
    (h : g.nextAvailable = .ok next) (hq : q ∈ g.states) : q.toNat < next.toNat := by
  have hnext := nextAvailable_eq_ok_iff.mp h
  have hle : q.toNat ≤ g.top.toNat := UInt32.le_iff_toNat_le.mp (le_top hq)
  omega

/-- A shift that succeeds moves every state, and none of them leaves the range. -/
theorem StateGraph.shiftTo_eq_ok_iff {g g' : StateGraph α} {target : StateId} :
    g.shiftTo target = .ok g' ↔ (∀ q ∈ g.states, q.Fits (g.distance target)) ∧
      g.rename (StateId.shifted (g.distance target)) = g' := by
  rw [← on_moveTo_eq_ok_iff, shiftTo]
  rcases (moveTo target).on g with ⟨_ | _, left⟩ <;> simp

namespace Nfa

variable {n m r : Nfa α}

/-! ## 1. The steps of the operators -/

theorem shiftTo_eq_ok_iff {target : StateId} :
    n.shiftTo target = .ok m ↔ (∀ q ∈ n.states, q.Fits (n.distance target)) ∧
      n.rename (StateId.shifted (n.distance target)) = m := by
  unfold shiftTo
  cases hshift : n.toStateGraph.shiftTo target with
  | ok g =>
    obtain ⟨hfits, rfl⟩ := StateGraph.shiftTo_eq_ok_iff.mp hshift
    exact ⟨fun h => ⟨hfits, Except.ok.inj h⟩, fun h => congrArg _ h.2⟩
  | error e =>
    constructor
    · exact fun h => absurd h (by simp [Except.map])
    · rintro ⟨hfits, -⟩
      have hok := StateGraph.shiftTo_eq_ok_iff.mpr ⟨hfits, rfl⟩
      exact absurd (hshift.symm.trans hok) (by simp)

theorem sharedEntry_eq_ok_iff {f : Fragment α} {next : StateId} {e : SharedEnd α} :
    sharedEntry f next = .ok e ↔
      (f.hasIncoming f.initial = true ∧ e.state = next ∧ e.next.toNat = next.toNat + 1 ∧
        e.links = [⟨next, f.epsilon, f.initial⟩]) ∨
      (f.hasIncoming f.initial = false ∧ ⟨f.initial, [], next⟩ = e) := by
  unfold sharedEntry
  split
  · rename_i h
    simp only [bind_eq_ok_iff, StateId.successor_eq_ok_iff, pure_eq_ok_iff]
    constructor
    · rintro ⟨free, hfree, rfl⟩
      exact Or.inl ⟨h, rfl, hfree, rfl⟩
    · rintro (⟨-, rfl, hfree, hlinks⟩ | ⟨hclean, -⟩)
      · exact ⟨e.next, hfree, by rw [← hlinks]⟩
      · exact absurd (h.symm.trans hclean) (by simp)
  · rename_i h
    rw [pure_eq_ok_iff]
    exact ⟨fun he => Or.inr ⟨Bool.eq_false_iff.mpr h, he⟩, fun he => he.elim
      (fun hlinked => absurd hlinked.1 h) And.right⟩

theorem sharedExit_eq_ok_iff {f : Fragment α} {next : StateId} {e : SharedEnd α} :
    sharedExit f next = .ok e ↔
      ((f.hasOutgoing f.exit = true ∨ f.exit = f.initial) ∧ e.state = next ∧
        e.next.toNat = next.toNat + 1 ∧ e.links = [⟨f.exit, f.epsilon, next⟩]) ∨
      (¬ (f.hasOutgoing f.exit = true ∨ f.exit = f.initial) ∧ ⟨f.exit, [], next⟩ = e) := by
  have hcond : (f.hasOutgoing f.exit || decide (f.exit = f.initial)) = true ↔
      (f.hasOutgoing f.exit = true ∨ f.exit = f.initial) := by
    rw [Bool.or_eq_true, decide_eq_true_iff]
  unfold sharedExit
  simp only [hcond]
  split
  · rename_i h
    simp only [bind_eq_ok_iff, StateId.successor_eq_ok_iff, pure_eq_ok_iff]
    constructor
    · rintro ⟨free, hfree, rfl⟩
      exact Or.inl ⟨h, rfl, hfree, rfl⟩
    · rintro (⟨-, rfl, hfree, hlinks⟩ | ⟨hclean, -⟩)
      · exact ⟨e.next, hfree, by rw [← hlinks]⟩
      · exact absurd h hclean
  · rename_i h
    rw [pure_eq_ok_iff]
    exact ⟨fun he => Or.inr ⟨h, he⟩, fun he => he.elim (fun hlinked => absurd hlinked.1 h)
      And.right⟩

/-- A transition that an expansion replaces, with the first identifier that is free for its copy. -/
structure Site (α : Type) where
  base : StateId
  transition : Transition α

/-- The copy of a fragment at a site. -/
def Site.graft (s : Site α) (f : Fragment α) : Graft α :=
  f.splice s.base s.transition.source s.transition.target

/-- The sites for the given transitions: the next copy starts where the one before it ends. -/
def sites (f : Fragment α) : StateId → List (Transition α) → List (Site α)
  | _, [] => []
  | base, t :: ts => ⟨base, t⟩ :: sites f (Site.graft ⟨base, t⟩ f).next ts

theorem copies_eq_ok_iff {f : Fragment α} {base : StateId} {ts us : List (Transition α)} :
    copies f base ts = .ok us ↔
      (∀ s ∈ sites f base ts, s.base.Fits (s.graft f).unfused.length) ∧
        (sites f base ts).flatMap (fun s => (s.graft f).transitions) = us := by
  induction ts generalizing base us with
  | nil => simp [copies, sites, pure_eq_ok_iff]
  | cons t ts ih =>
    simp only [copies, bind_eq_ok_iff, Graft.carryOut_eq_ok_iff, ih, pure_eq_ok_iff, sites,
      List.forall_mem_cons, List.flatMap_cons]
    constructor
    · rintro ⟨graft, ⟨hfit, rfl⟩, rest, ⟨hfits, rfl⟩, hus⟩
      exact ⟨⟨hfit, hfits⟩, hus⟩
    · rintro ⟨⟨hfit, hfits⟩, hus⟩
      exact ⟨_, ⟨hfit, rfl⟩, _, ⟨hfits, rfl⟩, hus⟩

/-! ## 2. The operators -/

theorem star_eq_ok_iff : n.star = .ok r ↔
    ∃ (f : Fragment α) (exit : StateId), f.toNfa = n ∧ (∀ q ∈ n.states, q.Fits 1) ∧
      (n.rename (StateId.shifted 1)).nextAvailable = .ok exit ∧
      between 0 exit ((n.rename (StateId.shifted 1)).transitions ++
        [⟨0, n.epsilon, n.initial.shifted 1⟩, ⟨f.exit.shifted 1, n.epsilon, exit⟩,
          ⟨exit, n.epsilon, n.initial.shifted 1⟩, ⟨0, n.epsilon, exit⟩]) n.epsilon = r := by
  have hone : ∀ body : StateId, body.toNat = n.initial.toNat + 1 →
      n.distance body = 1 ∧ n.initial.shifted 1 = body := by
    intro body hbody
    have hlt := body.toNat_lt_size
    have hfits : n.initial.Fits 1 := by
      constructor <;> omega
    have hshifted := StateId.toNat_shifted hfits
    constructor
    · unfold StateGraph.distance
      omega
    · apply UInt32.toNat_inj.mp
      omega
  simp only [star, bind_eq_ok_iff, fragment_eq_ok_iff, StateId.successor_eq_ok_iff,
    shiftTo_eq_ok_iff, pure_eq_ok_iff]
  constructor
  · rintro ⟨f, hf, body, hbody, moved, ⟨hfits, rfl⟩, exit, hexit, rfl⟩
    obtain ⟨hdistance, rfl⟩ := hone body hbody
    rw [hdistance] at hfits hexit ⊢
    exact ⟨f, exit, hf, hfits, hexit, rfl⟩
  · rintro ⟨f, exit, hf, hfits, hexit, rfl⟩
    have hinit := StateId.toNat_shifted (hfits n.initial (StateGraph.mem_states.mpr (Or.inl rfl)))
    have hbody : (n.initial.shifted 1).toNat = n.initial.toNat + 1 := by omega
    have hdistance := (hone _ hbody).1
    refine ⟨f, hf, n.initial.shifted 1, hbody, n.rename (StateId.shifted 1), ⟨?_, ?_⟩, exit, hexit,
      rfl⟩
    · rwa [hdistance]
    · rw [hdistance]

variable [Ord α]

theorem checkEpsilon_eq_ok_iff {u : Unit} :
    n.checkEpsilon m = .ok u ↔ n.IsEpsilon m.epsilon := by
  unfold checkEpsilon
  split
  · rename_i h
    simp [h]
  · rename_i h
    simp [h]

theorem concat_eq_ok_iff : n.concat m = .ok r ↔
    ∃ (f g : Fragment α) (base : StateId), f.toNfa = n ∧ g.toNfa = m ∧ n.IsEpsilon m.epsilon ∧
      n.nextAvailable = .ok base ∧
      base.Fits (Graft.unfused ⟨g, base, seam f m, none⟩).length ∧
      between n.initial (Graft.accepting ⟨g, base, seam f m, none⟩)
        (n.transitions ++ Graft.transitions ⟨g, base, seam f m, none⟩) n.epsilon = r := by
  simp only [concat, bind_eq_ok_iff, checkEpsilon_eq_ok_iff, fragment_eq_ok_iff,
    Graft.carryOut_eq_ok_iff, pure_eq_ok_iff]
  constructor
  · rintro ⟨-, heps, f, hf, base, hbase, g, hg, graft, ⟨hfit, rfl⟩, hr⟩
    exact ⟨f, g, base, hf, hg, heps, hbase, hfit, hr⟩
  · rintro ⟨f, g, base, hf, hg, heps, hbase, hfit, hr⟩
    exact ⟨(), heps, f, hf, base, hbase, g, hg, _, ⟨hfit, rfl⟩, hr⟩

theorem alternate_eq_ok_iff : n.alternate m = .ok r ↔
    ∃ (f g : Fragment α) (next : StateId) (entry exit : SharedEnd α), f.toNfa = n ∧ g.toNfa = m ∧
      n.IsEpsilon m.epsilon ∧ n.nextAvailable = .ok next ∧ sharedEntry f next = .ok entry ∧
      sharedExit f entry.next = .ok exit ∧
      exit.next.Fits (g.splice exit.next entry.state exit.state).unfused.length ∧
      between entry.state exit.state (n.transitions ++ entry.links ++ exit.links ++
        (g.splice exit.next entry.state exit.state).transitions) n.epsilon = r := by
  simp only [alternate, bind_eq_ok_iff, checkEpsilon_eq_ok_iff, fragment_eq_ok_iff,
    Graft.carryOut_eq_ok_iff, pure_eq_ok_iff]
  constructor
  · rintro ⟨-, heps, f, hf, g, hg, next, hnext, entry, hentry, exit, hexit, graft, ⟨hfit, rfl⟩, hr⟩
    exact ⟨f, g, next, entry, exit, hf, hg, heps, hnext, hentry, hexit, hfit, hr⟩
  · rintro ⟨f, g, next, entry, exit, hf, hg, heps, hnext, hentry, hexit, hfit, hr⟩
    exact ⟨(), heps, f, hf, g, hg, next, hnext, entry, hentry, exit, hexit, _, ⟨hfit, rfl⟩, hr⟩

theorem expand_eq_ok_iff {symbol : α} : n.expand symbol m = .ok r ↔
    ∃ (f g : Fragment α) (base : StateId), f.toNfa = n ∧ g.toNfa = m ∧ n.IsEpsilon m.epsilon ∧
      n.nextAvailable = .ok base ∧
      (∀ s ∈ sites g base (n.transitionsOn symbol), s.base.Fits (s.graft g).unfused.length) ∧
      { n with transitions := n.transitionsOff symbol ++
          (sites g base (n.transitionsOn symbol)).flatMap fun s => (s.graft g).transitions } =
        r := by
  simp only [expand, bind_eq_ok_iff, checkEpsilon_eq_ok_iff, fragment_eq_ok_iff,
    copies_eq_ok_iff, pure_eq_ok_iff]
  constructor
  · rintro ⟨-, heps, f, hf, g, hg, base, hbase, us, ⟨hfits, rfl⟩, hr⟩
    exact ⟨f, g, base, hf, hg, heps, hbase, hfits, hr⟩
  · rintro ⟨f, g, base, hf, hg, heps, hbase, hfits, hr⟩
    exact ⟨(), heps, f, hf, g, hg, base, hbase, _, ⟨hfits, rfl⟩, hr⟩

/-! ## 3. Epsilons -/

omit [Ord α] in
theorem star_epsilon (h : n.star = .ok r) : r.epsilon = n.epsilon := by
  obtain ⟨f, exit, -, -, -, rfl⟩ := star_eq_ok_iff.mp h
  rfl

theorem concat_epsilon (h : n.concat m = .ok r) :
    n.IsEpsilon m.epsilon ∧ r.epsilon = n.epsilon := by
  obtain ⟨f, g, base, -, -, heps, -, -, rfl⟩ := concat_eq_ok_iff.mp h
  exact ⟨heps, rfl⟩

theorem alternate_epsilon (h : n.alternate m = .ok r) :
    n.IsEpsilon m.epsilon ∧ r.epsilon = n.epsilon := by
  obtain ⟨f, g, next, entry, exit, -, -, heps, -, -, -, -, rfl⟩ := alternate_eq_ok_iff.mp h
  exact ⟨heps, rfl⟩

theorem expand_epsilon {symbol : α} (h : n.expand symbol m = .ok r) :
    n.IsEpsilon m.epsilon ∧ r.epsilon = n.epsilon := by
  obtain ⟨f, g, base, -, -, heps, -, -, rfl⟩ := expand_eq_ok_iff.mp h
  exact ⟨heps, rfl⟩

end Nfa

end Recognizer
