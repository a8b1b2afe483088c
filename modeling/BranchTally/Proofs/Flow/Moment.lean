import Mathlib.Data.List.Lex
import Mathlib.Data.Finset.Card
import Mathlib.Data.Finset.Prod
import Mathlib.Order.Lattice
import BranchTally.Proofs.Flow.Checks

/-! The order in which counts rest on each other. Every count belongs to a moment of the walk of
control through the tree: a node is entered, then its children run, and then it completes. The
moment is the path from the root to the node, each step being the turn of a child, followed by the
stage of the count at the node itself. Turns follow the slots, except that the body of a loop runs
before the condition that follows it, and that the protected body of a rescue runs before the count
of its execution is known. -/

namespace BranchTally

/-! ### Turns -/

/-- When a child has its turn among the children and the stages of its parent. -/
def Construct.turn (c : Construct) (child : NodeId) (index : Nat) : Nat :=
  match c with
  | .loop _ _ _ body => if some child = body then 2 else 4 + index
  | .rescue watched _ _ => if some child = watched then 2 else 4 + index
  | _ => 4 + index

theorem Construct.turn_le (c : Construct) (child : NodeId) (index : Nat) :
    c.turn child index ≤ 4 + index := by
  unfold turn
  split <;> try split
  all_goals omega

theorem Construct.two_le_turn (c : Construct) (child : NodeId) (index : Nat) :
    2 ≤ c.turn child index := by
  unfold turn
  split <;> try split
  all_goals omega

namespace Tree

/-- The turns that lead from the root to a node. -/
def path (t : Tree) (id : NodeId) : List Nat :=
  match t.nodes[id]? with
  | none => []
  | some n =>
    match n.parent with
    | none => []
    | some p =>
      if p < id then
        match t.nodes[p]? with
        | none => []
        | some m => t.path p ++ [m.construct.turn id n.index]
      else []
termination_by id

theorem Linked.path_child {t : Tree} (h : t.Linked) {c p : NodeId} {n m : Node}
    (hn : t.nodes[c]? = some n) (hp : n.parent = some p) (hm : t.nodes[p]? = some m) :
    t.path c = t.path p ++ [m.construct.turn c n.index] := by
  have hlt := (h.child_of_parent hn hp).1
  rw [path, hn]
  simp only [hp, hlt, hm, if_true]

end Tree

namespace Flow

/-! ### Moments -/

/-- The node that a count belongs to. -/
@[simp] def Query.node : Query → NodeId
  | .entry id | .execution id | .completion id | .handlerEntry id | .implicitBranch id => id

/-- The stage of a count at a node with so many children. -/
@[simp] def Query.stage (children : Nat) : Query → Nat
  | .handlerEntry _ => 0
  | .entry _ => 1
  | .execution _ => 3
  | .implicitBranch _ => 4 + children
  | .completion _ => 5 + children

end Flow

namespace Tree

open BranchTally.Flow

def moment (t : Tree) (q : Query) : List Nat :=
  t.path q.node ++ [q.stage (t.childrenOf q.node).length]

/-- One count comes before another and belongs to a node of the tree. -/
def Before (t : Tree) (q r : Query) : Prop := q.node < t.size ∧ t.moment q < t.moment r

theorem cons_lt_of_lt {a b : Nat} (l k : List Nat) (h : a < b) : a :: l < b :: k :=
  List.Lex.rel h

namespace Linked

variable {t : Tree} {p c d : NodeId} {m n k : Node} {q r : Query}

theorem moment_eq (hm : t.nodes[q.node]? = some m) :
    t.moment q = t.path q.node ++ [q.stage m.children.length] := by
  rw [moment, childrenOf, hm]

/-- At one node, an earlier stage comes before a later one. -/
theorem before_stage (hm : t.nodes[p]? = some m) (hq : q.node = p) (hr : r.node = p)
    (hs : q.stage m.children.length < r.stage m.children.length) : t.Before q r := by
  refine ⟨hq ▸ size_of_node hm, ?_⟩
  rw [moment_eq (hq ▸ hm), moment_eq (hr ▸ hm), hq, hr]
  exact List.append_left_lt (cons_lt_of_lt _ _ hs)

variable (h : t.Linked) (hm : t.nodes[p]? = some m) (hn : t.nodes[c]? = some n)
  (hc : n.parent = some p)

include h hm hn hc

theorem moment_child (hq : q.node = c) :
    t.moment q = t.path p ++ m.construct.turn c n.index :: [q.stage n.children.length] := by
  rw [moment_eq (hq ▸ hn), hq, h.path_child hn hc hm, List.append_assoc, List.singleton_append]

/-- A count of a node comes before the counts of a child whose turn is later. -/
theorem before_child (hq : q.node = p) (hr : r.node = c)
    (hs : q.stage m.children.length < m.construct.turn c n.index) : t.Before q r := by
  refine ⟨hq ▸ size_of_node hm, ?_⟩
  rw [moment_eq (hq ▸ hm), h.moment_child hm hn hc hr, hq]
  exact List.append_left_lt (cons_lt_of_lt _ _ hs)

/-- The counts of a child come before a count of its parent at a stage after its turn. -/
theorem child_before (hq : q.node = c) (hr : r.node = p)
    (hs : m.construct.turn c n.index < r.stage m.children.length) : t.Before q r := by
  refine ⟨hq ▸ size_of_node hn, ?_⟩
  rw [h.moment_child hm hn hc hq, moment_eq (hr ▸ hm), hr]
  exact List.append_left_lt (cons_lt_of_lt _ _ hs)

/-- The counts of a child come before those of a child whose turn is later. -/
theorem sibling_before (hk : t.nodes[d]? = some k) (hd : k.parent = some p) (hq : q.node = c)
    (hr : r.node = d) (hs : m.construct.turn c n.index < m.construct.turn d k.index) :
    t.Before q r := by
  refine ⟨hq ▸ size_of_node hn, ?_⟩
  rw [h.moment_child hm hn hc hq, h.moment_child hm hk hd hr]
  exact List.append_left_lt (cons_lt_of_lt _ _ hs)

/-- The counts of what lies below a child come before those of a child whose turn is later. -/
theorem below_before {x : NodeId} {y : Node} (hk : t.nodes[d]? = some k) (hd : k.parent = some p)
    (hy : t.nodes[x]? = some y) (hx : y.parent = some c) (hq : q.node = x) (hr : r.node = d)
    (hs : m.construct.turn c n.index < m.construct.turn d k.index) : t.Before q r := by
  refine ⟨hq ▸ size_of_node hy, ?_⟩
  rw [h.moment_child hn hy hx hq, h.moment_child hm hk hd hr, h.path_child hn hc hm,
    List.append_assoc, List.singleton_append]
  exact List.append_left_lt (cons_lt_of_lt _ _ hs)

/-- The count of the entry of a node comes before the counts of its children. -/
theorem entry_before_child (hr : r.node = c) : t.Before (.entry p) r :=
  h.before_child hm hn hc rfl hr (m.construct.two_le_turn c n.index)

omit hm hn hc in
/-- A child in a slot, with what it needs to be compared with its siblings. -/
theorem slot_child (hm : t.nodes[p]? = some m) {l : Nat} (hx : m.construct.present[l]? = some d) :
    ∃ k, t.nodes[d]? = some k ∧ k.parent = some p ∧ k.index = l := by
  obtain ⟨k, hk, hp, -⟩ := h.child_of_present hm (List.mem_of_getElem? hx)
  exact ⟨k, hk, hp, h.index_eq hm hx hk⟩

/-- The counts of the child in an earlier place come before those of a child whose turn is its
place. -/
theorem earlier_before {l : Nat} (hx : m.construct.present[l]? = some d) (hl : l < n.index)
    (ht : m.construct.turn c n.index = 4 + n.index) (hq : q.node = d) (hr : r.node = c) :
    t.Before q r := by
  obtain ⟨k, hk, hp, hi⟩ := h.slot_child hm hx
  have := m.construct.turn_le d k.index
  exact h.sibling_before hm hk hp hn hc hq hr (by omega)

/-- So do the counts of what lies below the child in an earlier place. -/
theorem earlier_below_before {l : Nat} {x : NodeId} {k : Node}
    (hx : m.construct.present[l]? = some d) (hl : l < n.index)
    (ht : m.construct.turn c n.index = 4 + n.index) (hk : t.nodes[d]? = some k)
    (hy : x ∈ k.construct.present) (hq : q.node = x) (hr : r.node = c) : t.Before q r := by
  obtain ⟨k', hk', hp, hi⟩ := h.slot_child hm hx
  rw [hk] at hk'
  cases hk'
  obtain ⟨y, hy, hyp, -⟩ := h.child_of_present hk hy
  have := m.construct.turn_le d k.index
  exact h.below_before hm hk hp hn hc hy hyp hq hr (by omega)

/-- The counts of the first child come before those of another whose turn is its place. -/
theorem first_before (hx : m.construct.present[0]? = some d) (hne : c ≠ d)
    (ht : m.construct.turn c n.index = 4 + n.index) (hq : q.node = d) (hr : r.node = c) :
    t.Before q r := by
  refine h.earlier_before hm hn hc hx (Nat.pos_of_ne_zero fun h0 => hne ?_) ht hq hr
  have hs := h.present_of_child hn hc hm
  rw [h0, hx] at hs
  cases hs
  rfl

end Linked

end Tree

namespace Flow.Evidence

open Flow.Derivation BranchTally.Tree

variable {e : Evidence} {p id : NodeId} {m n : Node}

/-! ### Entries -/

section Children

variable (h : e.tree.Linked) (hm : e.tree.nodes[p]? = some m) (hn : e.tree.nodes[id]? = some n)
  (hp : n.parent = some p)

include h hm hn hp

/-- What follows a reading of the previous sibling is of interest for the first child and for
those that have a sibling in an earlier place. -/
theorem previous_asksOnly {α : Type} {P : Query → Prop} {g : Option NodeId → Derivation α}
    (hfirst : (g none).AsksOnly P)
    (hlater : ∀ k j, m.construct.present[k]? = some j → k < n.index → (g (some j)).AsksOnly P) :
    ((liftM (e.tree.previousSibling id) : Derivation (Option NodeId)) >>= g).AsksOnly P := by
  apply AsksOnly.read
  intro previous hs
  rcases h.previousSibling_cases hn hp hm with ⟨-, hs'⟩ | ⟨k, j, hk, hj, hs'⟩
  · rw [hs] at hs'
    cases hs'
    exact hfirst
  · rw [hs] at hs'
    cases hs'
    exact hlater k j hj (by omega)

theorem inSequence_asksOnly (ht : m.construct.turn id n.index = 4 + n.index) :
    (e.inSequence p id).AsksOnly (e.tree.Before · (.entry id)) := by
  unfold inSequence
  apply previous_asksOnly h hm hn hp
  · exact .count (h.entry_before_child hm hn hp rfl)
  · intro k j hj hk
    exact .count (h.earlier_before hm hn hp hj hk ht rfl rfl)

theorem conditional_asksOnly {style : Style} {condition whenTrue whenFalse : Slot}
    (hc : m.construct = .conditional style condition whenTrue whenFalse) :
    (e.childEntry p m id).AsksOnly (e.tree.Before · (.entry id)) := by
  simp only [childEntry, hc]
  split
  · exact .count (h.entry_before_child hm hn hp rfl)
  split
  · trivial
  next hne _ =>
    refine .read fun c hr => .bind (.count ?_) fun _ => .pure _
    obtain rfl := required_eq_ok.mp hr
    exact h.first_before hm hn hp (by rw [hc]; rfl) (fun he => hne (congrArg some he))
      (by rw [hc]; rfl) rfl rfl

theorem dispatch_asksOnly {subject otherwise : Slot} {arms : List NodeId}
    (hc : m.construct = .dispatch subject arms otherwise) :
    (e.childEntry p m id).AsksOnly (e.tree.Before · (.entry id)) := by
  have hup : e.tree.Before (.entry p) (.entry id) := h.entry_before_child hm hn hp rfl
  have ht : m.construct.turn id n.index = 4 + n.index := by rw [hc]; rfl
  simp only [childEntry, hc]
  split
  · exact .count hup
  split
  · trivial
  apply previous_asksOnly h hm hn hp
  · exact .count hup
  intro k j hj hk
  have hprev : ∀ q : Query, q.node = j → e.tree.Before q (.entry id) :=
    fun q hq => h.earlier_before hm hn hp hj hk ht hq rfl
  simp only
  split
  · exact .count (hprev _ rfl)
  refine .read fun k' hk' => ?_
  have hk' := node_eq_ok.mp hk'
  split
  next patterns body ha =>
    refine .bind (.count (hprev _ rfl)) fun _ => .read fun b hb => .bind (.count ?_) fun _ => .pure _
    obtain rfl := required_eq_ok.mp hb
    exact h.earlier_below_before hm hn hp hj hk ht hk' (by simp [ha, Construct.present]) rfl rfl
  next => exact .lift _

theorem safeNavigation_asksOnly {receiver : Slot} {arguments : List NodeId}
    (hc : m.construct = .safeNavigation receiver arguments) :
    (e.childEntry p m id).AsksOnly (e.tree.Before · (.entry id)) := by
  simp only [childEntry, hc]
  split
  · exact .count (h.entry_before_child hm hn hp rfl)
  apply previous_asksOnly h hm hn hp
  · trivial
  intro k j hj hk
  simp only
  split
  · trivial
  · exact .count (h.earlier_before hm hn hp hj hk (by rw [hc]; rfl) rfl rfl)

theorem loop_asksOnly {polarity : Polarity} {test : LoopTest} {condition body : Slot}
    (hc : m.construct = .loop polarity test condition body) :
    (e.childEntry p m id).AsksOnly (e.tree.Before · (.entry id)) := by
  simp only [childEntry, hc]
  split
  · trivial
  next hne =>
    refine .read fun b hb => ?_
    obtain rfl := required_eq_ok.mp hb
    obtain ⟨k, hk, hkp, -⟩ :=
      h.child_of_present (c := b) hm (by simp [hc, Construct.present])
    have hb : e.tree.Before (.completion b) (.entry id) :=
      h.sibling_before hm hk hkp hn hp rfl rfl (by simp [hc, Construct.turn, hne]; omega)
    cases test with
    | before =>
      have hup : e.tree.Before (.entry p) (.entry id) := h.entry_before_child hm hn hp rfl
      exact .bind (.count hup) fun _ => .bind (.count hb) fun _ => .pure _
    | after => exact .count hb

theorem rescue_asksOnly {watched otherwise : Slot} {handlers : List NodeId}
    (hc : m.construct = .rescue watched handlers otherwise) :
    (e.childEntry p m id).AsksOnly (e.tree.Before · (.entry id)) := by
  simp only [childEntry, hc]
  split
  · exact .count (h.entry_before_child hm hn hp rfl)
  next hw =>
    have ht : m.construct.turn id n.index = 4 + n.index := by
      rw [hc]
      exact if_neg hw
    split
    · exact .count (h.before_child hm hn hp rfl rfl (by rw [ht]; simp; omega))
    · exact .count (Linked.before_stage hn rfl rfl (by simp))

theorem ensure_asksOnly {body ensured : Slot} (hc : m.construct = .ensure body ensured) :
    (e.childEntry p m id).AsksOnly (e.tree.Before · (.entry id)) := by
  have hup : e.tree.Before (.entry p) (.entry id) := h.entry_before_child hm hn hp rfl
  simp only [childEntry, hc]
  cases body with
  | none => exact .count hup
  | some b =>
    simp only
    split
    next he =>
      have hx : m.construct.present[1]? = some id := by simp [hc, ← he, Construct.present]
      have hi := h.index_eq hm hx hn
      exact .count (h.earlier_before hm hn hp (l := 0) (by rw [hc]; rfl) (by omega)
        (by rw [hc]; rfl) rfl rfl)
    next => exact .count hup

/-- The entry of a child of the given construct rests on counts before it. -/
theorem childEntry_asksOnly : (e.childEntry p m id).AsksOnly (e.tree.Before · (.entry id)) := by
  have hup : e.tree.Before (.entry p) (.entry id) := h.entry_before_child hm hn hp rfl
  cases hc : m.construct with
  | expression =>
    rw [childEntry, hc]
    exact inSequence_asksOnly h hm hn hp (by rw [hc]; rfl)
  | sequence =>
    rw [childEntry, hc]
    exact inSequence_asksOnly h hm hn hp (by rw [hc]; rfl)
  | emptyBody =>
    rw [childEntry, hc]
    trivial
  | conditional => exact conditional_asksOnly h hm hn hp hc
  | dispatch => exact dispatch_asksOnly h hm hn hp hc
  | arm =>
    simp only [childEntry, hc]
    split
    · trivial
    · exact inSequence_asksOnly h hm hn hp (by rw [hc]; rfl)
  | shortCircuit =>
    simp only [childEntry, hc]
    split
    · trivial
    · exact .count hup
  | safeNavigation => exact safeNavigation_asksOnly h hm hn hp hc
  | loop => exact loop_asksOnly h hm hn hp hc
  | rescue => exact rescue_asksOnly h hm hn hp hc
  | handler =>
    simp only [childEntry, hc]
    split
    · exact .count hup
    · trivial
  | ensure => exact ensure_asksOnly h hm hn hp hc

end Children

theorem place_asksOnly {α : Type} {P : Query → Prop} {g : Node → Derivation α}
    (h : ∀ n, e.tree.nodes[id]? = some n → (g n).AsksOnly P) :
    (e.place id >>= g).AsksOnly P := by
  unfold place
  cases hn : e.tree.nodes[id]? with
  | none => trivial
  | some n => exact h n hn

theorem nonNegative_asksOnly {P : Query → Prop} (quantity : Quantity) (node : Label) (v : Int) :
    (nonNegative quantity node v).AsksOnly P := by
  unfold nonNegative
  split <;> trivial

theorem entryRule_asksOnly (h : e.tree.Linked) (id : NodeId) :
    (e.entryRule id).AsksOnly (e.tree.Before · (.entry id)) := by
  rw [entryRule_eq]
  refine place_asksOnly fun n hn => .bind ?_ fun v => nonNegative_asksOnly _ _ _
  unfold entrance
  cases hp : n.parent with
  | none => trivial
  | some p =>
    refine .read fun m hm => ?_
    exact childEntry_asksOnly h (node_eq_ok.mp hm) hn hp

/-! ### Executions and completions -/

/-- A count of a node that runs through the completions of children rests on counts before it. -/
theorem completion_before (h : e.tree.Linked) (hn : e.tree.nodes[id]? = some n) {c : NodeId}
    (hc : c ∈ n.construct.present) {q r : Query} (hq : q.node = c) (hr : r.node = id)
    (hs : 4 + n.children.length ≤ r.stage n.children.length) : e.tree.Before q r := by
  obtain ⟨k, hk, hp, hx⟩ := h.child_of_present hn hc
  have := n.construct.turn_le c k.index
  have := (List.getElem?_eq_some_iff.mp hx).1
  exact h.child_before hn hk hp hq hr (by omega)

theorem lastCompletion_asksOnly {P : Query → Prop} {ids : List NodeId} {v : Int}
    (h : ∀ c ∈ ids, P (.completion c)) : (lastCompletion ids v).AsksOnly P := by
  unfold lastCompletion
  split
  next c hc => exact .count (h c (List.mem_of_getLast? hc))
  next => trivial

theorem addCompletions_asksOnly {P : Query → Prop} {ids : List NodeId} {v : Int}
    (h : ∀ c ∈ ids, P (.completion c)) : (e.addCompletions v ids).AsksOnly P := by
  induction ids generalizing v with
  | nil => trivial
  | cons c ids ih =>
    exact .bind (.count (h c (List.mem_cons_self ..))) fun _ =>
      ih fun c hc => h c (List.mem_cons_of_mem _ hc)

theorem fallThrough_asksOnly (h : e.tree.Linked) (hn : e.tree.nodes[id]? = some n) :
    (e.fallThrough id n).AsksOnly (e.tree.Before · (.completion id)) := by
  have hown : ∀ q : Query, q.node = id → q.stage n.children.length < 5 + n.children.length →
      e.tree.Before q (.completion id) := fun q hq hs => Linked.before_stage hn hq rfl hs
  have hentry := hown (.entry id) rfl (by simp; omega)
  have hexecution := hown (.execution id) rfl (by simp; omega)
  have himplicit := hown (.implicitBranch id) rfl (by simp)
  have hchild : ∀ c ∈ n.construct.present, e.tree.Before (.completion c) (.completion id) :=
    fun c hc => completion_before h hn hc rfl rfl (by simp)
  unfold fallThrough
  cases hc : n.construct with
  | expression type operands =>
    rw [hc] at hchild
    simp only
    split
    · trivial
    · exact .bind (.count hexecution) fun _ => lastCompletion_asksOnly hchild
  | sequence explicit statements =>
    rw [hc] at hchild
    exact .bind (.count hentry) fun _ => lastCompletion_asksOnly hchild
  | emptyBody => exact .count hentry
  | conditional style condition whenTrue whenFalse =>
    refine .read fun a ha => .bind (.count (hchild a ?_)) fun _ =>
      .read fun b hb => .bind (.count (hchild b ?_)) fun _ => .pure _
    · simp [hc, required_eq_ok.mp ha, Construct.present]
    · simp [hc, required_eq_ok.mp hb, Construct.present]
  | dispatch subject arms otherwise =>
    refine .read fun a ha => .bind (.count (hchild a ?_)) fun _ =>
      addCompletions_asksOnly fun c hx => hchild c ?_
    · simp [hc, required_eq_ok.mp ha, Construct.present]
    · simp [hc, hx, Construct.present]
  | arm patterns body =>
    refine .read fun a ha => .count (hchild a ?_)
    simp [hc, required_eq_ok.mp ha, Construct.present]
  | shortCircuit op left right =>
    refine .read fun a ha => .bind (.count (hchild a ?_)) fun _ =>
      .bind (.count himplicit) fun _ => .pure _
    simp [hc, required_eq_ok.mp ha, Construct.present]
  | safeNavigation receiver arguments =>
    have hrest : ∀ made, (do return e.width.add (← Flow.count (.implicitBranch id)) made).AsksOnly
        (e.tree.Before · (.completion id)) := fun _ => .bind (.count himplicit) fun _ => .pure _
    simp only
    split
    · exact .bind (.pure _) hrest
    · refine .bind (lastCompletion_asksOnly fun c hx => hchild c ?_) hrest
      simp [hc, hx, Construct.present]
  | loop polarity test condition body => exact .count himplicit
  | rescue watched handlers otherwise =>
    cases watched with
    | none => exact .count hentry
    | some w =>
      refine .bind (.count (hchild _ ?_)) fun _ =>
        addCompletions_asksOnly fun c hx => hchild c ?_
      · cases otherwise <;> simp [hc, Construct.present]
      · simp [hc, hx, Construct.present]
  | handler exceptions assignment body =>
    cases body with
    | none => exact .count hexecution
    | some b => exact .count (hchild b (by simp [hc, Construct.present]))
  | ensure body ensured =>
    cases body with
    | some b => exact .count (hchild b (by simp [hc, Construct.present]))
    | none =>
      cases ensured with
      | some b => exact .count (hchild b (by simp [hc, Construct.present]))
      | none => exact .count hentry

theorem completionRule_asksOnly (h : e.tree.Linked) (id : NodeId) :
    (e.completionRule id).AsksOnly (e.tree.Before · (.completion id)) := by
  unfold completionRule
  refine place_asksOnly fun n hn => .bind (fallThrough_asksOnly h hn) fun _ =>
    .bind (nonNegative_asksOnly _ _ _) fun _ => .bind (.count ?_) fun _ => ?_
  · unfold completionBound
    split <;> exact Linked.before_stage hn rfl rfl (by simp; omega)
  · split <;> trivial

theorem executionRule_asksOnly (h : e.tree.Linked) (id : NodeId) :
    (e.executionRule id).AsksOnly (e.tree.Before · (.execution id)) := by
  unfold executionRule
  refine place_asksOnly fun n hn => ?_
  have hentry : e.tree.Before (.entry id) (.execution id) :=
    Linked.before_stage hn rfl rfl (by simp)
  refine .bind ?_ fun _ => .bind (nonNegative_asksOnly _ _ _) fun _ => ?_
  · unfold arrival
    split
    next watched handlers otherwise hc =>
      obtain ⟨k, hk, hp, -⟩ :=
        h.child_of_present (c := watched) hn (by simp [hc, Construct.present])
      exact .count (h.child_before hn hk hp rfl rfl (by simp [hc, Construct.turn]))
    next => trivial
    next => exact .count hentry
  · split
    · trivial
    · refine .bind (.count hentry) fun _ => ?_
      split <;> trivial

/-! ### Handler arms and branches without a node -/

theorem handlerEntryRule_asksOnly (h : e.tree.Linked) (arm : NodeId) :
    (e.handlerEntryRule arm).AsksOnly (e.tree.Before · (.handlerEntry arm)) := by
  unfold handlerEntryRule
  refine .read fun n hn => ?_
  have hn := node_eq_ok.mp hn
  cases hp : n.parent with
  | none => trivial
  | some owner =>
    refine .read fun m hm => ?_
    have hm := node_eq_ok.mp hm
    split
    next hc => exact .count (h.entry_before_child hm hn hp rfl)
    next watched handlers otherwise hc =>
      apply previous_asksOnly h hm hn hp
      · trivial
      intro k j hj hlt
      simp only
      have hfirst : m.construct.present[0]? = some watched := by rw [hc]; rfl
      have hne : arm ≠ watched := by
        rintro rfl
        have := h.index_eq hm hfirst hn
        omega
      have ht : m.construct.turn arm n.index = 4 + n.index := by
        rw [hc]
        exact if_neg (fun he => hne (Option.some.inj he))
      have hprev : ∀ q : Query, q.node = j → e.tree.Before q (.handlerEntry arm) :=
        fun q hq => h.earlier_before hm hn hp hj hlt ht hq rfl
      split
      · exact .bind (.count (hprev _ rfl)) fun _ => .bind (.count (hprev _ rfl)) fun _ =>
          nonNegative_asksOnly _ _ _
      refine .read fun k' hk' => ?_
      have hk' := node_eq_ok.mp hk'
      split
      next exceptions assignment body hx =>
        have htaken : ∀ offered, (do
            let taken ← Flow.count (.execution j)
            nonNegative .handlerEntry (n.label arm) (e.width.sub offered taken)).AsksOnly
              (e.tree.Before · (.handlerEntry arm)) :=
          fun _ => .bind (.count (hprev _ rfl)) fun _ => nonNegative_asksOnly _ _ _
        cases exceptions with
        | none => exact .bind (.count (hprev _ rfl)) htaken
        | some x =>
          refine .bind (.count ?_) htaken
          exact h.earlier_below_before hm hn hp hj hlt ht hk'
            (by simp [hx, Construct.present]) rfl rfl
      next => exact .lift _
    next => exact .lift _

theorem implicitBranchRule_asksOnly (h : e.tree.Linked) (id : NodeId) :
    (e.implicitBranchRule id).AsksOnly (e.tree.Before · (.implicitBranch id)) := by
  unfold implicitBranchRule
  refine .read fun n hn => ?_
  have hn := node_eq_ok.mp hn
  have hchild : ∀ q : Query, q.node ∈ n.construct.present →
      e.tree.Before q (.implicitBranch id) :=
    fun q hq => completion_before h hn hq rfl rfl (by simp)
  have hentry : e.tree.Before (.entry id) (.implicitBranch id) :=
    Linked.before_stage hn rfl rfl (by simp; omega)
  split
  next op left right hc =>
    refine .read fun a ha => .bind (.count (hchild _ ?_)) fun _ =>
      .read fun b hb => .bind (.count (hchild _ ?_)) fun _ => nonNegative_asksOnly _ _ _
    · simp [hc, required_eq_ok.mp ha, Construct.present]
    · simp [hc, required_eq_ok.mp hb, Construct.present]
  next receiver arguments hc =>
    split
    · trivial
    refine .read fun a ha => .bind (.count (hchild _ ?_)) fun _ => nonNegative_asksOnly _ _ _
    simp [hc, required_eq_ok.mp ha, Construct.present]
  next polarity test condition body hc =>
    refine .read fun a ha => .bind (.count (hchild _ ?_)) fun _ =>
      .read fun b hb => .bind (.count (hchild _ ?_)) fun _ => ?_
    · simp [hc, required_eq_ok.mp ha, Construct.present]
    · simp [hc, required_eq_ok.mp hb, Construct.present]
    cases test with
    | before => exact nonNegative_asksOnly _ _ _
    | after => exact .bind (.count hentry) fun _ => nonNegative_asksOnly _ _ _
  next => trivial

/-- Every count rests on counts that come before it. -/
theorem rule_asksOnly (h : e.tree.Linked) (q : Query) :
    (e.rule q).AsksOnly (e.tree.Before · q) := by
  cases q with
  | entry id => exact entryRule_asksOnly h id
  | execution id => exact executionRule_asksOnly h id
  | completion id => exact completionRule_asksOnly h id
  | handlerEntry arm => exact handlerEntryRule_asksOnly h arm
  | implicitBranch id => exact implicitBranchRule_asksOnly h id

end Flow.Evidence

end BranchTally
