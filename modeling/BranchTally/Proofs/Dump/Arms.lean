import Mathlib.Logic.ExistsUnique
import BranchTally.Proofs.Dump.Layout
import BranchTally.Proofs.Tree.Slots

/-! The slots of the nodes of a loaded tree. A node's slots hold its children in their order, each
child in one slot only. Where the slots have a row of arms in the middle, the row holds arms and
the slots before and after it hold none, since a dump is split into arms by the kinds of its
children. -/

namespace BranchTally

/-! ### Slots -/

/-- The slots of a construct in the order of evaluation, each with the nodes in it. -/
def Construct.slots : Construct → List (List NodeId)
  | .expression _ operands => [operands]
  | .sequence _ statements => [statements]
  | .emptyBody => []
  | .conditional _ condition whenTrue whenFalse =>
    [condition.toList, whenTrue.toList, whenFalse.toList]
  | .dispatch subject arms otherwise => [subject.toList, arms, otherwise.toList]
  | .arm patterns body => [patterns, body.toList]
  | .shortCircuit _ left right => [left.toList, right.toList]
  | .safeNavigation receiver arguments => [receiver.toList, arguments]
  | .loop _ _ condition body => [condition.toList, body.toList]
  | .rescue watched handlers otherwise => [watched.toList, handlers, otherwise.toList]
  | .handler exceptions assignment body =>
    [exceptions.toList, assignment.toList, body.toList]
  | .ensure body ensured => [body.toList, ensured.toList]

theorem Construct.flatten_slots (c : Construct) : c.slots.flatten = c.present := by
  cases c <;> simp [slots, present]

/-- What is in one of the slots and nowhere twice is in one slot only. -/
theorem exists_unique_slot {slots : List (List NodeId)} (h : slots.flatten.Nodup) {c : NodeId}
    (hc : c ∈ slots.flatten) : ∃! k : Nat, ∃ slot, slots[k]? = some slot ∧ c ∈ slot := by
  obtain ⟨slot, hs, hc⟩ := List.mem_flatten.mp hc
  obtain ⟨k, hk⟩ := List.mem_iff_getElem?.mp hs
  refine ⟨k, ⟨slot, hk, hc⟩, ?_⟩
  rintro l ⟨other, hl, ho⟩
  rw [List.Nodup, List.pairwise_flatten] at h
  have hd := List.pairwise_iff_getElem.mp h.2
  obtain ⟨hlk, rfl⟩ := List.getElem?_eq_some_iff.mp hk
  obtain ⟨hll, rfl⟩ := List.getElem?_eq_some_iff.mp hl
  rcases Nat.lt_trichotomy l k with hlt | rfl | hlt
  · exact absurd rfl (hd l k hll hlk hlt c ho c hc)
  · rfl
  · exact absurd rfl (hd k l hlk hll hlt c hc c ho)

/-! ### Around the arms -/

/-- The kind of the arms of a construct that has a row of them, and the nodes around the row. -/
def Construct.around? : Construct → Option (Kind × List NodeId)
  | .dispatch subject _ otherwise => some (.arm, subject.toList ++ otherwise.toList)
  | .rescue watched _ otherwise => some (.handler, watched.toList ++ otherwise.toList)
  | _ => none

/-- No arm stands outside the row of arms. -/
def Tree.Delimits (t : Tree) (n : Node) : Prop :=
  ∀ kind ids, n.construct.around? = some (kind, ids) → ∀ c ∈ ids,
    ∃ m, t.nodes[c]? = some m ∧ m.kind ≠ kind

namespace Dump

theorem Form.nodeKind_eq_arm {kind : String} (h : (Form.ofKind kind).nodeKind = .arm) :
    kind = armKind := by
  unfold Form.ofKind at h
  split at h <;> first | rfl | cases h

theorem Form.nodeKind_eq_handler {kind : String} (h : (Form.ofKind kind).nodeKind = .handler) :
    kind = handlerKind := by
  unfold Form.ofKind at h
  split at h <;> first | rfl | cases h

theorem splitArms_around {kind arm : String} {placed : List Placed} {a : Arms}
    (h : splitArms kind arm placed = .ok a) {i : NodeId}
    (hi : i ∈ a.leading.toList ++ a.trailing.toList) :
    ∃ p ∈ placed, p.kind ≠ arm ∧ p.slot = some i := by
  obtain ⟨lead, taken, last, rfl, -, -, hl, -, ht, hlead, -, htrail⟩ := splitArms_eq_ok h
  rw [hlead, htrail] at hi
  rcases List.mem_append.mp hi with hi | hi
  · obtain ⟨p, hp, hs⟩ := mem_presentOf.mp hi
    exact ⟨p, by simp [hp], hl p hp, hs⟩
  · obtain ⟨p, hp, hs⟩ := mem_presentOf.mp hi
    exact ⟨p, by simp [hp], ht p hp, hs⟩

/-- What stands around a row of arms is a child of another kind. -/
theorem construct_around {d : Dump} {placed : List Placed} {what : Construct}
    (h : d.construct placed = .ok what) {kind : Kind} {ids : List NodeId}
    (ha : what.around? = some (kind, ids)) {i : NodeId} (hi : i ∈ ids) :
    ∃ p ∈ placed, (Form.ofKind p.kind).nodeKind ≠ kind ∧ p.slot = some i := by
  cases what with
  | dispatch subject arms otherwise =>
    cases ha
    obtain ⟨p, hp, hne, hs⟩ := splitArms_around ((construct_split h).1 _ _ _ rfl) hi
    exact ⟨p, hp, fun he => hne (Form.nodeKind_eq_arm he), hs⟩
  | rescue watched handlers otherwise =>
    cases ha
    obtain ⟨p, hp, hne, hs⟩ := splitArms_around ((construct_split h).2 _ _ _ rfl) hi
    exact ⟨p, hp, fun he => hne (Form.nodeKind_eq_handler he), hs⟩
  | _ => cases ha

/-- Every dump is laid out with no arm outside a row of arms. -/
theorem delimitsRule (t : Tree) : LayoutRule
    (fun next parent index _ p => Holds t next p.nodes →
      LinkedBelow t next parent index p ∧ ∀ n ∈ p.nodes, t.Delimits n)
    (fun next parent index _ ps => Holds t next (ps.flatMap (·.nodes)) →
      LinkedRow t next parent index ps ∧ ∀ n ∈ ps.flatMap (·.nodes), t.Delimits n) where
  absent := by
    intro next parent index d ha ht
    exact ⟨(linkedRule t).absent ha ht, by simp⟩
  present := by
    intro next parent index d kids decorations what ha hrow hd hw ht
    obtain ⟨hlinked, hbelow⟩ := hrow ht.tail
    refine ⟨(linkedRule t).present ha (fun _ => hlinked) hd hw ht, ?_⟩
    apply List.forall_mem_cons.mpr ⟨fun kind ids hx c hc => ?_, hbelow⟩
    obtain ⟨p, hp, hne, hs⟩ := construct_around hw hx hc
    obtain ⟨m, hm, hk⟩ := hlinked.kinds hp hs
    exact ⟨m, hm, hk ▸ hne⟩
  nil := by
    intro next parent index ht
    exact ⟨(linkedRule t).nil ht, by simp⟩
  cons := by
    intro next parent index d ds first others hf ho ht
    rw [List.flatMap_cons] at ht ⊢
    obtain ⟨hfirst, hn⟩ := hf ht.left
    obtain ⟨hothers, hns⟩ := ho ht.right
    exact ⟨.cons hfirst hothers, List.forall_mem_append.mpr ⟨hn, hns⟩⟩

end Dump

namespace Tree

variable {t : Tree} {i : NodeId} {n : Node}

theorem Loaded.delimits (h : t.Loaded) (hn : t.nodes[i]? = some n) : t.Delimits n := by
  obtain ⟨name, d, hd⟩ := h
  obtain ⟨p, hp, -, rfl⟩ := Dump.layout_of_load hd
  have hall := ((Dump.delimitsRule ⟨p.nodes.toArray⟩).layout hp (by intro j n hn; simpa using hn)).2
  exact hall n (List.mem_of_getElem? (by simpa using hn))

theorem kind_eq_ok {k : Kind} : t.kind i = .ok k ↔ ∃ n, t.nodes[i]? = some n ∧ n.kind = k := by
  unfold kind node
  cases t.nodes[i]? <;> simp [bind, Except.bind, pure, Except.pure]

/-- The slots of a node of a loaded tree hold its children in their order, each in one slot, and
the arms of a dispatch or a rescue stand in its row of arms and nowhere else. -/
theorem slots_of_loaded (ht : t.Loaded) (hn : t.nodes[i]? = some n) :
    n.construct.slots.flatten = n.children ∧ n.children.Nodup ∧
      (∀ c ∈ n.children, ∃! k : Nat, ∃ slot, n.construct.slots[k]? = some slot ∧ c ∈ slot) ∧
      (∀ subject arms otherwise, n.construct = .dispatch subject arms otherwise →
        (∀ a ∈ arms, t.kind a = .ok .arm) ∧
        ∀ c, subject = some c ∨ otherwise = some c → ∃ k, t.kind c = .ok k ∧ k ≠ .arm) ∧
      ∀ watched handlers otherwise, n.construct = .rescue watched handlers otherwise →
        (∀ a ∈ handlers, t.kind a = .ok .handler) ∧
        ∀ c, watched = some c ∨ otherwise = some c → ∃ k, t.kind c = .ok k ∧ k ≠ .handler := by
  have hpresent := ht.linked.present_eq hn
  have hnodup := present_nodup ht.linked hn
  have hslots : n.construct.slots.flatten = n.children :=
    n.construct.flatten_slots.trans hpresent
  have haround : ∀ {kind ids}, n.construct.around? = some (kind, ids) → ∀ c ∈ ids,
      ∃ k, t.kind c = .ok k ∧ k ≠ kind := by
    intro kind ids ha c hc
    obtain ⟨m, hm, hk⟩ := ht.delimits hn kind ids ha c hc
    exact ⟨m.kind, kind_eq_ok.mpr ⟨m, hm, rfl⟩, hk⟩
  refine ⟨hslots, hpresent ▸ hnodup, fun c hc => ?_, fun subject arms otherwise hc => ?_,
    fun watched handlers otherwise hc => ?_⟩
  · exact exists_unique_slot (by rwa [n.construct.flatten_slots]) (by rwa [hslots])
  · refine ⟨fun a ha => kind_eq_ok.mpr (ht.linked.arm_kind hn hc ha), fun c hs => ?_⟩
    exact haround (by rw [hc]; rfl) c (by simpa using hs)
  · refine ⟨fun a ha => kind_eq_ok.mpr (ht.linked.handler_kind hn hc ha), fun c hs => ?_⟩
    exact haround (by rw [hc]; rfl) c (by simpa using hs)

end Tree

/-- A dispatch without a subject, whose one arm has two patterns, the second absent, and whose else
clause is a rescue with one handler arm. -/
def Dump.dispatching : Dump :=
  let plain (kind : String) : Dump := .node kind 1 none [] []
  .node "case" 1 none []
    [plain "_", .node "when" 1 none [] [plain "lvar", plain "_", plain "send"],
      .node "rescue" 1 none []
        [plain "send", .node "resbody" 1 none [] [plain "const", plain "_", plain "retry"],
          plain "_"]]

def Tree.dispatching : Tree :=
  let plain (type : String) (parent index : Nat) : Node :=
    ⟨.expression type [], none, some parent, index, [], [], []⟩
  ⟨#[⟨.dispatch none [1] (some 4), none, none, 0, [1, 4], [], []⟩,
    ⟨.arm [2] (some 3), none, some 0, 0, [2, 3], [], []⟩,
    plain "lvar" 1 0,
    plain "send" 1 1,
    ⟨.rescue (some 5) [6] none, none, some 0, 1, [5, 6], [], []⟩,
    plain "send" 4 0,
    ⟨.handler (some 7) none (some 8), none, some 4, 1, [7, 8], [], []⟩,
    plain "const" 6 0,
    plain "retry" 6 1]⟩

theorem Tree.dispatching_loaded : Tree.dispatching.Loaded := ⟨"dispatching", .dispatching, rfl⟩

/-- The else clause of the dispatch is no arm, and the protected body of the rescue no handler. -/
theorem Tree.slots_of_loaded_dispatching :
    (∃ k, Tree.dispatching.kind 4 = .ok k ∧ k ≠ .arm) ∧ Tree.dispatching.kind 1 = .ok .arm ∧
      (∃ k, Tree.dispatching.kind 5 = .ok k ∧ k ≠ .handler) ∧
      Tree.dispatching.kind 6 = .ok .handler ∧
      ∃! k : Nat, ∃ slot,
        (Construct.rescue (some 5) [6] none).slots[k]? = some slot ∧ 6 ∈ slot := by
  obtain ⟨-, -, -, hd, -⟩ := slots_of_loaded dispatching_loaded (i := 0) rfl
  obtain ⟨-, -, honce, -, hr⟩ := slots_of_loaded dispatching_loaded (i := 4) rfl
  obtain ⟨harms, haround⟩ := hd none [1] (some 4) rfl
  obtain ⟨hhandlers, hwatched⟩ := hr (some 5) [6] none rfl
  exact ⟨haround 4 (.inr rfl), harms 1 (by simp), hwatched 5 (.inl rfl), hhandlers 6 (by simp),
    honce 6 (by decide)⟩

end BranchTally
