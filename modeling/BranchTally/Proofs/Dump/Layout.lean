import BranchTally.Dump.Layout
import BranchTally.Proofs.Tree.Linked

/-! What laying a dump out makes sure of. A rule of layout is a pair of properties, one of a node
with all below it and one of a row of siblings, that the four ways of laying something out keep; it
then holds of every dump that is accepted. By such a rule a tree that was loaded is linked. -/

namespace BranchTally.Dump

/-! ### Rules of layout -/

/-- A property of nodes laid out and a property of rows of siblings that lead to each other. -/
structure LayoutRule (P : NodeId → Slot → Nat → Dump → Placed → Prop)
    (Q : NodeId → NodeId → Nat → List Dump → List Placed → Prop) : Prop where
  absent : ∀ {next parent index d}, d.isAbsent → P next parent index d ⟨d.kind, none, []⟩
  present : ∀ {next parent index d kids decorations what}, ¬ d.isAbsent →
    Q (next + 1) next 0 d.children kids →
    (d.readAttributes ⟨[], []⟩ d.attributes).result = .ok decorations →
    d.construct kids = .ok what →
    P next parent index d ⟨d.kind, some next,
      ⟨what, d.span, parent, index, presentOf kids, decorations.trackers,
        decorations.keywords⟩ :: kids.flatMap (·.nodes)⟩
  nil : ∀ {next parent index}, Q next parent index [] []
  cons : ∀ {next parent index d ds first others}, P next (some parent) index d first →
    Q (next + first.nodes.length) parent (index + first.slot.toList.length) ds others →
    Q next parent index (d :: ds) (first :: others)

theorem lift_eq_ok {α : Type} {line : Int} {r : Except Flaw α} {a : α} :
    (Reading.lift line r).result = .ok a ↔ r = .ok a := by
  cases r <;> simp

namespace LayoutRule

variable {P : NodeId → Slot → Nat → Dump → Placed → Prop}
  {Q : NodeId → NodeId → Nat → List Dump → List Placed → Prop}

mutual

theorem layout (h : LayoutRule P Q) {next : NodeId} {parent : Slot} {index : Nat} :
    ∀ {d : Dump} {placed : Placed},
      (Dump.layout next parent index d).result = .ok placed → P next parent index d placed
  | .node kind line span attributes children, placed, hp => by
    rw [Dump.layout] at hp
    split at hp
    next ha =>
      cases hp
      exact h.absent ha
    next ha =>
      simp only [Reading.result_bind, Reading.result_pure, bind_eq_ok, lift_eq_ok,
        Except.ok.injEq] at hp
      obtain ⟨kids, hk, decorations, hd, what, hw, rfl⟩ := hp
      exact h.present ha (layoutAll h hk) hd hw

theorem layoutAll (h : LayoutRule P Q) {next parent : NodeId} {index : Nat} :
    ∀ {ds : List Dump} {placed : List Placed},
      (Dump.layoutAll next parent index ds).result = .ok placed → Q next parent index ds placed
  | [], placed, hp => by
    rw [Dump.layoutAll] at hp
    cases hp
    exact h.nil
  | d :: ds, placed, hp => by
    rw [Dump.layoutAll] at hp
    simp only [Reading.result_bind, Reading.result_pure, bind_eq_ok, Except.ok.injEq] at hp
    obtain ⟨first, hf, others, ho, rfl⟩ := hp
    exact h.cons (layout h hf) (layoutAll h ho)

end

end LayoutRule

/-! ### Slots and children -/

@[simp] theorem presentOf_nil : presentOf [] = [] := rfl

@[simp] theorem presentOf_cons (p : Placed) (ps : List Placed) :
    presentOf (p :: ps) = p.slot.toList ++ presentOf ps := by
  cases h : p.slot <;> simp [presentOf, h]

theorem presentOf_append (ps qs : List Placed) :
    presentOf (ps ++ qs) = presentOf ps ++ presentOf qs := by
  simp [presentOf]

theorem mem_presentOf {ps : List Placed} {i : NodeId} :
    i ∈ presentOf ps ↔ ∃ p ∈ ps, p.slot = some i := by
  simp [presentOf]

/-- What a split into arms looks like: at most one child that is no arm before a row of arms, and
at most one after it. -/
theorem splitArms_eq_ok {kind arm : String} {placed : List Placed} {a : Arms}
    (h : splitArms kind arm placed = .ok a) :
    ∃ lead taken last, placed = lead ++ taken ++ last ∧ lead.length ≤ 1 ∧ last.length ≤ 1 ∧
      (∀ p ∈ lead, p.kind ≠ arm) ∧ (∀ p ∈ taken, p.kind = arm) ∧ (∀ p ∈ last, p.kind ≠ arm) ∧
      a.leading.toList = presentOf lead ∧ a.arms = presentOf taken ∧
      a.trailing.toList = presentOf last := by
  obtain ⟨lead, rest, hp, hn, hk, hl, hr⟩ : ∃ lead rest, placed = lead ++ rest ∧ lead.length ≤ 1 ∧
      (∀ p ∈ lead, p.kind ≠ arm) ∧
      ((placed.head?.filter (·.kind ≠ arm)).bind (·.slot)).toList = presentOf lead ∧
      (if (placed.head?.filter (·.kind ≠ arm)).isSome then placed.tail else placed) = rest := by
    cases placed with
    | nil => exact ⟨[], [], by simp⟩
    | cons p ps =>
      by_cases hk : p.kind = arm
      · exact ⟨[], p :: ps, by simp [Option.filter, hk]⟩
      · exact ⟨[p], ps, by simp [Option.filter, hk]⟩
  simp only [splitArms, hr] at h
  have ht : ∀ p ∈ rest.takeWhile (·.kind = arm), p.kind = arm := by
    intro p hp
    simpa using List.all_eq_true.mp (List.all_takeWhile (l := rest)) p hp
  have hd : ∀ p ∈ (rest.dropWhile (·.kind = arm)).head?, p.kind ≠ arm := by
    intro p hp
    have hn := List.head?_dropWhile_not (·.kind = arm) rest
    rw [Option.mem_def.mp hp] at hn
    simpa using hn
  have hs := List.takeWhile_append_dropWhile (p := (·.kind = arm)) (l := rest)
  split at h
  next he =>
    cases h
    rw [he, List.append_nil] at hs
    exact ⟨lead, _, [], by rw [List.append_nil, hs, hp], hn, by simp, hk, ht, by simp, hl, rfl, rfl⟩
  next last he =>
    cases h
    rw [he] at hd hs
    exact ⟨lead, _, [last], by rw [List.append_assoc, hs, hp], hn, by simp, hk, ht,
      by simpa using hd, hl, rfl, by simp⟩
  next => cases h

theorem splitArms_present {kind arm : String} {placed : List Placed} {a : Arms}
    (h : splitArms kind arm placed = .ok a) :
    a.leading.toList ++ a.arms ++ a.trailing.toList = presentOf placed := by
  obtain ⟨lead, taken, last, rfl, -, -, -, -, -, hl, ht, he⟩ := splitArms_eq_ok h
  rw [hl, ht, he, presentOf_append, presentOf_append]

theorem splitArms_kind {kind arm : String} {placed : List Placed} {a : Arms}
    (h : splitArms kind arm placed = .ok a) {i : NodeId} (hi : i ∈ a.arms) :
    ∃ p ∈ placed, p.kind = arm ∧ p.slot = some i := by
  obtain ⟨lead, taken, last, rfl, -, -, -, hk, -, -, ht, -⟩ := splitArms_eq_ok h
  rw [ht] at hi
  obtain ⟨p, hp, hs⟩ := mem_presentOf.mp hi
  exact ⟨p, by simp [hp], hk p hp, hs⟩

theorem presentOf_dropLast (placed : List Placed) :
    presentOf placed.dropLast ++ (placed.getLast?.bind (·.slot)).toList = presentOf placed := by
  rcases List.eq_nil_or_concat placed with rfl | ⟨ps, p, rfl⟩
  · rfl
  · simp [presentOf_append]

theorem presentOf_tail (placed : List Placed) :
    (slotOf placed 0).toList ++ presentOf placed.tail = presentOf placed := by
  cases placed <;> simp [slotOf]

theorem presentOf_two {placed : List Placed} (h : placed.length ≤ 2) :
    (slotOf placed 0).toList ++ (slotOf placed 1).toList = presentOf placed := by
  match placed, h with
  | [], _ | [_], _ | [_, _], _ => simp [slotOf]

theorem presentOf_three {placed : List Placed} (h : placed.length ≤ 3) :
    (slotOf placed 0).toList ++ (slotOf placed 1).toList ++ (slotOf placed 2).toList =
      presentOf placed := by
  match placed, h with
  | [], _ | [_], _ | [_, _], _ | [_, _, _], _ => simp [slotOf]

/-- The slots of a node hold the children that are present. -/
theorem construct_present {d : Dump} {placed : List Placed} {what : Construct}
    (h : d.construct placed = .ok what) : what.present = presentOf placed := by
  unfold construct at h
  simp only at h
  split at h
  next => cases h
  next hl =>
    cases hf : Form.ofKind d.kind with
    | expression type | sequence explicit =>
      rw [hf] at h
      cases h
      rfl
    | emptyBody =>
      rw [hf] at h hl
      cases h
      have : placed = [] := by simpa [Form.limit] using hl
      simp [this, Construct.present]
    | conditional =>
      rw [hf] at h hl
      simp only at h
      split at h <;> cases h
      exact presentOf_three (by simpa [Form.limit] using hl)
    | dispatch | rescue =>
      rw [hf] at h
      obtain ⟨a, ha, hw⟩ := bind_eq_ok.mp h
      cases hw
      exact splitArms_present ha
    | arm =>
      rw [hf] at h
      cases h
      exact presentOf_dropLast placed
    | shortCircuit op | loop polarity test | ensure =>
      rw [hf] at h hl
      cases h
      exact presentOf_two (by simpa [Form.limit] using hl)
    | safeNavigation =>
      rw [hf] at h
      cases h
      exact presentOf_tail placed
    | handler =>
      rw [hf] at h hl
      cases h
      exact presentOf_three (by simpa [Form.limit] using hl)

/-! ### Kinds -/

def Form.nodeKind : Form → Kind
  | .expression _ => .expression
  | .sequence _ => .sequence
  | .emptyBody => .emptyBody
  | .conditional => .conditional
  | .dispatch => .dispatch
  | .arm => .arm
  | .shortCircuit _ => .shortCircuit
  | .safeNavigation => .safeNavigation
  | .loop .. => .loop
  | .rescue => .rescue
  | .handler => .handler
  | .ensure => .ensure

theorem construct_kind {d : Dump} {placed : List Placed} {what : Construct}
    (h : d.construct placed = .ok what) : what.kind = (Form.ofKind d.kind).nodeKind := by
  unfold construct at h
  simp only at h
  split at h
  next => cases h
  next =>
    cases hf : Form.ofKind d.kind with
    | conditional =>
      rw [hf] at h
      simp only at h
      split at h <;> cases h
      rfl
    | dispatch | rescue =>
      rw [hf] at h
      obtain ⟨a, -, hw⟩ := bind_eq_ok.mp h
      cases hw
      rfl
    | _ =>
      rw [hf] at h
      cases h
      rfl

/-- A dispatch and a rescue get their slots from a split by the kind of their arms. -/
theorem construct_split {d : Dump} {placed : List Placed} {what : Construct}
    (h : d.construct placed = .ok what) :
    (∀ subject arms otherwise, what = .dispatch subject arms otherwise →
      splitArms d.kind armKind placed = .ok ⟨subject, arms, otherwise⟩) ∧
    ∀ watched handlers otherwise, what = .rescue watched handlers otherwise →
      splitArms d.kind handlerKind placed = .ok ⟨watched, handlers, otherwise⟩ := by
  have hk := construct_kind h
  unfold construct at h
  simp only at h
  split at h
  next => cases h
  next =>
    constructor
    all_goals
      rintro lead arms trail rfl
      cases hf : Form.ofKind d.kind <;> rw [hf] at hk h <;>
        simp [Form.nodeKind, Construct.kind] at hk
      obtain ⟨a, hs, hw⟩ := bind_eq_ok.mp h
      cases hw
      exact hs

/-- The arms of a dispatch and the handler arms of a rescue are children of the kind for them. -/
theorem construct_arms {d : Dump} {placed : List Placed} {what : Construct}
    (h : d.construct placed = .ok what) {i : NodeId} :
    (∀ subject arms otherwise, what = .dispatch subject arms otherwise → i ∈ arms →
      ∃ p ∈ placed, p.kind = armKind ∧ p.slot = some i) ∧
    (∀ watched handlers otherwise, what = .rescue watched handlers otherwise → i ∈ handlers →
      ∃ p ∈ placed, p.kind = handlerKind ∧ p.slot = some i) :=
  ⟨fun _ _ _ hw hi => splitArms_kind ((construct_split h).1 _ _ _ hw) hi,
    fun _ _ _ hw hi => splitArms_kind ((construct_split h).2 _ _ _ hw) hi⟩

/-! ### Links -/

/-- A tree has these nodes from a number on. -/
def Holds (t : Tree) (next : NodeId) (nodes : List Node) : Prop :=
  ∀ {j : Nat} {n : Node}, nodes[j]? = some n → t.nodes[next + j]? = some n

theorem Holds.tail {t : Tree} {next : NodeId} {n : Node} {nodes : List Node}
    (h : Holds t next (n :: nodes)) : Holds t (next + 1) nodes := by
  intro j m hm
  rw [Nat.add_right_comm]
  exact h (j := j + 1) (by simpa using hm)

theorem Holds.left {t : Tree} {next : NodeId} {ms ns : List Node}
    (h : Holds t next (ms ++ ns)) : Holds t next ms := by
  intro j m hm
  exact h (by rw [List.getElem?_append_left (List.getElem?_eq_some_iff.mp hm).1, hm])

theorem Holds.right {t : Tree} {next : NodeId} {ms ns : List Node}
    (h : Holds t next (ms ++ ns)) : Holds t (next + ms.length) ns := by
  intro j m hm
  rw [Nat.add_assoc]
  exact h (by rw [List.getElem?_append_right (by omega), Nat.add_sub_cancel_left, hm])

/-- What a node owes to its children: they know their parent and place, the slots hold them, and
arms stand where arms belong. -/
structure Rooted (t : Tree) (i : NodeId) (n : Node) : Prop where
  children : ∀ {k : Nat} {c : NodeId}, n.children[k]? = some c →
    ∃ m, t.nodes[c]? = some m ∧ m.parent = some i ∧ m.index = k
  present : n.construct.present = n.children
  arms : ∀ {subject otherwise : Slot} {arms : List NodeId} {a : NodeId},
    n.construct = .dispatch subject arms otherwise → a ∈ arms →
    ∃ m, t.nodes[a]? = some m ∧ m.kind = .arm
  handlers : ∀ {watched otherwise : Slot} {handlers : List NodeId} {a : NodeId},
    n.construct = .rescue watched handlers otherwise → a ∈ handlers →
    ∃ m, t.nodes[a]? = some m ∧ m.kind = .handler

/-- What a node owes to its parent: to come later and to be its child where it says. -/
def Hangs (t : Tree) (i : NodeId) (n : Node) : Prop :=
  ∃ p m, n.parent = some p ∧ p < i ∧ t.nodes[p]? = some m ∧ m.children[n.index]? = some i

/-- Of the nodes laid out for a dump, all but the first hang on others of them. -/
structure LinkedBelow (t : Tree) (next : NodeId) (parent : Slot) (index : Nat) (p : Placed) :
    Prop where
  slot : ∀ {i : NodeId}, p.slot = some i → ∃ n, t.nodes[i]? = some n ∧
    n.kind = (Form.ofKind p.kind).nodeKind ∧ n.parent = parent ∧ n.index = index
  nodes : ∀ {j : Nat} {n : Node}, p.nodes[j]? = some n → Rooted t (next + j) n ∧
    (Hangs t (next + j) n ∨ p.slot = some (next + j) ∧ j = 0 ∧ n.parent = parent ∧ n.index = index)

/-- Of the nodes laid out for a row of siblings, all but the siblings hang on others of them. -/
structure LinkedRow (t : Tree) (next parent : NodeId) (index : Nat) (ps : List Placed) : Prop where
  slots : ∀ {k : Nat} {i : NodeId}, (presentOf ps)[k]? = some i →
    ∃ n, t.nodes[i]? = some n ∧ n.parent = some parent ∧ n.index = index + k
  kinds : ∀ {p : Placed} {i : NodeId}, p ∈ ps → p.slot = some i →
    ∃ n, t.nodes[i]? = some n ∧ n.kind = (Form.ofKind p.kind).nodeKind
  nodes : ∀ {j : Nat} {n : Node}, (ps.flatMap (·.nodes))[j]? = some n → Rooted t (next + j) n ∧
    (Hangs t (next + j) n ∨ ∃ k, (presentOf ps)[k]? = some (next + j) ∧ n.parent = some parent ∧
      n.index = index + k)

theorem LinkedRow.cons {t : Tree} {next parent : NodeId} {index : Nat} {p : Placed}
    {ps : List Placed} (hp : LinkedBelow t next (some parent) index p)
    (hs : LinkedRow t (next + p.nodes.length) parent (index + p.slot.toList.length) ps) :
    LinkedRow t next parent index (p :: ps) where
  slots := by
    intro k i hi
    rw [presentOf_cons] at hi
    cases hs' : p.slot with
    | none =>
      rw [hs'] at hi hs
      exact hs.slots hi
    | some first =>
      rw [hs'] at hi hs
      cases k with
      | zero =>
        obtain ⟨n, hn, -, hq, hx⟩ := hp.slot hs'
        exact ⟨n, by simpa using (by simpa using hi : first = i) ▸ hn, hq, hx⟩
      | succ k =>
        obtain ⟨n, hn, hq, hx⟩ := hs.slots (k := k) (by simpa using hi)
        exact ⟨n, hn, hq, by simp at hx; omega⟩
  kinds := by
    intro q i hq hi
    rcases List.mem_cons.mp hq with rfl | hq
    · obtain ⟨n, hn, hk, -⟩ := hp.slot hi
      exact ⟨n, hn, hk⟩
    · exact hs.kinds hq hi
  nodes := by
    intro j n hn
    rw [List.flatMap_cons, List.getElem?_append] at hn
    rw [presentOf_cons]
    split at hn
    next hj =>
      obtain ⟨hr, hh | ⟨hs', rfl, hq, hx⟩⟩ := hp.nodes hn
      · exact ⟨hr, .inl hh⟩
      · exact ⟨hr, .inr ⟨0, by simp [hs'], hq, hx⟩⟩
    next hj =>
      have he : next + p.nodes.length + (j - p.nodes.length) = next + j := by
        rw [Nat.add_assoc, Nat.add_sub_of_le (Nat.le_of_not_lt hj)]
      obtain ⟨hr, hh⟩ := hs.nodes hn
      rw [he] at hr hh
      refine ⟨hr, hh.imp_right ?_⟩
      rintro ⟨k, hk, hq, hx⟩
      refine ⟨p.slot.toList.length + k, ?_, hq, by omega⟩
      rw [List.getElem?_append_right (by omega), Nat.add_sub_cancel_left, hk]

/-- Every dump is laid out with its links in order. -/
theorem linkedRule (t : Tree) : LayoutRule
    (fun next parent index _ p => Holds t next p.nodes → LinkedBelow t next parent index p)
    (fun next parent index _ ps =>
      Holds t next (ps.flatMap (·.nodes)) → LinkedRow t next parent index ps) where
  absent := by
    intro next parent index d _ _
    exact ⟨by simp, by simp⟩
  present := by
    intro next parent index d kids decorations what _ hrow _ hw ht
    have hrow := hrow ht.tail
    have hn := ht (j := 0) rfl
    constructor
    · intro i hi
      cases hi
      exact ⟨_, hn, construct_kind hw, rfl, rfl⟩
    · intro j n hj
      cases j with
      | zero =>
        cases hj
        refine ⟨⟨fun hc => ?_, construct_present hw, fun hc ha => ?_, fun hc ha => ?_⟩,
          .inr ⟨rfl, rfl, rfl, rfl⟩⟩
        · simpa using hrow.slots hc
        · obtain ⟨p, hp, hk, hs⟩ := (construct_arms hw).1 _ _ _ hc ha
          obtain ⟨m, hm, hkind⟩ := hrow.kinds hp hs
          exact ⟨m, hm, by rw [hkind, hk]; rfl⟩
        · obtain ⟨p, hp, hk, hs⟩ := (construct_arms hw).2 _ _ _ hc ha
          obtain ⟨m, hm, hkind⟩ := hrow.kinds hp hs
          exact ⟨m, hm, by rw [hkind, hk]; rfl⟩
      | succ j =>
        obtain ⟨hr, hh⟩ := hrow.nodes (by simpa using hj)
        have he : next + 1 + j = next + (j + 1) := by rw [Nat.add_assoc, Nat.add_comm 1 j]
        rw [he] at hr hh
        refine ⟨hr, .inl ?_⟩
        rcases hh with hh | ⟨k, hk, hq, hx⟩
        · exact hh
        · exact ⟨next, _, hq, Nat.lt_add_of_pos_right j.succ_pos, hn, by simpa [hx] using hk⟩
  nil := by
    intro next parent index _
    exact ⟨by simp, by simp, by simp⟩
  cons := by
    intro next parent index d ds first others hf ho ht
    rw [List.flatMap_cons] at ht
    exact .cons (hf ht.left) (ho ht.right)

end BranchTally.Dump

namespace BranchTally

/-- A tree that some dump was loaded as. -/
def Tree.Loaded (t : Tree) : Prop := ∃ name d, (Dump.load name d).2 = .ok t

theorem Dump.toTree_of_load {name : String} {d : Dump} {t : Tree}
    (h : (Dump.load name d).2 = .ok t) : d.toTree.result = .ok t := by
  simp only [Dump.load] at h
  split at h
  next hr =>
    cases h
    exact hr
  next => cases h

theorem Dump.LinkedBelow.linked {p : Dump.Placed}
    (h : Dump.LinkedBelow ⟨p.nodes.toArray⟩ 0 none 0 p) : Tree.Linked ⟨p.nodes.toArray⟩ := by
  have hn : ∀ {i : NodeId} {n : Node}, p.nodes.toArray[i]? = some n →
      Dump.Rooted ⟨p.nodes.toArray⟩ i n ∧
        (Dump.Hangs ⟨p.nodes.toArray⟩ i n ∨ i = 0 ∧ n.parent = none) := by
    intro i n hi
    obtain ⟨hr, hh⟩ := h.nodes (by simpa using hi)
    rw [Nat.zero_add] at hr hh
    exact ⟨hr, hh.imp_right fun ⟨_, h0, hp, _⟩ => ⟨h0, hp⟩⟩
  constructor
  case child_of_parent =>
    intro i q n hi hq
    rcases (hn hi).2 with ⟨q', m, hq', hlt, hm, hc⟩ | ⟨-, hnone⟩
    · rw [hq] at hq'
      cases hq'
      exact ⟨hlt, m, hm, hc⟩
    · rw [hq] at hnone
      cases hnone
  case parent_of_child =>
    intro q c m k hm hk
    exact (hn hm).1.children hk
  case present_eq =>
    intro i n hi
    exact (hn hi).1.present
  case root =>
    intro i n hi
    rcases (hn hi).2 with ⟨q, m, hq, hlt, -⟩ | ⟨h0, hnone⟩
    · simp [hq, Nat.ne_of_gt (Nat.zero_lt_of_lt hlt)]
    · simp [h0, hnone]
  case arm_kind =>
    intro i a n _ _ _ hi hc ha
    exact (hn hi).1.arms hc ha
  case handler_kind =>
    intro i a n _ _ _ hi hc ha
    exact (hn hi).1.handlers hc ha

/-- A tree that was loaded is what its dump was laid out as. -/
theorem Dump.layout_of_load {name : String} {d : Dump} {t : Tree}
    (h : (Dump.load name d).2 = .ok t) :
    ∃ p, (Dump.layout 0 none 0 d).result = .ok p ∧ p.slot.isSome ∧ t = ⟨p.nodes.toArray⟩ := by
  have hd := Dump.toTree_of_load h
  simp only [Dump.toTree] at hd
  split at hd
  next p hp =>
    split at hd
    next hs =>
      cases hd
      exact ⟨p, hp, hs, rfl⟩
    next => cases hd
  next => cases hd

/-- A loaded tree is linked. -/
theorem Tree.Loaded.linked {t : Tree} (h : t.Loaded) : t.Linked := by
  obtain ⟨name, d, hd⟩ := h
  obtain ⟨p, hp, -, rfl⟩ := Dump.layout_of_load hd
  exact ((Dump.linkedRule ⟨p.nodes.toArray⟩).layout hp (by intro j n hn; simpa using hn)).linked

/-! ### A loaded tree -/

/-- A loop that tries some work again while it is ready: `while ready do begin work rescue Busy
pause end end`. -/
def Dump.retry : Dump :=
  let span (l c l' c' : Int) : Option Span := some ⟨⟨l, c⟩, ⟨l', c'⟩⟩
  .node "begin" 1 (span 1 0 7 3) [("entry", "1")]
    [.node "while" 1 (span 1 0 7 3) [("body", "2")]
      [.node "send" 1 (span 1 6 1 11) [("completion", "3")] [],
        .node "rescue" 3 (span 3 4 5 9) []
          [.node "send" 3 (span 3 4 3 8) [("completion", "4")] [],
            .node "resbody" 4 (span 4 2 5 9) [("entered_body", "5")]
              [.node "const" 4 (span 4 9 4 13) [] [], .node "_" 4 none [] [],
                .node "send" 5 (span 5 4 5 9) [] []]]]]

def Tree.retry : Tree :=
  let span (l c l' c' : Int) : Option Span := some ⟨⟨l, c⟩, ⟨l', c'⟩⟩
  ⟨#[⟨.sequence false [1], span 1 0 7 3, none, 0, [1], [(.entry, 1)], []⟩,
    ⟨.loop .whileTrue .before (some 2) (some 3), span 1 0 7 3, some 0, 0, [2, 3],
      [(.body, 2)], []⟩,
    ⟨.expression "send" [], span 1 6 1 11, some 1, 0, [], [(.completion, 3)], []⟩,
    ⟨.rescue (some 4) [5] none, span 3 4 5 9, some 1, 1, [4, 5], [], []⟩,
    ⟨.expression "send" [], span 3 4 3 8, some 3, 0, [], [(.completion, 4)], []⟩,
    ⟨.handler (some 6) none (some 7), span 4 2 5 9, some 3, 1, [6, 7], [(.enteredBody, 5)], []⟩,
    ⟨.expression "const" [], span 4 9 4 13, some 5, 0, [], [], []⟩,
    ⟨.expression "send" [], span 5 4 5 9, some 5, 1, [], [], []⟩]⟩

theorem Tree.retry_loaded : Tree.retry.Loaded := ⟨"retry", Dump.retry, rfl⟩

end BranchTally
