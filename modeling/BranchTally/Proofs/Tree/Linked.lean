import BranchTally.Tree.Order

/-! Trees whose links agree: a node and its children know of each other, parents come before their
children, and the slots of a node hold its children in their order. On such a tree the neighbour of
a child is found among the children of its parent, and a node is a child in one place only. -/

namespace BranchTally

theorem bind_eq_ok {ε α β : Type} {r : Except ε α} {f : α → Except ε β} {b : β} :
    r.bind f = .ok b ↔ ∃ a, r = .ok a ∧ f a = .ok b := by
  cases r <;> simp [Except.bind]

theorem bind_eq_error {ε α β : Type} {r : Except ε α} {f : α → Except ε β} {fault : ε} :
    r.bind f = .error fault ↔ r = .error fault ∨ ∃ a, r = .ok a ∧ f a = .error fault := by
  cases r <;> simp [Except.bind]

theorem mapError_eq_ok {ε δ α : Type} {r : Except ε α} {f : ε → δ} {a : α} :
    r.mapError f = .ok a ↔ r = .ok a := by
  cases r with
  | error cause => exact ⟨nofun, nofun⟩
  | ok b =>
    change (.ok b : Except δ α) = .ok a ↔ _
    simp only [Except.ok.injEq]

theorem mapError_eq_error {ε δ α : Type} {r : Except ε α} {f : ε → δ} {fault : δ} :
    r.mapError f = .error fault ↔ ∃ cause, r = .error cause ∧ f cause = fault := by
  cases r with
  | error cause =>
    change (.error (f cause) : Except δ α) = .error fault ↔ _
    simp
  | ok b => exact ⟨nofun, nofun⟩

theorem map_eq_ok {ε α β : Type} {r : Except ε α} {f : α → β} {b : β} :
    r.map f = .ok b ↔ ∃ a, r = .ok a ∧ f a = b := by
  cases r <;> simp [Except.map]

namespace Tree

structure Linked (t : Tree) : Prop where
  child_of_parent : ∀ {i p : NodeId} {n : Node}, t.nodes[i]? = some n → n.parent = some p →
    p < i ∧ ∃ m, t.nodes[p]? = some m ∧ m.children[n.index]? = some i
  parent_of_child : ∀ {p c : NodeId} {m : Node} {k : Nat}, t.nodes[p]? = some m →
    m.children[k]? = some c → ∃ n, t.nodes[c]? = some n ∧ n.parent = some p ∧ n.index = k
  present_eq : ∀ {i : NodeId} {n : Node}, t.nodes[i]? = some n → n.construct.present = n.children
  root : ∀ {i : NodeId} {n : Node}, t.nodes[i]? = some n → (n.parent = none ↔ i = 0)
  arm_kind : ∀ {i a : NodeId} {n : Node} {subject otherwise : Slot} {arms : List NodeId},
    t.nodes[i]? = some n → n.construct = .dispatch subject arms otherwise → a ∈ arms →
    ∃ m, t.nodes[a]? = some m ∧ m.kind = .arm
  handler_kind : ∀ {i a : NodeId} {n : Node} {watched otherwise : Slot} {handlers : List NodeId},
    t.nodes[i]? = some n → n.construct = .rescue watched handlers otherwise → a ∈ handlers →
    ∃ m, t.nodes[a]? = some m ∧ m.kind = .handler

theorem node_eq_ok {t : Tree} {i : NodeId} {n : Node} :
    t.node i = .ok n ↔ t.nodes[i]? = some n := by
  unfold node
  cases t.nodes[i]? <;> simp

theorem size_of_node {t : Tree} {i : NodeId} {n : Node} (h : t.nodes[i]? = some n) :
    i < t.size :=
  (Array.getElem?_eq_some_iff.mp h).1

theorem parent_eq_ok {t : Tree} {i : NodeId} {n : Node} (h : t.nodes[i]? = some n) :
    t.parent i = .ok n.parent := by
  simp [parent, node_eq_ok.mpr h, bind, Except.bind, pure, Except.pure]

theorem index_eq_ok {t : Tree} {i : NodeId} {n : Node} (h : t.nodes[i]? = some n) :
    t.index i = .ok n.index := by
  simp [index, node_eq_ok.mpr h, bind, Except.bind, pure, Except.pure]

@[simp] theorem required_some {t : Tree} {owner c : NodeId} {name : String} :
    t.required owner (some c) name = .ok c := rfl

theorem required_none {t : Tree} {owner : NodeId} {n : Node} {name : String}
    (h : t.nodes[owner]? = some n) :
    t.required owner none name = .error (.missing (n.label owner) name) := by
  simp [required, label, node_eq_ok.mpr h, bind, Except.bind, pure, Except.pure, throw, throwThe,
    MonadExceptOf.throw]

theorem required_eq_ok {t : Tree} {owner c : NodeId} {s : Slot} {name : String} :
    t.required owner s name = .ok c ↔ s = some c := by
  unfold required
  cases s with
  | none => cases t.label owner <;> simp [bind, Except.bind]
  | some id => simp

theorem refuse_ne_ok {α : Type} {t : Tree} {i : NodeId} {a : α} : t.refuse i ≠ .ok a := by
  unfold refuse
  cases t.label i <;> simp [bind, Except.bind]

namespace Linked

variable {t : Tree} {i j p c : NodeId} {n m : Node}

/-- A node in a slot of another is its child. -/
theorem child_of_present (h : t.Linked) (hn : t.nodes[i]? = some n)
    (hc : c ∈ n.construct.present) :
    ∃ m, t.nodes[c]? = some m ∧ m.parent = some i ∧ n.children[m.index]? = some c := by
  rw [h.present_eq hn] at hc
  obtain ⟨k, hk⟩ := List.mem_iff_getElem?.mp hc
  obtain ⟨m, hm, hp, hx⟩ := h.parent_of_child hn hk
  exact ⟨m, hm, hp, hx ▸ hk⟩

/-- A node in a slot comes after its owner. -/
theorem lt_of_present (h : t.Linked) (hn : t.nodes[i]? = some n) (hc : c ∈ n.construct.present) :
    i < c ∧ c < t.size := by
  obtain ⟨m, hm, hp, -⟩ := h.child_of_present hn hc
  exact ⟨(h.child_of_parent hm hp).1, size_of_node hm⟩

theorem present_of_child (h : t.Linked) (hn : t.nodes[i]? = some n) (hp : n.parent = some p)
    (hm : t.nodes[p]? = some m) : m.construct.present[n.index]? = some i := by
  obtain ⟨-, m', hm', hc⟩ := h.child_of_parent hn hp
  rw [hm] at hm'
  cases hm'
  rw [h.present_eq hm]
  exact hc

/-- The place of a child among the slots is the one it knows. -/
theorem index_eq (h : t.Linked) (hp : t.nodes[p]? = some m) {k : Nat}
    (hk : m.construct.present[k]? = some c) (hc : t.nodes[c]? = some n) : n.index = k := by
  rw [h.present_eq hp] at hk
  obtain ⟨n', hn', -, hx⟩ := h.parent_of_child hp hk
  rw [hc] at hn'
  cases hn'
  exact hx

theorem parent_eq (h : t.Linked) (hp : t.nodes[p]? = some m) (hm : c ∈ m.construct.present)
    (hc : t.nodes[c]? = some n) : n.parent = some p := by
  obtain ⟨n', hn', hx, -⟩ := h.child_of_present hp hm
  rw [hc] at hn'
  cases hn'
  exact hx

/-- A node is a child in one place only. -/
theorem present_injective (h : t.Linked) (hp : t.nodes[p]? = some m) {k l : Nat}
    (hk : m.construct.present[k]? = some c) (hl : m.construct.present[l]? = some c) : k = l := by
  have hk' := hk
  rw [h.present_eq hp] at hk'
  obtain ⟨n, hn, -⟩ := h.parent_of_child hp hk'
  exact (h.index_eq hp hk hn).symm.trans (h.index_eq hp hl hn)

theorem previousSibling_eq (hn : t.nodes[i]? = some n) (hp : n.parent = some p)
    (hm : t.nodes[p]? = some m) :
    t.previousSibling i = .ok (if n.index = 0 then none else m.children[n.index - 1]?) := by
  have hi := node_eq_ok.mpr hn
  have hc : t.children p = .ok m.children := by
    simp [children, node_eq_ok.mpr hm, bind, Except.bind, pure, Except.pure]
  cases hk : n.index <;>
    simp [previousSibling, hi, hp, hk, hc, bind, Except.bind, pure, Except.pure]

/-- The left neighbour of a child is the child before it. -/
theorem previousSibling_cases (h : t.Linked) (hn : t.nodes[i]? = some n) (hp : n.parent = some p)
    (hm : t.nodes[p]? = some m) :
    (n.index = 0 ∧ t.previousSibling i = .ok none) ∨
      ∃ k j, n.index = k + 1 ∧ m.construct.present[k]? = some j ∧
        t.previousSibling i = .ok (some j) := by
  have hs := h.present_of_child hn hp hm
  rw [previousSibling_eq hn hp hm, h.present_eq hm]
  rw [h.present_eq hm] at hs
  cases hk : n.index with
  | zero => simp
  | succ k =>
    have hlt : k < m.children.length := by
      have := (List.getElem?_eq_some_iff.mp hs).1
      omega
    exact .inr ⟨k, m.children[k], rfl, by simp [hlt], by simp [hlt]⟩

/-- The right neighbour of a child is the child after it. -/
theorem nextSibling_eq (hn : t.nodes[i]? = some n) (hp : n.parent = some p)
    (hm : t.nodes[p]? = some m) : t.nextSibling i = .ok m.children[n.index + 1]? := by
  simp [nextSibling, children, node_eq_ok.mpr hn, hp, node_eq_ok.mpr hm, bind, Except.bind, pure,
    Except.pure]

theorem siblings_of_root (hn : t.nodes[i]? = some n) (hp : n.parent = none) :
    t.previousSibling i = .ok none ∧ t.nextSibling i = .ok none := by
  simp [previousSibling, nextSibling, node_eq_ok.mpr hn, hp, bind, Except.bind, pure, Except.pure]

theorem siblings_of_unknown (hn : t.nodes[i]? = none) :
    t.previousSibling i = .error .unknownNode ∧ t.nextSibling i = .error .unknownNode := by
  simp [previousSibling, nextSibling, node, hn, bind, Except.bind]

/-- A node is nowhere, or the root, or a child in a place that it knows. -/
theorem place_cases (h : t.Linked) (i : NodeId) : t.nodes[i]? = none ∨
    (∃ n, t.nodes[i]? = some n ∧ n.parent = none) ∨
    ∃ n p m, t.nodes[i]? = some n ∧ n.parent = some p ∧ t.nodes[p]? = some m ∧
      m.children[n.index]? = some i := by
  cases hn : t.nodes[i]? with
  | none => exact .inl rfl
  | some n =>
    refine .inr ?_
    cases hp : n.parent with
    | none => exact .inl ⟨n, rfl, hp⟩
    | some p =>
      obtain ⟨-, m, hm, hc⟩ := h.child_of_parent hn hp
      exact .inr ⟨n, p, m, rfl, hp, hm, hc⟩

/-- The neighbours of the child in a given place. -/
theorem siblings_of_child (h : t.Linked) (hm : t.nodes[p]? = some m) {k : Nat}
    (hk : m.children[k]? = some c) :
    t.previousSibling c = .ok (if k = 0 then none else m.children[k - 1]?) ∧
      t.nextSibling c = .ok m.children[k + 1]? := by
  obtain ⟨n, hn, hp, rfl⟩ := h.parent_of_child hm hk
  exact ⟨previousSibling_eq hn hp hm, nextSibling_eq hn hp hm⟩

/-- The nodes with a right neighbour are those that come before another child. -/
theorem nextSibling_eq_some (h : t.Linked) : t.nextSibling i = .ok (some j) ↔
    ∃ (p : NodeId) (m : Node) (k : Nat), t.nodes[p]? = some m ∧ m.children[k]? = some i ∧
      m.children[k + 1]? = some j := by
  constructor
  · intro hj
    rcases h.place_cases i with hn | ⟨n, hn, hp⟩ | ⟨n, p, m, hn, hp, hm, hi⟩
    · rw [(siblings_of_unknown hn).2] at hj
      cases hj
    · rw [(siblings_of_root hn hp).2] at hj
      cases hj
    · rw [nextSibling_eq hn hp hm, Except.ok.injEq] at hj
      exact ⟨p, m, n.index, hm, hi, hj⟩
  · rintro ⟨p, m, k, hm, hi, hj⟩
    rw [(h.siblings_of_child hm hi).2, hj]

theorem previousSibling_eq_some (h : t.Linked) : t.previousSibling j = .ok (some i) ↔
    ∃ (p : NodeId) (m : Node) (k : Nat), t.nodes[p]? = some m ∧ m.children[k]? = some i ∧
      m.children[k + 1]? = some j := by
  constructor
  · intro hi
    rcases h.place_cases j with hn | ⟨n, hn, hp⟩ | ⟨n, p, m, hn, hp, hm, hj⟩
    · rw [(siblings_of_unknown hn).1] at hi
      cases hi
    · rw [(siblings_of_root hn hp).1] at hi
      cases hi
    · rw [previousSibling_eq hn hp hm, Except.ok.injEq] at hi
      split at hi
      next => cases hi
      next h0 =>
        rw [← Nat.sub_add_cancel (Nat.pos_of_ne_zero h0)] at hj
        exact ⟨p, m, n.index - 1, hm, hi, hj⟩
  · rintro ⟨p, m, k, hm, hi, hj⟩
    rw [(h.siblings_of_child hm hj).1, if_neg k.succ_ne_zero, Nat.add_sub_cancel, hi]

/-- The nodes with no left neighbour are the root and the first children. -/
theorem previousSibling_eq_none (h : t.Linked) (h0 : t.nodes[0]? = some n) :
    t.previousSibling i = .ok none ↔
      i = 0 ∨ ∃ (p : NodeId) (m : Node), t.nodes[p]? = some m ∧ m.children.head? = some i := by
  constructor
  · intro hi
    rcases h.place_cases i with hn | ⟨n, hn, hp⟩ | ⟨n, p, m, hn, hp, hm, hc⟩
    · rw [(siblings_of_unknown hn).1] at hi
      cases hi
    · exact .inl ((h.root hn).mp hp)
    · rw [previousSibling_eq hn hp hm, Except.ok.injEq] at hi
      have hlt := (List.getElem?_eq_some_iff.mp hc).1
      split at hi
      next hx =>
        rw [hx] at hc
        exact .inr ⟨p, m, hm, List.head?_eq_getElem? ▸ hc⟩
      next =>
        have := List.getElem?_eq_none_iff.mp hi
        omega
  · rintro (rfl | ⟨p, m, hm, hi⟩)
    · exact (siblings_of_root h0 ((h.root h0).mpr rfl)).1
    · rw [List.head?_eq_getElem?] at hi
      rw [(h.siblings_of_child hm hi).1, if_pos rfl]

/-- The nodes with no right neighbour are the root and the last children. -/
theorem nextSibling_eq_none (h : t.Linked) (h0 : t.nodes[0]? = some n) :
    t.nextSibling i = .ok none ↔
      i = 0 ∨ ∃ (p : NodeId) (m : Node), t.nodes[p]? = some m ∧ m.children.getLast? = some i := by
  constructor
  · intro hi
    rcases h.place_cases i with hn | ⟨n, hn, hp⟩ | ⟨n, p, m, hn, hp, hm, hc⟩
    · rw [(siblings_of_unknown hn).2] at hi
      cases hi
    · exact .inl ((h.root hn).mp hp)
    · rw [nextSibling_eq hn hp hm, Except.ok.injEq] at hi
      have hlt := (List.getElem?_eq_some_iff.mp hc).1
      have := List.getElem?_eq_none_iff.mp hi
      refine .inr ⟨p, m, hm, ?_⟩
      rw [List.getLast?_eq_getElem?, show m.children.length - 1 = n.index by omega, hc]
  · rintro (rfl | ⟨p, m, hm, hi⟩)
    · exact (siblings_of_root h0 ((h.root h0).mpr rfl)).2
    · rw [List.getLast?_eq_getElem?] at hi
      have hlt := (List.getElem?_eq_some_iff.mp hi).1
      rw [(h.siblings_of_child hm hi).2, List.getElem?_eq_none (by omega)]

end Linked

end Tree

end BranchTally
