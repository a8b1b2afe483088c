import BranchTally.Proofs.Tree.Linked

/-! The slots of a node of a linked tree. No node is in two slots, and the left neighbour of a node
in a row of slots is the one before it, or else what stands before the row. -/

namespace BranchTally

variable {t : Tree} {i c b : NodeId} {n : Node} {ids before after : List NodeId}

theorem present_nodup (ht : t.Linked) (hn : t.nodes[i]? = some n) : n.construct.present.Nodup := by
  rw [List.Nodup, List.pairwise_iff_getElem]
  intro k l hk hl hkl h
  have := ht.present_injective hn (List.getElem?_eq_getElem hk)
    ((List.getElem?_eq_getElem hl).trans (congrArg some h.symm))
  omega

/-! ### Distinct slots -/

theorem conditional_nodup {style : Style} {c a b : NodeId}
    (hc : n.construct = .conditional style (some c) (some a) (some b))
    (hd : n.construct.present.Nodup) : c ≠ a ∧ c ≠ b ∧ a ≠ b := by
  rw [hc] at hd
  simpa [Construct.present, and_assoc] using hd

theorem shortCircuit_nodup {op : Connective} {l r : NodeId}
    (hc : n.construct = .shortCircuit op (some l) (some r))
    (hd : n.construct.present.Nodup) : l ≠ r := by
  rw [hc] at hd
  simpa [Construct.present] using hd

theorem safeNavigation_nodup {r : NodeId} (hc : n.construct = .safeNavigation (some r) ids)
    (hd : n.construct.present.Nodup) : r ∉ ids ∧ ids.Nodup := by
  rw [hc] at hd
  simpa [Construct.present] using hd

theorem loop_nodup {polarity : Polarity} {test : LoopTest} {c b : NodeId}
    (hc : n.construct = .loop polarity test (some c) (some b))
    (hd : n.construct.present.Nodup) : c ≠ b := by
  rw [hc] at hd
  simpa [Construct.present] using hd

theorem rescue_nodup {w : NodeId} {otherwise : Slot}
    (hc : n.construct = .rescue (some w) ids otherwise) (hd : n.construct.present.Nodup) :
    (∀ x ∈ ids, x ≠ w) ∧ ids.Nodup ∧ (∀ x, otherwise = some x → x ≠ w) ∧
      ∀ x ∈ ids, otherwise ≠ some x := by
  rw [hc] at hd
  simp only [Construct.present, Option.toList_some, List.cons_append, List.nil_append,
    List.nodup_cons, List.mem_append, Option.mem_toList, not_or, List.nodup_append] at hd
  obtain ⟨⟨hw, hwo⟩, hd, -, hdo⟩ := hd
  exact ⟨fun x hx he => hw (he ▸ hx), hd, fun x hx he => hwo (he ▸ hx),
    fun x hx ho => hdo x hx x ho rfl⟩

theorem dispatch_nodup {subject otherwise : Slot}
    (hc : n.construct = .dispatch subject ids otherwise) (hd : n.construct.present.Nodup) :
    (∀ x ∈ ids, some x ≠ subject ∧ some x ≠ otherwise) ∧
      ∀ x, otherwise = some x → some x ≠ subject := by
  rw [hc] at hd
  simp only [Construct.present, List.nodup_append, Option.mem_toList] at hd
  obtain ⟨⟨-, -, hsi⟩, -, ho⟩ := hd
  refine ⟨fun x hx => ⟨fun he => hsi x he.symm x hx rfl, fun he => ?_⟩, fun x hx he => ?_⟩
  · exact ho x (List.mem_append_right _ hx) x he.symm rfl
  · exact ho x (List.mem_append_left _ (Option.mem_toList.mpr he.symm)) x hx rfl

theorem ensure_nodup {b : NodeId} {ensured : Slot} (hc : n.construct = .ensure (some b) ensured)
    (hd : n.construct.present.Nodup) : some b ≠ ensured := by
  rw [hc] at hd
  cases ensured with
  | none => exact Option.some_ne_none b
  | some c => simpa [Construct.present] using hd

/-! ### Neighbours in a row -/

namespace Tree.Linked

variable (h : t.Linked) (hn : t.nodes[i]? = some n)
  (hrow : n.construct.present = before ++ ids ++ after)

include h hn hrow

/-- Before the first of a row comes what stands before the row. -/
theorem previousSibling_first (h0 : ids[0]? = some c) :
    t.previousSibling c = .ok before.getLast? := by
  have hlt := (List.getElem?_eq_some_iff.mp h0).1
  have hk : n.construct.present[before.length]? = some c := by
    rw [hrow, List.append_assoc, List.getElem?_append_right (Nat.le_refl _), Nat.sub_self,
      List.getElem?_append_left hlt, h0]
  rw [h.present_eq hn] at hk hrow
  rw [(h.siblings_of_child hn hk).1, hrow]
  cases hb : before.length with
  | zero => simp [List.eq_nil_of_length_eq_zero hb]
  | succ l =>
    rw [if_neg l.succ_ne_zero, Nat.add_sub_cancel, List.append_assoc,
      List.getElem?_append_left (by omega), List.getLast?_eq_getElem?, hb, Nat.add_sub_cancel]

/-- Before another of a row comes the one before it. -/
theorem previousSibling_next {k : Nat} (hk : ids[k]? = some b) (hk' : ids[k + 1]? = some c) :
    t.previousSibling c = .ok (some b) := by
  have hlt := (List.getElem?_eq_some_iff.mp hk').1
  have hplace : ∀ l ≤ k + 1, n.construct.present[before.length + l]? = ids[l]? := by
    intro l hl
    rw [hrow, List.append_assoc, List.getElem?_append_right (by omega), Nat.add_sub_cancel_left,
      List.getElem?_append_left (by omega)]
  have hb := (hplace k (by omega)).trans hk
  have hc := (hplace (k + 1) (by omega)).trans hk'
  rw [h.present_eq hn] at hb hc
  exact h.previousSibling_eq_some.mpr ⟨i, n, before.length + k, hn, hb, hc⟩

end Tree.Linked

end BranchTally
