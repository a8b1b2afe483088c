import BranchTally.Proofs.Dump.Layout
import BranchTally.Proofs.Tree.Order

/-! The tree that a dump stands for, seen from the dump. The nodes of the tree are the present nodes
of the dump in the order in which they are written; each carries what is written of it, and its
children are its present children. All links of the tree follow from these. -/

namespace BranchTally

/-! ### What is written -/

namespace Dump

mutual

/-- The present nodes of a dump in the order in which they are written. An absent node hides all
that is below it. -/
def present : Dump → List Dump
  | d@(.node _ _ _ _ children) => if d.isAbsent then [] else d :: presentAll children

def presentAll : List Dump → List Dump
  | [] => []
  | d :: ds => d.present ++ presentAll ds

end

/-- The numbers of the present ones among some dumps whose nodes are numbered one dump after the
other, from `next` on. -/
def numbers (next : NodeId) : List Dump → List NodeId
  | [] => []
  | d :: ds => (if d.isAbsent then [] else [next]) ++ numbers (next + d.present.length) ds

/-- The value of the last attribute with a name. -/
def lastAttribute (d : Dump) (name : String) : Option String := d.attributes.reverse.lookup name

theorem present_of_absent {d : Dump} (h : d.isAbsent) : d.present = [] := by
  cases d
  rw [present, if_pos h]

theorem present_of_present {d : Dump} (h : ¬ d.isAbsent) :
    d.present = d :: presentAll d.children := by
  cases d
  rw [present, if_neg h, children]

end Dump

/-- A node carries what is written of a dump node. -/
structure Node.Carries (n : Node) (d : Dump) : Prop where
  kind : n.kind = (Dump.Form.ofKind d.kind).nodeKind
  span : n.span = d.span
  trackers : ∀ role, (n.tracker? role).map some =
    (d.lastAttribute role.name).map fun value => TrackerId.read? value.toList
  keywords : ∀ key, (n.keyword? key).map some = (d.lastAttribute key.name).map Span.read?

/-! ### Attributes -/

theorem Role.named?_eq_some {s : String} {role : Role} :
    Role.named? s = some role ↔ s = role.name := by
  constructor
  · intro h
    simpa [eq_comm] using List.find?_some h
  · rintro rfl
    cases role <;> rfl

theorem Keyword.named?_eq_some {s : String} {key : Keyword} :
    Keyword.named? s = some key ↔ s = key.name := by
  constructor
  · intro h
    simpa [eq_comm] using List.find?_some h
  · rintro rfl
    cases key <;> rfl

theorem Role.name_ne_style (role : Role) : role.name ≠ Dump.styleAttribute := by
  cases role <;> decide

theorem Keyword.name_ne_style (key : Keyword) : key.name ≠ Dump.styleAttribute := by
  cases key <;> decide

theorem Role.name_ne_keyword (role : Role) (key : Keyword) : role.name ≠ key.name := by
  cases role <;> cases key <;> decide

theorem Role.name_injective {r s : Role} (h : r.name = s.name) : r = s :=
  Option.some.inj ((named?_eq_some.mpr rfl).symm.trans (named?_eq_some.mpr h))

theorem Keyword.name_injective {k l : Keyword} (h : k.name = l.name) : k = l :=
  Option.some.inj ((named?_eq_some.mpr rfl).symm.trans (named?_eq_some.mpr h))

namespace Dump

variable {d : Dump} {seen read : Decorations} {name value : String}
  {attributes before : List (String × String)}

/-- Decorations are what some attributes say, the last one of a name being the one that counts. -/
structure Decorations.Reads (read : Decorations) (attributes : List (String × String)) : Prop where
  trackers : ∀ role, (read.trackers.lookup role).map some =
    (attributes.reverse.lookup role.name).map fun value => TrackerId.read? value.toList
  keywords : ∀ key, (read.keywords.lookup key).map some =
    (attributes.reverse.lookup key.name).map Span.read?

theorem Decorations.Reads.nothing : Decorations.Reads ⟨[], []⟩ [] := ⟨fun _ => rfl, fun _ => rfl⟩

theorem lookup_reverse_concat (before : List (String × String)) (name value s : String) :
    (before ++ [(name, value)]).reverse.lookup s =
      if s = name then some value else before.reverse.lookup s := by
  rw [List.reverse_concat, List.lookup_cons]
  by_cases h : s = name
  · simp [h]
  · simp [h, beq_eq_false_iff_ne.mpr h]

/-- An attribute takes the place of those of its name before it. -/
theorem readAttribute_reads (hs : seen.Reads before)
    (h : (d.readAttribute seen name value).result = .ok read) :
    read.Reads (before ++ [(name, value)]) := by
  unfold readAttribute at h
  split at h
  next hstyle =>
    cases h
    constructor <;> intro k <;> rw [lookup_reverse_concat, if_neg (hstyle ▸ k.name_ne_style)]
    · exact hs.trackers k
    · exact hs.keywords k
  split at h
  next _ r hr =>
    obtain rfl := Role.named?_eq_some.mp hr
    split at h
    next id hid =>
      cases h
      constructor
      · intro role
        rw [lookup_reverse_concat, List.lookup_cons]
        by_cases hrole : role = r
        · simp [hrole, hid]
        · rw [beq_eq_false_iff_ne.mpr hrole, if_neg fun he => hrole (Role.name_injective he)]
          exact hs.trackers role
      · intro key
        rw [lookup_reverse_concat, if_neg (r.name_ne_keyword key).symm]
        exact hs.keywords key
    next => cases h
  next k hr hk =>
    obtain rfl := Keyword.named?_eq_some.mp hk
    split at h
    next span hspan =>
      cases h
      constructor
      · intro role
        rw [lookup_reverse_concat, if_neg (role.name_ne_keyword k)]
        exact hs.trackers role
      · intro key
        rw [lookup_reverse_concat, List.lookup_cons]
        by_cases hkey : key = k
        · simp [hkey, hspan]
        · rw [beq_eq_false_iff_ne.mpr hkey, if_neg fun he => hkey (Keyword.name_injective he)]
          exact hs.keywords key
    next => cases h
  next hr hk =>
    cases h
    constructor
    · intro role
      rw [lookup_reverse_concat, if_neg, hs.trackers role]
      intro he
      rw [Role.named?_eq_some.mpr he.symm] at hr
      cases hr
    · intro key
      rw [lookup_reverse_concat, if_neg, hs.keywords key]
      intro he
      rw [Keyword.named?_eq_some.mpr he.symm] at hk
      cases hk

theorem readAttributes_reads (hs : seen.Reads before)
    (h : (d.readAttributes seen attributes).result = .ok read) :
    read.Reads (before ++ attributes) := by
  induction attributes generalizing seen before with
  | nil =>
    cases h
    simpa using hs
  | cons a attributes ih =>
    rw [readAttributes, Reading.result_bind] at h
    obtain ⟨next, hn, h⟩ := bind_eq_ok.mp h
    simpa using ih (readAttribute_reads hs hn) h

/-! ### Nodes and their numbers -/

/-- Nodes that are numbered from `next` on carry what is written of dump nodes in the same order,
and their children are the present children of these. -/
structure Portray (next : NodeId) (ds : List Dump) (ns : List Node) : Prop where
  length : ns.length = ds.length
  node : ∀ {j : Nat} {d : Dump} {n : Node}, ds[j]? = some d → ns[j]? = some n →
    n.Carries d ∧ n.children = numbers (next + j + 1) d.children

theorem Portray.append {next : NodeId} {ds es : List Dump} {ms ns : List Node}
    (h : Portray next ds ms) (h' : Portray (next + ms.length) es ns) :
    Portray next (ds ++ es) (ms ++ ns) where
  length := by simp [h.length, h'.length]
  node := by
    intro j d n hd hn
    by_cases hj : j < ms.length
    · rw [List.getElem?_append_left (h.length ▸ hj)] at hd
      rw [List.getElem?_append_left hj] at hn
      exact h.node hd hn
    · rw [List.getElem?_append_right (by have := h.length; omega), ← h.length] at hd
      rw [List.getElem?_append_right (by omega)] at hn
      obtain ⟨hc, hch⟩ := h'.node hd hn
      rw [Nat.add_assoc next, Nat.add_sub_of_le (by omega)] at hch
      exact ⟨hc, hch⟩

theorem Portray.cons {next : NodeId} {d : Dump} {n : Node} {ds : List Dump} {ns : List Node}
    (hc : n.Carries d) (hch : n.children = numbers (next + 1) d.children)
    (h : Portray (next + 1) ds ns) : Portray next (d :: ds) (n :: ns) := by
  have hone : Portray next [d] [n] := by
    refine ⟨rfl, fun {j d' n'} hd hn => ?_⟩
    cases j with
    | zero =>
      cases hd
      cases hn
      exact ⟨hc, hch⟩
    | succ j => simp at hn
  exact hone.append h

/-- Every dump is laid out as its present nodes. -/
theorem portrayRule : LayoutRule
    (fun next _ _ d p =>
      p.slot.toList = (if d.isAbsent then [] else [next]) ∧ Portray next d.present p.nodes)
    (fun next _ _ ds ps =>
      presentOf ps = numbers next ds ∧ Portray next (presentAll ds) (ps.flatMap (·.nodes))) where
  absent := by
    intro next parent index d ha
    rw [present_of_absent ha, if_pos ha]
    exact ⟨rfl, rfl, by simp⟩
  present := by
    intro next parent index d kids decorations what ha hrow hd hw
    rw [present_of_present ha, if_neg ha]
    have hr := readAttributes_reads .nothing hd
    exact ⟨rfl, .cons ⟨construct_kind hw, rfl, hr.trackers, hr.keywords⟩ hrow.1 hrow.2⟩
  nil := by
    intro next parent index
    exact ⟨rfl, rfl, by simp [presentAll]⟩
  cons := by
    intro next parent index d ds first others hf ho
    rw [presentOf_cons, numbers, presentAll, List.flatMap_cons, hf.1, ← hf.2.length, ho.1]
    exact ⟨rfl, hf.2.append ho.2⟩

/-! ### Children in the dump -/

mutual

/-- What is below a present node follows it at once. -/
theorem prefix_drop_present : ∀ {d x : Dump} {i : Nat}, d.present[i]? = some x →
    x :: presentAll x.children <+: d.present.drop i
  | .node _ _ _ _ cs, x, i, hx => by
    rw [present] at hx ⊢
    split at hx
    next => cases hx
    next ha =>
      rw [if_neg ha]
      cases i with
      | zero =>
        cases hx
        exact List.prefix_rfl
      | succ i => exact prefix_drop_presentAll hx

theorem prefix_drop_presentAll : ∀ {ds : List Dump} {x : Dump} {i : Nat},
    (presentAll ds)[i]? = some x → x :: presentAll x.children <+: (presentAll ds).drop i
  | [], x, i, hx => by cases hx
  | d :: ds, x, i, hx => by
    rw [presentAll] at hx ⊢
    rw [List.drop_append]
    by_cases hi : i < d.present.length
    · rw [List.getElem?_append_left hi] at hx
      exact (prefix_drop_present hx).trans (List.prefix_append _ _)
    · rw [List.getElem?_append_right (by omega)] at hx
      rw [List.drop_eq_nil_of_le (by omega), List.nil_append]
      exact prefix_drop_presentAll hx

end

/-- The numbers of some dumps are those of the present ones in their order. -/
theorem map_numbers {ds all : List Dump} {next : Nat} (h : presentAll ds <+: all.drop next) :
    (numbers next ds).map (all[·]?) = (ds.filter (!·.isAbsent)).map some := by
  induction ds generalizing next with
  | nil => rfl
  | cons d ds ih =>
    rw [presentAll] at h
    obtain ⟨rest, hrest⟩ := h
    have htail : presentAll ds <+: all.drop (next + d.present.length) := by
      refine ⟨rest, ?_⟩
      rw [← List.drop_drop, ← hrest, List.append_assoc, List.drop_left]
    rw [numbers, List.map_append, ih htail]
    by_cases ha : d.isAbsent
    · simp [ha]
    · rw [present_of_present ha] at hrest
      have hd : all[next]? = some d := by
        rw [← List.head?_drop, ← hrest]
        rfl
      simp [ha, hd]

/-! ### The order of the nodes -/

/-- What is below a node are the numbers that follow its own. -/
theorem subtreeRule (t : Tree) : LayoutRule
    (fun next _ _ _ p => Holds t next p.nodes → ∀ levels, p.nodes.length ≤ levels →
      p.slot.toList.flatMap (t.subtree levels) = List.range' next p.nodes.length)
    (fun next _ _ _ ps => Holds t next (ps.flatMap (·.nodes)) →
      ∀ levels, (ps.flatMap (·.nodes)).length ≤ levels →
      (presentOf ps).flatMap (t.subtree levels) =
        List.range' next (ps.flatMap (·.nodes)).length) where
  absent := by
    intro next parent index d _ _ levels _
    rfl
  present := by
    intro next parent index d kids decorations what _ hrow _ _ ht levels hl
    cases levels with
    | zero => simp at hl
    | succ levels =>
      have hchildren := Tree.childrenOf_eq (ht (j := 0) rfl)
      have hbelow := hrow ht.tail levels (by simpa using hl)
      rw [Nat.add_zero] at hchildren
      rw [Option.toList_some, List.flatMap_singleton, Tree.subtree, hchildren, hbelow,
        List.length_cons, List.range'_succ]
  nil := by
    intro next parent index _ levels _
    rfl
  cons := by
    intro next parent index d ds first others hf ho ht levels hl
    rw [List.flatMap_cons] at ht hl ⊢
    rw [List.length_append] at hl ⊢
    rw [presentOf_cons, List.flatMap_append, hf ht.left levels (by omega),
      ho ht.right levels (by omega), List.range'_append_1]

end Dump

/-! ### The whole tree -/

namespace Tree

variable {t : Tree} {i j : NodeId} {d : Dump}

/-- A tree holds the present nodes of a dump: which ones and in which order, what they carry, and
how they are linked. -/
structure Arena (t : Tree) (d : Dump) : Prop where
  size : t.size = d.present.length
  node : ∀ {i : NodeId} {x : Dump}, d.present[i]? = some x →
    ∃ n, t.nodes[i]? = some n ∧ n.Carries x ∧ n.children = Dump.numbers (i + 1) x.children ∧
      n.children.map (d.present[·]?) = (x.children.filter (!·.isAbsent)).map some
  root : t.root? = some 0 ∧ t.parent 0 = .ok none
  parent : ∀ {i : NodeId}, 0 < i → i < t.size →
    ∃ p m, t.parent i = .ok (some p) ∧ p < i ∧ t.nodes[p]? = some m ∧ i ∈ m.children
  child : ∀ {p c : NodeId} {m : Node} {k : Nat}, t.nodes[p]? = some m →
    m.children[k]? = some c → t.parent c = .ok (some p) ∧ t.index c = .ok k ∧
      t.previousSibling c = .ok (if k = 0 then none else m.children[k - 1]?) ∧
      t.nextSibling c = .ok m.children[k + 1]?
  inverse : ∀ {i j : NodeId},
    t.nextSibling i = .ok (some j) ↔ t.previousSibling j = .ok (some i)
  first : ∀ {i : NodeId}, t.previousSibling i = .ok none ↔
    i = 0 ∨ ∃ (p : NodeId) (m : Node), t.nodes[p]? = some m ∧ m.children.head? = some i
  last : ∀ {i : NodeId}, t.nextSibling i = .ok none ↔
    i = 0 ∨ ∃ (p : NodeId) (m : Node), t.nodes[p]? = some m ∧ m.children.getLast? = some i
  preorder : t.preorder = List.range t.size
  /-- A walk with a stack comes to the same, and has nothing left to visit then. -/
  walk : ∀ rounds, t.walk rounds [0] = (List.range t.size).take rounds

/-- The nodes of a loaded tree are the present nodes of its dump, each with what it carries. -/
theorem node_of_present {p : Dump.Placed} (hp : Dump.Portray 0 d.present p.nodes) {i : Nat}
    {x : Dump} (hx : d.present[i]? = some x) :
    ∃ n, p.nodes[i]? = some n ∧ n.Carries x ∧ n.children = Dump.numbers (i + 1) x.children ∧
      n.children.map (d.present[·]?) = (x.children.filter (!·.isAbsent)).map some := by
  have hi : i < p.nodes.length := by
    rw [hp.length]
    exact (List.getElem?_eq_some_iff.mp hx).1
  have hn := List.getElem?_eq_getElem hi
  obtain ⟨hc, hch⟩ := hp.node hx hn
  rw [Nat.zero_add] at hch
  obtain ⟨rest, hrest⟩ := Dump.prefix_drop_present hx
  have hbelow : Dump.presentAll x.children <+: d.present.drop (i + 1) :=
    ⟨rest, by rw [← List.drop_drop, ← hrest]; rfl⟩
  exact ⟨_, hn, hc, hch, hch ▸ Dump.map_numbers hbelow⟩

/-- A tree that was loaded holds the present nodes of its dump. -/
theorem arena_of_load {name : String} (h : (Dump.load name d).2 = .ok t) : t.Arena d := by
  have hl : t.Linked := Loaded.linked ⟨name, d, h⟩
  obtain ⟨p, hp, hs, rfl⟩ := Dump.layout_of_load h
  obtain ⟨hslot, hport⟩ := Dump.portrayRule.layout hp
  have hd : ¬ d.isAbsent := by
    intro hd
    simp [if_pos hd] at hslot
    simp [hslot] at hs
  rw [if_neg hd] at hslot
  have hsize : Tree.size ⟨p.nodes.toArray⟩ = p.nodes.length := rfl
  have hsub : Tree.subtree ⟨p.nodes.toArray⟩ p.nodes.length 0 = List.range p.nodes.length := by
    have hsub := (Dump.subtreeRule ⟨p.nodes.toArray⟩).layout hp (by intro j n hn; simpa using hn)
      p.nodes.length (Nat.le_refl _)
    rw [hslot, List.flatMap_singleton] at hsub
    rw [hsub, List.range_eq_range']
  have hpos : 0 < p.nodes.length := by
    simp [hport.length, Dump.present_of_present hd]
  have h0 : (p.nodes.toArray)[0]? = some p.nodes[0] := by simp [hpos]
  constructor
  case size => exact hport.length
  case node =>
    intro i x hx
    simpa using node_of_present hport hx
  case root =>
    refine ⟨?_, ?_⟩
    · simp [root?, isEmpty, List.ne_nil_of_length_pos hpos]
    · rw [parent_eq_ok h0, (hl.root h0).mpr rfl]
  case parent =>
    intro i hpos hi
    obtain ⟨n, hn⟩ : ∃ n, p.nodes.toArray[i]? = some n := ⟨_, Array.getElem?_eq_getElem hi⟩
    cases hq : n.parent with
    | none => exact absurd ((hl.root hn).mp hq) (Nat.ne_of_gt hpos)
    | some q =>
      obtain ⟨hlt, m, hm, hc⟩ := hl.child_of_parent hn hq
      exact ⟨q, m, by rw [parent_eq_ok hn, hq], hlt, hm, List.mem_of_getElem? hc⟩
  case child =>
    intro q c m k hm hk
    obtain ⟨n, hn, hq, hx⟩ := hl.parent_of_child hm hk
    exact ⟨by rw [parent_eq_ok hn, hq], by rw [index_eq_ok hn, hx], hl.siblings_of_child hm hk⟩
  case inverse =>
    intro i j
    rw [hl.nextSibling_eq_some, hl.previousSibling_eq_some]
  case first => exact hl.previousSibling_eq_none h0
  case last => exact hl.nextSibling_eq_none h0
  case preorder =>
    rw [preorder, if_neg (by simp [isEmpty, List.ne_nil_of_length_pos hpos]), hsize, hsub]
  case walk =>
    intro rounds
    rw [hl.walk_eq (by simpa [hsize] using hpos), List.flatMap_singleton, hsize, hsub]

end Tree

/-- What is written of `if ready then work end`, whose tracker is bound twice. There is no else
branch, and a statement before `work` is absent with what it held. -/
def Dump.guarded : Dump :=
  let span (l c l' c' : Int) : Option Span := some ⟨⟨l, c⟩, ⟨l', c'⟩⟩
  .node "if" 1 (span 1 0 3 3) [("truthy", "7"), ("end", "3:0-3:3"), ("truthy", "8")]
    [.node "send" 1 (span 1 3 1 8) [] [],
      .node "begin" 2 (span 2 2 2 6) []
        [.node "_" 2 none [] [.node "send" 2 none [] []], .node "send" 2 (span 2 2 2 6) [] []],
      .node "_" 3 none [] []]

theorem Tree.arena_of_load_guarded :
    ∃ t, (Dump.load "guarded" .guarded).2 = .ok t ∧ t.Arena .guarded ∧ t.size = 4 ∧
      t.tracker? 0 .truthy = .ok (some 8) ∧ t.children 0 = .ok [1, 2] ∧ t.children 2 = .ok [3] ∧
      t.walk 9 [0] = [0, 1, 2, 3] :=
  ⟨_, rfl, arena_of_load (show (Dump.load "guarded" .guarded).2 = _ from rfl), rfl, rfl, rfl, rfl,
    rfl⟩

end BranchTally
