import BranchTally.Dump.Growth
import BranchTally.Proofs.Dump.Layout

/-! A tree that is grown from a dump is the tree that the dump is laid out as. Growing numbers a node
when it is reserved, and gives it its parent and its place when it is adopted, which is after all that
lies below it is there; laying out knows all of this beforehand. So what is grown of a dump are the
nodes of its layout, but for the first, which still stands alone. -/

namespace BranchTally

/-- The node with this parent and this place. -/
def Node.under (n : Node) (parent : Slot) (index : Nat) : Node :=
  { n with parent := parent, index := index }

/-! ### Edits of a list of nodes -/

namespace Tree

/-- The tree with these nodes. -/
def ofNodes (ns : List Node) : Tree := ⟨ns.toArray⟩

theorem reserve_ofNodes (ns : List Node) :
    (ofNodes ns).reserve = (ns.length, ofNodes (ns ++ [.blank])) := by
  simp [reserve, ofNodes, size]

theorem list_modify (before after : List Node) (n : Node) (f : Node → Node) :
    (before ++ n :: after).modify before.length f = before ++ f n :: after := by
  induction before with
  | nil => rfl
  | cons b before ih => exact congrArg (b :: ·) ih

theorem modify_ofNodes (before after : List Node) (n : Node) (f : Node → Node) :
    (ofNodes (before ++ n :: after)).modify before.length f =
      .ok (ofNodes (before ++ f n :: after)) := by
  have hlt : before.length < (ofNodes (before ++ n :: after)).size := by
    simp [ofNodes, size]
  rw [modify, if_pos hlt, ofNodes, List.modify_toArray, list_modify]
  rfl

theorem children_ofNodes (before after : List Node) (n : Node) :
    (ofNodes (before ++ n :: after)).children before.length = .ok n.children := by
  have hn : (ofNodes (before ++ n :: after)).nodes[before.length]? = some n := by
    simp [ofNodes]
  rw [children, node, hn]
  rfl

/-- A node adopts one that stands after it: the one is its last child then, and knows this. -/
theorem adoptOne_ofNodes (before between below : List Node) (n m : Node) {child : NodeId}
    (h : child = before.length + 1 + between.length) :
    (ofNodes (before ++ n :: (between ++ m :: below))).adoptOne before.length child =
      .ok (ofNodes (before ++ { n with children := n.children ++ [child] } ::
        (between ++ m.under (some before.length) n.children.length :: below))) := by
  have hchild : child = (before ++ n :: between).length := by
    show child = (before ++ n :: between).length
    simp only [h, List.length_append, List.length_cons]
    exact Nat.add_right_comm ..
  have hsplit : ∀ x : Node, before ++ n :: (between ++ x :: below) =
      (before ++ n :: between) ++ x :: below := by
    intro x
    simp
  have hadopted : (ofNodes (before ++ n :: (between ++ m :: below))).modify child
      (·.under (some before.length) n.children.length) = .ok (ofNodes (before ++ n ::
        (between ++ m.under (some before.length) n.children.length :: below))) := by
    rw [hsplit, hsplit, hchild]
    exact modify_ofNodes ..
  rw [adoptOne, children_ofNodes]
  show (modify _ child (·.under (some before.length) n.children.length)).bind _ = _
  rw [hadopted]
  exact modify_ofNodes ..

end Tree

namespace Dump

/-! ### Readings and stretches of growth -/

namespace Reading

variable {α β : Type}

/-- What comes after a reading depends on what it may read alone. -/
theorem then_congr {r : Reading α} {f g : α → Reading β} (h : ∀ a, r.result = .ok a → f a = g a) :
    (r >>= f) = (r >>= g) := by
  cases hr : r.result with
  | error fault => rw [bind_of_error hr, bind_of_error hr]
  | ok a => rw [bind_of_ok hr, bind_of_ok hr, h a hr]

end Reading

namespace Growth

variable {α β γ : Type} {t t' : Tree}

/-- What growth on a tree comes to. -/
def onto (g : Growth α) (t : Tree) : Reading (Except Fault (α × Tree)) := (g.run t).run

theorem onto_bind (g : Growth α) (f : α → Growth β) (t : Tree) : (g >>= f).onto t =
    g.onto t >>= fun
      | .ok (a, t) => (f a).onto t
      | .error fault => pure (.error fault) := by
  show g.onto t >>= ExceptT.bindCont (fun p : α × Tree => (f p.1).run p.2) = _
  apply Reading.then_congr
  rintro (fault | ⟨a, t⟩) - <;> rfl

theorem onto_pure (a : α) (t : Tree) : (pure a : Growth α).onto t = pure (.ok (a, t)) := rfl

theorem onto_reserve (f : NodeId → Growth β) (t : Tree) :
    (reserve >>= f).onto t = (f t.reserve.1).onto t.reserve.2 := rfl

theorem onto_read (r : Reading α) (f : α → Growth β) (t : Tree) :
    (read r >>= f).onto t = r >>= fun a => (f a).onto t := by
  rw [onto_bind]
  show (r >>= fun a => (pure (.ok (a, t)) : Reading (Except Fault (α × Tree)))) >>= _ = _
  rw [bind_assoc]
  rfl

theorem onto_edit {e : Tree → Except Fault Tree} (h : e t = .ok t') (f : Unit → Growth β) :
    (edit e >>= f).onto t = (f ()).onto t' := by
  have hedit : (edit e).onto t = pure (.ok ((), t')) := by
    show pure ((e t).map ((), ·)) = _
    rw [h]
    rfl
  rw [onto_bind, hedit, pure_bind]

/-- Growth that reads something and then has grown is followed by the next. -/
theorem onto_then {g : Growth α} {r : Reading γ} {a : γ → α} {grown : γ → Tree}
    (h : g.onto t = r >>= fun c => pure (.ok (a c, grown c))) (f : α → Growth β) :
    (g >>= f).onto t = r >>= fun c => (f (a c)).onto (grown c) := by
  rw [onto_bind, h, bind_assoc]
  rfl

end Growth

/-! ### Rows of siblings -/

/-- Some siblings as they are laid out in a row: those that are present are numbered from here on,
know their parent, and count their places from this one. -/
inductive Row (parent : NodeId) : NodeId → Nat → List Placed → Prop
  | nil {next : NodeId} {index : Nat} : Row parent next index []
  | absent {next : NodeId} {index : Nat} {kind : String} {ps : List Placed} :
    Row parent next index ps → Row parent next index (⟨kind, none, []⟩ :: ps)
  | present {next : NodeId} {index : Nat} {kind : String} {n : Node} {below : List Node}
    {ps : List Placed} : n.parent = some parent → n.index = index →
    Row parent (next + (n :: below).length) (index + 1) ps →
    Row parent next index (⟨kind, some next, n :: below⟩ :: ps)

/-- What is laid out is absent, or has a first node that knows its parent and its place. -/
theorem rowRule : LayoutRule
    (fun next parent index d p => p = ⟨d.kind, none, []⟩ ∨ ∃ n below,
      p = ⟨d.kind, some next, n :: below⟩ ∧ n.parent = parent ∧ n.index = index)
    (fun next parent index _ ps => Row parent next index ps) where
  absent _ := .inl rfl
  present _ _ _ _ := .inr ⟨_, _, rfl, rfl, rfl⟩
  nil := .nil
  cons := by
    rintro next parent index d ds first others (rfl | ⟨n, below, rfl, hparent, hindex⟩) hothers
    · exact .absent hothers
    · exact .present hparent hindex hothers

namespace Placed

/-- What a parent is told of a child, which has its nodes in the tree. -/
def settled (p : Placed) : Placed := { p with nodes := [] }

/-- The nodes of a child before it is adopted. -/
def orphaned (p : Placed) : List Node := p.nodes.modifyHead (·.under none 0)

@[simp] theorem orphaned_absent (kind : String) (slot : Slot) :
    orphaned ⟨kind, slot, []⟩ = [] := rfl

@[simp] theorem orphaned_present (kind : String) (slot : Slot) (n : Node) (below : List Node) :
    orphaned ⟨kind, slot, n :: below⟩ = n.under none 0 :: below := rfl

@[simp] theorem length_orphaned (p : Placed) : p.orphaned.length = p.nodes.length := by
  simp [orphaned]

end Placed

theorem under_under {n : Node} {parent : Slot} (h : n.parent = parent) :
    (n.under none 0).under parent n.index = n := by
  subst h
  rfl

/-- A parent that adopts a row of siblings has the present ones as its children, and they are as they
were laid out. The induction is on the row: what is adopted moves from the siblings that are ahead to
the nodes in between. -/
theorem adoptAll_row {before : List Node} {next : NodeId} {index : Nat} {ps : List Placed}
    (h : Row before.length next index ps) (n : Node) (between : List Node)
    (hnext : next = before.length + 1 + between.length) (hindex : n.children.length = index) :
    (Tree.ofNodes (before ++ n :: (between ++ ps.flatMap (·.orphaned)))).adoptAll before.length
        (ps.map (·.slot)) =
      (.ofNodes (before ++ { n with children := n.children ++ presentOf ps } ::
        (between ++ ps.flatMap (·.nodes))), .ok ()) := by
  induction h generalizing n between with
  | nil => simp [Tree.adoptAll]
  | absent _ ih => simpa [Tree.adoptAll] using ih n between hnext hindex
  | @present next index kind m below ps hparent hplace _ ih =>
    have hone := Tree.adoptOne_ofNodes before between
      (below ++ ps.flatMap (·.orphaned)) n (m.under none 0) hnext
    rw [hindex, ← hplace, under_under hparent] at hone
    have hahead : next + (m :: below).length =
        before.length + 1 + (between ++ m :: below).length := by
      rw [hnext, List.length_append]
      exact Nat.add_assoc ..
    have hrest := ih { n with children := n.children ++ [next] } (between ++ m :: below) hahead
      (by simp [hindex])
    simp only [List.map_cons, List.flatMap_cons, Tree.adoptAll, Placed.orphaned_present,
      List.cons_append]
    rw [hone]
    simpa using hrest

theorem adopting_row {before : List Node} {ps : List Placed}
    (h : Row before.length (before.length + 1) 0 ps) (n : Node) :
    adopting (.ofNodes (before ++ n :: ps.flatMap (·.orphaned))) before.length (ps.map (·.slot)) =
      .ok (.ofNodes (before ++ { n with children := presentOf ps } :: ps.flatMap (·.nodes))) := by
  have hcleared := Tree.modify_ofNodes before (ps.flatMap (·.orphaned)) n
    fun n => { n with children := [] }
  have hall := adoptAll_row h { n with children := [] } [] rfl rfl
  simp only [List.nil_append] at hall
  rw [adopting, Tree.adopt, hcleared]
  dsimp only
  rw [hall]
  rfl

/-! ### Children as their parent sees them -/

section Settled

variable (ps : List Placed)

@[simp] theorem presentOf_settled : presentOf (ps.map (·.settled)) = presentOf ps := by
  rw [presentOf, List.filterMap_map]
  rfl

@[simp] theorem slotOf_settled (i : Nat) : slotOf (ps.map (·.settled)) i = slotOf ps i := by
  simp only [slotOf, List.getElem?_map]
  cases ps[i]? <;> rfl

theorem splitArms_settled (kind arm : String) :
    splitArms kind arm (ps.map (·.settled)) = splitArms kind arm ps := by
  have hlead : (ps.map (·.settled)).head?.filter (·.kind ≠ arm) =
      (ps.head?.filter (·.kind ≠ arm)).map (·.settled) := by
    cases ps with
    | nil => rfl
    | cons p ps => by_cases h : p.kind = arm <;> simp [Option.filter, Placed.settled, h]
  have hslot : ∀ o : Option Placed, (o.map (·.settled)).bind (·.slot) = o.bind (·.slot) := by
    intro o
    cases o <;> rfl
  unfold splitArms
  dsimp only
  rw [hlead, Option.isSome_map, hslot, ← List.map_tail,
    ← apply_ite (List.map fun p : Placed => p.settled)]
  generalize (if (ps.head?.filter (·.kind ≠ arm)).isSome then ps.tail else ps) = rest
  have htake : (rest.map (·.settled)).takeWhile (·.kind = arm) =
      (rest.takeWhile (·.kind = arm)).map (·.settled) := List.takeWhile_map ..
  have hdrop : (rest.map (·.settled)).dropWhile (·.kind = arm) =
      (rest.dropWhile (·.kind = arm)).map (·.settled) := List.dropWhile_map ..
  rw [htake, hdrop, presentOf_settled]
  cases rest.dropWhile (·.kind = arm) with
  | nil => rfl
  | cons p after => cases after <;> rfl

/-- What a node is depends on what its parent sees of its children alone. -/
theorem construct_settled (d : Dump) : d.construct (ps.map (·.settled)) = d.construct ps := by
  unfold construct
  rw [List.length_map]
  cases Form.ofKind d.kind with
  | dispatch | rescue => simp only [splitArms_settled]
  | arm =>
    have hlast : (ps.map (·.settled)).getLast?.bind (·.slot) = ps.getLast?.bind (·.slot) := by
      rw [List.getLast?_map]
      cases ps.getLast? <;> rfl
    simp only [← List.map_dropLast, presentOf_settled, hlast]
  | safeNavigation => simp only [← List.map_tail, presentOf_settled, slotOf_settled]
  | _ => simp only [presentOf_settled, slotOf_settled]

end Settled

/-! ### Growing and laying out -/

mutual

/-- A dump grows into the nodes of its layout, the first of which has not been adopted yet. -/
theorem onto_grow (parent : Slot) (index : Nat) : ∀ (d : Dump) (ns : List Node),
    (grow d).onto (.ofNodes ns) = layout ns.length parent index d >>= fun p =>
      pure (.ok (p.settled, .ofNodes (ns ++ p.orphaned)))
  | .node kind line span attributes children, ns => by
    rw [grow, layout]
    split
    next =>
      rw [pure_bind, Placed.orphaned_absent, List.append_nil]
      rfl
    next =>
      have hnext : (ns ++ [Node.blank]).length = ns.length + 1 := List.length_append
      have hkids := onto_growAll ns.length 0 children (ns ++ [.blank])
      rw [hnext] at hkids
      rw [Growth.onto_reserve, Tree.reserve_ofNodes, Growth.onto_then hkids, bind_assoc]
      apply Reading.then_congr
      intro kids hkids
      have hrow : Row ns.length (ns.length + 1) 0 kids := rowRule.layoutAll hkids
      rw [List.append_assoc, List.singleton_append, Growth.onto_read, bind_assoc]
      apply Reading.then_congr
      intro decorations _
      rw [Growth.onto_read, construct_settled, bind_assoc]
      apply Reading.then_congr
      intro what _
      rw [Growth.onto_edit (Tree.modify_ofNodes ..), List.map_map,
        Growth.onto_edit (adopting_row hrow _)]
      rfl

theorem onto_growAll (parent : NodeId) (index : Nat) : ∀ (ds : List Dump) (ns : List Node),
    (growAll ds).onto (.ofNodes ns) = layoutAll ns.length parent index ds >>= fun ps =>
      pure (.ok (ps.map (·.settled), .ofNodes (ns ++ ps.flatMap (·.orphaned))))
  | [], ns => by
    rw [growAll, layoutAll, pure_bind, List.flatMap_nil, List.append_nil]
    rfl
  | d :: ds, ns => by
    rw [growAll, layoutAll, Growth.onto_then (onto_grow (some parent) index d ns),
      bind_assoc]
    apply Reading.then_congr
    intro first hfirst
    have hnext : (ns ++ first.orphaned).length = ns.length + first.nodes.length := by simp
    have hothers := onto_growAll parent (index + first.slot.toList.length) ds (ns ++ first.orphaned)
    rw [hnext] at hothers
    rw [Growth.onto_then hothers, bind_assoc]
    apply Reading.then_congr
    intro others _
    rw [Growth.onto_pure, pure_bind, List.append_assoc, List.map_cons, List.flatMap_cons]

end

/-- Growing a tree from a dump and laying the dump out read the same attributes, end with the same
flaw, and come to the same tree; no edit is refused on the way. -/
theorem growTree_eq_toTree (d : Dump) : d.growTree = d.toTree >>= fun t => pure (.ok t) := by
  have hgrow : (grow d).run .empty = layout 0 none 0 d >>= fun p =>
      pure (.ok (p.settled, .ofNodes p.orphaned)) := onto_grow none 0 d []
  have hroot : ∀ p, (layout 0 none 0 d).result = .ok p → p = ⟨d.kind, none, []⟩ ∨ ∃ n below,
      p = ⟨d.kind, some 0, n :: below⟩ ∧ n.parent = none ∧ n.index = 0 :=
    fun _ hp => rowRule.layout hp
  unfold growTree toTree
  rw [hgrow]
  generalize layout 0 none 0 d = laid at hroot
  obtain ⟨ignored, result⟩ := laid
  cases result with
  | error fault => rfl
  | ok p =>
    rcases hroot p rfl with rfl | ⟨n, below, rfl, hparent, hindex⟩
    · show (⟨ignored ++ [], .error .absentRoot⟩ : Reading (Except Fault Tree)) = ⟨ignored, _⟩
      rw [List.append_nil]
    · have hn : n.under none 0 = n := by
        rw [← hparent, ← hindex]
        rfl
      show (⟨ignored ++ [], .ok (.ok (.ofNodes (n.under none 0 :: below)))⟩ :
        Reading (Except Fault Tree)) = ⟨ignored ++ [], _⟩
      rw [hn]
      rfl

end Dump

end BranchTally
