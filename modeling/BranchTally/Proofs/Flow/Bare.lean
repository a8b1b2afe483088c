import BranchTally.Proofs.Flow.Checks
import BranchTally.Tree.Order

/-! Counts do not depend on where anything is written. The bare form of a tree has no spans and no
keywords, and holds the trackers of a node in the order of their roles, each with its latest binding
alone; so two trees have the same bare form if they agree in all but places. Every rule of the bare
tree is that of the tree itself, except that the faults it may end with do not say where a node is
written; so a count of the bare tree has the same value, or is missing for the same reason. -/

namespace BranchTally

/-! ### Bare trees -/

def Label.bare (l : Label) : Label := { l with span := none }

/-- A fault that does not say where a node is written. -/
def Fault.bare : Fault → Fault
  | noSpan node => noSpan node.bare
  | missing owner slot => missing owner.bare slot
  | unexpectedKind node => unexpectedKind node.bare
  | childlessParent node => childlessParent node.bare
  | outsideRescue arm => outsideRescue arm.bare
  | noImplicitBranch node => noImplicitBranch node.bare
  | negative quantity node count => negative quantity node.bare count
  | excess passage node count bound => excess passage node.bare count bound
  | unknownNode => unknownNode
  | unknownPlace => unknownPlace
  | circular => circular

/-- A node without its place in the program text, its trackers in the order of their roles. -/
def Node.bare (n : Node) : Node :=
  { n with span := none, keywords := [], trackers := n.boundTrackers }

def Tree.bare (t : Tree) : Tree := ⟨t.nodes.map Node.bare⟩

namespace Node

variable (n : Node)

@[simp] theorem bare_construct : n.bare.construct = n.construct := rfl

@[simp] theorem bare_kind : n.bare.kind = n.kind := rfl

@[simp] theorem bare_parent : n.bare.parent = n.parent := rfl

theorem lookup_filterMap (f : Role → Option TrackerId) (roles : List Role) (role : Role) :
    (roles.filterMap fun r => (f r).map (r, ·)).lookup role =
      if role ∈ roles then f role else none := by
  induction roles with
  | nil => rfl
  | cons r roles ih =>
    by_cases h : role = r
    · subst h
      cases hf : f role with
      | none => simp [hf, ih]
      | some tracker => simp [hf]
    · cases hf : f r with
      | none => simp [hf, ih, h]
      | some tracker => simp [hf, ih, h, List.lookup_cons, beq_eq_false_iff_ne.mpr h]

@[simp] theorem bare_tracker? (role : Role) : n.bare.tracker? role = n.tracker? role := by
  have hmem : role ∈ Role.all := by cases role <;> decide
  show n.boundTrackers.lookup role = n.tracker? role
  rw [boundTrackers, lookup_filterMap, if_pos hmem]

@[simp] theorem bare_label (id : NodeId) : n.bare.label id = (n.label id).bare := rfl

/-- Nodes have the same bare form if they are the same but for their places, whatever order their
trackers were bound in. -/
theorem bare_eq_bare_iff {n m : Node} : n.bare = m.bare ↔ n.construct = m.construct ∧
    n.parent = m.parent ∧ n.index = m.index ∧ n.children = m.children ∧
    ∀ role, n.tracker? role = m.tracker? role := by
  constructor
  · intro h
    have htrackers : ∀ role, n.tracker? role = m.tracker? role := by
      intro role
      rw [← n.bare_tracker?, h, m.bare_tracker?]
    simp only [bare, mk.injEq, true_and] at h
    exact ⟨h.1, h.2.1, h.2.2.1, h.2.2.2.1, htrackers⟩
  · rintro ⟨hconstruct, hparent, hindex, hchildren, htrackers⟩
    have hbound : n.boundTrackers = m.boundTrackers := by
      simp only [boundTrackers, htrackers]
    simp only [bare, hconstruct, hparent, hindex, hchildren, hbound]

end Node

namespace Tree

variable (t : Tree) (id : NodeId)

@[simp] theorem bare_getElem? : t.bare.nodes[id]? = t.nodes[id]?.map Node.bare := by
  simp [bare]

@[simp] theorem bare_size : t.bare.size = t.size := by
  simp [bare, size]

@[simp] theorem bare_node : t.bare.node id = Node.bare <$> (t.node id).mapError Fault.bare := by
  unfold node
  rw [bare_getElem?]
  cases t.nodes[id]? <;> rfl

@[simp] theorem bare_required (slot : Slot) (name : String) :
    t.bare.required id slot name = (t.required id slot name).mapError Fault.bare := by
  cases slot with
  | some i => rfl
  | none =>
    simp only [required, label, bare_node]
    cases t.node id <;> rfl

@[simp] theorem bare_children :
    t.bare.children id = (t.children id).mapError Fault.bare := by
  simp only [children, bare_node]
  cases t.node id <;> rfl

@[simp] theorem bare_previousSibling :
    t.bare.previousSibling id = (t.previousSibling id).mapError Fault.bare := by
  unfold previousSibling
  rw [bare_node]
  cases t.node id with
  | error fault => rfl
  | ok n =>
    rcases n with ⟨_, _, _ | p, _ | i, _⟩
    case some.succ =>
      change Except.bind (t.bare.children p) _ = (Except.bind (t.children p) _).mapError _
      rw [bare_children]
      cases t.children p <;> rfl
    all_goals rfl

@[simp] theorem bare_refuse {α : Type} :
    (t.bare.refuse id : Except Fault α) = (t.refuse id).mapError Fault.bare := by
  simp only [refuse, label, bare_node]
  cases t.node id <;> rfl

@[simp] theorem bare_childrenOf : t.bare.childrenOf id = t.childrenOf id := by
  unfold childrenOf
  rw [bare_getElem?]
  cases t.nodes[id]? <;> rfl

theorem bare_subtree (levels : Nat) : t.bare.subtree levels id = t.subtree levels id := by
  induction levels generalizing id with
  | zero => rfl
  | succ levels ih => simp [subtree, funext ih]

@[simp] theorem bare_isEmpty : t.bare.isEmpty = t.isEmpty := by
  simp [bare, isEmpty, Array.isEmpty]

@[simp] theorem bare_preorder : t.bare.preorder = t.preorder := by
  simp [preorder, bare_subtree]

end Tree

/-! ### Derivations with other faults -/

namespace Flow.Derivation

variable {α β : Type} {f : Fault → Fault}

def mapFault (f : Fault → Fault) : Derivation α → Derivation α
  | done a => done a
  | fail fault => fail (f fault)
  | ask q next => ask q fun n => (next n).mapFault f

@[simp] theorem mapFault_pure (a : α) : (pure a : Derivation α).mapFault f = pure a := rfl

@[simp] theorem mapFault_fail (fault : Fault) :
    (fail fault : Derivation α).mapFault f = fail (f fault) := rfl

@[simp] theorem mapFault_count (q : Query) : (count q).mapFault f = count q := rfl

@[simp] theorem mapFault_lift (r : Except Fault α) :
    (liftM r : Derivation α).mapFault f = liftM (r.mapError f) := by
  cases r <;> rfl

@[simp] theorem mapFault_bind (d : Derivation α) (k : α → Derivation β) :
    (d >>= k).mapFault f = d.mapFault f >>= fun a => (k a).mapFault f := by
  change (d.bind k).mapFault f = (d.mapFault f).bind _
  induction d with
  | done a => rfl
  | fail fault => rfl
  | ask q next ih => exact congrArg (ask q) (funext ih)

@[simp] theorem mapFault_map (g : α → β) (d : Derivation α) :
    (g <$> d).mapFault f = g <$> d.mapFault f := by
  rw [map_eq_pure_bind, map_eq_pure_bind, mapFault_bind]
  rfl

@[simp] theorem mapFault_ite (p : Prop) [Decidable p] (d d' : Derivation α) :
    (if p then d else d').mapFault f = if p then d.mapFault f else d'.mapFault f :=
  apply_ite ..

@[simp] theorem lift_map_bind {γ : Type} (g : α → γ) (r : Except Fault α) (k : γ → Derivation β) :
    (liftM (g <$> r) : Derivation γ) >>= k = (liftM r : Derivation α) >>= fun a => k (g a) := by
  cases r <;> rfl

/-- Outcomes correspond if the answers do. -/
theorem run_mapFault {answer answer' : Query → Except Fault Int}
    (h : ∀ q, answer' q = (answer q).mapError f) (d : Derivation α) :
    (d.mapFault f).run answer' = (d.run answer).mapError f := by
  induction d with
  | done a => rfl
  | fail fault => rfl
  | ask q next ih =>
    simp only [mapFault, run, h]
    cases answer q with
    | ok n => exact ih n
    | error fault => rfl

end Flow.Derivation

/-! ### Rules -/

namespace Flow.Evidence

open Flow.Derivation

variable (e : Evidence) (id : NodeId) (n : Node)

def bare : Evidence := { e with tree := e.tree.bare }

@[simp] theorem bare_tree : e.bare.tree = e.tree.bare := rfl

@[simp] theorem bare_width : e.bare.width = e.width := rfl

@[simp] theorem bare_reading (role : Role) : e.bare.reading n.bare role = e.reading n role := by
  unfold reading
  rw [n.bare_tracker?]
  rfl

@[simp] theorem mapFault_addCompletions (total : Int) (ids : List NodeId) :
    (e.addCompletions total ids).mapFault Fault.bare = e.bare.addCompletions total ids := by
  induction ids generalizing total with
  | nil => rfl
  | cons id ids ih => simp [addCompletions, ih]

@[simp] theorem mapFault_lastCompletion (ids : List NodeId) (otherwise : Int) :
    (lastCompletion ids otherwise).mapFault Fault.bare = lastCompletion ids otherwise := by
  unfold lastCompletion
  cases ids.getLast? <;> rfl

theorem bare_fallThrough :
    e.bare.fallThrough id n.bare = (e.fallThrough id n).mapFault Fault.bare := by
  unfold fallThrough
  rw [n.bare_construct]
  cases n.construct with
  | expression type operands =>
    by_cases h : (n.tracker? .completion).isSome <;> simp [h]
  | rescue watched handlers otherwise => cases watched <;> simp
  | handler exceptions assignment body => cases body <;> rfl
  | ensure body ensured => cases body <;> cases ensured <;> rfl
  | _ => simp

@[simp] theorem mapFault_nonNegative (quantity : Quantity) (node : Label) (k : Int) :
    (nonNegative quantity node k).mapFault Fault.bare = nonNegative quantity node.bare k := by
  unfold nonNegative
  split <;> rfl

theorem bare_place : e.bare.place id = Node.bare <$> (e.place id).mapFault Fault.bare := by
  unfold place
  rw [e.bare_tree, e.tree.bare_getElem?]
  cases e.tree.nodes[id]? <;> rfl

@[simp] theorem completionBound_bare : completionBound id n.bare = completionBound id n := rfl

theorem bare_completionRule :
    e.bare.completionRule id = (e.completionRule id).mapFault Fault.bare := by
  simp [completionRule, bare_place, bare_fallThrough, Fault.bare]

theorem bare_arrival : e.bare.arrival id n.bare = (e.arrival id n).mapFault Fault.bare := by
  unfold arrival
  rw [n.bare_construct]
  cases n.construct with
  | rescue watched handlers otherwise => cases watched <;> rfl
  | handler exceptions assignment body => simp
  | _ => rfl

theorem bare_executionRule :
    e.bare.executionRule id = (e.executionRule id).mapFault Fault.bare := by
  simp only [executionRule, bare_place, bare_arrival, mapFault_bind, bind_map_left,
    mapFault_nonNegative, Node.bare_label]
  refine bind_congr fun n => bind_congr fun _ => bind_congr fun _ => ?_
  by_cases h : n.kind = .handler <;> simp [h, Fault.bare]

theorem bare_inSequence (parent child : NodeId) :
    e.bare.inSequence parent child = (e.inSequence parent child).mapFault Fault.bare := by
  simp only [inSequence, bare_tree, Tree.bare_previousSibling, mapFault_bind, mapFault_lift]
  refine bind_congr fun previous => ?_
  cases previous <;> rfl

theorem bare_childEntry (parent child : NodeId) :
    e.bare.childEntry parent n.bare child =
      (e.childEntry parent n child).mapFault Fault.bare := by
  unfold childEntry
  rw [n.bare_construct]
  cases n.construct with
  | emptyBody => rfl
  | dispatch subject arms otherwise =>
    simp only [bare_reading, bare_tree, Tree.bare_previousSibling, mapFault_ite, mapFault_count,
      mapFault_pure, mapFault_bind, mapFault_lift]
    refine ite_congr rfl (fun _ => rfl) fun _ => ite_congr rfl (fun _ => rfl) fun _ =>
      bind_congr fun previous => ?_
    cases previous with
    | none => rfl
    | some previous =>
      simp only [Tree.bare_node, Tree.bare_required, Tree.bare_refuse, lift_map_bind,
        Node.bare_construct, mapFault_ite, mapFault_count, mapFault_bind, mapFault_lift]
      refine ite_congr rfl (fun _ => rfl) fun _ => bind_congr fun m => ?_
      cases m.construct <;> simp
  | safeNavigation receiver arguments =>
    simp only [bare_reading, bare_tree, Tree.bare_previousSibling, mapFault_ite, mapFault_count,
      mapFault_bind, mapFault_lift]
    refine ite_congr rfl (fun _ => rfl) fun _ => bind_congr fun previous => ?_
    cases previous <;> simp
  | loop polarity test condition body => cases test <;> simp
  | ensure body ensured => cases body <;> simp
  | _ => simp [bare_inSequence]

theorem bare_entrance : e.bare.entrance id n.bare = (e.entrance id n).mapFault Fault.bare := by
  unfold entrance
  rw [n.bare_parent]
  cases n.parent <;> simp [bare_childEntry]

theorem bare_entryRule : e.bare.entryRule id = (e.entryRule id).mapFault Fault.bare := by
  simp [entryRule_eq, bare_place, bare_entrance]

theorem bare_handlerEntryRule (arm : NodeId) :
    e.bare.handlerEntryRule arm = (e.handlerEntryRule arm).mapFault Fault.bare := by
  simp only [handlerEntryRule, bare_tree, Tree.bare_node, lift_map_bind, mapFault_bind,
    mapFault_lift, Tree.bare_previousSibling]
  refine bind_congr fun n => ?_
  rw [n.bare_parent]
  cases n.parent with
  | none => rfl
  | some owner =>
    simp only [mapFault_bind, mapFault_lift]
    refine bind_congr fun m => ?_
    rw [m.bare_construct]
    cases m.construct with
    | rescue watched handlers otherwise =>
      cases watched with
      | none => rfl
      | some watched =>
        simp only [mapFault_bind, mapFault_lift]
        refine bind_congr fun previous => ?_
        cases previous with
        | none => rfl
        | some previous =>
          simp only [mapFault_ite, mapFault_bind, mapFault_lift, mapFault_count,
            mapFault_nonNegative, n.bare_label, bare_width]
          refine ite_congr rfl (fun _ => rfl) fun _ => bind_congr fun m => ?_
          rw [m.bare_construct]
          cases m.construct with
          | handler exceptions assignment body => cases exceptions <;> simp
          | _ => simp
    | _ => simp

theorem bare_implicitBranchRule :
    e.bare.implicitBranchRule id = (e.implicitBranchRule id).mapFault Fault.bare := by
  simp only [implicitBranchRule, bare_tree, Tree.bare_node, lift_map_bind, mapFault_bind,
    mapFault_lift]
  refine bind_congr fun n => ?_
  rw [n.bare_construct]
  cases n.construct with
  | loop polarity test condition body => cases test <;> simp
  | safeNavigation receiver arguments => simp
  | shortCircuit op left right => simp
  | _ => rfl

/-- The rules of the bare tree are those of the tree, up to what their faults say of places. -/
theorem bare_rule (q : Query) : e.bare.rule q = (e.rule q).mapFault Fault.bare := by
  cases q with
  | entry id => exact e.bare_entryRule id
  | execution id => exact e.bare_executionRule id
  | completion id => exact e.bare_completionRule id
  | handlerEntry arm => exact e.bare_handlerEntryRule arm
  | implicitBranch id => exact e.bare_implicitBranchRule id

/-! ### Answers -/

theorem bare_derive (d : Nat) (q : Query) :
    e.bare.derive d q = (e.derive d q).mapError Fault.bare := by
  induction d generalizing q with
  | zero => rfl
  | succ d ih =>
    rw [derive, bare_rule]
    exact run_mapFault ih (e.rule q)

theorem bare_answer (q : Query) : e.bare.answer q = (e.answer q).mapError Fault.bare := by
  rw [answer, depth, bare_tree, Tree.bare_size]
  exact e.bare_derive _ q

/-- A derivation over the bare tree has the outcome that it has over the tree. -/
theorem bare_run {α : Type} (d : Derivation α) :
    (d.mapFault Fault.bare).run e.bare.answer = (d.run e.answer).mapError Fault.bare :=
  run_mapFault e.bare_answer d

end Flow.Evidence

end BranchTally
