import BranchTally.Proofs.Flow.Recall
import BranchTally.Proofs.Tree.Slots

/-! Every count of a loaded tree comes to an end. It comes out as a number, or the counters
contradict each other, or a node lacks a slot that it cannot do without; no other fault occurs, in
particular none of a node that is not there or of a kind that does not belong, and no derivation
goes round in a circle. Each rule asks only for counts of this sort, and fails by itself only in
these ways. -/

namespace BranchTally

open BranchTally.Flow

/-! ### What may be asked and what may fail -/

/-- The slots that a construct cannot do without, by their names. -/
def Construct.needs : Construct → List (String × Slot)
  | .conditional _ condition whenTrue whenFalse =>
    [("condition", condition), ("true branch", whenTrue), ("false branch", whenFalse)]
  | .dispatch _ _ otherwise => [("else branch", otherwise)]
  | .arm _ body => [("body", body)]
  | .shortCircuit _ left right => [("left operand", left), ("right operand", right)]
  | .safeNavigation receiver _ => [("receiver", receiver)]
  | .loop _ _ condition body => [("condition", condition), ("body", body)]
  | _ => []

namespace Tree

/-- The fault is that a node of the tree lacks a slot that it cannot do without. -/
def Lacks (t : Tree) (fault : Fault) : Prop :=
  ∃ (i : NodeId) (n : Node) (name : String), t.nodes[i]? = some n ∧
    (name, none) ∈ n.construct.needs ∧ fault = .missing (n.label i) name

/-- The counters or the slots of the tree are to blame for the fault. -/
def Excuses (t : Tree) (fault : Fault) : Prop := fault.category = .inconsistent ∨ t.Lacks fault

/-- The counts that a tree has: three to each of its nodes, those of the branches without a node,
and those of the exceptions that reach the handler arms of a rescue. -/
def Askable (t : Tree) : Query → Prop
  | .entry id | .execution id | .completion id => id < t.size
  | .implicitBranch id =>
    ∃ n, t.nodes[id]? = some n ∧ n.kind ∈ [Kind.shortCircuit, .safeNavigation, .loop]
  | .handlerEntry arm =>
    ∃ (i : NodeId) (n : Node) (watched otherwise : Slot) (handlers : List NodeId),
      t.nodes[i]? = some n ∧ n.construct = .rescue watched handlers otherwise ∧ arm ∈ handlers

end Tree

/-! ### Derivations within bounds -/

namespace Flow.Derivation

variable {α β : Type} {t : Tree} {P Q : Query → Prop} {F : Fault → Prop}

/-- The derivation asks only for counts with a property, and by itself ends only in faults with
another. -/
def Within (P : Query → Prop) (F : Fault → Prop) : Derivation α → Prop
  | done _ => True
  | fail fault => F fault
  | ask q next => P q ∧ ∀ n, (next n).Within P F

namespace Within

theorem pure (a : α) : (Pure.pure a : Derivation α).Within P F := trivial

theorem count {q : Query} (h : P q) : (Flow.count q).Within P F := ⟨h, fun _ => trivial⟩

theorem bind {d : Derivation α} {g : α → Derivation β} (hd : d.Within P F)
    (hg : ∀ a, (g a).Within P F) : (d >>= g).Within P F := by
  change (d.bind g).Within P F
  induction d with
  | done a => exact hg a
  | fail fault => exact hd
  | ask q next ih => exact ⟨hd.1, fun n => ih n (hd.2 n)⟩

theorem read {r : Except Fault α} {a : α} {g : α → Derivation β} (hr : r = .ok a)
    (h : (g a).Within P F) : ((liftM r : Derivation α) >>= g).Within P F := by
  subst hr
  exact h

/-- A slot that a node needs is there, or its absence is to blame. -/
theorem required {i : NodeId} {n : Node} {s : Slot} {name : String} {g : NodeId → Derivation β}
    (hn : t.nodes[i]? = some n) (hs : (name, s) ∈ n.construct.needs)
    (h : ∀ c, s = some c → (g c).Within P t.Excuses) :
    ((liftM (t.required i s name) : Derivation NodeId) >>= g).Within P t.Excuses := by
  cases s with
  | some c => exact h c rfl
  | none =>
    rw [Tree.required_none hn]
    exact .inr ⟨i, n, name, hn, hs, rfl⟩

/-- If all counts that are asked for come to numbers or to faults of some sort, so does the whole.
-/
theorem run_error {d : Derivation α} (hd : d.Within P F) (ha : d.AsksOnly Q)
    {f : Query → Except Fault Int} (hf : ∀ q fault, P q → Q q → f q = .error fault → F fault)
    {fault : Fault} (h : d.run f = .error fault) : F fault := by
  induction d with
  | done a => cases h
  | fail fault' =>
    cases h
    exact hd
  | ask q next ih =>
    simp only [run] at h
    split at h
    next n _ => exact ih n (hd.2 n) (ha.2 n) h
    next fault' hq =>
      cases h
      exact hf q _ hd.1 ha.1 hq

end Within

end Flow.Derivation

namespace Flow.Evidence

open Flow.Derivation BranchTally.Tree

variable {e : Evidence} {p id : NodeId} {m n : Node}

/-- The derivation stays within what the tree has and what it excuses. -/
abbrev Sane (e : Evidence) {α : Type} (d : Derivation α) : Prop :=
  d.Within e.tree.Askable e.tree.Excuses

theorem nonNegative_sane (quantity : Quantity) (node : Label) (v : Int) :
    e.Sane (nonNegative quantity node v) := by
  unfold nonNegative
  split
  · exact .inl rfl
  · trivial

theorem place_sane {α : Type} {g : Node → Derivation α} (hn : e.tree.nodes[id]? = some n)
    (h : e.Sane (g n)) : e.Sane (e.place id >>= g) := by
  unfold place
  rw [hn]
  exact h

/-! ### Entries -/

section Children

variable (h : e.tree.Linked) (hm : e.tree.nodes[p]? = some m) (hn : e.tree.nodes[id]? = some n)
  (hp : n.parent = some p)

include h hm hn hp

/-- What follows the search for the left neighbour is of interest for the nodes in slots. -/
theorem previous_sane {α : Type} {g : Option NodeId → Derivation α} (hfirst : e.Sane (g none))
    (hlater : ∀ j ∈ m.construct.present, e.Sane (g (some j))) :
    e.Sane ((liftM (e.tree.previousSibling id) : Derivation (Option NodeId)) >>= g) := by
  rcases h.previousSibling_cases hn hp hm with ⟨-, hs⟩ | ⟨k, j, -, hj, hs⟩
  · exact .read hs hfirst
  · exact .read hs (hlater j (List.mem_of_getElem? hj))

theorem inSequence_sane : e.Sane (e.inSequence p id) := by
  unfold inSequence
  apply previous_sane h hm hn hp
  · exact .count (size_of_node hm)
  · intro j hj
    exact .count (h.lt_of_present hm hj).2

theorem dispatch_sane {subject otherwise : Slot} {arms : List NodeId}
    (hc : m.construct = .dispatch subject arms otherwise) : e.Sane (e.childEntry p m id) := by
  have hup : e.Sane (Flow.count (.entry p)) := .count (size_of_node hm)
  have hid := List.mem_of_getElem? (h.present_of_child hn hp hm)
  have hslots : ∀ c ∈ m.construct.present, c < e.tree.size := fun c hc => (h.lt_of_present hm hc).2
  simp only [childEntry, hc]
  split
  · exact hup
  next hs =>
  split
  · trivial
  next ho =>
  rw [hc] at hid hslots
  simp only [Construct.present, List.mem_append, Option.mem_toList] at hid hslots
  obtain ⟨k, hk⟩ : ∃ k, arms[k]? = some id := by
    rcases hid with (hid | hid) | hid
    · exact absurd hid.symm hs
    · exact List.mem_iff_getElem?.mp hid
    · exact absurd hid.symm ho
  have hrow : m.construct.present = subject.toList ++ arms ++ otherwise.toList := by rw [hc]; rfl
  cases k with
  | zero =>
    -- the first arm follows the subject, if there is one
    have hprev := h.previousSibling_first hm hrow hk
    cases subject with
    | none => exact .read hprev hup
    | some s =>
      refine .read hprev ?_
      simp only [Option.toList_some, List.getLast?_singleton, if_true]
      exact .count (hslots s (by simp))
  | succ k =>
    obtain ⟨b, hb⟩ : ∃ b, arms[k]? = some b := by
      have := (List.getElem?_eq_some_iff.mp hk).1
      exact ⟨arms[k], List.getElem?_eq_getElem (by omega)⟩
    have hbm := List.mem_of_getElem? hb
    refine .read (h.previousSibling_next hm hrow hb hk) ?_
    simp only
    split
    · exact .count (hslots b (by simp [hbm]))
    obtain ⟨x, hx, hkind⟩ := h.arm_kind hm hc hbm
    refine .read (node_eq_ok.mpr hx) ?_
    split
    next patterns body hcon =>
      refine .bind (.count (size_of_node hx)) fun _ =>
        .required hx (by simp [hcon, Construct.needs]) fun c hcs =>
          .bind (.count ?_) fun _ => .pure _
      exact (h.lt_of_present hx (by simp [hcon, hcs, Construct.present])).2
    next hne =>
      unfold Node.kind at hkind
      cases hcon : x.construct <;> simp_all [Construct.kind]

theorem childEntry_sane : e.Sane (e.childEntry p m id) := by
  have hup : e.Sane (Flow.count (.entry p)) := .count (size_of_node hm)
  have hid := List.mem_of_getElem? (h.present_of_child hn hp hm)
  have hslots : ∀ c ∈ m.construct.present, c < e.tree.size := fun c hc => (h.lt_of_present hm hc).2
  cases hc : m.construct with
  | expression type operands =>
    rw [childEntry, hc]
    exact inSequence_sane h hm hn hp
  | sequence explicit statements =>
    rw [childEntry, hc]
    exact inSequence_sane h hm hn hp
  | emptyBody => simp [hc, Construct.present] at hid
  | conditional style condition whenTrue whenFalse =>
    simp only [childEntry, hc]
    split
    · exact hup
    split
    · trivial
    refine .required hm (by simp [hc, Construct.needs]) fun c hcs =>
      .bind (.count ?_) fun _ => .pure _
    exact hslots c (by simp [hc, hcs, Construct.present])
  | dispatch subject arms otherwise => exact dispatch_sane h hm hn hp hc
  | arm patterns body =>
    simp only [childEntry, hc]
    split
    · trivial
    · exact inSequence_sane h hm hn hp
  | shortCircuit op left right =>
    simp only [childEntry, hc]
    split
    · trivial
    · exact hup
  | safeNavigation receiver arguments =>
    simp only [childEntry, hc]
    split
    · exact hup
    apply previous_sane h hm hn hp
    · trivial
    intro j hj
    simp only
    split
    · trivial
    · exact .count (hslots j hj)
  | loop polarity test condition body =>
    simp only [childEntry, hc]
    split
    · trivial
    refine .required hm (by simp [hc, Construct.needs]) fun c hcs => ?_
    have hbody : e.Sane (Flow.count (.completion c)) :=
      .count (hslots c (by simp [hc, hcs, Construct.present]))
    cases test with
    | before => exact .bind hup fun _ => .bind hbody fun _ => .pure _
    | after => exact hbody
  | rescue watched handlers otherwise =>
    simp only [childEntry, hc]
    split
    · exact hup
    next hw =>
    split
    · exact .count (size_of_node hm)
    next ho =>
    simp only [hc, Construct.present, List.mem_append, Option.mem_toList] at hid
    rcases hid with (hid | hid) | hid
    · exact absurd hid.symm hw
    · exact .count ⟨p, m, _, _, _, hm, hc, hid⟩
    · exact absurd hid.symm ho
  | handler exceptions assignment body =>
    simp only [childEntry, hc]
    split
    · exact hup
    · trivial
  | ensure body ensured =>
    simp only [childEntry, hc]
    cases body with
    | none => exact hup
    | some b =>
      simp only
      split
      · exact .count (hslots b (by simp [hc, Construct.present]))
      · exact hup

end Children

theorem entryRule_sane (h : e.tree.Linked) (hn : e.tree.nodes[id]? = some n) :
    e.Sane (e.entryRule id) := by
  rw [entryRule_eq]
  refine place_sane hn (.bind ?_ fun v => nonNegative_sane _ _ _)
  unfold entrance
  cases hp : n.parent with
  | none => trivial
  | some p =>
    obtain ⟨-, m, hm, -⟩ := h.child_of_parent hn hp
    exact .read (node_eq_ok.mpr hm) (childEntry_sane h hm hn hp)

/-! ### Executions and completions -/

theorem lastCompletion_sane {ids : List NodeId} {v : Int} (h : ∀ c ∈ ids, c < e.tree.size) :
    e.Sane (lastCompletion ids v) := by
  unfold lastCompletion
  split
  next c hc => exact .count (h c (List.mem_of_getLast? hc))
  next => trivial

theorem addCompletions_sane {ids : List NodeId} {v : Int} (h : ∀ c ∈ ids, c < e.tree.size) :
    e.Sane (e.addCompletions v ids) := by
  induction ids generalizing v with
  | nil => trivial
  | cons c ids ih =>
    exact .bind (.count (h c (List.mem_cons_self ..))) fun _ =>
      ih fun c hc => h c (List.mem_cons_of_mem _ hc)

theorem fallThrough_sane (h : e.tree.Linked) (hn : e.tree.nodes[id]? = some n) :
    e.Sane (e.fallThrough id n) := by
  have hsize := size_of_node hn
  have hentry : e.Sane (Flow.count (.entry id)) := .count hsize
  have hexecution : e.Sane (Flow.count (.execution id)) := .count hsize
  have hslots : ∀ c ∈ n.construct.present, c < e.tree.size := fun c hc => (h.lt_of_present hn hc).2
  have himplicit : n.kind ∈ [Kind.shortCircuit, .safeNavigation, .loop] →
      e.Sane (Flow.count (.implicitBranch id)) := fun hk => .count ⟨n, hn, hk⟩
  unfold fallThrough
  cases hc : n.construct with
  | expression type operands =>
    rw [hc] at hslots
    simp only
    split
    · trivial
    · exact .bind hexecution fun _ => lastCompletion_sane hslots
  | sequence explicit statements =>
    rw [hc] at hslots
    exact .bind hentry fun _ => lastCompletion_sane hslots
  | emptyBody => exact hentry
  | conditional style condition whenTrue whenFalse =>
    refine .required hn (by simp [hc, Construct.needs]) fun a ha => .bind (.count ?_) fun _ =>
      .required hn (by simp [hc, Construct.needs]) fun b hb => .bind (.count ?_) fun _ => .pure _
    · exact hslots a (by simp [hc, ha, Construct.present])
    · exact hslots b (by simp [hc, hb, Construct.present])
  | dispatch subject arms otherwise =>
    refine .required hn (by simp [hc, Construct.needs]) fun a ha => .bind (.count ?_) fun _ =>
      addCompletions_sane fun c hcs => hslots c ?_
    · exact hslots a (by simp [hc, ha, Construct.present])
    · simp [hc, hcs, Construct.present]
  | arm patterns body =>
    refine .required hn (by simp [hc, Construct.needs]) fun a ha => .count ?_
    exact hslots a (by simp [hc, ha, Construct.present])
  | shortCircuit op left right =>
    refine .required hn (by simp [hc, Construct.needs]) fun a ha => .bind (.count ?_) fun _ =>
      .bind (himplicit (by simp [Node.kind, hc, Construct.kind])) fun _ => .pure _
    exact hslots a (by simp [hc, ha, Construct.present])
  | safeNavigation receiver arguments =>
    have hrest : ∀ made,
        e.Sane (do return e.width.add (← Flow.count (.implicitBranch id)) made) :=
      fun _ => .bind (himplicit (by simp [Node.kind, hc, Construct.kind])) fun _ => .pure _
    simp only
    split
    · exact .bind (.pure _) hrest
    · refine .bind (lastCompletion_sane fun c hcs => hslots c ?_) hrest
      simp [hc, hcs, Construct.present]
  | loop polarity test condition body => exact himplicit (by simp [Node.kind, hc, Construct.kind])
  | rescue watched handlers otherwise =>
    cases watched with
    | none => exact hentry
    | some w =>
      refine .bind (.count (hslots _ ?_)) fun _ => addCompletions_sane fun c hcs => hslots c ?_
      · cases otherwise <;> simp [hc, Construct.present]
      · simp [hc, hcs, Construct.present]
  | handler exceptions assignment body =>
    cases body with
    | none => exact hexecution
    | some b => exact .count (hslots b (by simp [hc, Construct.present]))
  | ensure body ensured =>
    cases body with
    | some b => exact .count (hslots b (by simp [hc, Construct.present]))
    | none =>
      cases ensured with
      | some b => exact .count (hslots b (by simp [hc, Construct.present]))
      | none => exact hentry

theorem completionRule_sane (h : e.tree.Linked) (hn : e.tree.nodes[id]? = some n) :
    e.Sane (e.completionRule id) := by
  unfold completionRule
  refine place_sane hn (.bind (fallThrough_sane h hn) fun _ =>
    .bind (nonNegative_sane _ _ _) fun _ => .bind (.count ?_) fun _ => ?_)
  · unfold completionBound
    split <;> exact size_of_node hn
  · split
    · exact .inl rfl
    · trivial

theorem executionRule_sane (h : e.tree.Linked) (hn : e.tree.nodes[id]? = some n) :
    e.Sane (e.executionRule id) := by
  unfold executionRule
  refine place_sane hn (.bind ?_ fun _ => .bind (nonNegative_sane _ _ _) fun _ => ?_)
  · unfold arrival
    split
    next watched handlers otherwise hc =>
      exact .count (h.lt_of_present hn (by simp [hc, Construct.present])).2
    next => trivial
    next => exact .count (size_of_node hn)
  · split
    · trivial
    · refine .bind (.count (size_of_node hn)) fun _ => ?_
      split
      · exact .inl rfl
      · trivial

/-! ### Handler arms and branches without a node -/

theorem handlerEntryRule_sane (h : e.tree.Linked) {arm : NodeId}
    (ha : e.tree.Askable (.handlerEntry arm)) : e.Sane (e.handlerEntryRule arm) := by
  obtain ⟨owner, m, watched, otherwise, handlers, hm, hc, hmem⟩ := ha
  obtain ⟨n, hn, hp, -⟩ := h.child_of_present (c := arm) hm (by simp [hc, hmem, Construct.present])
  obtain ⟨k, hk⟩ := List.mem_iff_getElem?.mp hmem
  have hrow : m.construct.present = watched.toList ++ handlers ++ otherwise.toList := by
    rw [hc]
    rfl
  unfold handlerEntryRule
  refine .read (node_eq_ok.mpr hn) ?_
  simp only [hp]
  refine .read (node_eq_ok.mpr hm) ?_
  simp only [hc]
  cases watched with
  | none => exact .count (size_of_node hm)
  | some w =>
    have hw : w < e.tree.size := (h.lt_of_present hm (by simp [hc, Construct.present])).2
    have hfirst : e.Sane (do
        let entered ← Flow.count (.entry w)
        let completed ← Flow.count (.completion w)
        nonNegative .handlerEntry (n.label arm) (e.width.sub entered completed)) :=
      .bind (.count hw) fun _ => .bind (.count hw) fun _ => nonNegative_sane _ _ _
    cases k with
    | zero =>
      refine .read (h.previousSibling_first hm hrow hk) ?_
      simpa using hfirst
    | succ k =>
      obtain ⟨b, hb⟩ : ∃ b, handlers[k]? = some b := by
        have := (List.getElem?_eq_some_iff.mp hk).1
        exact ⟨handlers[k], List.getElem?_eq_getElem (by omega)⟩
      refine .read (h.previousSibling_next hm hrow hb hk) ?_
      simp only
      split
      next hbw => exact hbw ▸ hfirst
      obtain ⟨x, hx, hkind⟩ := h.handler_kind hm hc (List.mem_of_getElem? hb)
      refine .read (node_eq_ok.mpr hx) ?_
      split
      next exceptions assignment body hcon =>
        have htaken : ∀ offered, e.Sane (do
            let taken ← Flow.count (.execution b)
            nonNegative .handlerEntry (n.label arm) (e.width.sub offered taken)) :=
          fun _ => .bind (.count (size_of_node hx)) fun _ => nonNegative_sane _ _ _
        cases exceptions with
        | none => exact .bind (.count (size_of_node hx)) htaken
        | some c =>
          have hc' := h.lt_of_present hx (c := c) (by simp [hcon, Construct.present])
          exact .bind (.count hc'.2) htaken
      next hne =>
        unfold Node.kind at hkind
        cases hcon : x.construct <;> simp_all [Construct.kind]

theorem implicitBranchRule_sane (h : e.tree.Linked)
    (ha : e.tree.Askable (.implicitBranch id)) : e.Sane (e.implicitBranchRule id) := by
  obtain ⟨n, hn, hk⟩ := ha
  have hslots : ∀ c ∈ n.construct.present, c < e.tree.size := fun c hc => (h.lt_of_present hn hc).2
  unfold implicitBranchRule
  refine .read (node_eq_ok.mpr hn) ?_
  split
  next op left right hc =>
    refine .required hn (by simp [hc, Construct.needs]) fun a ha => .bind (.count ?_) fun _ =>
      .required hn (by simp [hc, Construct.needs]) fun b hb => .bind (.count ?_) fun _ =>
        nonNegative_sane _ _ _
    · exact hslots a (by simp [hc, ha, Construct.present])
    · exact hslots b (by simp [hc, hb, Construct.present])
  next receiver arguments hc =>
    split
    · trivial
    refine .required hn (by simp [hc, Construct.needs]) fun a ha => .bind (.count ?_) fun _ =>
      nonNegative_sane _ _ _
    exact hslots a (by simp [hc, ha, Construct.present])
  next polarity test condition body hc =>
    refine .required hn (by simp [hc, Construct.needs]) fun a ha => .bind (.count ?_) fun _ =>
      .required hn (by simp [hc, Construct.needs]) fun b hb => .bind (.count ?_) fun _ => ?_
    · exact hslots a (by simp [hc, ha, Construct.present])
    · exact hslots b (by simp [hc, hb, Construct.present])
    cases test with
    | before => exact nonNegative_sane _ _ _
    | after => exact .bind (.count (size_of_node hn)) fun _ => nonNegative_sane _ _ _
  next hshort hsafe hloop =>
    cases hc : n.construct with
    | shortCircuit op left right => exact absurd hc (hshort op left right)
    | safeNavigation receiver arguments => exact absurd hc (hsafe receiver arguments)
    | loop polarity test condition body => exact absurd hc (hloop polarity test condition body)
    | _ => simp [Node.kind, hc, Construct.kind] at hk

/-- Every rule stays within what the tree has and what it excuses. -/
theorem rule_sane (h : e.tree.Linked) {q : Query} (hq : e.tree.Askable q) : e.Sane (e.rule q) := by
  cases q with
  | entry id => exact entryRule_sane h (Array.getElem?_eq_getElem hq)
  | execution id => exact executionRule_sane h (Array.getElem?_eq_getElem hq)
  | completion id => exact completionRule_sane h (Array.getElem?_eq_getElem hq)
  | handlerEntry arm => exact handlerEntryRule_sane h hq
  | implicitBranch id => exact implicitBranchRule_sane h hq

/-- No count of a tree ends in a fault that is not excused. -/
theorem answer_excused (h : e.tree.Linked) {q : Query} {fault : Fault} (hq : e.tree.Askable q)
    (hf : e.answer q = .error fault) : e.tree.Excuses fault := by
  refine Tree.count_induction (t := e.tree)
    (P := fun q => ∀ fault, e.tree.Askable q → e.answer q = .error fault → e.tree.Excuses fault)
    ?_ q fault hq hf
  intro q ih fault hq hf
  rw [answer_eq h q] at hf
  exact (rule_sane h hq).run_error (rule_asksOnly h q)
    (fun r fault hr hb hf => ih r hb fault hr hf) hf

/-- On a loaded tree the counts rest on each other without a circle, and every count that the tree
has, whatever was asked before, is a number, or the counters contradict each other, or some node
lacks a slot that it cannot do without. -/
theorem lookup_total {t : Tree} (ht : t.Loaded) (counters : Counters) (width : Width) :
    let e : Evidence := ⟨t, counters, width⟩
    (∃ rank : Query → Nat, ∀ q, (e.rule q).AsksOnly fun r => rank r < rank q) ∧
      ∀ earlier q, t.Askable q → (∃ n, e.lookup earlier q = .ok n) ∨
        ∃ fault, e.lookup earlier q = .error fault ∧
          (fault.category = .inconsistent ∨ t.Lacks fault) := by
  intro e
  have hl : e.tree.Linked := ht.linked
  refine ⟨⟨e.tree.rank, fun q => (rule_asksOnly hl q).mono fun _ => Before.rank_lt⟩, ?_⟩
  intro earlier q hq
  rw [lookup_eq hl]
  cases ha : e.answer q with
  | ok n => exact .inl ⟨n, rfl⟩
  | error fault => exact .inr ⟨fault, rfl, answer_excused hl hq ha⟩

end Flow.Evidence

/-- A dispatch without an else branch: `case input when Integer then work end`. -/
def Dump.elseless : Dump :=
  .node "case" 1 none [("entry", "1"), ("else_entered", "2")]
    [.node "send" 1 none [] [],
      .node "when" 2 none [("entered_body", "3")]
        [.node "const" 2 none [] [], .node "send" 2 none [] []]]

def Tree.elseless : Tree :=
  ⟨#[⟨.dispatch (some 1) [2] none, none, none, 0, [1, 2], [(.elseEntered, 2), (.entry, 1)], []⟩,
    ⟨.expression "send" [], none, some 0, 0, [], [], []⟩,
    ⟨.arm [3] (some 4), none, some 0, 1, [3, 4], [(.enteredBody, 3)], []⟩,
    ⟨.expression "const" [], none, some 2, 0, [], [], []⟩,
    ⟨.expression "send" [], none, some 2, 1, [], [], []⟩]⟩

theorem Tree.elseless_loaded : Tree.elseless.Loaded := ⟨"elseless", .elseless, rfl⟩

/-- Without its else branch a dispatch has no completion; its arms have their counts all the same.
-/
theorem Flow.Evidence.lookup_total_elseless :
    let e : Evidence := ⟨.elseless, .ofList [(1, 5), (3, 2)], .word⟩
    let fault : Fault := .missing ⟨.dispatch, 0, none⟩ "else branch"
    e.lookup [] (.completion 0) = .error fault ∧ Tree.elseless.Lacks fault ∧
      ∃ n, e.lookup [.completion 0] (.completion 2) = .ok n := by
  intro e fault
  have h := (lookup_total Tree.elseless_loaded (.ofList [(1, 5), (3, 2)]) .word).2
  have hdispatch : e.lookup [] (.completion 0) = .error fault := by decide +kernel
  have harm : e.lookup [.completion 0] (.completion 2) = .ok 2 := by decide +kernel
  refine ⟨hdispatch, ?_, ?_⟩
  · rcases h [] (.completion 0) (show 0 < 5 by decide) with ⟨n, hn⟩ | ⟨fault', hf, hcause⟩
    · cases hdispatch.symm.trans hn
    · cases hdispatch.symm.trans hf
      exact hcause.resolve_left (by decide)
  · rcases h [.completion 0] (.completion 2) (show 2 < 5 by decide) with hn | ⟨fault', hf, -⟩
    · exact hn
    · cases harm.symm.trans hf

end BranchTally
