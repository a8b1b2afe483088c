import BranchTally.Proofs.Control.Constructs
import BranchTally.Proofs.Flow.Checks

/-! The rules of derivation against a run. Where every count that a derivation asks for is answered by
how often the trail of the run shows its event, each rule gives how often the trail shows its own
event, and all of its checks pass. -/

namespace BranchTally.Control

open BranchTally.Flow Flow.Derivation Flow.Evidence

/-- The evidence is what a run left behind, and no count of the run overflows. -/
structure LeftBy (e : Evidence) (trail : List Transition) : Prop where
  linked : e.tree.Linked
  instrumented : Instrumented e.tree
  runs : Runs e.tree trail
  recorded : Recorded e.tree trail e.counters
  fits : e.width = .word → 2 * trail.length < Width.wordCount

/-- Counts are answered by how often the trail shows their events. -/
def Answers (t : Tree) (trail : List Transition) (f : Query → Except Fault Int) : Prop :=
  ∀ {q : Query} {i : NodeId} {event : Event}, observed t q = some (i, event) →
    f q = .ok (times trail i event)

variable {e : Evidence} {trail : List Transition} {f : Query → Except Fault Int}
  {i c : NodeId} {n : Node} {event : Event}

namespace LeftBy

variable (he : LeftBy e trail)

include he

/-! ### Arithmetic on counts of the run -/

theorem fit_eq {m : Nat} (h : m ≤ trail.length) : e.width.fit m = m := by
  cases hw : e.width with
  | unbounded => rfl
  | word =>
    have := he.fits hw
    rw [Width.fit]
    apply Int.bmod_eq_of_le <;> omega

theorem add_of_le {a b : Nat} (h : a + b ≤ trail.length) :
    e.width.add a b = (a + b : Nat) := by
  rw [Width.add, ← he.fit_eq h]
  push_cast
  rfl

theorem add_eq {a b : Nat} (h : times trail i event = a + b) :
    e.width.add a b = times trail i event := by
  have hl : times trail i event ≤ trail.length := times_le_length
  rw [he.add_of_le (h ▸ hl), h]

theorem sub_eq {a b : Nat} (h : a = b + times trail i event) :
    e.width.sub a b = times trail i event := by
  have hl : times trail i event ≤ trail.length := times_le_length
  rw [Width.sub, ← he.fit_eq hl, h]
  congr 1
  push_cast
  omega

theorem reading_eq (hn : e.tree.nodes[i]? = some n) {role : Role}
    (hr : (n.tracker? role).isSome) : e.reading n role = times trail i (.fired role) := by
  obtain ⟨k, hk⟩ := Option.isSome_iff_exists.mp hr
  simp only [reading, hk, Counters.hits]
  rw [he.recorded hn hk, he.runs.count_hits he.instrumented hn hk, he.fit_eq times_le_length]

theorem reading_marker (hn : e.tree.nodes[i]? = some n) {role : Role}
    (hm : marker n.construct = some role) : e.reading n role = times trail i (.fired role) :=
  he.reading_eq hn (he.instrumented.marked hn hm)

/-! ### Children -/

theorem times_child (hn : e.tree.nodes[i]? = some n) (hc : c ∈ n.construct.present) :
    ∃ m, e.tree.nodes[c]? = some m ∧ times trail c .begun = times trail i (.entered c) ∧
      ∀ o, times trail i (.resumed [c] o) = times trail c (.left o) := by
  obtain ⟨m, hm, hp, -⟩ := he.linked.child_of_present hn hc
  exact ⟨m, hm, he.runs.times_begun he.linked hm hp, he.runs.times_resumed he.linked hm hp⟩

variable (hf : Answers e.tree trail f)

include hf

theorem entry_child (hn : e.tree.nodes[i]? = some n) (c : NodeId) (hc : c ∈ n.construct.present) :
    f (.entry c) = .ok (times trail i (.entered c)) := by
  obtain ⟨m, hm, hb, -⟩ := he.times_child hn hc
  rw [← hb]
  exact hf (by simp [observed, hm])

theorem completion_child (hn : e.tree.nodes[i]? = some n) (c : NodeId)
    (hc : c ∈ n.construct.present) :
    f (.completion c) = .ok (times trail i (.resumed [c] .completed)) := by
  obtain ⟨m, hm, -, hl⟩ := he.times_child hn hc
  rw [hl]
  exact hf (by simp [observed, hm])

omit he in
theorem entry_self (hn : e.tree.nodes[i]? = some n) :
    f (.entry i) = .ok (times trail i .begun) :=
  hf (by simp [observed, hn])

/-! ### Entries -/

theorem run_inSequence {ids : List NodeId} (hn : e.tree.nodes[i]? = some n)
    (hs : Serial n.construct ids) (hc : c ∈ n.construct.present) :
    (e.inSequence i c).run f = .ok (times trail i (.entered c)) := by
  obtain ⟨m, hm, hp, -⟩ := he.linked.child_of_present hn hc
  have hk := he.linked.present_of_child hm hp hn
  rw [inSequence]
  rcases he.linked.previousSibling_cases hm hp hn with ⟨h0, hb⟩ | ⟨k, b, hx, hb, hp⟩
  · rw [hs.present, h0] at hk
    rw [serial_first he.linked he.runs hn hs hk]
    simp [run_bind, hb, Except.bind, entry_self hf hn]
  · have hcom := he.completion_child hf hn b (List.mem_of_getElem? hb)
    rw [hs.present] at hb hk
    rw [hx] at hk
    rw [serial_next he.linked he.runs hn hs hb hk]
    simp [run_bind, hp, Except.bind, hcom]

theorem conditional_childEntry {style : Style} {x a b : NodeId} (hn : e.tree.nodes[i]? = some n)
    (hcon : n.construct = .conditional style (some x) (some a) (some b))
    (hc : c ∈ n.construct.present) :
    (e.childEntry i n c).run f = .ok (times trail i (.entered c)) := by
  obtain ⟨hxa, hxb, hab⟩ := conditional_nodup hcon (present_nodup he.linked hn)
  have hx := he.completion_child hf hn x (by simp [hcon, Construct.present])
  have hm : e.reading n .truthy = _ := he.reading_marker hn (by rw [hcon]; rfl)
  rw [hcon] at hc
  simp only [Construct.present, Option.toList_some, List.cons_append, List.nil_append,
    List.mem_cons, List.not_mem_nil, or_false] at hc
  rcases hc with rfl | rfl | rfl
  · rw [conditional_condition he.linked he.runs hn hcon]
    simp [childEntry, hcon, entry_self hf hn]
  · rw [conditional_whenTrue he.linked he.runs hn hcon]
    simp [childEntry, hcon, hxa.symm, hm]
  · have hsub := conditional_chosen he.linked he.runs hn hcon
    rw [conditional_whenTrue he.linked he.runs hn hcon] at hsub
    simp [childEntry, hcon, hxb.symm, hab.symm, run_bind, Except.bind, Except.map, hx, hm,
      he.sub_eq hsub]

theorem shortCircuit_childEntry {op : Connective} {l r : NodeId} (hn : e.tree.nodes[i]? = some n)
    (hcon : n.construct = .shortCircuit op (some l) (some r)) (hc : c ∈ n.construct.present) :
    (e.childEntry i n c).run f = .ok (times trail i (.entered c)) := by
  have hlr := shortCircuit_nodup hcon (present_nodup he.linked hn)
  have hm : e.reading n .conditional = _ := he.reading_marker hn (by rw [hcon]; rfl)
  rw [hcon] at hc
  simp only [Construct.present, Option.toList_some, List.cons_append, List.nil_append,
    List.mem_cons, List.not_mem_nil, or_false] at hc
  rcases hc with rfl | rfl
  · rw [shortCircuit_first he.linked he.runs hn hcon]
    simp [childEntry, hcon, hlr, entry_self hf hn]
  · rw [shortCircuit_right he.linked he.runs hn hcon]
    simp [childEntry, hcon, hm]

theorem safeNavigation_childEntry {r : NodeId} {ids : List NodeId} (hn : e.tree.nodes[i]? = some n)
    (hcon : n.construct = .safeNavigation (some r) ids) (hc : c ∈ n.construct.present) :
    (e.childEntry i n c).run f = .ok (times trail i (.entered c)) := by
  have hd := safeNavigation_nodup hcon (present_nodup he.linked hn)
  have hm : e.reading n .nonNil = _ := he.reading_marker hn (by rw [hcon]; rfl)
  obtain ⟨m, hcm, hp, -⟩ := he.linked.child_of_present hn hc
  have hk := he.linked.present_of_child hcm hp hn
  by_cases hcr : c = r
  · subst hcr
    rw [safeNavigation_receiver he.linked he.runs hn hcon]
    simp [childEntry, hcon, entry_self hf hn]
  rcases he.linked.previousSibling_cases hcm hp hn with ⟨h0, hb⟩ | ⟨k, b, hx, hb, hs⟩
  · rw [hcon, h0] at hk
    simp [Construct.present] at hk
    exact absurd hk.symm hcr
  · have hcom := he.completion_child hf hn b (List.mem_of_getElem? hb)
    rw [hcon] at hb hk
    rw [hx] at hk
    simp only [Construct.present, Option.toList_some, List.cons_append, List.nil_append,
      List.getElem?_cons_succ] at hb hk
    cases k with
    | zero =>
      cases hb
      rw [safeNavigation_first he.linked he.runs hn hcon hk]
      simp [childEntry, hcon, hcr, run_bind, Except.bind, hs, hm]
    | succ k =>
      have hbr : b ≠ r := fun h => hd.1 (h ▸ List.mem_of_getElem? hb)
      rw [safeNavigation_next he.linked he.runs hn hcon hb hk]
      simp [childEntry, hcon, hcr, run_bind, Except.bind, hs, hbr, hcom]

theorem loop_childEntry {polarity : Polarity} {test : LoopTest} {x b : NodeId}
    (hn : e.tree.nodes[i]? = some n) (hcon : n.construct = .loop polarity test (some x) (some b))
    (hc : c ∈ n.construct.present) :
    (e.childEntry i n c).run f = .ok (times trail i (.entered c)) := by
  have hxb := loop_nodup hcon (present_nodup he.linked hn)
  have hb := he.completion_child hf hn b (by simp [hcon, Construct.present])
  have hm : e.reading n .body = _ := he.reading_marker hn (by rw [hcon]; rfl)
  rw [hcon] at hc
  simp only [Construct.present, Option.toList_some, List.cons_append, List.nil_append,
    List.mem_cons, List.not_mem_nil, or_false] at hc
  rcases hc with rfl | rfl
  · have hcond := loop_condition he.linked he.runs hn hcon
    cases test with
    | before =>
      rw [if_pos rfl] at hcond
      simp [childEntry, hcon, hxb, run_bind, Except.bind, Except.map, entry_self hf hn, hb,
        he.add_eq hcond]
    | after =>
      rw [hcond, if_neg (by simp), Nat.zero_add]
      simp [childEntry, hcon, hxb, run_bind, Except.bind, hb]
  · rw [loop_body he.linked he.runs hn hcon]
    simp [childEntry, hcon, hm]

theorem rescue_childEntry {w : NodeId} {ids : List NodeId} {otherwise : Slot}
    (hn : e.tree.nodes[i]? = some n) (hcon : n.construct = .rescue (some w) ids otherwise)
    (hc : c ∈ n.construct.present) :
    (e.childEntry i n c).run f = .ok (times trail i (.entered c)) := by
  obtain ⟨hw, -, hwo, ho⟩ := rescue_nodup hcon (present_nodup he.linked hn)
  have hcm := hc
  rw [hcon] at hc
  simp only [Construct.present, Option.toList_some, List.cons_append, List.nil_append,
    List.mem_cons, List.mem_append, Option.mem_toList] at hc
  rcases hc with rfl | hc | hc
  · rw [rescue_watched he.linked he.runs hn hcon]
    simp [childEntry, hcon, entry_self hf hn]
  · have hcw := hw c hc
    obtain ⟨m, hm, hb, -⟩ := he.times_child hn hcm
    obtain ⟨m', hm', hk⟩ := he.linked.handler_kind hn hcon hc
    rw [hm] at hm'
    cases hm'
    have hh : f (.handlerEntry c) = .ok (times trail c .begun) := hf (by simp [observed, hm, hk])
    rw [← hb]
    simp [childEntry, hcon, hcw, (ho c hc).symm, hh]
  · subst hc
    have hcw := hwo c rfl
    obtain ⟨m, hm, -, hl⟩ := he.times_child hn (c := w) (by simp [hcon, Construct.present])
    have hx : f (.execution i) = .ok (times trail w (.left .completed)) :=
      hf (by simp [observed, hn, hcon, execution])
    rw [rescue_otherwise he.linked he.runs hn hcon rfl, hl]
    simp [childEntry, hcon, hcw, hx]

theorem handler_childEntry {exceptions body : Slot} (hn : e.tree.nodes[i]? = some n)
    (hcon : n.construct = .handler exceptions none body) (hc : c ∈ n.construct.present) :
    (e.childEntry i n c).run f = .ok (times trail i (.entered c)) := by
  have hd := present_nodup he.linked hn
  have hm : e.reading n .enteredBody = _ := he.reading_marker hn (by rw [hcon]; rfl)
  rw [hcon] at hc hd
  simp only [Construct.present, Option.toList_none, List.append_nil, List.mem_append,
    Option.mem_toList] at hc
  rcases hc with hc | hc
  · rw [handler_exceptions he.linked he.runs hn hcon hc]
    simp [childEntry, hcon, hc, entry_self hf hn]
  · have hx : some c ≠ exceptions := by
      rintro rfl
      subst hc
      simp [Construct.present] at hd
    rw [handler_body he.linked he.runs hn hcon hc]
    simp [childEntry, hcon, hx, hm]

/-- The rule for a child gives how often its parent enters it. -/
theorem run_childEntry (hn : e.tree.nodes[i]? = some n) (hc : c ∈ n.construct.present) :
    (e.childEntry i n c).run f = .ok (times trail i (.entered c)) := by
  have hcp := he.instrumented.complete hn
  generalize hcon : n.construct = construct at hcp
  cases hcp with
  | @expression type ids =>
    have hs : Serial n.construct ids := by rw [hcon]; exact .expression
    rw [childEntry, hcon]
    exact he.run_inSequence hf hn hs hc
  | @sequence explicit ids =>
    have hs : Serial n.construct ids := by rw [hcon]; exact .sequence
    rw [childEntry, hcon]
    exact he.run_inSequence hf hn hs hc
  | emptyBody => simp [hcon, Construct.present] at hc
  | conditional => exact he.conditional_childEntry hf hn hcon hc
  | shortCircuit => exact he.shortCircuit_childEntry hf hn hcon hc
  | safeNavigation => exact he.safeNavigation_childEntry hf hn hcon hc
  | loop => exact he.loop_childEntry hf hn hcon hc
  | rescue => exact he.rescue_childEntry hf hn hcon hc
  | handler => exact he.handler_childEntry hf hn hcon hc

theorem run_entry (hn : e.tree.nodes[i]? = some n) :
    (e.entryRule i).run f = .ok (times trail i .begun) := by
  refine run_entryRule.mpr ⟨n, hn, ?_, by omega⟩
  unfold entrance
  cases hp : n.parent with
  | none =>
    cases (he.linked.root hn).mp hp
    simp [he.reading_eq hn (he.instrumented.entry hn), he.runs.times_entry hn]
  | some p =>
    obtain ⟨-, m, hm, hk⟩ := he.linked.child_of_parent hn hp
    have hc := List.mem_of_getElem? (he.linked.present_of_child hn hp hm)
    obtain ⟨n', hn', hb, -⟩ := he.times_child hm hc
    simp [run_bind, Tree.node_eq_ok.mpr hm, Except.bind, he.run_childEntry hf hm hc, hb]

/-! ### Executions -/

omit he in
theorem execution_self (hn : e.tree.nodes[i]? = some n) {event : Event}
    (hx : execution i n.construct = (i, event)) :
    f (.execution i) = .ok (times trail i event) :=
  hf (by simp [observed, hn, hx])

omit he in
theorem bypass_self (hn : e.tree.nodes[i]? = some n) {event : Event}
    (hb : bypass i n.construct = some (i, event)) :
    f (.implicitBranch i) = .ok (times trail i event) :=
  hf (by simp [observed, hn, hb])

omit hf in
theorem completed_le_begun (i : NodeId) :
    times trail i (.left .completed) ≤ times trail i .begun := by
  have := he.runs.times_left i
  omega

theorem run_execution (hn : e.tree.nodes[i]? = some n) :
    (e.executionRule i).run f = .ok (times trail (execution i n.construct).1
      (execution i n.construct).2) := by
  have hself := entry_self hf hn
  have hcp := he.instrumented.complete hn
  generalize hcon : n.construct = construct at hcp
  cases hcp with
  | @rescue w ids otherwise =>
    obtain ⟨m, hm, hb, -⟩ := he.times_child hn (c := w) (by simp [hcon, Construct.present])
    have hw : f (.completion w) = .ok (times trail w (.left .completed)) :=
      hf (by simp [observed, hm])
    have hle := he.completed_le_begun w
    rw [hb, rescue_watched he.linked he.runs hn hcon] at hle
    refine run_executionRule.mpr ⟨n, hn, ?_, by omega, fun _ => ⟨_, hself, ?_⟩⟩
    · simp [arrival, hcon, execution, hw]
    · simpa [execution] using hle
  | @handler exceptions body =>
    have hm : e.reading n .enteredBody = _ := he.reading_marker hn (by rw [hcon]; rfl)
    refine run_executionRule.mpr ⟨n, hn, ?_, by omega, fun hk => ?_⟩
    · simp [arrival, hcon, execution, hm]
    · simp [Node.kind, hcon, Construct.kind] at hk
  | _ =>
    refine run_executionRule.mpr ⟨n, hn, ?_, by omega, fun _ => ⟨_, hself, ?_⟩⟩
    · simp [arrival, hcon, execution, hself]
    · simp [execution]

/-! ### Completions -/

omit he hf in
theorem run_lastCompletion {ids : List NodeId}
    (h : ∀ b ∈ ids, f (.completion b) = .ok (times trail i (.resumed [b] .completed)))
    (event : Event) : (lastCompletion ids (times trail i event)).run f =
      .ok (times trail i (ids.getLast?.elim event (.resumed [·] .completed))) := by
  unfold lastCompletion
  cases hl : ids.getLast? with
  | none => rfl
  | some b => simp [h b (List.mem_of_getLast? hl)]

omit hf in
/-- The completions of some children are added to those of the others. -/
theorem run_addCompletions (hn : e.tree.nodes[i]? = some n) {ids : List NodeId} (hd : ids.Nodup)
    (h : ∀ b ∈ ids, f (.completion b) = .ok (times trail i (.resumed [b] .completed)))
    {a : Nat} (ha : times trail i event = a + times trail i (.resumed ids .completed)) :
    (e.addCompletions a ids).run f = .ok (times trail i event) := by
  induction ids generalizing a with
  | nil =>
    have h0 : times trail i (.resumed [] .completed) = 0 :=
      he.runs.times_eq_zero hn fun _ => by simp [Transition.shows]
    rw [h0] at ha
    rw [ha]
    rfl
  | cons b ids ih =>
    obtain ⟨hb, hd⟩ := List.nodup_cons.mp hd
    have hl : times trail i event ≤ trail.length := times_le_length
    rw [resumed_cons he.runs hn hb] at ha
    rw [addCompletions, run_bind, run_count, h b List.mem_cons_self]
    simp only [Except.bind]
    rw [he.add_of_le (by omega)]
    exact ih hd (fun x hx => h x (List.mem_cons_of_mem b hx)) (by omega)

theorem expression_fallThrough {type : String} {ids : List NodeId}
    (hn : e.tree.nodes[i]? = some n) (hcon : n.construct = .expression type ids) :
    (e.fallThrough i n).run f = .ok (times trail i (.left .completed)) := by
  have hs : Serial n.construct ids := by rw [hcon]; exact .expression
  cases htr : n.tracker? .completion with
  | some k =>
    have hm : e.reading n .completion = _ := he.reading_eq hn (by simp [htr])
    rw [expression_left he.runs hn hcon]
    simp [fallThrough, hcon, htr, hm]
  | none =>
    have hx : f (.execution i) = .ok (times trail i .begun) :=
      execution_self hf hn (by rw [hcon]; rfl)
    have hids : ∀ b ∈ ids, f (.completion b) = _ := fun b hb =>
      he.completion_child hf hn b (by rwa [hs.present])
    have hlast := run_lastCompletion hids .begun
    rw [serial_left he.linked he.runs hn hs fun _ => htr]
    simp [fallThrough, hcon, htr, run_bind, Except.bind, hx]
    exact hlast

theorem sequence_fallThrough {explicit : Bool} {ids : List NodeId}
    (hn : e.tree.nodes[i]? = some n) (hcon : n.construct = .sequence explicit ids) :
    (e.fallThrough i n).run f = .ok (times trail i (.left .completed)) := by
  have hs : Serial n.construct ids := by rw [hcon]; exact .sequence
  have hids : ∀ b ∈ ids, f (.completion b) = _ := fun b hb =>
    he.completion_child hf hn b (by rwa [hs.present])
  have hlast := run_lastCompletion hids .begun
  rw [serial_left he.linked he.runs hn hs (by simp [Node.kind, hcon, Construct.kind])]
  simp [fallThrough, hcon, run_bind, Except.bind, entry_self hf hn]
  exact hlast

theorem conditional_fallThrough {style : Style} {x a b : NodeId} (hn : e.tree.nodes[i]? = some n)
    (hcon : n.construct = .conditional style (some x) (some a) (some b)) :
    (e.fallThrough i n).run f = .ok (times trail i (.left .completed)) := by
  have ha := he.completion_child hf hn a (by simp [hcon, Construct.present])
  have hb := he.completion_child hf hn b (by simp [hcon, Construct.present])
  have hadd := he.add_eq (conditional_left he.linked he.runs hn hcon)
  simp [fallThrough, hcon, run_bind, Except.bind, Except.map, ha, hb, hadd]

theorem shortCircuit_fallThrough {op : Connective} {l r : NodeId} (hn : e.tree.nodes[i]? = some n)
    (hcon : n.construct = .shortCircuit op (some l) (some r)) :
    (e.fallThrough i n).run f = .ok (times trail i (.left .completed)) := by
  have hright := he.completion_child hf hn r (by simp [hcon, Construct.present])
  have himp := bypass_self hf hn (by rw [hcon]; rfl)
  have hadd := he.add_eq (shortCircuit_left he.linked he.runs hn hcon)
  simp [fallThrough, hcon, run_bind, Except.bind, Except.map, hright, himp, hadd]

theorem safeNavigation_fallThrough {r : NodeId} {ids : List NodeId}
    (hn : e.tree.nodes[i]? = some n) (hcon : n.construct = .safeNavigation (some r) ids) :
    (e.fallThrough i n).run f = .ok (times trail i (.left .completed)) := by
  have himp := bypass_self hf hn (by rw [hcon]; rfl)
  have hadd := he.add_eq (safeNavigation_left he.runs hn hcon)
  cases htr : n.tracker? .completion with
  | some k =>
    have hm : e.reading n .completion = _ := he.reading_eq hn (by simp [htr])
    simp [fallThrough, hcon, htr, Except.map, himp, hm, hadd]
  | none =>
    have hm : e.reading n .nonNil = _ := he.reading_marker hn (by rw [hcon]; rfl)
    have hids : ∀ b ∈ ids, f (.completion b) = _ := fun b hb =>
      he.completion_child hf hn b (by simp [hcon, Construct.present, hb])
    have hlast := run_lastCompletion hids (.fired .nonNil)
    rw [← safeNavigation_called he.linked he.runs hn hcon htr] at hlast
    simp [fallThrough, hcon, htr, run_bind, Except.bind, Except.map, himp, hm, hlast, hadd]

theorem rescue_fallThrough {w : NodeId} {ids : List NodeId} {otherwise : Slot}
    (hn : e.tree.nodes[i]? = some n) (hcon : n.construct = .rescue (some w) ids otherwise) :
    (e.fallThrough i n).run f = .ok (times trail i (.left .completed)) := by
  have hd := rescue_nodup hcon (present_nodup he.linked hn)
  have hids : ∀ b ∈ ids, f (.completion b) = _ := fun b hb =>
    he.completion_child hf hn b (by simp [hcon, Construct.present, hb])
  have hunharmed := he.completion_child hf hn (otherwise.getD w)
    (by cases otherwise <;> simp [hcon, Construct.present])
  have hadd := he.run_addCompletions hn hd.2.1 hids (rescue_left he.linked he.runs hn hcon)
  simp [fallThrough, hcon, run_bind, Except.bind, hunharmed, hadd]

theorem handler_fallThrough {exceptions body : Slot} (hn : e.tree.nodes[i]? = some n)
    (hcon : n.construct = .handler exceptions none body) :
    (e.fallThrough i n).run f = .ok (times trail i (.left .completed)) := by
  rw [handler_left he.linked he.runs hn hcon]
  cases body with
  | some b =>
    have hb := he.completion_child hf hn b (by simp [hcon, Construct.present])
    simp [fallThrough, hcon, hb]
  | none =>
    have hx := execution_self hf hn (by rw [hcon]; rfl)
    simp [fallThrough, hcon, hx]

/-- The rule for what falls through a node gives how often it completes. -/
theorem run_fallThrough (hn : e.tree.nodes[i]? = some n) :
    (e.fallThrough i n).run f = .ok (times trail i (.left .completed)) := by
  have hcp := he.instrumented.complete hn
  generalize hcon : n.construct = construct at hcp
  cases hcp with
  | expression => exact he.expression_fallThrough hf hn hcon
  | sequence => exact he.sequence_fallThrough hf hn hcon
  | emptyBody =>
    rw [emptyBody_left he.runs hn hcon]
    simp [fallThrough, hcon, entry_self hf hn]
  | conditional => exact he.conditional_fallThrough hf hn hcon
  | shortCircuit => exact he.shortCircuit_fallThrough hf hn hcon
  | safeNavigation => exact he.safeNavigation_fallThrough hf hn hcon
  | loop =>
    have himp := bypass_self hf hn (by rw [hcon]; rfl)
    simp [fallThrough, hcon, himp]
  | rescue => exact he.rescue_fallThrough hf hn hcon
  | handler => exact he.handler_fallThrough hf hn hcon

omit hf in
/-- A handler arm completes at most as often as its body is entered. -/
theorem handler_completed_le {exceptions body : Slot} (hn : e.tree.nodes[i]? = some n)
    (hcon : n.construct = .handler exceptions none body) :
    times trail i (.left .completed) ≤ times trail i (.fired .enteredBody) := by
  rw [handler_left he.linked he.runs hn hcon]
  cases body with
  | some b =>
    obtain ⟨m, hm, hb, hl⟩ := he.times_child hn (c := b) (by simp [hcon, Construct.present])
    rw [← handler_body he.linked he.runs hn hcon rfl, ← hb, Option.elim_some, hl]
    exact he.completed_le_begun b
  | none => exact Nat.le_refl _

theorem run_completion (hn : e.tree.nodes[i]? = some n) :
    (e.completionRule i).run f = .ok (times trail i (.left .completed)) := by
  have hfall := he.run_fallThrough hf hn
  have hcp := he.instrumented.complete hn
  generalize hcon : n.construct = construct at hcp
  cases hcp with
  | handler =>
    have hx := execution_self hf hn (by rw [hcon]; rfl)
    have hle := he.handler_completed_le hn hcon
    refine run_completionRule.mpr ⟨n, _, hn, hfall, ?_, by omega, Int.ofNat_le.mpr hle⟩
    rw [completionBound, if_pos (by rw [Node.kind, hcon]; rfl), hx]
  | _ =>
    have hle := he.completed_le_begun i
    refine run_completionRule.mpr ⟨n, _, hn, hfall, ?_, by omega, Int.ofNat_le.mpr hle⟩
    rw [completionBound, if_neg (by simp [Node.kind, hcon, Construct.kind])]
    exact entry_self hf hn

/-! ### Handler arms -/

omit he hf in
theorem run_nonNegative_natCast (quantity : Quantity) (node : Label) (m : Nat) :
    (nonNegative quantity node m).run f = .ok m :=
  run_nonNegative.mpr ⟨rfl, by omega⟩

omit hf in
/-- A handler arm follows the protected body or another arm. -/
theorem handler_place (hn : e.tree.nodes[i]? = some n) (hk : n.kind = .handler) :
    ∃ (p w : NodeId) (m : Node) (ids : List NodeId) (otherwise : Slot),
      n.parent = some p ∧ e.tree.nodes[p]? = some m ∧
      m.construct = .rescue (some w) ids otherwise ∧
      times trail i .begun = times trail p (.entered i) ∧
      (ids[0]? = some i ∧ e.tree.previousSibling i = .ok (some w) ∨
        ∃ (k : Nat) (b : NodeId), ids[k]? = some b ∧ ids[k + 1]? = some i ∧
          e.tree.previousSibling i = .ok (some b)) := by
  obtain ⟨p, m, watched, otherwise, ids, hp, hm, hcon, hmem⟩ := he.instrumented.handler hn hk
  have hcp := he.instrumented.complete hm
  rw [hcon] at hcp
  cases hcp with
  | @rescue w =>
  obtain ⟨k, hk⟩ := List.mem_iff_getElem?.mp hmem
  have hlt := (List.getElem?_eq_some_iff.mp hk).1
  have hpresent : ∀ l ≤ k, m.construct.present[l + 1]? = ids[l]? := by
    intro l hl
    simp only [hcon, Construct.present, Option.toList_some, List.cons_append, List.nil_append,
      List.getElem?_cons_succ]
    exact List.getElem?_append_left (by omega)
  have hi := (hpresent k (Nat.le_refl k)).trans hk
  obtain ⟨n', hn', hb, -⟩ := he.times_child hm (List.mem_of_getElem? hi)
  refine ⟨p, w, m, ids, otherwise, hp, hm, hcon, hb, ?_⟩
  have hx := he.linked.index_eq hm hi hn
  rcases he.linked.previousSibling_cases hn hp hm with ⟨h0, -⟩ | ⟨l, b, hl, hprev, hs⟩
  · omega
  obtain rfl : l = k := by omega
  cases l with
  | zero =>
    obtain rfl : w = b := by simpa [hcon, Construct.present] using hprev
    exact .inl ⟨hk, hs⟩
  | succ l => exact .inr ⟨l, b, (hpresent l (by omega)).symm.trans hprev, hk, hs⟩

/-- What reaches a handler arm is what its left neighbour lets through. -/
theorem run_handlerEntry (hn : e.tree.nodes[i]? = some n) (hk : n.kind = .handler) :
    (e.handlerEntryRule i).run f = .ok (times trail i .begun) := by
  have ht := he.linked
  have hr := he.runs
  obtain ⟨p, w, m, ids, otherwise, hp, hm, hcon, hb, hplace⟩ := he.handler_place hn hk
  rw [hb]
  rcases hplace with ⟨h0, hs⟩ | ⟨k, b, hkb, hki, hs⟩
  · have hw : w ∈ m.construct.present := by simp [hcon, Construct.present]
    obtain ⟨m', -, hbw, hlw⟩ := he.times_child hm hw
    have hent := he.entry_child hf hm w hw
    have hcom := he.completion_child hf hm w hw
    have hleft := he.runs.times_left w
    rw [← hlw, ← hlw, ← hlw, hbw, rescue_declined ht hr hm hcon,
      ← rescue_first ht hr hm hcon h0] at hleft
    have hsub := he.sub_eq hleft.symm
    simp [handlerEntryRule, run_bind, Except.bind, Tree.node_eq_ok.mpr hn, hp,
      Tree.node_eq_ok.mpr hm, hcon, hs, hent, hcom, hsub, run_nonNegative_natCast]
  · have hbm := List.mem_of_getElem? hkb
    have hbw := (rescue_nodup hcon (present_nodup ht hm)).1 b hbm
    obtain ⟨nb, hnb, hkind⟩ := ht.handler_kind hm hcon hbm
    obtain ⟨nb', hnb', -, hlb⟩ := he.times_child hm (c := b) (by simp [hcon, Construct.present, hbm])
    have hcp := he.instrumented.complete hnb
    generalize hconb : nb.construct = construct at hcp
    cases hcp with
    | @handler exceptions body =>
      have hsplit := handler_offered ht hr hnb hconb
      rw [← hlb, ← rescue_next ht hr hm hcon hkb hki] at hsplit
      have hsub := he.sub_eq hsplit
      have hx := execution_self hf hnb (by rw [hconb]; rfl)
      cases exceptions with
      | some x =>
        have hxc := he.completion_child hf hnb x (by simp [hconb, Construct.present])
        rw [Option.elim_some] at hsub
        simp [handlerEntryRule, run_bind, Except.bind, Tree.node_eq_ok.mpr hn, hp,
          Tree.node_eq_ok.mpr hm, hcon, hs, hbw, Tree.node_eq_ok.mpr hnb, hconb, hxc, hx, hsub,
          run_nonNegative_natCast]
      | none =>
        have hent := entry_self hf hnb
        rw [Option.elim_none] at hsub
        simp [handlerEntryRule, run_bind, Except.bind, Tree.node_eq_ok.mpr hn, hp,
          Tree.node_eq_ok.mpr hm, hcon, hs, hbw, Tree.node_eq_ok.mpr hnb, hconb, hent, hx, hsub,
          run_nonNegative_natCast]
    | _ => simp [Node.kind, hconb, Construct.kind] at hkind

/-! ### Branches without a node -/

omit he hf in
theorem bypass_node {construct : Construct} {j : NodeId}
    (h : bypass i construct = some (j, event)) : j = i := by
  unfold bypass at h
  split at h <;> cases h <;> rfl

omit hf in
/-- The right operand of a short-circuit executes as soon as it is entered. -/
theorem right_execution {op : Connective} {l : Slot} {r : NodeId} {m : Node}
    (hn : e.tree.nodes[i]? = some n) (hcon : n.construct = .shortCircuit op l (some r))
    (hm : e.tree.nodes[r]? = some m) : execution r m.construct = (r, .begun) := by
  have hrescue := he.instrumented.right hn hcon hm
  have hhandler : m.kind ≠ .handler := by
    intro hk
    obtain ⟨p, m', watched, otherwise, handlers, hp, hm', hcon', -⟩ := he.instrumented.handler hm hk
    have hpr := he.linked.parent_eq hn (by simp [hcon, Construct.present]) hm
    rw [hp] at hpr
    cases hpr
    rw [hn] at hm'
    cases hm'
    rw [hcon] at hcon'
    cases hcon'
  unfold Node.kind at hrescue hhandler
  cases hx : m.construct <;> simp_all [execution, Construct.kind]

theorem shortCircuit_implicitBranch {op : Connective} {l r : NodeId}
    (hn : e.tree.nodes[i]? = some n) (hcon : n.construct = .shortCircuit op (some l) (some r)) :
    (e.implicitBranchRule i).run f =
      .ok (times trail i (.went (.after l .completed) (.leave .completed))) := by
  have hl := he.completion_child hf hn l (by simp [hcon, Construct.present])
  obtain ⟨m, hm, hbr, -⟩ := he.times_child hn (c := r) (by simp [hcon, Construct.present])
  have hx := execution_self hf hm (he.right_execution hn hcon hm)
  rw [hbr] at hx
  have hsub := he.sub_eq (shortCircuit_resumed he.linked he.runs hn hcon)
  simp [implicitBranchRule, run_bind, Except.bind, Tree.node_eq_ok.mpr hn, hcon, hl, hx, hsub,
    run_nonNegative_natCast]

theorem safeNavigation_implicitBranch {r : NodeId} {ids : List NodeId}
    (hn : e.tree.nodes[i]? = some n) (hcon : n.construct = .safeNavigation (some r) ids) :
    (e.implicitBranchRule i).run f = .ok (times trail i (.fired .nilReceiver)) := by
  cases htr : n.tracker? .nilReceiver with
  | some k =>
    have hm : e.reading n .nilReceiver = _ := he.reading_eq hn (by simp [htr])
    simp [implicitBranchRule, run_bind, Except.bind, Tree.node_eq_ok.mpr hn, hcon, htr, hm]
  | none =>
    have hl := he.completion_child hf hn r (by simp [hcon, Construct.present])
    have hm : e.reading n .nonNil = _ := he.reading_marker hn (by rw [hcon]; rfl)
    have hsplit := safeNavigation_resumed he.runs hn hcon
    rw [Nat.add_comm] at hsplit
    have hsub := he.sub_eq hsplit
    simp [implicitBranchRule, run_bind, Except.bind, Tree.node_eq_ok.mpr hn, hcon, htr, hl, hm,
      hsub, run_nonNegative_natCast]

theorem loop_implicitBranch {polarity : Polarity} {test : LoopTest} {x b : NodeId}
    (hn : e.tree.nodes[i]? = some n) (hcon : n.construct = .loop polarity test (some x) (some b)) :
    (e.implicitBranchRule i).run f = .ok (times trail i (.left .completed)) := by
  have hx := he.completion_child hf hn x (by simp [hcon, Construct.present])
  have hb := he.entry_child hf hn b (by simp [hcon, Construct.present])
  have hrep := loop_repeated he.linked he.runs hn hcon
  have hsub := he.sub_eq (loop_resumed he.linked he.runs hn hcon)
  cases test with
  | before =>
    rw [if_neg (by simp), Nat.zero_add] at hrep
    rw [← hrep] at hsub
    simp [implicitBranchRule, run_bind, Except.bind, Tree.node_eq_ok.mpr hn, hcon, hx, hb, hsub,
      run_nonNegative_natCast]
  | after =>
    rw [if_pos rfl] at hrep
    have hrep := he.sub_eq hrep
    simp [implicitBranchRule, run_bind, Except.bind, Tree.node_eq_ok.mpr hn, hcon, hx,
      hb, entry_self hf hn, hrep, hsub, run_nonNegative_natCast]

/-- The rule for the branch without a node gives how often a node takes it. -/
theorem run_implicitBranch (hn : e.tree.nodes[i]? = some n)
    (hb : bypass i n.construct = some (i, event)) :
    (e.implicitBranchRule i).run f = .ok (times trail i event) := by
  have hcp := he.instrumented.complete hn
  generalize hcon : n.construct = construct at hcp hb
  cases hcp with
  | shortCircuit =>
    cases hb
    exact he.shortCircuit_implicitBranch hf hn hcon
  | safeNavigation =>
    cases hb
    exact he.safeNavigation_implicitBranch hf hn hcon
  | loop =>
    cases hb
    exact he.loop_implicitBranch hf hn hcon
  | _ => cases hb

/-! ### Every rule -/

theorem run_rule {q : Query} (hq : observed e.tree q = some (i, event)) :
    (e.rule q).run f = .ok (times trail i event) := by
  cases q with
  | entry id =>
    obtain ⟨n, hn, hx⟩ := Option.map_eq_some_iff.mp hq
    cases hx
    exact he.run_entry hf hn
  | execution id =>
    obtain ⟨n, hn, hx⟩ := Option.map_eq_some_iff.mp hq
    rw [Flow.Evidence.rule, he.run_execution hf hn, hx]
  | completion id =>
    obtain ⟨n, hn, hx⟩ := Option.map_eq_some_iff.mp hq
    cases hx
    exact he.run_completion hf hn
  | handlerEntry arm =>
    obtain ⟨n, hn, hx⟩ := Option.bind_eq_some_iff.mp hq
    by_cases hk : n.kind = .handler
    · rw [if_pos hk] at hx
      cases hx
      exact he.run_handlerEntry hf hn hk
    · rw [if_neg hk] at hx
      cases hx
  | implicitBranch id =>
    obtain ⟨n, hn, hx⟩ := Option.bind_eq_some_iff.mp hq
    cases bypass_node hx
    exact he.run_implicitBranch hf hn hx

end LeftBy

end BranchTally.Control
