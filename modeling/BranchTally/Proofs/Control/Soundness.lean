import BranchTally.Proofs.Control.Rules
import BranchTally.Proofs.Flow.Recall
import Mathlib.Tactic.IntervalCases

/-! The counts derived from the trackers of a run are those of the run. Since every rule gives what
the trail shows if the counts before it do, all counts are what the trail shows, by induction along
the order of derivation. -/

namespace BranchTally.Control

open BranchTally.Flow Flow.Derivation Flow.Evidence

variable {e : Evidence} {trail : List Transition} {i : NodeId} {event : Event}

/-- What the trail shows of a count, or else the count. -/
def shown (e : Evidence) (trail : List Transition) (q : Query) : Except Fault Int :=
  match observed e.tree q with
  | some (i, event) => .ok (times trail i event)
  | none => e.answer q

theorem answers_shown (e : Evidence) (trail : List Transition) :
    Answers e.tree trail (shown e trail) := by
  intro q i event hq
  rw [shown, hq]

theorem LeftBy.answer_eq_shown (he : LeftBy e trail) (q : Query) :
    e.answer q = shown e trail q := by
  refine Tree.count_induction (t := e.tree) (P := fun q => e.answer q = shown e trail q) ?_ q
  intro q ih
  cases hq : observed e.tree q with
  | none => rw [shown, hq]
  | some ie =>
    rw [answers_shown e trail hq, answer_eq he.linked, (rule_asksOnly he.linked q).run_congr ih]
    exact he.run_rule (answers_shown e trail) hq

/-- On a loaded tree that tells which way control goes, every count is how often the runs show the
event that it stands for, whatever was asked before. -/
theorem lookup_eq_times {t : Tree} (ht : t.Loaded) (hi : Instrumented t) (hr : Runs t trail)
    {counters : Counters} (hc : Recorded t trail counters) {width : Width}
    (hw : width = .word → 2 * trail.length < Width.wordCount) (earlier : List Query) {q : Query}
    (hq : observed t q = some (i, event)) :
    Evidence.lookup ⟨t, counters, width⟩ earlier q = .ok (times trail i event) := by
  have he : LeftBy ⟨t, counters, width⟩ trail := ⟨ht.linked, hi, hr, hc, hw⟩
  rw [lookup_eq ht.linked, he.answer_eq_shown, answers_shown _ _ hq]

/-! ### A run -/

/-- The work raises once and is tried again no more. -/
def retryTrail : List Transition :=
  [⟨0, .start, [], .enter 1⟩, ⟨1, .start, [], .enter 2⟩,
    ⟨2, .start, [.completion], .leave .completed⟩, ⟨1, .after 2 .completed, [.body], .enter 3⟩,
    ⟨3, .start, [], .enter 4⟩, ⟨4, .start, [], .leave .raised⟩,
    ⟨3, .after 4 .raised, [], .enter 5⟩, ⟨5, .start, [], .enter 6⟩,
    ⟨6, .start, [.completion], .leave .completed⟩,
    ⟨5, .after 6 .completed, [.enteredBody], .enter 7⟩,
    ⟨7, .start, [.completion], .leave .completed⟩,
    ⟨5, .after 7 .completed, [], .leave .completed⟩,
    ⟨3, .after 5 .completed, [], .leave .completed⟩, ⟨1, .after 3 .completed, [], .enter 2⟩,
    ⟨2, .start, [.completion], .leave .completed⟩,
    ⟨1, .after 2 .completed, [], .leave .completed⟩,
    ⟨0, .after 1 .completed, [], .leave .completed⟩]

theorem retry_runs : Runs .retry retryTrail := by
  have ready := Evaluates.leave (t := .retry) (i := 2) ⟨_, rfl, .computed (.first rfl)⟩
  have work := Evaluates.leave (t := .retry) (i := 4) ⟨_, rfl, .failed rfl (.first rfl)⟩
  have busy := Evaluates.leave (t := .retry) (i := 6) ⟨_, rfl, .computed (.first rfl)⟩
  have pause := Evaluates.leave (t := .retry) (i := 7) ⟨_, rfl, .computed (.first rfl)⟩
  have arm := Evaluates.enter (t := .retry) (i := 5) ⟨_, rfl, .exceptions⟩ busy
    (.enter ⟨_, rfl, .accept⟩ pause (.leave ⟨_, rfl, .recovered⟩))
  have body := Evaluates.enter (t := .retry) (i := 3) ⟨_, rfl, .watch⟩ work
    (.enter ⟨_, rfl, .offer (.first rfl)⟩ arm (.leave ⟨_, rfl, .handled (by decide)⟩))
  have loop := Evaluates.enter (t := .retry) (i := 1) ⟨_, rfl, .firstTest⟩ ready
    (.enter ⟨_, rfl, .again⟩ body (.enter ⟨_, rfl, .passed⟩ ready (.leave ⟨_, rfl, .exit⟩)))
  have root := Evaluates.enter (t := .retry) (i := 0) ⟨_, rfl, .statement (.first rfl)⟩ loop
    (.leave ⟨_, rfl, .finished (.onward (k := 0) rfl rfl)⟩)
  exact .again root .never

theorem retry_instrumented : Instrumented .retry where
  complete {i n} hn := by
    have hi : i < 8 := Tree.size_of_node hn
    interval_cases i <;> cases hn <;> constructor
  handler {i n} hn hk := by
    have hi : i < 8 := Tree.size_of_node hn
    interval_cases i <;> cases hn <;> cases hk
    exact ⟨3, _, _, _, _, rfl, rfl, rfl, by decide⟩
  right {i r n} _ _ _ hn hc := by
    have hi : i < 8 := Tree.size_of_node hn
    interval_cases i <;> cases hn <;> cases hc
  entry hn := by
    cases hn
    rfl
  marked {i n role} hn hm := by
    have hi : i < 8 := Tree.size_of_node hn
    interval_cases i <;> cases hn <;> cases hm <;> rfl
  distinct {i j n m r s k} hn hk hm hl := by
    have hbound : ∀ i j : Fin 8, ∀ r ∈ Role.all, ∀ s ∈ Role.all,
        (Tree.retry.nodes[i].tracker? r).isSome →
        Tree.retry.nodes[i].tracker? r = Tree.retry.nodes[j].tracker? s → i = j ∧ r = s := by
      decide +kernel
    have hall : ∀ r, r ∈ Role.all := by
      intro r
      cases r <;> decide
    obtain ⟨hi, rfl⟩ := Array.getElem?_eq_some_iff.mp hn
    obtain ⟨hj, rfl⟩ := Array.getElem?_eq_some_iff.mp hm
    have h := hbound ⟨i, hi⟩ ⟨j, hj⟩ r (hall r) s (hall s) (Option.isSome_of_eq_some hk)
      (hk.trans hl.symm)
    exact ⟨congrArg Fin.val h.1, h.2⟩

/-- The handler arm is reached and absorbs the exception, and the loop is left by its test. -/
theorem lookup_eq_times_retry :
    let e : Evidence := ⟨.retry, record .retry retryTrail, .word⟩
    e.lookup [] (.entry 2) = .ok 2 ∧ e.lookup [.entry 9] (.completion 4) = .ok 0 ∧
      e.lookup [.completion 0] (.handlerEntry 5) = .ok 1 ∧ e.lookup [] (.completion 3) = .ok 1 ∧
      e.lookup [] (.implicitBranch 1) = .ok 1 := by
  have h : ∀ (earlier : List Query) {q : Query} {i : NodeId} {event : Event},
      observed .retry q = some (i, event) →
      Evidence.lookup ⟨.retry, record .retry retryTrail, .word⟩ earlier q =
        .ok (times retryTrail i event) := fun earlier _ _ _ =>
    lookup_eq_times Tree.retry_loaded retry_instrumented retry_runs (recorded_record _ _)
      (fun _ => by decide) earlier
  have hentry := h [] (q := .entry 2) rfl
  have hraised := h [.entry 9] (q := .completion 4) rfl
  have hreached := h [.completion 0] (q := .handlerEntry 5) rfl
  have hhandled := h [] (q := .completion 3) rfl
  have hleft := h [] (q := .implicitBranch 1) rfl
  exact ⟨hentry, hraised, hreached, hhandled, hleft⟩

end BranchTally.Control
