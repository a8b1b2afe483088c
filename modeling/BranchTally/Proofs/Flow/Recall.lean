import BranchTally.Proofs.Dump.Layout
import BranchTally.Proofs.Flow.Recursion

/-! Remembering changes no answer. A memory is sound if the plain recursion gives every count that
is kept; looking a count up in a sound memory gives what the plain recursion gives, value or fault,
and leaves the memory sound. Hence no history of earlier lookups, whether they ended in a value or
in a fault, shows in a later one. -/

namespace BranchTally.Flow

/-! ### Keeping and finding -/

namespace Memory

variable {m : Memory} {q r : Query} {n v : Int}

@[simp] theorem find?_blank (size : Nat) (q : Query) : (blank size).find? q = none := by
  cases q <;> simp [blank, find?, Array.getElem?_replicate] <;> split <;> rfl

theorem join_setIfInBounds_self {a : Array (Option Int)} {i : Nat}
    (h : (a.setIfInBounds i (some n))[i]?.join = some v) : v = n := by
  rw [Array.getElem?_setIfInBounds_self] at h
  split at h
  · exact (Option.some.inj h).symm
  · cases h

theorem eq_of_find?_keep (h : (m.keep q n).find? q = some v) : v = n := by
  cases q with
  | entry id | execution id | completion id => exact join_setIfInBounds_self h
  | handlerEntry arm | implicitBranch id => cases h

theorem find?_keep_of_ne (h : r ≠ q) : (m.keep q n).find? r = m.find? r := by
  cases q <;> cases r <;> simp only [find?, Memory.keep] <;>
    rw [Array.getElem?_setIfInBounds_ne fun hi => h (by rw [hi])]

/-- What is found after a count was kept is that count or was found before. -/
theorem find?_keep (h : (m.keep q n).find? r = some v) : r = q ∧ v = n ∨ m.find? r = some v := by
  by_cases hr : r = q
  · subst hr
    exact .inl ⟨rfl, eq_of_find?_keep h⟩
  · rw [find?_keep_of_ne hr] at h
    exact .inr h

/-- Everything that is kept is what the plain recursion gives. -/
def Sound (m : Memory) (e : Evidence) : Prop := ∀ q v, m.find? q = some v → e.answer q = .ok v

theorem Sound.blank (e : Evidence) (size : Nat) : (Memory.blank size).Sound e := by
  intro q v h
  simp at h

theorem Sound.keep {e : Evidence} (hm : m.Sound e) (hn : e.answer q = .ok n) :
    (m.keep q n).Sound e := by
  intro r v h
  rcases find?_keep h with ⟨rfl, rfl⟩ | h
  · exact hn
  · exact hm r v h

end Memory

namespace Evidence

open Flow.Derivation

variable {e : Evidence} {m : Memory} {q : Query}

/-! ### Looking counts up -/

/-- Within enough depth, a lookup in a sound memory answers as the plain recursion does. -/
theorem consult_eq (h : e.tree.Linked) {d : Nat} (hd : e.tree.rank q < d) (hm : m.Sound e) :
    (e.consult d q m).1 = e.answer q ∧ (e.consult d q m).2.Sound e := by
  induction d generalizing q m with
  | zero => omega
  | succ d ih =>
    unfold consult
    cases hf : m.find? q with
    | some v => exact ⟨(hm q v hf).symm, hm⟩
    | none =>
      have hrun := (rule_asksOnly h q).runState_eq_run (f := e.answer)
        (I := fun m : Memory => m.Sound e)
        (fun r m hr hm => ih (by have := hr.rank_lt; omega) hm) hm
      rw [← answer_eq h q] at hrun
      rcases hr : (e.rule q).runState (e.consult d) m with ⟨fault | v, m'⟩ <;> rw [hr] at hrun
      · exact hrun
      · exact ⟨hrun.1, hrun.2.keep hrun.1.symm⟩

/-- A derivation whose counts are looked up in a sound memory has the outcome that the plain
recursion gives it. -/
theorem resume_eq {α : Type} (h : e.tree.Linked) (d : Derivation α) (hm : m.Sound e) :
    (e.resume d m).1 = d.run e.answer ∧ (e.resume d m).2.Sound e := by
  have hall : d.AsksOnly fun _ => True := by
    induction d with
    | done a => trivial
    | fail fault => trivial
    | ask q next ih => exact ⟨trivial, ih⟩
  refine hall.runState_eq_run (I := fun m : Memory => m.Sound e) (fun q m _ hm => ?_) hm
  have := e.rank_lt_depth q
  exact consult_eq h (by omega) hm

/-! ### Sessions -/

/-- The outcomes of asking for counts one after the other, and the memory that remains. -/
def session (e : Evidence) : List Query → Memory → List (Except Fault Int) × Memory
  | [], m => ([], m)
  | q :: qs, m =>
    let first := e.resume (count q) m
    let others := e.session qs first.2
    (first.1 :: others.1, others.2)

theorem memory_sound (e : Evidence) : e.memory.Sound e := .blank e _

theorem session_sound (h : e.tree.Linked) (qs : List Query) (hm : m.Sound e) :
    (e.session qs m).1 = qs.map e.answer ∧ (e.session qs m).2.Sound e := by
  induction qs generalizing m with
  | nil => exact ⟨rfl, hm⟩
  | cons q qs ih =>
    obtain ⟨hq, hm⟩ := resume_eq h (count q) hm
    obtain ⟨hqs, hm⟩ := ih hm
    rw [run_count] at hq
    exact ⟨by rw [session, List.map_cons, ← hq, ← hqs], hm⟩

/-- The outcome of asking for a count after a session. -/
def lookup (e : Evidence) (earlier : List Query) (q : Query) : Except Fault Int :=
  (e.resume (count q) (e.session earlier e.memory).2).1

theorem lookup_eq (h : e.tree.Linked) (earlier : List Query) (q : Query) :
    e.lookup earlier q = e.answer q := by
  have hm := (session_sound h earlier e.memory_sound).2
  rw [lookup, (resume_eq h (count q) hm).1, run_count]

/-- On a loaded tree, every count asked for in a session has the outcome of the plain recursion,
which makes of every count what its rule makes of the counts it rests on. -/
theorem session_eq_plain {t : Tree} (ht : t.Loaded) (counters : Counters) (width : Width)
    (qs : List Query) :
    let e : Evidence := ⟨t, counters, width⟩
    (e.session qs e.memory).1 = qs.map e.answer ∧
      ∀ q, e.answer q = (e.rule q).run e.answer :=
  ⟨(session_sound (e := ⟨t, counters, width⟩) ht.linked qs (memory_sound _)).1,
    answer_eq (e := ⟨t, counters, width⟩) ht.linked⟩

/-- A lookup that ends in a fault leaves some counts behind, and ends in the same fault again. -/
theorem session_eq_plain_retry :
    let e : Evidence := ⟨.retry, .ofList [(1, 1), (2, 1), (3, 2), (4, 3), (5, 1)], .word⟩
    let fault : Fault := .excess .completed ⟨.expression, 4, some ⟨⟨3, 4⟩, ⟨3, 8⟩⟩⟩ 3 1
    (e.session [.completion 0, .entry 9, .entry 3, .completion 0] e.memory).1 =
      [.error fault, .error .unknownPlace, .ok 1, .error fault] := by
  intro e fault
  rw [(session_eq_plain Tree.retry_loaded _ .word _).1]
  decide +kernel

end Evidence

end BranchTally.Flow
