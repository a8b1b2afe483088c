import BranchTally.Proofs.Flow.Checks

/-! Counts add up over runs. On whole numbers every rule is a sum and difference of readings and
counts, and every check that two runs pass is passed by their sum, so that a count that both runs
have is for the two together the sum of the two. -/

namespace BranchTally.Flow

/-! ### Derivations that add up -/

namespace Derivation

variable {α β : Type} {R : α → α → α → Prop} {S : β → β → β → Prop}

/-- Whenever two derivations come to values, a third comes to a value related to theirs, provided
that its answers are the sums of theirs. -/
def Adds (R : α → α → α → Prop) (x y z : Derivation α) : Prop :=
  ∀ f g k : Query → Except Fault Int,
    (∀ q m n, f q = .ok m → g q = .ok n → k q = .ok (m + n)) →
    ∀ a b, x.run f = .ok a → y.run g = .ok b → ∃ c, z.run k = .ok c ∧ R a b c

/-- The third number is the sum of the others. -/
def IsSum (m n k : Int) : Prop := k = m + n

namespace Adds

theorem pure {a b c : α} (h : R a b c) : Adds R (Pure.pure a) (Pure.pure b) (Pure.pure c) := by
  intro f g k _ a' b' ha hb
  cases ha
  cases hb
  exact ⟨c, rfl, h⟩

theorem fail {fault : Fault} {y z : Derivation α} : Adds R (.fail fault) y z := by
  intro f g k _ a b ha
  cases ha

theorem count (q : Query) : Adds IsSum (Flow.count q) (Flow.count q) (Flow.count q) := by
  intro f g k h a b ha hb
  rw [run_count] at ha hb
  exact ⟨a + b, by rw [run_count, h q a b ha hb], rfl⟩

theorem bind {x y z : Derivation α} {u v w : α → Derivation β} (h : Adds R x y z)
    (hn : ∀ a b c, R a b c → Adds S (u a) (v b) (w c)) : Adds S (x >>= u) (y >>= v) (z >>= w) := by
  intro f g k hk a b ha hb
  obtain ⟨a', ha', ha⟩ := Evidence.run_bind_eq_ok.mp ha
  obtain ⟨b', hb', hb⟩ := Evidence.run_bind_eq_ok.mp hb
  obtain ⟨c', hc', hr⟩ := h f g k hk a' b' ha' hb'
  obtain ⟨c, hc, hs⟩ := hn a' b' c' hr f g k hk a b ha hb
  exact ⟨c, Evidence.run_bind_eq_ok.mpr ⟨c', hc', hc⟩, hs⟩

/-- What is read off the tree is the same for all. -/
theorem read {r : Except Fault α} {u v w : α → Derivation β}
    (h : ∀ a, r = .ok a → Adds S (u a) (v a) (w a)) :
    Adds S ((liftM r : Derivation α) >>= u) ((liftM r : Derivation α) >>= v)
      ((liftM r : Derivation α) >>= w) := by
  cases r with
  | ok a => exact h a rfl
  | error fault => exact fail

theorem refuse {t : Tree} {id : NodeId} :
    Adds R (liftM (t.refuse id : Except Fault α)) (liftM (t.refuse id : Except Fault α))
      (liftM (t.refuse id : Except Fault α)) := by
  intro f g k _ a b ha
  rw [run_lift] at ha
  exact absurd ha Tree.refuse_ne_ok

theorem nonNegative {quantity : Quantity} {node : Label} {m n k : Int} (h : IsSum m n k) :
    Adds IsSum (Evidence.nonNegative quantity node m) (Evidence.nonNegative quantity node n)
      (Evidence.nonNegative quantity node k) := by
  intro f g l _ a b ha hb
  obtain ⟨rfl, h0⟩ := Evidence.run_nonNegative.mp ha
  obtain ⟨rfl, h1⟩ := Evidence.run_nonNegative.mp hb
  exact ⟨k, Evidence.run_nonNegative.mpr ⟨rfl, by unfold IsSum at h; omega⟩, h⟩

/-- A bound that two counts keep is kept by their sum. -/
theorem bounded {passage : Passage} {node : Label} {m n k m' n' k' : Int} (h : IsSum m n k)
    (h' : IsSum m' n' k') :
    Adds IsSum (if m > m' then .fail (.excess passage node m m') else Pure.pure m)
      (if n > n' then .fail (.excess passage node n n') else Pure.pure n)
      (if k > k' then .fail (.excess passage node k k') else Pure.pure k) := by
  unfold IsSum at h'
  by_cases hm : m > m'
  · rw [if_pos hm]
    exact fail
  by_cases hn : n > n'
  · rw [if_pos hn]
    intro f g l _ a b _ hb
    cases hb
  rw [if_neg hm, if_neg hn, if_neg (by unfold IsSum at h; omega)]
  exact pure h

end Adds

end Derivation

/-! ### Rules that add up -/

namespace Evidence

open Flow.Derivation

/-- Counters of a tree whose counts are whole numbers of any size. -/
def whole (t : Tree) (counters : Counters) : Evidence := ⟨t, counters, .unbounded⟩

variable {t : Tree} {a b : Counters} {p id : NodeId} {m n : Node}

theorem reading_append (n : Node) (role : Role) :
    IsSum ((whole t a).reading n role) ((whole t b).reading n role)
      ((whole t (a ++ b)).reading n role) := by
  unfold reading IsSum
  cases n.tracker? role with
  | none => rfl
  | some tracker => exact Counters.total_append a b tracker

theorem isSum_add {m n k m' n' k' : Int} (h : IsSum m n k) (h' : IsSum m' n' k') :
    IsSum ((whole t a).width.add m m') ((whole t b).width.add n n')
      ((whole t (a ++ b)).width.add k k') := by
  unfold IsSum at *
  simp only [whole, Width.add_unbounded]
  omega

theorem isSum_sub {m n k m' n' k' : Int} (h : IsSum m n k) (h' : IsSum m' n' k') :
    IsSum ((whole t a).width.sub m m') ((whole t b).width.sub n n')
      ((whole t (a ++ b)).width.sub k k') := by
  unfold IsSum at *
  simp only [whole, Width.sub_unbounded]
  omega

theorem lastCompletion_adds {ids : List NodeId} {m n k : Int} (h : IsSum m n k) :
    Adds IsSum (lastCompletion ids m) (lastCompletion ids n) (lastCompletion ids k) := by
  unfold lastCompletion
  cases ids.getLast? with
  | none => exact .pure h
  | some id => exact .count _

theorem addCompletions_adds {ids : List NodeId} {m n k : Int} (h : IsSum m n k) :
    Adds IsSum ((whole t a).addCompletions m ids) ((whole t b).addCompletions n ids)
      ((whole t (a ++ b)).addCompletions k ids) := by
  induction ids generalizing m n k with
  | nil => exact .pure h
  | cons id ids ih =>
    exact .bind (.count _) fun x y z hx => ih (isSum_add h hx)

theorem inSequence_adds : Adds IsSum ((whole t a).inSequence p id) ((whole t b).inSequence p id)
    ((whole t (a ++ b)).inSequence p id) := by
  refine .read fun previous _ => ?_
  cases previous with
  | none => exact .count _
  | some j => exact .count _

theorem dispatch_adds {subject otherwise : Slot} {arms : List NodeId}
    (hc : m.construct = .dispatch subject arms otherwise) :
    Adds IsSum ((whole t a).childEntry p m id) ((whole t b).childEntry p m id)
      ((whole t (a ++ b)).childEntry p m id) := by
  simp only [childEntry, hc]
  split
  · exact .count _
  split
  · exact .pure (reading_append m _)
  refine .read fun previous _ => ?_
  cases previous with
  | none => exact .count _
  | some j =>
    simp only
    split
    · exact .count _
    refine .read fun k _ => ?_
    cases k.construct with
    | arm patterns body =>
      exact .bind (.count _) fun x y z hx => .read fun c _ => .bind (.count _)
        fun x' y' z' hx' => .pure (isSum_sub hx hx')
    | _ => exact .refuse

theorem safeNavigation_adds {receiver : Slot} {arguments : List NodeId}
    (hc : m.construct = .safeNavigation receiver arguments) :
    Adds IsSum ((whole t a).childEntry p m id) ((whole t b).childEntry p m id)
      ((whole t (a ++ b)).childEntry p m id) := by
  have hsum := Adds.pure (reading_append (t := t) (a := a) (b := b) m .nonNil)
  simp only [childEntry, hc]
  split
  · exact .count _
  refine .read fun previous _ => ?_
  cases previous with
  | none => exact hsum
  | some j =>
    simp only
    split
    · exact hsum
    · exact .count _

theorem childEntry_adds : Adds IsSum ((whole t a).childEntry p m id)
    ((whole t b).childEntry p m id) ((whole t (a ++ b)).childEntry p m id) := by
  have hread := reading_append (t := t) (a := a) (b := b) m
  have hsum := fun role => Adds.pure (hread role)
  cases hc : m.construct with
  | expression type operands =>
    simp only [childEntry, hc]
    exact inSequence_adds
  | sequence explicit statements =>
    simp only [childEntry, hc]
    exact inSequence_adds
  | emptyBody =>
    simp only [childEntry, hc]
    exact .fail
  | conditional style condition whenTrue whenFalse =>
    simp only [childEntry, hc]
    split
    · exact .count _
    split
    · exact hsum _
    exact .read fun c _ => .bind (.count _) fun x y z hx => .pure (isSum_sub hx (hread _))
  | dispatch subject arms otherwise => exact dispatch_adds hc
  | arm patterns body =>
    simp only [childEntry, hc]
    split
    · exact hsum _
    · exact inSequence_adds
  | shortCircuit op left right =>
    simp only [childEntry, hc]
    split
    · exact hsum _
    · exact .count _
  | safeNavigation receiver arguments => exact safeNavigation_adds hc
  | loop polarity test condition body =>
    simp only [childEntry, hc]
    split
    · exact hsum _
    refine .read fun c _ => ?_
    cases test with
    | before =>
      exact .bind (.count _) fun x y z hx => .bind (.count _) fun x' y' z' hx' =>
        .pure (isSum_add hx hx')
    | after => exact .count _
  | rescue watched handlers otherwise =>
    simp only [childEntry, hc]
    split
    · exact .count _
    split
    · exact .count _
    · exact .count _
  | handler exceptions assignment body =>
    simp only [childEntry, hc]
    split
    · exact .count _
    · exact hsum _
  | ensure body ensured =>
    simp only [childEntry, hc]
    cases body with
    | none => exact .count _
    | some c =>
      simp only
      split
      · exact .count _
      · exact .count _

theorem place_adds {α : Type} {R : α → α → α → Prop} {u v w : Node → Derivation α}
    (h : ∀ n, t.nodes[id]? = some n → Adds R (u n) (v n) (w n)) :
    Adds R ((whole t a).place id >>= u) ((whole t b).place id >>= v)
      ((whole t (a ++ b)).place id >>= w) := by
  unfold place whole
  cases hn : t.nodes[id]? with
  | none => exact .fail
  | some n => exact h n hn

theorem entryRule_adds : Adds IsSum ((whole t a).entryRule id) ((whole t b).entryRule id)
    ((whole t (a ++ b)).entryRule id) := by
  simp only [entryRule_eq]
  refine place_adds fun n _ => .bind ?_ fun x y z hx => .nonNegative hx
  unfold entrance
  cases n.parent with
  | none => exact .pure (reading_append n .entry)
  | some p => exact .read fun m _ => childEntry_adds

theorem arrival_adds : Adds IsSum ((whole t a).arrival id n) ((whole t b).arrival id n)
    ((whole t (a ++ b)).arrival id n) := by
  unfold arrival
  cases n.construct with
  | rescue watched handlers otherwise => cases watched <;> exact .count _
  | handler exceptions assignment body => exact .pure (reading_append n .enteredBody)
  | _ => exact .count _

theorem executionRule_adds : Adds IsSum ((whole t a).executionRule id)
    ((whole t b).executionRule id) ((whole t (a ++ b)).executionRule id) := by
  refine place_adds fun n _ => .bind arrival_adds fun x y z hx => .bind (.nonNegative hx)
    fun x' y' z' hx' => ?_
  split
  · exact .pure hx'
  · exact .bind (.count _) fun u v w hu => .bounded hx' hu

theorem fallThrough_adds : Adds IsSum ((whole t a).fallThrough id n)
    ((whole t b).fallThrough id n) ((whole t (a ++ b)).fallThrough id n) := by
  have hread := reading_append (t := t) (a := a) (b := b) n
  have hsum := fun role => Adds.pure (hread role)
  unfold fallThrough
  cases n.construct with
  | expression type operands =>
    simp only
    split
    · exact hsum _
    · exact .bind (.count _) fun x y z hx => lastCompletion_adds hx
  | sequence explicit statements =>
    exact .bind (.count _) fun x y z hx => lastCompletion_adds hx
  | emptyBody => exact .count _
  | conditional style condition whenTrue whenFalse =>
    exact .read fun c _ => .bind (.count _) fun x y z hx => .read fun d _ => .bind (.count _)
      fun x' y' z' hx' => .pure (isSum_add hx hx')
  | dispatch subject arms otherwise =>
    exact .read fun c _ => .bind (.count _) fun x y z hx => addCompletions_adds hx
  | arm patterns body => exact .read fun c _ => .count _
  | shortCircuit op left right =>
    exact .read fun c _ => .bind (.count _) fun x y z hx => .bind (.count _)
      fun x' y' z' hx' => .pure (isSum_add hx hx')
  | safeNavigation receiver arguments =>
    simp only
    split
    · exact .bind (hsum _) fun x y z hx => .bind (.count _) fun x' y' z' hx' =>
        .pure (isSum_add hx' hx)
    · exact .bind (lastCompletion_adds (hread _)) fun x y z hx => .bind (.count _)
        fun x' y' z' hx' => .pure (isSum_add hx' hx)
  | loop polarity test condition body => exact .count _
  | rescue watched handlers otherwise =>
    cases watched with
    | none => exact .count _
    | some w => exact .bind (.count _) fun x y z hx => addCompletions_adds hx
  | handler exceptions assignment body => cases body <;> exact .count _
  | ensure body ensured =>
    cases body with
    | some c => exact .count _
    | none => cases ensured <;> exact .count _

theorem completionRule_adds : Adds IsSum ((whole t a).completionRule id)
    ((whole t b).completionRule id) ((whole t (a ++ b)).completionRule id) :=
  place_adds fun _ _ => .bind fallThrough_adds fun _ _ _ hx => .bind (.nonNegative hx)
    fun _ _ _ hx' => .bind (.count _) fun _ _ _ hu => .bounded hx' hu

theorem handlerEntryRule_adds : Adds IsSum ((whole t a).handlerEntryRule id)
    ((whole t b).handlerEntryRule id) ((whole t (a ++ b)).handlerEntryRule id) := by
  refine .read fun n _ => ?_
  cases n.parent with
  | none => exact .fail
  | some owner =>
    refine .read fun m _ => ?_
    cases m.construct with
    | rescue watched handlers otherwise =>
      cases watched with
      | none => exact .count _
      | some w =>
        refine .read fun previous _ => ?_
        cases previous with
        | none => exact .fail
        | some j =>
          simp only
          split
          · exact .bind (.count _) fun x y z hx => .bind (.count _) fun x' y' z' hx' =>
              .nonNegative (isSum_sub hx hx')
          refine .read fun k _ => ?_
          cases k.construct with
          | handler exceptions assignment body =>
            cases exceptions <;>
              exact .bind (.count _) fun x y z hx => .bind (.count _) fun x' y' z' hx' =>
                .nonNegative (isSum_sub hx hx')
          | _ => exact .refuse
    | _ => exact .refuse

theorem implicitBranchRule_adds : Adds IsSum ((whole t a).implicitBranchRule id)
    ((whole t b).implicitBranchRule id) ((whole t (a ++ b)).implicitBranchRule id) := by
  refine .read fun n _ => ?_
  have hread := reading_append (t := t) (a := a) (b := b) n
  cases n.construct with
  | shortCircuit op left right =>
    exact .read fun c _ => .bind (.count _) fun x y z hx => .read fun d _ => .bind (.count _)
      fun x' y' z' hx' => .nonNegative (isSum_sub hx hx')
  | safeNavigation receiver arguments =>
    simp only
    split
    · exact .pure (hread _)
    · exact .read fun c _ => .bind (.count _) fun x y z hx => .nonNegative (isSum_sub hx (hread _))
  | loop polarity test condition body =>
    refine .read fun c _ => .bind (.count _) fun x y z hx => .read fun d _ => .bind (.count _)
      fun x' y' z' hx' => ?_
    cases test with
    | before => exact .nonNegative (isSum_sub hx hx')
    | after =>
      exact .bind (.count _) fun u v w hu => .nonNegative (isSum_sub hx (isSum_sub hx' hu))
  | _ => exact .fail

/-- Every rule adds up. -/
theorem rule_adds (q : Query) : Adds IsSum ((whole t a).rule q) ((whole t b).rule q)
    ((whole t (a ++ b)).rule q) := by
  cases q with
  | entry id => exact entryRule_adds
  | execution id => exact executionRule_adds
  | completion id => exact completionRule_adds
  | handlerEntry arm => exact handlerEntryRule_adds
  | implicitBranch id => exact implicitBranchRule_adds

theorem derive_append {d : Nat} {q : Query} {x y : Int} (hx : (whole t a).derive d q = .ok x)
    (hy : (whole t b).derive d q = .ok y) : (whole t (a ++ b)).derive d q = .ok (x + y) := by
  induction d generalizing q x y with
  | zero => cases hx
  | succ d ih =>
    obtain ⟨z, hz, rfl⟩ := rule_adds q _ _ ((whole t (a ++ b)).derive d) (fun r m n => ih) x y hx hy
    exact hz

/-- What the plain recursion gives for two runs adds up. -/
theorem answer_append {q : Query} {x y : Int} (hx : (whole t a).answer q = .ok x)
    (hy : (whole t b).answer q = .ok y) : (whole t (a ++ b)).answer q = .ok (x + y) :=
  derive_append hx hy

end Evidence

end BranchTally.Flow
