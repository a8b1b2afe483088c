import BranchTally.Proofs.Flow.Checks

/-! Every count is kept in the width of its arithmetic. What a rule ends with is read off a tracker,
or is a sum, a difference or a count that it asked for; if all counts that it asks for are kept, so
is what it makes of them. On kept numbers a sum or a difference that lies between two of them does
not wrap round. -/

namespace BranchTally

/-! ### Kept numbers -/

namespace Width

variable {w : Width} {a b c : Int}

/-- The width keeps the number as it is. -/
def Keeps (w : Width) (n : Int) : Prop := w.fit n = n

theorem keeps_fit (w : Width) (n : Int) : w.Keeps (w.fit n) := by
  cases w with
  | word => exact Int.bmod_bmod
  | unbounded => rfl

theorem keeps_zero (w : Width) : w.Keeps 0 := by
  cases w <;> rfl

theorem keeps_word : word.Keeps a ↔ -9223372036854775808 ≤ a ∧ a < 9223372036854775808 := by
  unfold Keeps fit wordCount
  constructor
  · intro h
    rw [← h]
    exact ⟨Int.le_bmod (by decide), Int.bmod_lt (by decide)⟩
  · rintro ⟨hlo, hhi⟩
    exact Int.bmod_eq_of_le_mul_two (by omega) (by omega)

/-- What lies between kept numbers is kept. -/
theorem Keeps.between (ha : w.Keeps a) (hc : w.Keeps c) (hab : a ≤ b) (hbc : b ≤ c) :
    w.Keeps b := by
  cases w with
  | unbounded => rfl
  | word =>
    rw [keeps_word] at ha hc ⊢
    omega

theorem Keeps.sub_eq (ha : w.Keeps a) (hb : w.Keeps b) (ha0 : 0 ≤ a) (hb0 : 0 ≤ b) :
    w.sub a b = a - b := by
  cases w with
  | unbounded => rfl
  | word =>
    rw [keeps_word] at ha hb
    exact keeps_word.mpr (by omega)

theorem Keeps.add_eq (hc : w.Keeps c) (h0 : 0 ≤ a + b) (hle : a + b ≤ c) : w.add a b = a + b :=
  w.keeps_zero.between hc h0 hle

/-- A difference makes up for what was taken away, even if it wraps round. -/
theorem Keeps.add_sub_cancel (ha : w.Keeps a) : w.add (w.sub a b) b = a := by
  cases w with
  | unbounded => exact Int.sub_add_cancel a b
  | word =>
    have hwrap : word.add (word.sub a b) b = word.fit a := by
      simp [add, sub, fit]
    exact hwrap.trans ha

end Width

/-! ### Derivations from kept counts -/

namespace Flow

namespace Derivation

variable {α β : Type} {P : Int → Prop} {Q : α → Prop} {R : β → Prop}

/-- If all counts that are asked for have one property, every value has another. -/
def Carries (P : Int → Prop) (Q : α → Prop) : Derivation α → Prop
  | done a => Q a
  | fail _ => True
  | ask _ next => ∀ n, P n → (next n).Carries P Q

namespace Carries

theorem pure {a : α} (h : Q a) : (Pure.pure a : Derivation α).Carries P Q := h

theorem count (q : Query) : (Flow.count q).Carries P P := fun _ hn => hn

theorem bind {d : Derivation α} {f : α → Derivation β} (hd : d.Carries P Q)
    (hf : ∀ a, Q a → (f a).Carries P R) : (d >>= f).Carries P R := by
  change (d.bind f).Carries P R
  induction d with
  | done a => exact hf a hd
  | fail fault => trivial
  | ask q next ih => exact fun n hn => ih n (hd n hn)

theorem read {r : Except Fault α} {f : α → Derivation β} (h : ∀ a, r = .ok a → (f a).Carries P R) :
    ((liftM r : Derivation α) >>= f).Carries P R := by
  cases r with
  | ok a => exact h a rfl
  | error fault => trivial

theorem run {d : Derivation α} (hd : d.Carries P Q) {f : Query → Except Fault Int}
    (hf : ∀ q n, f q = .ok n → P n) {a : α} (h : d.run f = .ok a) : Q a := by
  induction d with
  | done b =>
    cases h
    exact hd
  | fail fault => cases h
  | ask q next ih =>
    simp only [Derivation.run] at h
    split at h
    next n hq => exact ih n (hd n (hf q n hq)) h
    next => cases h

end Carries

end Derivation

namespace Evidence

open Flow.Derivation BranchTally.Tree

variable {e : Evidence} {id p : NodeId} {n : Node} {v : Int}

/-- From kept counts comes a kept count. -/
abbrev Kept (e : Evidence) (d : Derivation Int) : Prop := d.Carries e.width.Keeps e.width.Keeps

theorem keeps_reading (e : Evidence) (n : Node) (role : Role) : e.width.Keeps (e.reading n role) := by
  unfold reading
  cases n.tracker? role with
  | none => exact e.width.keeps_zero
  | some tracker => exact e.width.keeps_fit _

theorem keeps_add (e : Evidence) (a b : Int) : e.width.Keeps (e.width.add a b) :=
  e.width.keeps_fit _

theorem keeps_sub (e : Evidence) (a b : Int) : e.width.Keeps (e.width.sub a b) :=
  e.width.keeps_fit _

theorem kept_nonNegative (quantity : Quantity) (node : Label) (hv : e.width.Keeps v) :
    e.Kept (nonNegative quantity node v) := by
  unfold nonNegative
  split
  · trivial
  · exact hv

theorem place_carries (id : NodeId) : (e.place id).Carries e.width.Keeps fun _ => True := by
  unfold place
  split <;> trivial

theorem kept_refuse (id : NodeId) : e.Kept (liftM (e.tree.refuse (α := Int) id)) := by
  cases h : e.tree.refuse (α := Int) id with
  | ok v => exact absurd h refuse_ne_ok
  | error fault => trivial

theorem kept_lastCompletion (ids : List NodeId) (hv : e.width.Keeps v) :
    e.Kept (lastCompletion ids v) := by
  unfold lastCompletion
  split
  · exact .count _
  · exact hv

theorem kept_addCompletions (ids : List NodeId) (hv : e.width.Keeps v) :
    e.Kept (e.addCompletions v ids) := by
  induction ids generalizing v with
  | nil => exact hv
  | cons id ids ih => exact .bind (.count _) fun x _ => ih (e.keeps_add v x)

theorem kept_fallThrough (id : NodeId) (n : Node) : e.Kept (e.fallThrough id n) := by
  unfold fallThrough
  split
  next =>
    split
    · exact e.keeps_reading n _
    · exact .bind (.count _) fun _ => kept_lastCompletion _
  next => exact .bind (.count _) fun _ => kept_lastCompletion _
  next => exact .count _
  next =>
    exact .read fun _ _ => .bind (.count _) fun x _ => .read fun _ _ => .bind (.count _) fun y _ =>
      e.keeps_add x y
  next => exact .read fun _ _ => .bind (.count _) fun _ => kept_addCompletions _
  next => exact .read fun _ _ => .count _
  next =>
    exact .read fun _ _ => .bind (.count _) fun x _ => .bind (.count _) fun y _ => e.keeps_add x y
  next =>
    have hadd : ∀ made, e.Kept (do return e.width.add (← Flow.count (.implicitBranch id)) made) :=
      fun made => .bind (.count _) fun x _ => e.keeps_add x made
    split
    · exact hadd _
    · exact .bind (kept_lastCompletion _ (e.keeps_reading n _)) fun made _ => hadd made
  next => exact .count _
  next => exact .count _
  next => exact .bind (.count _) fun _ => kept_addCompletions _
  next => exact .count _
  next => exact .count _
  next => exact .count _
  next => exact .count _
  next => exact .count _

theorem kept_completionRule (id : NodeId) : e.Kept (e.completionRule id) := by
  refine .bind (place_carries id) fun n _ => .bind (kept_fallThrough id n) fun v hv =>
    .bind (kept_nonNegative _ _ hv) fun m hm => .bind (.count _) fun bound _ => ?_
  split
  · trivial
  · exact hm

theorem kept_executionRule (id : NodeId) : e.Kept (e.executionRule id) := by
  refine .bind (place_carries id) fun n _ => .bind ?_ fun v hv =>
    .bind (kept_nonNegative _ _ hv) fun m hm => ?_
  · unfold arrival
    split
    · exact .count _
    · exact e.keeps_reading n _
    · exact .count _
  · split
    · exact hm
    · refine .bind (.count _) fun entered _ => ?_
      split
      · trivial
      · exact hm

theorem kept_inSequence (p id : NodeId) : e.Kept (e.inSequence p id) := by
  refine .read fun previous _ => ?_
  split <;> exact .count _

theorem kept_childEntry (p : NodeId) (n : Node) (id : NodeId) : e.Kept (e.childEntry p n id) := by
  unfold childEntry
  split
  next => exact kept_inSequence p id
  next => exact kept_inSequence p id
  next => trivial
  next =>
    split
    · exact .count _
    split
    · exact e.keeps_reading n _
    exact .read fun _ _ => .bind (.count _) fun decided _ => e.keeps_sub decided _
  next =>
    split
    · exact .count _
    split
    · exact e.keeps_reading n _
    refine .read fun previous _ => ?_
    split
    · exact .count _
    split
    · exact .count _
    refine .read fun m _ => ?_
    split
    · exact .bind (.count _) fun tried _ => .read fun _ _ => .bind (.count _) fun matched _ =>
        e.keeps_sub tried matched
    · exact kept_refuse _
  next =>
    split
    · exact e.keeps_reading n _
    · exact kept_inSequence p id
  next =>
    split
    · exact e.keeps_reading n _
    · exact .count _
  next =>
    split
    · exact .count _
    refine .read fun previous _ => ?_
    split
    · exact e.keeps_reading n _
    split
    · exact e.keeps_reading n _
    · exact .count _
  next =>
    split
    · exact e.keeps_reading n _
    refine .read fun body _ => ?_
    split
    · exact .count _
    · exact .bind (.count _) fun first _ => .bind (.count _) fun again _ => e.keeps_add first again
  next =>
    split
    · exact .count _
    split
    · exact .count _
    · exact .count _
  next =>
    split
    · exact .count _
    · exact e.keeps_reading n _
  next =>
    split
    · split <;> exact .count _
    · exact .count _

theorem kept_entryRule (id : NodeId) : e.Kept (e.entryRule id) := by
  rw [entryRule_eq]
  refine .bind (place_carries id) fun n _ => .bind ?_ fun v hv => kept_nonNegative _ _ hv
  unfold entrance
  split
  · exact e.keeps_reading n _
  · exact .read fun m _ => kept_childEntry _ m id

theorem kept_handlerEntryRule (arm : NodeId) : e.Kept (e.handlerEntryRule arm) := by
  have hdifference : ∀ (node : Label) (a b : Int),
      e.Kept (nonNegative .handlerEntry node (e.width.sub a b)) := fun node a b =>
    kept_nonNegative _ node (e.keeps_sub a b)
  refine .read fun n _ => ?_
  split
  · trivial
  refine .read fun m _ => ?_
  split
  · exact .count _
  · refine .read fun previous _ => ?_
    split
    · trivial
    split
    · exact .bind (.count _) fun entered _ => .bind (.count _) fun completed _ =>
        hdifference _ entered completed
    refine .read fun x _ => ?_
    split
    · split
      · exact .bind (.count _) fun offered _ => .bind (.count _) fun taken _ =>
          hdifference _ offered taken
      · exact .bind (.count _) fun offered _ => .bind (.count _) fun taken _ =>
          hdifference _ offered taken
    · exact kept_refuse _
  · exact kept_refuse _

theorem kept_implicitBranchRule (id : NodeId) : e.Kept (e.implicitBranchRule id) := by
  have hdifference : ∀ (node : Label) (a b : Int),
      e.Kept (nonNegative .implicitBranch node (e.width.sub a b)) := fun node a b =>
    kept_nonNegative _ node (e.keeps_sub a b)
  refine .read fun n _ => ?_
  split
  · exact .read fun _ _ => .bind (.count _) fun decided _ => .read fun _ _ =>
      .bind (.count _) fun evaluated _ => hdifference _ decided evaluated
  · split
    · exact e.keeps_reading n _
    · exact .read fun _ _ => .bind (.count _) fun received _ => hdifference _ received _
  · refine .read fun _ _ => .bind (.count _) fun tested _ => .read fun _ _ =>
      .bind (.count _) fun entered _ => ?_
    split
    · exact .bind (.count _) fun _ _ => hdifference _ tested _
    · exact hdifference _ tested entered
  · trivial

/-- Every rule makes a kept count of kept counts. -/
theorem kept_rule (q : Query) : e.Kept (e.rule q) := by
  cases q with
  | entry id => exact kept_entryRule id
  | execution id => exact kept_executionRule id
  | completion id => exact kept_completionRule id
  | handlerEntry arm => exact kept_handlerEntryRule arm
  | implicitBranch id => exact kept_implicitBranchRule id

theorem keeps_derive {d : Nat} {q : Query} (h : e.derive d q = .ok v) : e.width.Keeps v := by
  induction d generalizing q v with
  | zero => cases h
  | succ d ih => exact (kept_rule q).run (fun r n hr => ih hr) h

/-- Every count that comes out is kept. -/
theorem keeps_answer {q : Query} (h : e.answer q = .ok v) : e.width.Keeps v := keeps_derive h

end Evidence

end Flow

end BranchTally
