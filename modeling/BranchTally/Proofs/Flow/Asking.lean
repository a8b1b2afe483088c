import BranchTally.Flow.Derivation

/-! The counts that a derivation may ask for, whatever it is answered. Two ways of answering that
agree on them lead to the same outcome, and what every answer keeps of a state the derivation keeps
as well. -/

namespace BranchTally.Flow.Derivation

variable {α β σ : Type} {P : Query → Prop}

/-- All counts that the derivation may ask for have a property. -/
def AsksOnly (P : Query → Prop) : Derivation α → Prop
  | done _ => True
  | fail _ => True
  | ask q next => P q ∧ ∀ n, (next n).AsksOnly P

namespace AsksOnly

@[simp] theorem done (a : α) : (Derivation.done a).AsksOnly P := trivial

@[simp] theorem pure (a : α) : (Pure.pure a : Derivation α).AsksOnly P := trivial

@[simp] theorem fail (fault : Fault) : (Derivation.fail fault : Derivation α).AsksOnly P := trivial

theorem count {q : Query} (h : P q) : (Flow.count q).AsksOnly P := ⟨h, fun _ => trivial⟩

theorem bind {d : Derivation α} {f : α → Derivation β} (hd : d.AsksOnly P)
    (hf : ∀ a, (f a).AsksOnly P) : (d >>= f).AsksOnly P := by
  change (d.bind f).AsksOnly P
  induction d with
  | done a => exact hf a
  | fail fault => trivial
  | ask q next ih => exact ⟨hd.1, fun n => ih n (hd.2 n)⟩

/-- What follows a reading of the tree is only of interest for what was read. -/
theorem read {r : Except Fault α} {f : α → Derivation β}
    (h : ∀ a, r = .ok a → (f a).AsksOnly P) : ((liftM r : Derivation α) >>= f).AsksOnly P := by
  cases r with
  | ok a => exact h a rfl
  | error fault => trivial

theorem lift (r : Except Fault α) : (liftM r : Derivation α).AsksOnly P := by
  cases r <;> trivial

theorem mono {Q : Query → Prop} {d : Derivation α} (hd : d.AsksOnly P) (h : ∀ q, P q → Q q) :
    d.AsksOnly Q := by
  induction d with
  | done a => trivial
  | fail fault => trivial
  | ask q next ih => exact ⟨h q hd.1, fun n => ih n (hd.2 n)⟩

theorem always (d : Derivation α) : d.AsksOnly fun _ => True := by
  induction d with
  | done a => trivial
  | fail fault => trivial
  | ask q next ih => exact ⟨trivial, ih⟩

theorem run_congr {d : Derivation α} (hd : d.AsksOnly P) {f g : Query → Except Fault Int}
    (h : ∀ q, P q → f q = g q) : d.run f = d.run g := by
  induction d with
  | done a => rfl
  | fail fault => rfl
  | ask q next ih =>
    simp only [run, h q hd.1]
    cases g q with
    | ok n => exact ih n (hd.2 n)
    | error fault => rfl

/-- A way of answering that has all values of another, of counts that are asked for, leads to the
same value. -/
theorem run_mono {d : Derivation α} (hd : d.AsksOnly P) {f g : Query → Except Fault Int}
    (h : ∀ q, P q → ∀ n, f q = .ok n → g q = .ok n) {a : α} (hv : d.run f = .ok a) :
    d.run g = .ok a := by
  induction d with
  | done b => exact hv
  | fail fault => exact hv
  | ask q next ih =>
    simp only [run] at hv ⊢
    split at hv
    next n hn =>
      rw [h q hd.1 n hn]
      exact ih n (hd.2 n) hv
    next => cases hv

/-- If answering keeps an invariant, under which it answers like a function, then a derivation has
the outcome that the function gives and keeps the invariant too. -/
theorem runState_eq_run {d : Derivation α} (hd : d.AsksOnly P)
    {answer : Query → σ → Except Fault Int × σ} {f : Query → Except Fault Int} {I : σ → Prop}
    (h : ∀ q s, P q → I s → (answer q s).1 = f q ∧ I (answer q s).2) {s : σ} (hs : I s) :
    (d.runState answer s).1 = d.run f ∧ I (d.runState answer s).2 := by
  induction d generalizing s with
  | done a => exact ⟨rfl, hs⟩
  | fail fault => exact ⟨rfl, hs⟩
  | ask q next ih =>
    obtain ⟨hq, hI⟩ := h q s hd.1 hs
    simp only [run, runState, ← hq]
    rcases hr : answer q s with ⟨fault | n, s'⟩ <;> rw [hr] at hI
    · exact ⟨rfl, hI⟩
    · exact ih n (hd.2 n) hI

/-- A relation of states that each answer moves along holds between the first state and the last. -/
theorem runState_rel {d : Derivation α} (hd : d.AsksOnly P)
    {answer : Query → σ → Except Fault Int × σ} {R : σ → σ → Prop} (hrefl : ∀ s, R s s)
    (htrans : ∀ {s s' s''}, R s s' → R s' s'' → R s s'')
    (h : ∀ q s, P q → R s (answer q s).2) (s : σ) : R s (d.runState answer s).2 := by
  induction d generalizing s with
  | done a => exact hrefl s
  | fail fault => exact hrefl s
  | ask q next ih =>
    have hq := h q s hd.1
    simp only [runState]
    rcases hr : answer q s with ⟨fault | n, s'⟩ <;> rw [hr] at hq
    · exact hq
    · exact htrans hq (ih n (hd.2 n) s')

end AsksOnly

@[simp] theorem run_map {β : Type} (answer : Query → Except Fault Int) (g : α → β)
    (d : Derivation α) : (g <$> d).run answer = (d.run answer).map g := by
  rw [map_eq_pure_bind, run_bind]
  cases d.run answer <;> rfl

@[simp] theorem run_lift (answer : Query → Except Fault Int) (r : Except Fault α) :
    (liftM r : Derivation α).run answer = r :=
  run_ofExcept answer r

end BranchTally.Flow.Derivation
