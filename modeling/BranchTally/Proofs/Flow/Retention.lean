import BranchTally.Proofs.Flow.Recall

/-! What a memory holds while the counters change under it. Old counts stay as they are and new ones
are derived from old and new alike, yet after every step the counts kept bound each other: none is
negative, and no node completes or executes more often than it is entered. A lookup touches only
counts that come before the one asked for, so that nothing kept is ever overwritten. -/

namespace BranchTally.Flow

/-- Whether counts of this kind are kept. -/
def Query.isKept : Query → Bool
  | .entry _ | .execution _ | .completion _ => true
  | .handlerEntry _ | .implicitBranch _ => false

namespace Memory

variable {t : Tree} {m m' m'' : Memory} {q r : Query} {k l : Nat} {v : Int}

/-- The memory has a place for every node of the tree. -/
structure Sized (m : Memory) (t : Tree) : Prop where
  entries : m.entries.size = t.size
  executions : m.executions.size = t.size
  completions : m.completions.size = t.size

/-- The counts kept are not negative, and bound each other. -/
structure Consistent (m : Memory) (t : Tree) : Prop where
  nonneg : ∀ {q : Query} {v : Int}, m.find? q = some v → 0 ≤ v
  completion : ∀ {id : NodeId} {n : Node} {v : Int}, t.nodes[id]? = some n → n.kind ≠ .handler →
    m.find? (.completion id) = some v → ∃ b, m.find? (.entry id) = some b ∧ v ≤ b
  handled : ∀ {id : NodeId} {n : Node} {v : Int}, t.nodes[id]? = some n → n.kind = .handler →
    m.find? (.completion id) = some v → ∃ b, m.find? (.execution id) = some b ∧ v ≤ b
  execution : ∀ {id : NodeId} {n : Node} {v : Int}, t.nodes[id]? = some n → n.kind ≠ .handler →
    m.find? (.execution id) = some v → ∃ b, m.find? (.entry id) = some b ∧ v ≤ b

theorem Sized.blank (t : Tree) : (Memory.blank t.size).Sized t := by
  constructor <;> simp [Memory.blank]

theorem Consistent.blank (t : Tree) : (Memory.blank t.size).Consistent t := by
  constructor <;> intros <;> simp_all

@[simp] theorem sized_keep (q : Query) (v : Int) : (m.keep q v).Sized t ↔ m.Sized t := by
  have he : (m.keep q v).entries.size = m.entries.size := by cases q <;> simp [Memory.keep]
  have hx : (m.keep q v).executions.size = m.executions.size := by cases q <;> simp [Memory.keep]
  have hc : (m.keep q v).completions.size = m.completions.size := by cases q <;> simp [Memory.keep]
  constructor
  · rintro ⟨h₁, h₂, h₃⟩
    exact ⟨he ▸ h₁, hx ▸ h₂, hc ▸ h₃⟩
  · rintro ⟨h₁, h₂, h₃⟩
    exact ⟨he.trans h₁, hx.trans h₂, hc.trans h₃⟩

theorem isKept_of_find? (h : m.find? q = some v) : q.isKept := by
  cases q with
  | entry id | execution id | completion id => rfl
  | handlerEntry arm | implicitBranch id => cases h

/-- A count of a node of the tree is found after it was kept. -/
theorem find?_keep_self (h : m.Sized t) (hq : q.node < t.size) (hk : q.isKept) :
    (m.keep q v).find? q = some v := by
  cases q with
  | entry id => simp [find?, Memory.keep, h.entries, show id < t.size from hq]
  | execution id => simp [find?, Memory.keep, h.executions, show id < t.size from hq]
  | completion id => simp [find?, Memory.keep, h.completions, show id < t.size from hq]
  | handlerEntry arm | implicitBranch id => cases hk

/-- What a count must satisfy to be kept beside the others. -/
def Admits (m : Memory) (t : Tree) (q : Query) (v : Int) : Prop :=
  (q.isKept → 0 ≤ v) ∧ ∀ {id : NodeId} {n : Node}, t.nodes[id]? = some n →
    (q = .completion id → ∃ b, m.find? (Evidence.completionBound id n) = some b ∧ v ≤ b) ∧
    (q = .execution id → n.kind ≠ .handler → ∃ b, m.find? (.entry id) = some b ∧ v ≤ b)

/-- A count that the others admit, kept where none was, leaves the memory consistent. -/
theorem Consistent.keep (h : m.Consistent t) (hnew : m.find? q = none) (hv : m.Admits t q v) :
    (m.keep q v).Consistent t := by
  have hold : ∀ {r : Query} {b : Int}, m.find? r = some b → (m.keep q v).find? r = some b := by
    intro r b hb
    rwa [find?_keep_of_ne]
    rintro rfl
    rw [hnew] at hb
    cases hb
  constructor
  case nonneg =>
    intro r b hb
    have hk := isKept_of_find? hb
    rcases find?_keep hb with ⟨rfl, rfl⟩ | hb
    · exact hv.1 hk
    · exact h.nonneg hb
  case completion =>
    intro id n b hn hk hb
    rcases find?_keep hb with ⟨rfl, rfl⟩ | hb
    · obtain ⟨c, hc, hle⟩ := (hv.2 hn).1 rfl
      rw [Evidence.completionBound, if_neg hk] at hc
      exact ⟨c, hold hc, hle⟩
    · obtain ⟨c, hc, hle⟩ := h.completion hn hk hb
      exact ⟨c, hold hc, hle⟩
  case handled =>
    intro id n b hn hk hb
    rcases find?_keep hb with ⟨rfl, rfl⟩ | hb
    · obtain ⟨c, hc, hle⟩ := (hv.2 hn).1 rfl
      rw [Evidence.completionBound, if_pos hk] at hc
      exact ⟨c, hold hc, hle⟩
    · obtain ⟨c, hc, hle⟩ := h.handled hn hk hb
      exact ⟨c, hold hc, hle⟩
  case execution =>
    intro id n b hn hk hb
    rcases find?_keep hb with ⟨rfl, rfl⟩ | hb
    · obtain ⟨c, hc, hle⟩ := (hv.2 hn).2 rfl hk
      exact ⟨c, hold hc, hle⟩
    · obtain ⟨c, hc, hle⟩ := h.execution hn hk hb
      exact ⟨c, hold hc, hle⟩

/-! ### How a memory grows -/

/-- A memory has grown into another: what was kept is kept, the invariant has lasted, and no count
of the given rank or a later one has been touched. -/
structure Grows (t : Tree) (rank : Nat) (m m' : Memory) : Prop where
  sized : m.Sized t → m'.Sized t
  consistent : m.Sized t → m.Consistent t → m'.Consistent t
  found : ∀ {q : Query} {v : Int}, m.find? q = some v → m'.find? q = some v
  later : ∀ {q : Query}, rank ≤ t.rank q → m'.find? q = m.find? q

theorem Grows.refl (t : Tree) (rank : Nat) (m : Memory) : Grows t rank m m :=
  ⟨id, fun _ => id, id, fun _ => rfl⟩

theorem Grows.trans (h : Grows t k m m') (h' : Grows t k m' m'') : Grows t k m m'' where
  sized hs := h'.sized (h.sized hs)
  consistent hs hc := h'.consistent (h.sized hs) (h.consistent hs hc)
  found hf := h'.found (h.found hf)
  later hq := (h'.later hq).trans (h.later hq)

theorem Grows.mono (h : Grows t k m m') (hkl : k ≤ l) : Grows t l m m' where
  sized := h.sized
  consistent := h.consistent
  found := h.found
  later hq := h.later (hkl.trans hq)

/-- Keeping a count that was not kept yet. -/
theorem Grows.keep (hnew : m.find? q = none)
    (hv : m.Sized t → m.Consistent t → m.Admits t q v) : Grows t (t.rank q + 1) m (m.keep q v) where
  sized hs := (sized_keep q v).mpr hs
  consistent hs hc := hc.keep hnew (hv hs hc)
  found hf := by
    rwa [find?_keep_of_ne]
    rintro rfl
    rw [hnew] at hf
    cases hf
  later hr := find?_keep_of_ne (by rintro rfl; omega)

end Memory

namespace Evidence

open Flow.Derivation Memory

variable {e : Evidence} {m m' : Memory} {q : Query} {d : Nat} {v : Int}

theorem runState_bind_eq_ok {α β σ : Type} {answer : Query → σ → Except Fault Int × σ}
    {x : Derivation α} {f : α → Derivation β} {s s' : σ} {b : β} :
    (x >>= f).runState answer s = (.ok b, s') ↔
      ∃ a s₁, x.runState answer s = (.ok a, s₁) ∧ (f a).runState answer s₁ = (.ok b, s') := by
  rw [runState_bind]
  rcases x.runState answer s with ⟨fault | a, s₁⟩ <;> simp

theorem runState_count {σ : Type} {answer : Query → σ → Except Fault Int × σ} (s : σ) :
    (count q).runState answer s = answer q s := by
  simp only [count, runState]
  rcases answer q s with ⟨fault | n, s'⟩ <;> rfl

theorem runState_place {σ : Type} {answer : Query → σ → Except Fault Int × σ} {s s' : σ}
    {id : NodeId} {n : Node} :
    (e.place id).runState answer s = (.ok n, s') ↔ e.tree.nodes[id]? = some n ∧ s = s' := by
  unfold place
  cases e.tree.nodes[id]? <;> simp [runState]

theorem runState_nonNegative {σ : Type} {answer : Query → σ → Except Fault Int × σ} {s s' : σ}
    {quantity : Quantity} {node : Label} {w : Int} :
    (nonNegative quantity node w).runState answer s = (.ok v, s') ↔ w = v ∧ 0 ≤ w ∧ s = s' := by
  unfold nonNegative
  split <;> simp [runState] <;> omega

/-- A count that a lookup gives is kept from then on. -/
theorem consult_kept (hr : e.consult d q m = (.ok v, m')) (hs : m'.Sized e.tree)
    (hq : q.node < e.tree.size) (hk : q.isKept) : m'.find? q = some v := by
  cases d with
  | zero => cases hr
  | succ d =>
    unfold consult at hr
    cases hf : m.find? q with
    | some w =>
      rw [hf] at hr
      cases hr
      exact hf
    | none =>
      rw [hf] at hr
      rcases hrun : (e.rule q).runState (e.consult d) m with ⟨fault | w, m₁⟩ <;>
        rw [hrun] at hr <;> cases hr
      exact find?_keep_self ((sized_keep q v).mp hs) hq hk

/-- A count that comes out of its rule is admitted by the counts kept then. -/
theorem rule_admits (hr : (e.rule q).runState (e.consult d) m = (.ok v, m'))
    (hs : m'.Sized e.tree) : m'.Admits e.tree q v := by
  cases q with
  | entry id =>
    simp only [rule, entryRule_eq, runState_bind_eq_ok, runState_nonNegative] at hr
    obtain ⟨n, _, -, w, _, -, rfl, h0, -⟩ := hr
    simp [Admits, h0]
  | execution id =>
    simp only [rule, executionRule, runState_bind_eq_ok, runState_place, runState_nonNegative] at hr
    obtain ⟨n, _, ⟨hn, rfl⟩, w, _, -, u, m₁, ⟨rfl, h0, rfl⟩, hr⟩ := hr
    split at hr
    next hk =>
      cases hr
      refine ⟨fun _ => h0, fun hn' => ⟨by simp, ?_⟩⟩
      rintro ⟨⟩ hk'
      rw [hn] at hn'
      cases hn'
      exact absurd hk hk'
    next =>
      simp only [runState_bind_eq_ok, runState_count] at hr
      obtain ⟨b, m₂, hb, hr⟩ := hr
      split at hr
      next => cases hr
      next hle =>
        cases hr
        refine ⟨fun _ => h0, fun hn' => ⟨by simp, ?_⟩⟩
        rintro ⟨⟩ -
        exact ⟨b, consult_kept hb hs (Tree.size_of_node hn) rfl, by omega⟩
  | completion id =>
    simp only [rule, completionRule, runState_bind_eq_ok, runState_place, runState_nonNegative,
      runState_count] at hr
    obtain ⟨n, _, ⟨hn, rfl⟩, w, _, -, u, m₁, ⟨rfl, h0, rfl⟩, b, m₂, hb, hr⟩ := hr
    split at hr
    next => cases hr
    next hle =>
      cases hr
      refine ⟨fun _ => h0, fun hn' => ⟨?_, by simp⟩⟩
      rintro ⟨⟩
      rw [hn] at hn'
      cases hn'
      refine ⟨b, consult_kept hb hs ?_ ?_, by omega⟩ <;> unfold completionBound <;> split
      · exact Tree.size_of_node hn
      · exact Tree.size_of_node hn
      · rfl
      · rfl
  | handlerEntry arm | implicitBranch id => simp [Admits, Query.isKept]

/-- A lookup lets the memory grow, up to the rank of the count asked for. -/
theorem consult_grows (h : e.tree.Linked) (d : Nat) (q : Query) (m : Memory) :
    Grows e.tree (e.tree.rank q + 1) m (e.consult d q m).2 := by
  induction d generalizing q m with
  | zero => exact .refl _ _ _
  | succ d ih =>
    unfold consult
    cases hf : m.find? q with
    | some v => exact .refl _ _ _
    | none =>
      have hrun : Grows e.tree (e.tree.rank q) m ((e.rule q).runState (e.consult d) m).2 :=
        (rule_asksOnly h q).runState_rel (R := Grows e.tree (e.tree.rank q)) (.refl _ _) .trans
          (fun r m hr => (ih r m).mono hr.rank_lt) m
      rcases hr : (e.rule q).runState (e.consult d) m with ⟨fault | v, m₁⟩ <;> rw [hr] at hrun
      · exact hrun.mono (Nat.le_succ _)
      · refine (hrun.mono (Nat.le_succ _)).trans (.keep ?_ fun hs _ => rule_admits hr hs)
        rw [hrun.later le_rfl, hf]

end Evidence

/-! ### Runs -/

/-- What has been counted so far, and what has been derived from it. -/
structure State where
  counters : Counters
  memory : Memory

/-- A count is asked for, or a tracker is given hits. -/
inductive Step where
  | ask (q : Query)
  | add (tracker : TrackerId) (n : Int)

def Step.run (t : Tree) (width : Width) : Step → State → State
  | .ask q, s => { s with memory := (Evidence.resume ⟨t, s.counters, width⟩ (count q) s.memory).2 }
  | .add tracker n, s => { s with counters := s.counters.add tracker n }

def State.run (t : Tree) (width : Width) (s : State) (steps : List Step) : State :=
  steps.foldl (fun s step => step.run t width s) s

namespace State

variable {t : Tree} {width : Width} {s : State}

/-- What lasts along a run. -/
structure Sound (t : Tree) (s : State) : Prop where
  sized : s.memory.Sized t
  consistent : s.memory.Consistent t

theorem step_grows (h : t.Linked) (width : Width) (step : Step) (s : State) :
    ∃ rank, Memory.Grows t rank s.memory (step.run t width s).memory := by
  cases step with
  | ask q =>
    refine ⟨t.rank q + 1, ?_⟩
    rw [Step.run, Evidence.resume, Evidence.runState_count]
    exact Evidence.consult_grows (e := ⟨t, s.counters, width⟩) h _ q s.memory
  | add tracker n => exact ⟨0, .refl _ _ _⟩

theorem run_sound (h : t.Linked) (hs : s.Sound t) (steps : List Step) :
    (s.run t width steps).Sound t ∧ ∀ {q v}, s.memory.find? q = some v →
      (s.run t width steps).memory.find? q = some v := by
  induction steps generalizing s with
  | nil => exact ⟨hs, id⟩
  | cons step steps ih =>
    obtain ⟨rank, hg⟩ := step_grows h width step s
    obtain ⟨hrun, hfound⟩ := ih (s := step.run t width s)
      ⟨hg.sized hs.sized, hg.consistent hs.sized hs.consistent⟩
    exact ⟨hrun, fun hf => hfound (hg.found hf)⟩

/-- However lookups and new hits follow each other, the counts kept are consistent after every
step, and a count once kept is kept unchanged ever after. -/
theorem run_consistent (ht : t.Loaded) (width : Width) (counters : Counters)
    (steps later : List Step) :
    let s := State.run t width ⟨counters, .blank t.size⟩ steps
    s.memory.Consistent t ∧ ∀ q v, s.memory.find? q = some v →
      (s.run t width later).memory.find? q = some v := by
  intro s
  have hs : s.Sound t := (run_sound ht.linked ⟨.blank t, .blank t⟩ steps).1
  exact ⟨hs.consistent, fun q v hf => (run_sound ht.linked hs later).2 hf⟩

/-- A count that was derived when hits had been taken back stays when they are given again. -/
theorem run_consistent_retry :
    let s := State.run .retry .word
      ⟨.ofList [(1, 1), (2, 1), (3, 2), (4, 3), (5, 1)], .blank 8⟩
      [.ask (.completion 3), .add 4 (-3), .ask (.completion 3)]
    s.memory.find? (.completion 3) = some 1 ∧ s.memory.Consistent .retry ∧
      (s.run .retry .word [.add 4 1, .ask (.completion 3)]).memory.find? (.completion 3) =
        some 1 := by
  intro s
  have h := run_consistent Tree.retry_loaded .word
    (.ofList [(1, 1), (2, 1), (3, 2), (4, 3), (5, 1)])
    [.ask (.completion 3), .add 4 (-3), .ask (.completion 3)] [.add 4 1, .ask (.completion 3)]
  have hf : s.memory.find? (.completion 3) = some 1 := by decide +kernel
  exact ⟨hf, h.1, h.2 _ _ hf⟩

end State

end BranchTally.Flow
