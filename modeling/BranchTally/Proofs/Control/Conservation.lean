import BranchTally.Proofs.Control.Evaluation
import BranchTally.Proofs.Tree.Linked

/-! Control is conserved. Along a trail a child begins as often as its parent enters it, the parent
goes on from a child as often as the child was left that way, and what begins is left once. Within a
node, an event that control can only show together with others is shown as often as they are. -/

namespace BranchTally.Control

variable {t : Tree} {i q c : NodeId} {n : Node} {p : Point} {o x : Outcome}
  {trail trails : List Transition} {e e₁ e₂ : Event}

/-! ### Steps that control can take -/

theorem Along.mem {origin : Point} {ids : List NodeId} (h : Along origin o ids p (some c)) :
    c ∈ ids := by
  cases h with
  | first h => exact List.mem_of_getElem? h
  | onward hk h => exact List.mem_of_getElem? h

theorem Goes.mem_present {raises : Prop} {construct : Construct} {fired : List Role}
    (h : Goes raises construct p fired (.enter c)) : c ∈ construct.present := by
  cases h with
  | operand h => exact h.mem
  | statement h => exact h.mem
  | argument h => simp [Construct.present, h.mem]
  | offer h => simp [Construct.present, h.mem]
  | _ => simp [Construct.present]

theorem Evaluates.valid (h : Evaluates t i p o trail) : ∀ tr ∈ trail, tr.Valid t := by
  induction h with
  | leave h => simpa using h
  | enter h _ _ ihc iho =>
    intro tr htr
    rcases List.mem_cons.mp htr with rfl | htr
    · exact h
    · exact (List.mem_append.mp htr).elim (ihc tr) (iho tr)

theorem Runs.valid (h : Runs t trail) : ∀ tr ∈ trail, tr.Valid t := by
  induction h with
  | never => simp
  | again h _ ih =>
    intro tr htr
    exact (List.mem_append.mp htr).elim (h.valid tr) (ih tr)

/-- Only its parent enters a child. -/
theorem parent_of_enter (ht : t.Linked) {fired : List Role}
    (h : Transition.Valid t ⟨i, p, fired, .enter c⟩) (hn : t.nodes[c]? = some n) :
    n.parent = some i := by
  obtain ⟨m, hm, hg⟩ := h
  exact ht.parent_eq hm hg.mem_present hn

/-! ### Counting along a trail -/

@[simp] theorem times_nil : times [] i e = 0 := rfl

@[simp] theorem times_append :
    times (trail ++ trails) i e = times trail i e + times trails i e :=
  List.countP_append

theorem times_cons (tr : Transition) :
    times (tr :: trail) i e = (if tr.node = i ∧ tr.shows e then 1 else 0) + times trail i e := by
  simp [times, List.countP_cons, Nat.add_comm]

theorem times_le_length : times trail i e ≤ trail.length := List.countP_le_length

/-- What begins is left once, be it the node itself or one below it. -/
theorem Evaluates.times_left (h : Evaluates t i p o trail) (c : NodeId) :
    times trail c (.left .completed) + times trail c (.left .raised) +
        times trail c (.left .declined) =
      times trail c .begun + if i = c ∧ p ≠ .start then 1 else 0 := by
  induction h with
  | @leave i p fired o h =>
    simp only [times_cons, times_nil, Transition.shows]
    cases o <;> by_cases hp : p = .start <;> by_cases hi : i = c <;> simp [hp, hi]
  | @enter i d p _ _ _ _ _ h _ _ ihc iho =>
    simp only [times_cons, times_append, Transition.shows]
    by_cases hp : p = .start <;> by_cases hi : i = c <;> simp_all <;> omega

/-- A child begins as often as its parent enters it. -/
theorem Evaluates.times_begun (ht : t.Linked) (hn : t.nodes[c]? = some n)
    (hq : n.parent = some q) (h : Evaluates t i p o trail) :
    times trail c .begun = times trail q (.entered c) + if i = c ∧ p = .start then 1 else 0 := by
  induction h with
  | leave h => simp [times_cons, Transition.shows]
  | @enter i d p _ _ _ _ _ h _ _ ihc iho =>
    simp only [times_cons, times_append, Transition.shows]
    by_cases hd : d = c
    · subst hd
      have hi := parent_of_enter ht h hn
      rw [hq] at hi
      cases hi
      by_cases hp : p = .start <;> by_cases hi : i = d <;> simp_all <;> omega
    · by_cases hp : p = .start <;> by_cases hi : i = c <;> simp_all
      omega

/-- Its parent goes on from a child as often as the child is left that way. -/
theorem Evaluates.times_resumed (ht : t.Linked) (hn : t.nodes[c]? = some n)
    (hq : n.parent = some q) (x : Outcome) (h : Evaluates t i p o trail) :
    times trail q (.resumed [c] x) + (if i = c ∧ o = x then 1 else 0) =
      times trail c (.left x) + if i = q ∧ p = .after c x then 1 else 0 := by
  induction h with
  | @leave i p _ o h =>
    by_cases hp : p = .after c x <;> by_cases ho : o = x <;>
      simp [times_cons, Transition.shows, hp, ho, Nat.add_comm]
  | @enter i d p _ _ o' _ _ h _ _ ihc iho =>
    simp only [times_cons, times_append, Transition.shows]
    by_cases hd : d = c
    · subst hd
      have hi := parent_of_enter ht h hn
      rw [hq] at hi
      cases hi
      by_cases hp : p = .after d x <;> by_cases ho : o' = x <;> simp_all <;> omega
    · by_cases hp : p = .after c x <;> simp_all <;> omega

/-! ### Counting along a run -/

namespace Runs

variable (hr : Runs t trail)

include hr

theorem times_left (c : NodeId) :
    times trail c (.left .completed) + times trail c (.left .raised) +
      times trail c (.left .declined) = times trail c .begun := by
  induction hr with
  | never => rfl
  | again h _ ih =>
    have := h.times_left c
    simp at this
    simp only [times_append]
    omega

theorem times_begun (ht : t.Linked) (hn : t.nodes[c]? = some n) (hq : n.parent = some q) :
    times trail c .begun = times trail q (.entered c) := by
  have h0 : 0 ≠ c := by
    rintro rfl
    simp [(ht.root hn).mpr rfl] at hq
  induction hr with
  | never => rfl
  | again h _ ih =>
    have := h.times_begun ht hn hq
    rw [times_append, times_append, ih, this, if_neg (by simp [h0])]
    rfl

theorem times_resumed (ht : t.Linked) (hn : t.nodes[c]? = some n) (hq : n.parent = some q)
    (x : Outcome) : times trail q (.resumed [c] x) = times trail c (.left x) := by
  have h0 : 0 ≠ c := by
    rintro rfl
    simp [(ht.root hn).mpr rfl] at hq
  induction hr with
  | never => rfl
  | again h _ ih =>
    have := h.times_resumed ht hn hq x
    simp [h0] at this
    rw [times_append, times_append, ih, this]

/-! ### Events within a node -/

/-- Events that a node always shows together it shows equally often. -/
theorem times_congr (hn : t.nodes[i]? = some n)
    (h : ∀ {p fired m}, Passes n p fired m →
      (Transition.shows ⟨i, p, fired, m⟩ e ↔ Transition.shows ⟨i, p, fired, m⟩ e₁)) :
    times trail i e = times trail i e₁ := by
  refine List.countP_congr fun ⟨j, p, fired, m⟩ htr => ?_
  obtain ⟨n', hn', hp⟩ := hr.valid _ htr
  simp only [Bool.and_eq_true, decide_eq_true_eq]
  refine and_congr_right fun hj => ?_
  subst hj
  rw [hn] at hn'
  cases hn'
  exact h hp

/-- An event that is shown with either of two others is shown as often as both together. -/
theorem times_split (hn : t.nodes[i]? = some n)
    (h : ∀ {p fired m}, Passes n p fired m →
      (Transition.shows ⟨i, p, fired, m⟩ e ↔
        (Transition.shows ⟨i, p, fired, m⟩ e₁ ∨ Transition.shows ⟨i, p, fired, m⟩ e₂)) ∧
      ¬(Transition.shows ⟨i, p, fired, m⟩ e₁ ∧ Transition.shows ⟨i, p, fired, m⟩ e₂)) :
    times trail i e = times trail i e₁ + times trail i e₂ := by
  have hv := hr.valid
  clear hr
  induction trail with
  | nil => rfl
  | cons tr trail ih =>
    have ih := ih fun tr htr => hv tr (List.mem_cons_of_mem _ htr)
    obtain ⟨n', hn', hp⟩ := hv tr List.mem_cons_self
    simp only [times_cons]
    by_cases hj : tr.node = i
    · subst hj
      rw [hn] at hn'
      cases hn'
      obtain ⟨hor, hand⟩ := h hp
      by_cases h₁ : tr.shows e₁ <;> by_cases h₂ : tr.shows e₂ <;> simp_all <;> omega
    · simp [hj, ih]

/-- An event that a node never shows. -/
theorem times_eq_zero (hn : t.nodes[i]? = some n)
    (h : ∀ {p fired m}, Passes n p fired m → ¬Transition.shows ⟨i, p, fired, m⟩ e) :
    times trail i e = 0 := by
  refine List.countP_eq_zero.mpr fun ⟨j, p, fired, m⟩ htr => ?_
  obtain ⟨n', hn', hp⟩ := hr.valid _ htr
  simp only [Bool.and_eq_true, decide_eq_true_eq, not_and]
  intro hj
  subst hj
  rw [hn] at hn'
  cases hn'
  exact h hp

end Runs

/-! ### Hits of trackers -/

theorem Goes.fired_nodup {raises : Prop} {construct : Construct} {fired : List Role} {m : Move}
    (h : Goes raises construct p fired m) : (.entry :: fired).Nodup := by
  cases h <;> simp [found] <;> split <;> simp

theorem Transition.Valid.count_hits {tr : Transition} (h : tr.Valid t) (hi : Instrumented t)
    (hn : t.nodes[i]? = some n) {role : Role} {k : TrackerId} (hk : n.tracker? role = some k) :
    (tr.hits t).count k = if tr.node = i ∧ tr.shows (.fired role) then 1 else 0 := by
  obtain ⟨m, hm, hg⟩ := h
  have hd : tr.roles.Nodup := by
    unfold roles
    split
    · exact hg.fired_nodup
    · exact hg.fired_nodup.tail
  simp only [hits, hm, List.count_filterMap, shows, decide_eq_true_eq]
  by_cases hj : tr.node = i
  · rw [hj, hn] at hm
    cases hm
    have hp : ∀ r ∈ tr.roles, (n.tracker? r == some k) = true ↔ (r == role) = true := by
      intro r _
      simp only [beq_iff_eq]
      constructor
      · intro hr
        exact (hi.distinct hn hr hn hk).2
      · rintro rfl
        exact hk
    rw [List.countP_congr hp, ← List.count_eq_countP, hd.count]
    simp [hj]
  · rw [if_neg (by simp [hj]), List.countP_eq_zero]
    intro r _ hr
    exact hj (hi.distinct hm (by simpa using hr) hn hk).1

/-- A node fires the role of its entry whenever it begins. -/
theorem Runs.times_entry (hr : Runs t trail) (hn : t.nodes[i]? = some n) :
    times trail i (.fired .entry) = times trail i .begun := by
  refine hr.times_congr hn fun h => ?_
  simp [Transition.shows, (List.nodup_cons.mp h.fired_nodup).1]

/-- A tracker is hit as often as its node fires its role. -/
theorem Runs.count_hits (hr : Runs t trail) (hi : Instrumented t) (hn : t.nodes[i]? = some n)
    {role : Role} {k : TrackerId} (hk : n.tracker? role = some k) :
    (trail.flatMap (·.hits t)).count k = times trail i (.fired role) := by
  have hv := hr.valid
  clear hr
  induction trail with
  | nil => rfl
  | cons tr trail ih =>
    rw [List.flatMap_cons, List.count_append, times_cons,
      (hv tr List.mem_cons_self).count_hits hi hn hk,
      ih fun tr htr => hv tr (List.mem_cons_of_mem _ htr)]

theorem recorded_record (t : Tree) (trail : List Transition) :
    Recorded t trail (record t trail) := by
  intro i n role k _ _
  unfold record
  induction trail.flatMap (·.hits t) with
  | nil => rfl
  | cons l ls ih =>
    rw [List.foldr_cons, Counters.total_add, ih, List.count_cons]
    by_cases h : l = k <;> simp [h, Int.add_comm]

end BranchTally.Control
