import BranchTally.Proofs.Control.Conservation
import BranchTally.Proofs.Tree.Slots

/-! What each construct makes of the events within it: how often each child is entered, how often
the construct completes and how often it goes where it has no child, by how often control begins it,
goes on from its children and fires its trackers. -/

namespace BranchTally.Control

variable {t : Tree} {i : NodeId} {n : Node} {p origin : Point} {o : Outcome}
  {trail : List Transition} {ids : List NodeId} {next : Slot} {id : NodeId} {k : Nat}

/-! ### Along a list -/

/-- The first of some nodes follows the origin and nothing else. -/
theorem Along.origin_iff (h : Along origin o ids p next) (hd : ids.Nodup)
    (ho : ∀ id ∈ ids, origin ≠ .after id o) : p = origin ↔ next = ids[0]? := by
  cases h with
  | first h => simp [h]
  | @onward k id _ hk h =>
    subst h
    have hlt := (List.getElem?_eq_some_iff.mp hk).1
    constructor
    · intro h
      exact absurd h.symm (ho id (List.mem_of_getElem? hk))
    · intro h
      have := (List.getElem?_inj (Nat.zero_lt_of_lt hlt) hd).mp h.symm
      omega

/-- The next of some nodes follows the one before it and nothing else. -/
theorem Along.after_iff (h : Along origin o ids p next) (hd : ids.Nodup)
    (ho : ∀ id ∈ ids, origin ≠ .after id o) (hk : ids[k]? = some id) :
    p = .after id o ↔ next = ids[k + 1]? := by
  have hlt := (List.getElem?_eq_some_iff.mp hk).1
  cases h with
  | first h =>
    subst h
    constructor
    · intro h
      exact absurd h (ho id (List.mem_of_getElem? hk))
    · intro h
      have := (List.getElem?_inj (Nat.zero_lt_of_lt hlt) hd).mp h
      omega
  | @onward l id' _ hl h =>
    subst h
    have hl' := (List.getElem?_eq_some_iff.mp hl).1
    constructor
    · rintro ⟨⟩
      rw [(List.getElem?_inj hlt hd).mp (hk.trans hl.symm)]
    · intro h
      have hkl : k = l := by
        by_cases hlast : k + 1 < ids.length
        · have := (List.getElem?_inj hlast hd).mp h.symm
          omega
        · have := List.getElem?_eq_none_iff.mp (h.trans (List.getElem?_eq_none (by omega)))
          omega
      rw [← hkl, hk] at hl
      cases hl
      rfl

theorem Along.ne_start {c : NodeId} {x : Outcome} (h : Along (.after c x) o ids p next) :
    p ≠ .start := by
  cases h <;> simp

theorem Along.ne_completed {c b : NodeId} (h : Along (.after c .raised) .declined ids p next) :
    p ≠ .after b .completed := by
  cases h <;> simp

/-- Nothing follows the last of some nodes. -/
theorem Along.last_iff (h : Along origin o ids p next) (hd : ids.Nodup)
    (ho : ∀ id ∈ ids, origin ≠ .after id o) (hl : ids.getLast? = some id) :
    p = .after id o ↔ next = none := by
  rw [List.getLast?_eq_getElem?] at hl
  rw [h.after_iff hd ho hl, List.getElem?_eq_none (by omega)]

section

variable (ht : t.Linked) (hr : Runs t trail) (hn : t.nodes[i]? = some n)

include ht hr hn

/-! ### Expressions and sequences -/

/-- The nodes that a construct runs through one after the other. -/
inductive Serial : Construct → List NodeId → Prop where
  | expression {type : String} {ids : List NodeId} : Serial (.expression type ids) ids
  | sequence {explicit : Bool} {ids : List NodeId} : Serial (.sequence explicit ids) ids

omit ht hr hn in
theorem Serial.present {construct : Construct} (h : Serial construct ids) :
    construct.present = ids := by
  cases h <;> rfl

omit ht hr hn in
/-- Control is on its way through the nodes, unless one of them raised. -/
theorem Serial.cases {fired : List Role} {m : Move} (hs : Serial n.construct ids)
    (h : Passes n p fired m) :
    (∃ next, Along .start .completed ids p next ∧ (∀ c, m = .enter c ↔ next = some c) ∧
      ((n.kind = .expression → n.tracker? .completion = none) →
        (m = .leave .completed ↔ next = none))) ∨
      ∃ c, p = .after c .raised ∧ m = .leave .raised := by
  unfold Passes at h
  unfold Node.kind
  generalize n.construct = construct at hs h
  cases hs with
  | expression =>
    cases h with
    | @operand _ _ _ c h => exact .inl ⟨some c, h, by simp⟩
    | computed h => exact .inl ⟨none, h, by simp⟩
    | failed hr h =>
      refine .inl ⟨none, h, by simp, fun hq => ?_⟩
      rw [hq rfl] at hr
      cases hr
    | through => exact .inr ⟨_, rfl, rfl⟩
  | sequence =>
    cases h with
    | @statement _ _ _ c h => exact .inl ⟨some c, h, by simp⟩
    | finished h => exact .inl ⟨none, h, by simp⟩
    | through => exact .inr ⟨_, rfl, rfl⟩

theorem serial_first {c : NodeId} (hs : Serial n.construct ids) (h0 : ids[0]? = some c) :
    times trail i (.entered c) = times trail i .begun := by
  have hd := hs.present ▸ present_nodup ht hn
  refine hr.times_congr hn fun h => ?_
  rcases hs.cases h with ⟨next, ha, hm, -⟩ | ⟨c, rfl, rfl⟩
  · simp [Transition.shows, hm, ha.origin_iff hd, h0]
  · simp [Transition.shows]

theorem serial_next {b c : NodeId} (hs : Serial n.construct ids) (hk : ids[k]? = some b)
    (hk' : ids[k + 1]? = some c) :
    times trail i (.entered c) = times trail i (.resumed [b] .completed) := by
  have hd := hs.present ▸ present_nodup ht hn
  refine hr.times_congr hn fun h => ?_
  rcases hs.cases h with ⟨next, ha, hm, -⟩ | ⟨c, rfl, rfl⟩
  · simp [Transition.shows, hm, ha.after_iff hd (by simp) hk, hk']
  · simp [Transition.shows]

/-- Without a tracker of its own a construct completes when the last of its nodes does. -/
theorem serial_left (hs : Serial n.construct ids)
    (hq : n.kind = .expression → n.tracker? .completion = none) :
    times trail i (.left .completed) =
      times trail i (ids.getLast?.elim .begun (.resumed [·] .completed)) := by
  have hd := hs.present ▸ present_nodup ht hn
  cases hl : ids.getLast? with
  | some b =>
    refine hr.times_congr hn fun h => ?_
    rcases hs.cases h with ⟨next, ha, -, hm⟩ | ⟨c, rfl, rfl⟩
    · simp [Transition.shows, hm hq, ha.last_iff hd (by simp) hl]
    · simp [Transition.shows]
  | none =>
    refine hr.times_congr hn fun h => ?_
    cases List.getLast?_eq_none_iff.mp hl
    rcases hs.cases h with ⟨next, ha, -, hm⟩ | ⟨c, rfl, rfl⟩
    · simp [Transition.shows, hm hq, ha.origin_iff hd]
    · simp [Transition.shows]

omit ht in
/-- A tracker for completion fires whenever its expression completes. -/
theorem expression_left {type : String} (hc : n.construct = .expression type ids) :
    times trail i (.left .completed) = times trail i (.fired .completion) := by
  refine hr.times_congr hn fun h => ?_
  rw [Passes, hc] at h
  cases h <;> simp [Transition.shows]

/-! ### Constructs that choose -/

omit ht in
theorem emptyBody_left (hc : n.construct = .emptyBody) :
    times trail i (.left .completed) = times trail i .begun := by
  refine hr.times_congr hn fun h => ?_
  rw [Passes, hc] at h
  cases h <;> simp [Transition.shows]

section

variable {style : Style} {c a b : NodeId}
  (hc : n.construct = .conditional style (some c) (some a) (some b))

include hc

theorem conditional_condition : times trail i (.entered c) = times trail i .begun := by
  obtain ⟨hca, hcb, -⟩ := conditional_nodup hc (present_nodup ht hn)
  refine hr.times_congr hn fun h => ?_
  rw [Passes, hc] at h
  cases h <;> simp [Transition.shows, hca.symm, hcb.symm]

theorem conditional_whenTrue :
    times trail i (.entered a) = times trail i (.fired .truthy) := by
  obtain ⟨hca, -, hab⟩ := conditional_nodup hc (present_nodup ht hn)
  refine hr.times_congr hn fun h => ?_
  rw [Passes, hc] at h
  cases h <;> simp [Transition.shows, hca, hab.symm]

/-- A condition that completed has chosen a branch. -/
theorem conditional_chosen : times trail i (.resumed [c] .completed) =
    times trail i (.entered a) + times trail i (.entered b) := by
  obtain ⟨hca, hcb, hab⟩ := conditional_nodup hc (present_nodup ht hn)
  refine hr.times_split hn fun h => ?_
  rw [Passes, hc] at h
  cases h <;> simp [Transition.shows, hca, hca.symm, hcb, hcb.symm, hab, hab.symm]

theorem conditional_left : times trail i (.left .completed) =
    times trail i (.resumed [a] .completed) + times trail i (.resumed [b] .completed) := by
  obtain ⟨hca, hcb, hab⟩ := conditional_nodup hc (present_nodup ht hn)
  refine hr.times_split hn fun h => ?_
  rw [Passes, hc] at h
  cases h <;> simp [Transition.shows, hca, hcb, hab, hab.symm]

end

/-! ### Short-circuits -/

section

variable {op : Connective} {l r : NodeId}
  (hc : n.construct = .shortCircuit op (some l) (some r))

include hc

theorem shortCircuit_first : times trail i (.entered l) = times trail i .begun := by
  have hd := shortCircuit_nodup hc (present_nodup ht hn)
  refine hr.times_congr hn fun h => ?_
  rw [Passes, hc] at h
  cases h <;> simp [Transition.shows, hd.symm]

theorem shortCircuit_right : times trail i (.entered r) = times trail i (.fired .conditional) := by
  have hd := shortCircuit_nodup hc (present_nodup ht hn)
  refine hr.times_congr hn fun h => ?_
  rw [Passes, hc] at h
  cases h <;> simp [Transition.shows, hd]

theorem shortCircuit_resumed : times trail i (.resumed [l] .completed) =
    times trail i (.entered r) +
      times trail i (.went (.after l .completed) (.leave .completed)) := by
  have hd := shortCircuit_nodup hc (present_nodup ht hn)
  refine hr.times_split hn fun h => ?_
  rw [Passes, hc] at h
  cases h <;> simp [Transition.shows, hd, hd.symm]

theorem shortCircuit_left : times trail i (.left .completed) =
    times trail i (.resumed [r] .completed) +
      times trail i (.went (.after l .completed) (.leave .completed)) := by
  have hd := shortCircuit_nodup hc (present_nodup ht hn)
  refine hr.times_split hn fun h => ?_
  rw [Passes, hc] at h
  cases h <;> simp [Transition.shows, hd, hd.symm]

end

/-! ### Safe navigation -/

section

variable {r : NodeId} (hc : n.construct = .safeNavigation (some r) ids)

include hc

omit ht hr hn hc in
theorem receiver_ne (hr : r ∉ ids) :
    ∀ id ∈ ids, Point.after r .completed ≠ .after id .completed := by
  rintro id hid ⟨⟩
  exact hr hid

theorem safeNavigation_receiver : times trail i (.entered r) = times trail i .begun := by
  have hd := safeNavigation_nodup hc (present_nodup ht hn)
  refine hr.times_congr hn fun h => ?_
  rw [Passes, hc] at h
  cases h with
  | argument h =>
    have hr : r ≠ _ := fun hr => hd.1 (hr ▸ h.mem)
    simp [Transition.shows, h.ne_start, hr.symm]
  | called h => simp [Transition.shows, h.ne_start]
  | callFailed _ h => simp [Transition.shows, h.ne_start]
  | _ => simp [Transition.shows]

theorem safeNavigation_first {c : NodeId} (h0 : ids[0]? = some c) :
    times trail i (.entered c) = times trail i (.fired .nonNil) := by
  have hd := safeNavigation_nodup hc (present_nodup ht hn)
  have ho := receiver_ne hd.1
  have hcr : r ≠ c := fun h => hd.1 (h ▸ List.mem_of_getElem? h0)
  refine hr.times_congr hn fun h => ?_
  rw [Passes, hc] at h
  cases h with
  | argument h => simp [Transition.shows, h.origin_iff hd.2 ho, h0]
  | called h => simp [Transition.shows, h.origin_iff hd.2 ho, h0]
  | callFailed _ h => simp [Transition.shows, h.origin_iff hd.2 ho, h0]
  | _ => simp [Transition.shows, hcr]

theorem safeNavigation_next {b c : NodeId} (hk : ids[k]? = some b) (hk' : ids[k + 1]? = some c) :
    times trail i (.entered c) = times trail i (.resumed [b] .completed) := by
  have hd := safeNavigation_nodup hc (present_nodup ht hn)
  have ho := receiver_ne hd.1
  have hbr : r ≠ b := fun h => hd.1 (h ▸ List.mem_of_getElem? hk)
  have hcr : r ≠ c := fun h => hd.1 (h ▸ List.mem_of_getElem? hk')
  refine hr.times_congr hn fun h => ?_
  rw [Passes, hc] at h
  cases h with
  | argument h => simp [Transition.shows, h.after_iff hd.2 ho hk, hk']
  | called h => simp [Transition.shows, h.after_iff hd.2 ho hk, hk']
  | callFailed _ h => simp [Transition.shows, h.after_iff hd.2 ho hk, hk']
  | _ => simp [Transition.shows, hcr, hbr]

omit ht in
/-- A receiver that completed is missing or there. -/
theorem safeNavigation_resumed : times trail i (.resumed [r] .completed) =
    times trail i (.fired .nilReceiver) + times trail i (.fired .nonNil) := by
  refine hr.times_split hn fun h => ?_
  rw [Passes, hc] at h
  cases h <;> simp [Transition.shows]

omit ht in
theorem safeNavigation_left : times trail i (.left .completed) =
    times trail i (.fired .nilReceiver) + times trail i (.fired .completion) := by
  refine hr.times_split hn fun h => ?_
  rw [Passes, hc] at h
  cases h <;> simp [Transition.shows]

/-- Without a tracker for completion a call completes when its last argument does. -/
theorem safeNavigation_called (hq : n.tracker? .completion = none) :
    times trail i (.fired .completion) =
      times trail i (ids.getLast?.elim (.fired .nonNil) (.resumed [·] .completed)) := by
  have hd := safeNavigation_nodup hc (present_nodup ht hn)
  have ho := receiver_ne hd.1
  cases hl : ids.getLast? with
  | some b =>
    have hbr : r ≠ b := fun h => hd.1 (h ▸ List.mem_of_getLast? hl)
    refine hr.times_congr hn fun h => ?_
    rw [Passes, hc, hq] at h
    cases h with
    | argument h => simp [Transition.shows, h.last_iff hd.2 ho hl]
    | called h => simp [Transition.shows, h.last_iff hd.2 ho hl]
    | callFailed hr _ => cases hr
    | _ => simp [Transition.shows, hbr]
  | none =>
    cases List.getLast?_eq_none_iff.mp hl
    refine hr.times_congr hn fun h => ?_
    rw [Passes, hc, hq] at h
    cases h with
    | argument h => cases h.mem
    | called h => simp [Transition.shows, h.origin_iff hd.2 ho]
    | callFailed hr _ => cases hr
    | _ => simp [Transition.shows]

end

/-! ### Loops -/

section

variable {polarity : Polarity} {test : LoopTest} {c b : NodeId}
  (hc : n.construct = .loop polarity test (some c) (some b))

include hc

theorem loop_body : times trail i (.entered b) = times trail i (.fired .body) := by
  have hd := loop_nodup hc (present_nodup ht hn)
  refine hr.times_congr hn fun h => ?_
  rw [Passes, hc] at h
  cases h <;> simp [Transition.shows, hd]

/-- A loop that tests beforehand tests as soon as it begins. -/
theorem loop_condition : times trail i (.entered c) =
    (if test = .before then times trail i .begun else 0) +
      times trail i (.resumed [b] .completed) := by
  have hd := loop_nodup hc (present_nodup ht hn)
  cases test with
  | before =>
    refine hr.times_split hn fun h => ?_
    rw [Passes, hc] at h
    cases h <;> simp [Transition.shows, hd, hd.symm]
  | after =>
    rw [if_neg (by simp), Nat.zero_add]
    refine hr.times_congr hn fun h => ?_
    rw [Passes, hc] at h
    cases h <;> simp [Transition.shows, hd, hd.symm]

/-- After its condition a loop is repeated or left. -/
theorem loop_resumed : times trail i (.resumed [c] .completed) =
    times trail i (.went (.after c .completed) (.enter b)) + times trail i (.left .completed) := by
  have hd := loop_nodup hc (present_nodup ht hn)
  refine hr.times_split hn fun h => ?_
  rw [Passes, hc] at h
  cases h <;> simp [Transition.shows, hd, hd.symm]

/-- A loop that tests afterwards enters its body as soon as it begins. -/
theorem loop_repeated : times trail i (.entered b) =
    (if test = .after then times trail i .begun else 0) +
      times trail i (.went (.after c .completed) (.enter b)) := by
  have hd := loop_nodup hc (present_nodup ht hn)
  cases test with
  | before =>
    rw [if_neg (by simp), Nat.zero_add]
    refine hr.times_congr hn fun h => ?_
    rw [Passes, hc] at h
    cases h <;> simp [Transition.shows, hd, hd.symm]
  | after =>
    refine hr.times_split hn fun h => ?_
    rw [Passes, hc] at h
    cases h <;> simp [Transition.shows, hd, hd.symm]

end

/-! ### Rescues -/

section

variable {w : NodeId} {otherwise : Slot} (hc : n.construct = .rescue (some w) ids otherwise)

include hc

theorem rescue_watched : times trail i (.entered w) = times trail i .begun := by
  obtain ⟨hw, -, ho, -⟩ := rescue_nodup hc (present_nodup ht hn)
  refine hr.times_congr hn fun h => ?_
  rw [Passes, hc] at h
  cases h with
  | unharmed => simp [Transition.shows, ho _ rfl]
  | offer h => simp [Transition.shows, h.ne_start, hw _ h.mem]
  | unhandled h => simp [Transition.shows, h.ne_start]
  | _ => simp [Transition.shows]

theorem rescue_otherwise {x : NodeId} (hx : otherwise = some x) :
    times trail i (.entered x) = times trail i (.resumed [w] .completed) := by
  subst hx
  obtain ⟨hw, -, ho, hne⟩ := rescue_nodup hc (present_nodup ht hn)
  have hxw := ho x rfl
  refine hr.times_congr hn fun h => ?_
  rw [Passes, hc] at h
  cases h with
  | watch => simp [Transition.shows, hxw.symm]
  | concluded => simp [Transition.shows, hxw]
  | offer h =>
    have hcx : _ ≠ x := fun he => hne _ h.mem (he ▸ rfl)
    simp [Transition.shows, h.ne_completed, hcx]
  | unhandled h => simp [Transition.shows, h.ne_completed]
  | handled hy => simp [Transition.shows, hw _ hy]
  | _ => simp [Transition.shows]

/-- What the protected body does, other than completing, is raise. -/
theorem rescue_declined : times trail i (.resumed [w] .declined) = 0 := by
  obtain ⟨hw, -⟩ := rescue_nodup hc (present_nodup ht hn)
  refine hr.times_eq_zero hn fun h => ?_
  rw [Passes, hc] at h
  cases h with
  | offer h | unhandled h =>
    cases h with
    | first => simp [Transition.shows]
    | onward hk => simp [Transition.shows, hw _ (List.mem_of_getElem? hk)]
  | _ => simp [Transition.shows]

/-- What the protected body raises is offered to the first handler arm. -/
theorem rescue_first {c : NodeId} (h0 : ids[0]? = some c) :
    times trail i (.entered c) = times trail i (.resumed [w] .raised) := by
  obtain ⟨hw, hd, -, hne⟩ := rescue_nodup hc (present_nodup ht hn)
  have hm := List.mem_of_getElem? h0
  refine hr.times_congr hn fun h => ?_
  rw [Passes, hc] at h
  cases h with
  | watch => simp [Transition.shows, (hw c hm).symm]
  | unharmed =>
    have hxc : _ ≠ c := fun he => hne c hm (congrArg some he)
    simp [Transition.shows, hxc]
  | offer h => simp [Transition.shows, h.origin_iff hd (by simp), h0]
  | unhandled h => simp [Transition.shows, h.origin_iff hd (by simp), h0]
  | through _ hg =>
    have hcw : _ ≠ w := fun he => hg (congrArg some he.symm)
    simp [Transition.shows, hcw]
  | _ => simp [Transition.shows]

/-- What a handler arm declines is offered to the next. -/
theorem rescue_next {b c : NodeId} (hk : ids[k]? = some b) (hk' : ids[k + 1]? = some c) :
    times trail i (.entered c) = times trail i (.resumed [b] .declined) := by
  obtain ⟨hw, hd, -, hne⟩ := rescue_nodup hc (present_nodup ht hn)
  have hm := List.mem_of_getElem? hk'
  refine hr.times_congr hn fun h => ?_
  rw [Passes, hc] at h
  cases h with
  | watch => simp [Transition.shows, (hw c hm).symm]
  | unharmed =>
    have hxc : _ ≠ c := fun he => hne c hm (congrArg some he)
    simp [Transition.shows, hxc]
  | offer h => simp [Transition.shows, h.after_iff hd (by simp) hk, hk']
  | unhandled h => simp [Transition.shows, h.after_iff hd (by simp) hk, hk']
  | _ => simp [Transition.shows]

theorem rescue_left : times trail i (.left .completed) =
    times trail i (.resumed [otherwise.getD w] .completed) +
      times trail i (.resumed ids .completed) := by
  obtain ⟨hw, -, ho, hne⟩ := rescue_nodup hc (present_nodup ht hn)
  have hlast : ∀ x ∈ ids, x ≠ otherwise.getD w := by
    intro x hx
    cases otherwise with
    | some y => exact fun he => hne x hx (congrArg some he.symm)
    | none => exact hw x hx
  have hwids : w ∉ ids := fun h => hw w h rfl
  refine hr.times_split hn fun h => ?_
  rw [Passes, hc] at h
  cases h with
  | unharmed => simp [Transition.shows, (ho _ rfl).symm, hwids]
  | concluded =>
    have hl : otherwise.getD w ∉ ids := fun h => hlast _ h rfl
    simp [Transition.shows, hl]
  | offer h => simp [Transition.shows, h.ne_completed]
  | unhandled h => simp [Transition.shows, h.ne_completed]
  | handled hx => simp [Transition.shows, hx, hlast _ hx]
  | _ => simp [Transition.shows]

end

omit ht in
/-- Going on from any of some children. -/
theorem resumed_cons {c : NodeId} {cs : List NodeId} (hc : c ∉ cs) (o : Outcome) :
    times trail i (.resumed (c :: cs) o) =
      times trail i (.resumed [c] o) + times trail i (.resumed cs o) := by
  refine hr.times_split hn fun {p _ _} _ => ?_
  simp only [Transition.shows, List.any_cons, List.any_nil, Bool.or_false, Bool.or_eq_true,
    decide_eq_true_eq, List.any_eq_true, true_and]
  rintro ⟨rfl, d, hd, ⟨⟩⟩
  exact hc hd

/-! ### Handler arms -/

section

variable {exceptions assignment body : Slot}
  (hc : n.construct = .handler exceptions assignment body)

include hc

omit ht hr hn in
theorem offered_ne (hd : n.construct.present.Nodup) {b : NodeId} (hb : body = some b) :
    offered exceptions ≠ .after b .completed ∧ ∀ x, exceptions = some x → x ≠ b := by
  rw [hc, hb] at hd
  cases exceptions with
  | none => simp [offered]
  | some x =>
    have hxb : x ≠ b := by
      rintro rfl
      simp [Construct.present] at hd
    simp [offered, hxb]

theorem handler_exceptions {x : NodeId} (hx : exceptions = some x) :
    times trail i (.entered x) = times trail i .begun := by
  subst hx
  have hd := present_nodup ht hn
  refine hr.times_congr hn fun h => ?_
  rw [Passes, hc] at h
  cases h with
  | accept =>
    have hxb := (offered_ne hc hd rfl).2 x rfl
    simp [Transition.shows, offered, hxb.symm]
  | _ => simp [Transition.shows, offered]

theorem handler_body {b : NodeId} (hb : body = some b) :
    times trail i (.entered b) = times trail i (.fired .enteredBody) := by
  have hxb := (offered_ne hc (present_nodup ht hn) hb).2
  refine hr.times_congr hn fun h => ?_
  rw [Passes, hc] at h
  subst hb
  cases h with
  | exceptions => simp [Transition.shows, hxb _ rfl]
  | _ => simp [Transition.shows]

/-- An arm takes the exception or declines it. -/
theorem handler_offered :
    times trail i (exceptions.elim .begun (.resumed [·] .completed)) =
      times trail i (.fired .enteredBody) + times trail i (.left .declined) := by
  have hd := present_nodup ht hn
  cases exceptions with
  | some x =>
    refine hr.times_split hn fun h => ?_
    rw [Passes, hc] at h
    cases h with
    | recovered =>
      have hxb := (offered_ne hc hd rfl).2 x rfl
      simp [Transition.shows, hxb.symm]
    | _ => simp [Transition.shows, offered]
  | none =>
    refine hr.times_split hn fun h => ?_
    rw [Passes, hc] at h
    cases h <;> simp [Transition.shows, offered]

theorem handler_left : times trail i (.left .completed) =
    times trail i (body.elim (.fired .enteredBody) (.resumed [·] .completed)) := by
  have hd := present_nodup ht hn
  cases body with
  | some b =>
    have ho := (offered_ne hc hd rfl).1
    refine hr.times_congr hn fun h => ?_
    rw [Passes, hc] at h
    cases h <;> simp [Transition.shows, ho]
  | none =>
    refine hr.times_congr hn fun h => ?_
    rw [Passes, hc] at h
    cases h <;> simp [Transition.shows]

end

end

end BranchTally.Control
