import Mathlib.Data.List.Forall2
import BranchTally.Proofs.Report.Tally

/-! What a report says before anything is counted. A construct that branches has a scheme, which
fixes the tags of its record and of its branches and what each branch is counted by; a plan of the
construct follows the scheme and adds the places. Whatever the counts and whatever is remembered of
them, a survey that comes to an end has gone through the plans of the nodes in their order. -/

namespace BranchTally

open BranchTally.Flow Report

/-! ### Schemes -/

/-- The body of a dispatch arm. -/
def Tree.armBody? (t : Tree) (arm : NodeId) : Slot :=
  (t.nodes[arm]?).bind fun n =>
    match n.construct with
    | .arm _ body => body
    | _ => none

/-- A branch that is counted by how often control reaches the node in a slot. -/
def entered (tag : Tag) (slot : Slot) : Tag × Option Tally :=
  (tag, slot.map fun id => .derived (.execution id))

/-- The tag of a construct that branches, and the tags of its branches in the order of the report,
each with what the branch is counted by. -/
def Construct.scheme (t : Tree) (id : NodeId) : Construct → Option (Tag × List (Tag × Option Tally))
  | .conditional .negated _ whenTrue whenFalse =>
    some (.unlessTag, [entered .elseTag whenTrue, entered .thenTag whenFalse])
  | .conditional _ _ whenTrue whenFalse =>
    some (.ifTag, [entered .thenTag whenTrue, entered .elseTag whenFalse])
  | .dispatch _ arms otherwise =>
    some (.caseTag,
      arms.map (fun arm => entered .whenTag (t.armBody? arm)) ++ [entered .elseTag otherwise])
  | .shortCircuit .conjunction _ right =>
    some (.conjunction,
      [entered .thenTag right, (.elseTag, some (.derived (.implicitBranch id)))])
  | .shortCircuit .disjunction _ right =>
    some (.disjunction,
      [entered .elseTag right, (.thenTag, some (.derived (.implicitBranch id)))])
  | .safeNavigation _ _ =>
    some (.safeNavigation,
      [(.thenTag, some (.hits .nonNil)), (.elseTag, some (.derived (.implicitBranch id)))])
  | .loop .whileTrue _ _ body => some (.whileTag, [entered .bodyTag body])
  | .loop .untilTrue _ _ body => some (.untilTag, [entered .bodyTag body])
  | _ => none

theorem Construct.isSome_scheme (c : Construct) (t : Tree) (id : NodeId) :
    (c.scheme t id).isSome = c.kind.isBranching := by
  cases c with
  | conditional style => cases style <;> rfl
  | shortCircuit op => cases op <;> rfl
  | loop polarity => cases polarity <;> rfl
  | _ => rfl

/-! ### Plans -/

namespace Report

/-- A branch, if it can be placed, has this tag and is counted by this. -/
def Promises (branch : Except Fault Branch) (out : Tag × Option Tally) : Prop :=
  ∀ b, branch = .ok b → (b.tag, some b.tally) = out

theorem Promises.ok {b : Branch} {out : Tag × Option Tally} (h : (b.tag, some b.tally) = out) :
    Promises (.ok b) out := by
  intro b' hb
  cases hb
  exact h

theorem reached_eq_ok {tag : Tag} {span : Except Fault Span} {id : NodeId} {b : Branch} :
    reached tag span id = .ok b ↔
      ∃ place, span = .ok place ∧ b = ⟨tag, place, .derived (.execution id)⟩ := by
  unfold reached
  cases span <;> simp [bind, Except.bind, pure, Except.pure, eq_comm]

theorem promises_reached (tag : Tag) (span : Except Fault Span) (id : NodeId) :
    Promises (reached tag span id) (entered tag (some id)) := by
  intro b hb
  obtain ⟨place, -, rfl⟩ := reached_eq_ok.mp hb
  rfl

/-- A plan of a construct that follows its scheme, the branches of a dispatch being those of its
arms in their order. -/
structure Plan.Follows (p : Plan) (s : Site) (id : NodeId) (n : Node) : Prop where
  label : p.label = n.label id
  scheme : ∃ outs, n.construct.scheme s.tree id = some (p.tag, outs) ∧
    List.Forall₂ Promises p.branches outs
  arms : ∀ {subject otherwise : Slot} {arms : List NodeId} {k : Nat} {arm : NodeId},
    n.construct = .dispatch subject arms otherwise → arms[k]? = some arm →
    p.branches[k]? = some (s.planArm id arm)

namespace Site

variable {s : Site} {id : NodeId} {n : Node}

theorem armBody_eq_ok {arm body : NodeId} (h : s.armBody arm = .ok body) :
    s.tree.armBody? arm = some body := by
  unfold armBody at h
  obtain ⟨n, hn, h⟩ := bind_eq_ok.mp h
  rw [Tree.armBody?, Tree.node_eq_ok.mp hn, Option.bind_some]
  cases hc : n.construct with
  | arm patterns inner =>
    rw [hc] at h
    exact Tree.required_eq_ok.mp h
  | _ =>
    rw [hc] at h
    exact absurd h Tree.refuse_ne_ok

theorem promises_planArm (arm : NodeId) :
    Promises (s.planArm id arm) (entered .whenTag (s.tree.armBody? arm)) := by
  intro b hb
  obtain ⟨body, hbody, hb⟩ := bind_eq_ok.mp hb
  rw [armBody_eq_ok hbody]
  exact promises_reached _ _ _ b hb

/-! ### One plan for each construct -/

/-- A plan of a construct that branches. -/
inductive Planned (s : Site) (id : NodeId) (n : Node) (p : Plan) : Prop
  | conditional {style : Style} {condition whenTrue whenFalse : Slot} :
    n.construct = .conditional style condition whenTrue whenFalse →
    s.planConditional id n style condition whenTrue whenFalse = .ok p → Planned s id n p
  | dispatch {subject otherwise : Slot} {arms : List NodeId} :
    n.construct = .dispatch subject arms otherwise →
    s.planDispatch id n arms otherwise = .ok p → Planned s id n p
  | shortCircuit {op : Connective} {left right : Slot} :
    n.construct = .shortCircuit op left right →
    s.planShortCircuit id n op left right = .ok p → Planned s id n p
  | safeNavigation {receiver : Slot} {arguments : List NodeId} :
    n.construct = .safeNavigation receiver arguments →
    s.planSafeNavigation id n receiver = .ok p → Planned s id n p
  | loop {polarity : Polarity} {test : LoopTest} {condition body : Slot} :
    n.construct = .loop polarity test condition body →
    s.planLoop id n polarity test condition body = .ok p → Planned s id n p

theorem planned_of_plan? {r : Option Plan} (h : s.plan? id = .ok r) :
    ∃ n, s.tree.nodes[id]? = some n ∧ (r = none → n.kind.isBranching = false) ∧
      ∀ p, r = some p → Planned s id n p := by
  obtain ⟨n, hn, h⟩ := bind_eq_ok.mp h
  refine ⟨n, Tree.node_eq_ok.mp hn, ?_⟩
  have hplan : ∀ {planned : Except Fault Plan}, some <$> planned = .ok r →
      (∀ p, planned = .ok p → Planned s id n p) →
      (r = none → n.kind.isBranching = false) ∧ ∀ p, r = some p → Planned s id n p := by
    intro planned hr hf
    obtain ⟨p, hp, rfl⟩ := map_eq_ok.mp hr
    exact ⟨fun hr => absurd hr (Option.some_ne_none p), fun p' hp' => Option.some.inj hp' ▸ hf p hp⟩
  cases hc : n.construct with
  | conditional style condition whenTrue whenFalse =>
    simp only [hc] at h
    exact hplan h fun p => .conditional hc
  | dispatch subject arms otherwise =>
    simp only [hc] at h
    exact hplan h fun p => .dispatch hc
  | shortCircuit op left right =>
    simp only [hc] at h
    exact hplan h fun p => .shortCircuit hc
  | safeNavigation receiver arguments =>
    simp only [hc] at h
    exact hplan h fun p => .safeNavigation hc
  | loop polarity test condition body =>
    simp only [hc] at h
    exact hplan h fun p => .loop hc
  | _ =>
    simp only [hc] at h
    obtain rfl := Except.ok.inj h
    exact ⟨fun _ => by rw [Node.kind, hc]; rfl, fun p hp => absurd hp.symm (Option.some_ne_none p)⟩

section Follows

variable {p : Plan}

theorem conditional_follows {style : Style} {condition whenTrue whenFalse : Slot}
    (hc : n.construct = .conditional style condition whenTrue whenFalse)
    (h : s.planConditional id n style condition whenTrue whenFalse = .ok p) : p.Follows s id n := by
  obtain ⟨_, -, h⟩ := bind_eq_ok.mp h
  obtain ⟨held, hheld, h⟩ := bind_eq_ok.mp h
  obtain ⟨failed, hfailed, h⟩ := bind_eq_ok.mp h
  obtain ⟨span, -, hp⟩ := bind_eq_ok.mp h
  obtain rfl := Tree.required_eq_ok.mp hheld
  obtain rfl := Tree.required_eq_ok.mp hfailed
  have hclauses : ∀ tag tag' first second, List.Forall₂ Promises
      [s.planClause id tag held first, s.planClause id tag' failed second]
      [entered tag (some held), entered tag' (some failed)] := fun tag tag' _ _ =>
    .cons (promises_reached tag _ held) (.cons (promises_reached tag' _ failed) .nil)
  simp only at hp
  split at hp
  next hs =>
    cases hp
    exact ⟨rfl, ⟨_, by rw [hc, hs]; rfl, hclauses _ _ _ _⟩, fun hd => by simp [hc] at hd⟩
  next hs =>
    cases hp
    refine ⟨rfl, ⟨_, ?_, hclauses _ _ _ _⟩, fun hd => by simp [hc] at hd⟩
    rw [hc]
    cases style with
    | negated => exact absurd rfl hs
    | _ => rfl

theorem dispatch_follows {subject otherwise : Slot} {arms : List NodeId}
    (hc : n.construct = .dispatch subject arms otherwise)
    (h : s.planDispatch id n arms otherwise = .ok p) : p.Follows s id n := by
  obtain ⟨unmatched, ho, h⟩ := bind_eq_ok.mp h
  obtain ⟨span, -, hp⟩ := bind_eq_ok.mp h
  obtain rfl := Tree.required_eq_ok.mp ho
  cases hp
  constructor
  case label => rfl
  case scheme =>
    refine ⟨_, by rw [hc]; rfl, List.rel_append ?_ ?_⟩
    · exact List.forall₂_map_left_iff.mpr (List.forall₂_map_right_iff.mpr
        (List.forall₂_same.mpr fun arm _ => promises_planArm arm))
    · exact .cons (promises_reached _ _ unmatched) .nil
  case arms =>
    intro subject' otherwise' arms' k arm hd hk
    cases hc.symm.trans hd
    rw [List.getElem?_append_left (by simpa using (List.getElem?_eq_some_iff.mp hk).1),
      List.getElem?_map, hk]
    rfl

theorem shortCircuit_follows {op : Connective} {left right : Slot}
    (hc : n.construct = .shortCircuit op left right)
    (h : s.planShortCircuit id n op left right = .ok p) : p.Follows s id n := by
  obtain ⟨_, -, h⟩ := bind_eq_ok.mp h
  obtain ⟨evaluated, hr, h⟩ := bind_eq_ok.mp h
  obtain ⟨span, -, hp⟩ := bind_eq_ok.mp h
  obtain rfl := Tree.required_eq_ok.mp hr
  have hskipped : ∀ tag (stop : Except Fault Span), Promises
      (do return ⟨tag, .emptyAt (← stop).stop, .derived (.implicitBranch id)⟩)
      (tag, some (.derived (.implicitBranch id))) := by
    intro tag stop b hb
    obtain ⟨_, -, hb⟩ := bind_eq_ok.mp hb
    cases hb
    rfl
  cases op with
  | conjunction =>
    cases hp
    exact ⟨rfl, ⟨_, by rw [hc]; rfl, .cons (promises_reached _ _ evaluated)
      (.cons (hskipped _ _) .nil)⟩, fun hd => by simp [hc] at hd⟩
  | disjunction =>
    cases hp
    exact ⟨rfl, ⟨_, by rw [hc]; rfl, .cons (promises_reached _ _ evaluated)
      (.cons (hskipped _ _) .nil)⟩, fun hd => by simp [hc] at hd⟩

theorem safeNavigation_follows {receiver : Slot} {arguments : List NodeId}
    (hc : n.construct = .safeNavigation receiver arguments)
    (h : s.planSafeNavigation id n receiver = .ok p) : p.Follows s id n := by
  obtain ⟨_, -, h⟩ := bind_eq_ok.mp h
  obtain ⟨span, -, hp⟩ := bind_eq_ok.mp h
  cases hp
  exact ⟨rfl, ⟨_, by rw [hc]; rfl, .cons (.ok rfl) (.cons (.ok rfl) .nil)⟩,
    fun hd => by simp [hc] at hd⟩

theorem loop_follows {polarity : Polarity} {test : LoopTest} {condition body : Slot}
    (hc : n.construct = .loop polarity test condition body)
    (h : s.planLoop id n polarity test condition body = .ok p) : p.Follows s id n := by
  obtain ⟨_, -, h⟩ := bind_eq_ok.mp h
  obtain ⟨body, hb, h⟩ := bind_eq_ok.mp h
  obtain ⟨span, -, hp⟩ := bind_eq_ok.mp h
  obtain rfl := Tree.required_eq_ok.mp hb
  cases hp
  refine ⟨rfl, ⟨_, ?_, .cons (promises_reached _ _ body) .nil⟩, fun hd => by simp [hc] at hd⟩
  rw [hc]
  cases polarity <;> rfl

/-- A construct has a plan if it branches, and its plan follows its scheme. -/
theorem plan?_eq_ok {r : Option Plan} (h : s.plan? id = .ok r) :
    ∃ n, s.tree.nodes[id]? = some n ∧ (r = none → n.kind.isBranching = false) ∧
      ∀ p, r = some p → p.Follows s id n := by
  obtain ⟨n, hn, hnone, hsome⟩ := planned_of_plan? h
  refine ⟨n, hn, hnone, fun p hp => ?_⟩
  cases hsome p hp with
  | conditional hc h => exact conditional_follows hc h
  | dispatch hc h => exact dispatch_follows hc h
  | shortCircuit hc h => exact shortCircuit_follows hc h
  | safeNavigation hc h => exact safeNavigation_follows hc h
  | loop hc h => exact loop_follows hc h

end Follows

end Site

/-! ### Outlines -/

/-- A construct of a report without its counts. -/
abbrev Outline := NodeId × Tag × Span × List Branch

/-- The outlines of the constructs among some nodes: each that branches has a plan, and all branches
of the plan can be placed. -/
inductive Outlined (s : Site) : List NodeId → List Outline → Prop
  | nil : Outlined s [] []
  | skip {id : NodeId} {ids : List NodeId} {os : List Outline} :
    s.plan? id = .ok none → Outlined s ids os → Outlined s (id :: ids) os
  | take {id : NodeId} {ids : List NodeId} {os : List Outline} {p : Plan} {branches : List Branch} :
    s.plan? id = .ok (some p) → p.branches = branches.map .ok → Outlined s ids os →
    Outlined s (id :: ids) ((p.label.id, p.tag, p.span, branches) :: os)

theorem map_ok_injective {bs cs : List Branch}
    (h : bs.map (Except.ok (ε := Fault)) = cs.map .ok) : bs = cs :=
  List.map_injective_iff.mpr (fun _ _ => Except.ok.inj) h

/-- The nodes have one outline at most. -/
theorem Outlined.unique {s : Site} {ids : List NodeId} {os us : List Outline}
    (ho : Outlined s ids os) (hu : Outlined s ids us) : os = us := by
  induction ho generalizing us with
  | nil =>
    cases hu
    rfl
  | skip hp _ ih =>
    cases hu with
    | skip _ hu => exact ih hu
    | take hp' => cases hp.symm.trans hp'
  | take hp hb _ ih =>
    cases hu with
    | skip hp' => cases hp.symm.trans hp'
    | take hp' hb' hu =>
      cases hp.symm.trans hp'
      rw [map_ok_injective (hb.symm.trans hb'), ih hu]

end Report

/-! ### Values whatever is answered -/

namespace Flow.Derivation

variable {α β : Type} {P : α → Prop} {Q : β → Prop}

/-- What holds of every value that the derivation may end with, whatever it is answered. -/
def Ends (P : α → Prop) : Derivation α → Prop
  | done a => P a
  | fail _ => True
  | ask _ next => ∀ n, (next n).Ends P

namespace Ends

theorem bind {d : Derivation α} {f : α → Derivation β} (hd : d.Ends P)
    (hf : ∀ a, P a → (f a).Ends Q) : (d >>= f).Ends Q := by
  change (d.bind f).Ends Q
  induction d with
  | done a => exact hf a hd
  | fail fault => trivial
  | ask q next ih => exact fun n => ih n (hd n)

theorem always (d : Derivation α) : d.Ends fun _ => True := by
  induction d with
  | done a => exact True.intro
  | fail fault => exact True.intro
  | ask q next ih => exact ih

theorem read {r : Except Fault α} {f : α → Derivation β} (h : ∀ a, r = .ok a → (f a).Ends Q) :
    ((liftM r : Derivation α) >>= f).Ends Q := by
  cases r with
  | ok a => exact h a rfl
  | error fault => exact True.intro

theorem runState {σ : Type} {d : Derivation α} (hd : d.Ends P)
    {answer : Query → σ → Except Fault Int × σ} {s s' : σ} {a : α}
    (h : d.runState answer s = (.ok a, s')) : P a := by
  induction d generalizing s with
  | done b =>
    cases h
    exact hd
  | fail fault => cases h
  | ask q next ih =>
    simp only [Derivation.runState] at h
    split at h
    next n s'' _ => exact ih n (hd n) h
    next => cases h

end Ends

end Flow.Derivation

namespace Report

/-- Counting leaves the branches as they are planned. -/
theorem countBranches_ends (e : Evidence) (id : NodeId) (branches : List (Except Fault Branch)) :
    (countBranches e id branches).Ends fun xs => branches = (xs.map (·.1)).map .ok := by
  induction branches with
  | nil => rfl
  | cons branch branches ih =>
    refine .read fun b hb => .bind (.always _) fun n _ => .bind ih fun xs hxs => ?_
    rw [hb, hxs]
    rfl

theorem planCount_ends (e : Evidence) (p : Plan) : (p.count e).Ends fun t =>
    ∃ branches, p.branches = branches.map .ok ∧ t.outline = (p.label.id, p.tag, p.span, branches) :=
  .bind (countBranches_ends e p.label.id p.branches) fun _ hxs => ⟨_, hxs, rfl⟩

/-- A survey that comes to an end has the outlines of its nodes, whatever is remembered. -/
theorem outlined_of_survey {e : Evidence} {source : Source} {ids : List NodeId} {m : Memory}
    {ts : List Tallied} (h : (survey e source ids m).result = .ok ts) :
    Outlined ⟨e.tree, source⟩ ids (ts.map Tallied.outline) := by
  induction ids generalizing m ts with
  | nil =>
    cases h
    exact .nil
  | cons id ids ih =>
    unfold survey at h
    split at h
    next => cases h
    next hp => exact .skip hp (ih h)
    next plan hp =>
      simp only at h
      split at h
      next => cases h
      next t m' hc =>
        obtain ⟨ts', hts, rfl⟩ := map_eq_ok.mp h
        obtain ⟨branches, hb, ho⟩ := (planCount_ends e plan).runState hc
        rw [List.map_cons, ho]
        exact .take hp hb (ih hts)

/-- A report that comes out numbers the constructs of a survey. -/
theorem survey_of_build {e : Evidence} {source : Source} {m : Memory} {rs : List Record}
    (h : (build e source m).result = .ok rs) :
    ∃ ts, (survey e source e.tree.preorder m).result = .ok ts ∧ rs = number 1 ts := by
  unfold build at h
  simp only at h
  split at h
  next => cases h
  next ts hts => exact ⟨ts, hts, (Except.ok.inj h).symm⟩

end Report

end BranchTally
