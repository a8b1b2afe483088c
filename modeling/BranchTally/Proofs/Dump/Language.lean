import BranchTally.Proofs.Dump.Arena
import BranchTally.Proofs.Text.Numerals

/-! The dumps that are accepted. Whether a dump is loaded depends on each of its present nodes by
itself: on the number of its children, on their kinds where a row of arms is expected, on the style
of a conditional, and on the spelling of the attributes that are read. A dump that is refused has a
fault on the line of a node that is not of this form. -/

namespace BranchTally

theorem Style.isSome_named? {s : String} :
    (Style.named? s).isSome ↔ s ∈ ["if", "unless", "elsif", "ternary"] := by
  simp only [Style.named?, List.find?_isSome, decide_eq_true_eq]
  simp [Style.all, Style.name, @eq_comm _ s]

namespace Dump

/-! ### The form of a node -/

/-- The kinds of a row of arms, with at most one child of another kind before it and one after. -/
def IsRow (arm : String) (kinds : List String) : Prop :=
  ∃ (lead last : Option String) (n : Nat),
    kinds = lead.toList ++ List.replicate n arm ++ last.toList ∧
      (∀ kind ∈ lead, kind ≠ arm) ∧ ∀ kind ∈ last, kind ≠ arm

/-- The children of a node suit its kind, and a conditional is of a known style. -/
structure Fits (d : Dump) : Prop where
  conditional : d.kind = "if" → d.children.length ≤ 3 ∧
    ∀ style, d.attributes.lookup "style" = some style →
      style ∈ ["if", "unless", "elsif", "ternary"]
  pair : d.kind ∈ ["and", "or", "while", "until", "while_post", "until_post", "ensure"] →
    d.children.length ≤ 2
  handler : d.kind = "resbody" → d.children.length ≤ 3
  empty : d.kind = "empty" → d.children = []
  dispatch : d.kind = "case" → IsRow "when" (d.children.map kind)
  rescue : d.kind = "rescue" → IsRow "resbody" (d.children.map kind)

/-- An attribute that names a tracker or a keyword can be read. -/
structure Legible (name value : String) : Prop where
  tracker : ∀ role : Role, name = role.name →
    ∃ digits, (value.toList = digits ∨ value.toList = '+' :: digits) ∧
      Decimal.Below Width.wordCount digits
  keyword : ∀ key : Keyword, name = key.name → Span.Written value

/-- What is asked of a present node by itself. -/
structure Formed (d : Dump) : Prop where
  legible : ∀ a ∈ d.attributes, Legible a.1 a.2
  fits : d.Fits

structure WellFormed (d : Dump) : Prop where
  root : ¬ d.isAbsent
  nodes : ∀ x ∈ d.present, x.Formed

/-! ### Rows of arms -/

theorem length_dropWhile_le {arm : String} {last : Option String} (hl : ∀ kind ∈ last, kind ≠ arm)
    {n : Nat} {ps : List Placed}
    (hp : ps.map (·.kind) = List.replicate n arm ++ last.toList) :
    (ps.dropWhile (·.kind = arm)).length ≤ 1 := by
  induction n generalizing ps with
  | zero =>
    have hlen : ps.length ≤ 1 := by
      rw [← List.length_map (·.kind), hp]
      cases last <;> simp
    exact (List.dropWhile_sublist _).length_le.trans hlen
  | succ n ih =>
    cases ps with
    | nil => simp at hp
    | cons p ps =>
      rw [List.replicate_succ, List.cons_append, List.map_cons, List.cons.injEq] at hp
      rw [List.dropWhile_cons_of_pos (by simpa using hp.1)]
      exact ih hp.2

theorem splitArms_eq_ok_of_le {kind arm : String} {leading : Option Placed}
    {placed rest : List Placed} (hlead : placed.head?.filter (·.kind ≠ arm) = leading)
    (hrest : (if leading.isSome then placed.tail else placed) = rest)
    (hle : (rest.dropWhile (·.kind = arm)).length ≤ 1) :
    ∃ a, splitArms kind arm placed = .ok a := by
  simp only [splitArms, hlead, hrest]
  split
  next => exact ⟨_, rfl⟩
  next => exact ⟨_, rfl⟩
  next _ _ _ hs =>
    rw [hs] at hle
    simp at hle

/-- A row of arms can be split, and nothing else can. -/
theorem splitArms_isRow (kind : String) {arm : String} {placed : List Placed} :
    (∃ a, splitArms kind arm placed = .ok a) ↔ IsRow arm (placed.map (·.kind)) := by
  constructor
  · rintro ⟨a, ha⟩
    obtain ⟨lead, taken, last, rfl, hlead, hlast, hl, ht, he, -⟩ := splitArms_eq_ok ha
    have hshort : ∀ {ps : List Placed}, ps.length ≤ 1 → (∀ p ∈ ps, p.kind ≠ arm) →
        ps.map (·.kind) = (ps.head?.map (·.kind)).toList ∧
          ∀ k ∈ ps.head?.map (·.kind), k ≠ arm := by
      intro ps hp hk
      match ps, hp with
      | [], _ => simp
      | [p], _ => simpa using hk
    obtain ⟨hlead, hl⟩ := hshort hlead hl
    obtain ⟨hlast, he⟩ := hshort hlast he
    refine ⟨_, _, taken.length, ?_, hl, he⟩
    rw [List.map_append, List.map_append, hlead, hlast, List.map_eq_replicate_iff.mpr ht]
  · rintro ⟨lead, last, n, hp, hl, he⟩
    cases placed with
    | nil => exact splitArms_eq_ok_of_le rfl rfl (by simp)
    | cons p ps =>
      by_cases hk : p.kind = arm
      · -- the row starts with the first child, or with nothing
        have hhead : (p :: ps).head?.filter (·.kind ≠ arm) = none := by simp [Option.filter, hk]
        cases lead with
        | none => exact splitArms_eq_ok_of_le hhead rfl (length_dropWhile_le he (by simpa using hp))
        | some k =>
          simp at hp hl
          exact absurd (hp.1.symm.trans hk) hl
      · have hhead : (p :: ps).head?.filter (·.kind ≠ arm) = some p := by simp [Option.filter, hk]
        refine splitArms_eq_ok_of_le hhead rfl ?_
        cases lead with
        | some k => exact length_dropWhile_le he (by simpa using (List.cons.inj hp).2)
        | none =>
          cases n with
          | zero =>
            cases last <;> simp at hp
            simp [hp]
          | succ n =>
            simp [List.replicate_succ] at hp
            exact absurd hp.1 hk

/-! ### Kinds -/

theorem Form.ofKind_eq_conditional {k : String} : Form.ofKind k = .conditional ↔ k = "if" := by
  unfold Form.ofKind
  split <;> simp_all

theorem Form.ofKind_eq_dispatch {k : String} : Form.ofKind k = .dispatch ↔ k = "case" := by
  unfold Form.ofKind
  split <;> simp_all

theorem Form.ofKind_eq_rescue {k : String} : Form.ofKind k = .rescue ↔ k = "rescue" := by
  unfold Form.ofKind
  split <;> simp_all

variable {d : Dump} {placed : List Placed}

theorem isSome_styleName : (Style.named? d.styleName).isSome ↔
    ∀ style, d.attributes.lookup "style" = some style →
      style ∈ ["if", "unless", "elsif", "ternary"] := by
  rw [Style.isSome_named?, styleName, styleAttribute]
  cases d.attributes.lookup "style" <;> simp [Style.name]

/-- The limits on the children of a node by its kind are those by its form. -/
theorem limits_iff :
    (∀ n, (Form.ofKind d.kind).limit = some n → d.children.length ≤ n) ↔
      (d.kind = "if" → d.children.length ≤ 3) ∧
      (d.kind ∈ ["and", "or", "while", "until", "while_post", "until_post", "ensure"] →
        d.children.length ≤ 2) ∧
      (d.kind = "resbody" → d.children.length ≤ 3) ∧
      (d.kind = "empty" → d.children = []) := by
  unfold Form.ofKind
  split <;> simp_all [Form.limit]

theorem fits_iff : d.Fits ↔
    (∀ n, (Form.ofKind d.kind).limit = some n → d.children.length ≤ n) ∧
      (Form.ofKind d.kind = .conditional → (Style.named? d.styleName).isSome) ∧
      (Form.ofKind d.kind = .dispatch → IsRow armKind (d.children.map kind)) ∧
      (Form.ofKind d.kind = .rescue → IsRow handlerKind (d.children.map kind)) := by
  rw [limits_iff, Form.ofKind_eq_conditional, Form.ofKind_eq_dispatch, Form.ofKind_eq_rescue,
    isSome_styleName]
  constructor
  · intro h
    exact ⟨⟨fun hk => (h.conditional hk).1, h.pair, h.handler, h.empty⟩,
      fun hk => (h.conditional hk).2, h.dispatch, h.rescue⟩
  · rintro ⟨⟨hif, hpair, hhandler, hempty⟩, hstyle, hdispatch, hrescue⟩
    exact ⟨fun hk => ⟨hif hk, hstyle hk⟩, hpair, hhandler, hempty, hdispatch, hrescue⟩

/-- A node can be made of its children if they suit its kind. -/
theorem construct_fits (hp : placed.map (·.kind) = d.children.map kind) :
    (∃ what, d.construct placed = .ok what) ↔ d.Fits := by
  have hlen : placed.length = d.children.length := by simpa using congrArg List.length hp
  rw [fits_iff, ← hlen, ← hp, ← splitArms_isRow d.kind, ← splitArms_isRow d.kind]
  unfold construct
  simp only
  split
  next hl =>
    obtain ⟨n, hn, hlt⟩ : ∃ n, (Form.ofKind d.kind).limit = some n ∧ n < placed.length := by
      simpa [Option.any_eq_true] using hl
    simp only [reduceCtorEq, exists_false, false_iff, not_and]
    intro h
    exact absurd (h n hn) (by omega)
  next hl =>
    have hle : ∀ n, (Form.ofKind d.kind).limit = some n → placed.length ≤ n := by
      intro n hn
      simpa [hn] using hl
    rw [and_iff_right hle]
    cases hf : Form.ofKind d.kind with
    | conditional => cases hs : Style.named? d.styleName <;> simp
    | dispatch =>
      cases hs : splitArms d.kind armKind placed <;> simp [bind, Except.bind, pure, Except.pure]
    | rescue =>
      cases hs : splitArms d.kind handlerKind placed <;> simp [bind, Except.bind, pure, Except.pure]
    | _ => simp

/-! ### Attributes -/

/-- An outcome is a value if a condition on a node holds, and a fault on the line of the node if it
does not. -/
def Judges (line : Int) (P : Prop) {α : Type} : Except LoadFault α → Prop
  | .ok _ => P
  | .error fault => ¬ P ∧ ∃ flaw, fault = .flawed line flaw

theorem Judges.bind {α β : Type} {line : Int} {P Q : Prop} {r : Except LoadFault α}
    {f : α → Except LoadFault β} (hr : Judges line P r)
    (hf : ∀ a, r = .ok a → Judges line Q (f a)) : Judges line (P ∧ Q) (r.bind f) := by
  cases r with
  | error fault => exact ⟨fun h => hr.1 h.1, hr.2⟩
  | ok a =>
    have hfa := hf a rfl
    change Judges line (P ∧ Q) (f a)
    cases hb : f a with
    | ok b =>
      rw [hb] at hfa
      exact ⟨hr, hfa⟩
    | error fault =>
      rw [hb] at hfa
      exact ⟨fun h => hfa.1 h.2, hfa.2⟩

theorem Judges.map {α β : Type} {line : Int} {P : Prop} {r : Except LoadFault α} {g : α → β}
    (h : Judges line P r) : Judges line P (r.bind fun a => .ok (g a)) := by
  cases r <;> exact h

theorem Judges.congr {α : Type} {line : Int} {P Q : Prop} {r : Except LoadFault α}
    (h : Judges line P r) (hpq : P ↔ Q) : Judges line Q r := by
  cases r with
  | ok a => exact hpq.mp h
  | error fault => exact ⟨fun hq => h.1 (hpq.mpr hq), h.2⟩

theorem Judges.lift {α : Type} {line : Int} {P : Prop} {r : Except Flaw α}
    (h : (∃ a, r = .ok a) ↔ P) : Judges line P (Reading.lift line r).result := by
  cases r with
  | ok a => exact h.mp ⟨a, rfl⟩
  | error flaw => exact ⟨fun hp => by simpa using h.mpr hp, flaw, rfl⟩

theorem legible_tracker {role : Role} {value : String} :
    Legible role.name value ↔ (TrackerId.read? value.toList).isSome := by
  rw [TrackerId.isSome_read?]
  refine ⟨fun h => h.tracker role rfl, fun h => ⟨fun _ _ => h, fun key hk => ?_⟩⟩
  exact absurd hk (role.name_ne_keyword key)

theorem legible_keyword {key : Keyword} {value : String} :
    Legible key.name value ↔ (Span.read? value).isSome := by
  rw [Span.isSome_read?]
  refine ⟨fun h => h.keyword key rfl, fun h => ⟨fun role hr => ?_, fun _ _ => h⟩⟩
  exact absurd hr.symm (role.name_ne_keyword key)

theorem readAttribute_judges (seen : Decorations) (name value : String) :
    Judges d.line (Legible name value) (d.readAttribute seen name value).result := by
  unfold readAttribute
  split
  next hstyle =>
    exact ⟨fun role h => absurd (h.symm.trans hstyle) role.name_ne_style,
      fun key h => absurd (h.symm.trans hstyle) key.name_ne_style⟩
  split
  next _ role hr =>
    obtain rfl := Role.named?_eq_some.mp hr
    split
    next h => exact legible_tracker.mpr (by simp [h])
    next h => exact ⟨fun hl => by simpa [h] using legible_tracker.mp hl, _, rfl⟩
  next key hr hk =>
    obtain rfl := Keyword.named?_eq_some.mp hk
    split
    next h => exact legible_keyword.mpr (by simp [h])
    next h => exact ⟨fun hl => by simpa [h] using legible_keyword.mp hl, _, rfl⟩
  next hr hk =>
    refine ⟨fun role h => ?_, fun key h => ?_⟩
    · rw [Role.named?_eq_some.mpr h] at hr
      cases hr
    · rw [Keyword.named?_eq_some.mpr h] at hk
      cases hk

theorem readAttributes_judges (seen : Decorations) (attributes : List (String × String)) :
    Judges d.line (∀ a ∈ attributes, Legible a.1 a.2)
      (d.readAttributes seen attributes).result := by
  induction attributes generalizing seen with
  | nil => exact fun a ha => nomatch ha
  | cons a attributes ih =>
    rw [readAttributes, Reading.result_bind, List.forall_mem_cons]
    exact (readAttribute_judges seen a.1 a.2).bind fun next _ => ih next

/-- A node is judged by its attributes and by its children. -/
theorem node_judges (hp : placed.map (·.kind) = d.children.map kind) {α : Type}
    (g : Decorations → Construct → α) : Judges d.line d.Formed
      ((d.readAttributes ⟨[], []⟩ d.attributes).result.bind fun decorations =>
        (Reading.lift d.line (d.construct placed)).result.bind fun what =>
          .ok (g decorations what)) := by
  have hboth := (readAttributes_judges (d := d) ⟨[], []⟩ d.attributes).bind fun decorations _ =>
    (Judges.lift (construct_fits hp)).map (g := g decorations)
  exact hboth.congr ⟨fun h => ⟨h.1, h.2⟩, fun h => ⟨h.legible, h.fits⟩⟩

/-! ### Nodes -/

/-- An outcome is a value if all of the nodes are of their form, and else a fault on the line of one
that is not. -/
def Verdict (ds : List Dump) {α : Type} : Except LoadFault α → Prop
  | .ok _ => ∀ x ∈ ds, x.Formed
  | .error fault => ∃ x ∈ ds, ¬ x.Formed ∧ ∃ flaw, fault = .flawed x.line flaw

namespace Verdict

variable {α β : Type} {ds es : List Dump} {r : Except LoadFault α}

theorem single (h : Judges d.line d.Formed r) : Verdict [d] r := by
  cases r with
  | ok a => exact List.forall_mem_singleton.mpr h
  | error fault => exact ⟨d, by simp, h⟩

theorem comm (h : Verdict (ds ++ es) r) : Verdict (es ++ ds) r := by
  cases r <;> simpa only [Verdict, List.mem_append, or_comm] using h

/-- What comes first is judged first. -/
theorem bind {f : α → Except LoadFault β} (hr : Verdict ds r)
    (hf : ∀ a, r = .ok a → Verdict es (f a)) : Verdict (ds ++ es) (r.bind f) := by
  cases r with
  | error fault =>
    obtain ⟨x, hx, h⟩ := hr
    exact ⟨x, List.mem_append_left _ hx, h⟩
  | ok a =>
    have hfa := hf a rfl
    change Verdict (ds ++ es) (f a)
    cases hb : f a with
    | ok b =>
      rw [hb] at hfa
      exact List.forall_mem_append.mpr ⟨hr, hfa⟩
    | error fault =>
      rw [hb] at hfa
      obtain ⟨x, hx, h⟩ := hfa
      exact ⟨x, List.mem_append_right _ hx, h⟩

theorem map {g : α → β} (h : Verdict ds r) : Verdict ds (r.bind fun a => .ok (g a)) := by
  cases r <;> exact h

end Verdict

theorem kindRule : LayoutRule (fun _ _ _ d p => p.kind = d.kind)
    (fun _ _ _ ds ps => ps.map (·.kind) = ds.map kind) where
  absent := by
    intro next parent index d _
    rfl
  present := by
    intro next parent index d kids decorations what _ _ _ _
    rfl
  nil := by
    intro next parent index
    rfl
  cons := by
    intro next parent index d ds first others hf ho
    rw [List.map_cons, List.map_cons, hf, ho]

mutual

/-- A node is laid out if all present nodes from it on down are of their form. -/
theorem layout_verdict {next : NodeId} {parent : Slot} {index : Nat} : ∀ d : Dump,
    Verdict d.present (layout next parent index d).result
  | .node kind line span attributes children => by
    rw [layout, present]
    split
    next => exact fun x hx => nomatch hx
    next =>
      simp only [Reading.result_bind]
      let d : Dump := .node kind line span attributes children
      suffices h : Verdict (presentAll children ++ [d]) _ from h.comm
      refine .bind (layoutAll_verdict children) fun kids hk => .single ?_
      exact node_judges (d := d) (kindRule.layoutAll hk) _

theorem layoutAll_verdict {next parent : NodeId} {index : Nat} : ∀ ds : List Dump,
    Verdict (presentAll ds) (layoutAll next parent index ds).result
  | [] => fun x hx => nomatch hx
  | d :: ds => by
    rw [layoutAll, presentAll]
    simp only [Reading.result_bind]
    exact .bind (layout_verdict d) fun first _ => (layoutAll_verdict ds).map

end

/-! ### The whole dump -/

/-- Loading a dump is laying it out, but for an absent root. -/
theorem load_snd (name : String) (d : Dump) : (load name d).2 =
    (layout 0 none 0 d).result.bind fun placed =>
      if placed.slot.isSome then .ok ⟨placed.nodes.toArray⟩ else .error .absentRoot := by
  have htree : (load name d).2 = d.toTree.result := by
    unfold load
    simp only
    split
    next h => exact h.symm
    next h => exact h.symm
  rw [htree, toTree]
  cases (layout 0 none 0 d).result <;> rfl

/-- The dumps that are loaded are the well-formed ones. If another is read, its root is absent or
the fault is on the line of a present node that is not of its form. -/
theorem loads_iff_wellFormed (name : String) (d : Dump) :
    ((∃ t, (load name d).2 = .ok t) ↔ d.WellFormed) ∧
      (¬ d.WellFormed → ∃ fault, (load name d).2 = .error fault ∧
        (d.isAbsent ∧ fault = .absentRoot ∨
          ∃ x ∈ d.present, ¬ x.Formed ∧ ∃ flaw, fault = .flawed x.line flaw)) := by
  have hverdict := @layout_verdict 0 none 0 d
  rw [load_snd]
  cases hr : (layout 0 none 0 d).result with
  | error fault =>
    rw [hr] at hverdict
    obtain ⟨x, hx, hformed, -⟩ := id hverdict
    rw [Except.bind]
    exact ⟨iff_of_false (by simp) fun h => hformed (h.nodes x hx),
      fun _ => ⟨fault, rfl, .inr hverdict⟩⟩
  | ok p =>
    rw [hr] at hverdict
    have hslot := (portrayRule.layout hr).1
    by_cases hd : d.isAbsent
    · have hnone : p.slot = none := by simpa [hd] using hslot
      rw [Except.bind, if_neg (by simp [hnone])]
      exact ⟨iff_of_false (by simp) fun h => h.root hd, fun _ => ⟨_, rfl, .inl ⟨hd, rfl⟩⟩⟩
    · have hsome : p.slot = some 0 := by simpa [hd] using hslot
      rw [Except.bind, if_pos (by simp [hsome])]
      exact ⟨iff_of_true ⟨_, rfl⟩ ⟨hd, hverdict⟩, fun h => absurd ⟨hd, hverdict⟩ h⟩

/-- An absent slot between two arms ends their row. -/
example :
    let arm : Dump := .node "when" 2 none [] [.node "const" 2 none [] [], .node "send" 2 none [] []]
    (load "stray" (.node "case" 1 none [] [arm, .node "_" 3 none [] [], arm])).2 =
      .error (.flawed 1 (.unexpectedChild "when" "case")) := rfl

end Dump

end BranchTally
