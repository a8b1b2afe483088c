import BranchTally.Proofs.Report.Shape
import BranchTally.Proofs.Runs.Sweep
import BranchTally.Runs.Listing
import Mathlib.Data.List.Forall2

/-! What a listing writes. A listing is made of lines, each closed by a line feed: the runs are listed
with one line to a construct that branches, and the warnings are one line to a node whose runs are not
what they were. Once the runs of a tree have been found, before and after demotion, there is nothing left
that a listing of them could lack, so that it comes to an end. -/

namespace BranchTally.Runs

open BranchTally.Flow

variable {t : Tree} {e : Evidence} {raw demoted : Runs} {id : NodeId} {ids : List NodeId} {n : Node}
  {before after : Int} {unit : String}

/-! ### Lines -/

/-- The text of some lines. -/
def unlines : List String → String
  | [] => ""
  | line :: lines => line ++ "\n" ++ unlines lines

/-- The line of a construct with its runs before and after demotion. -/
def runLine (n : Node) (before after : Int) : String :=
  let place := match n.span with
    | some span => " " ++ span.start.text
    | none => ""
  n.kind.name ++ place ++ " " ++ toString before ++ " " ++ toString after

/-- The line that warns of a demoted construct. -/
def warningLine (unit : String) (n : Node) (before after : Int) : String :=
  let line := match n.span with
    | some span => toString span.start.line
    | none => ""
  unit ++ ":" ++ line ++ ": warning: " ++ n.kind.name ++ " partially covered (runs " ++
    toString before ++ ", worst branch " ++ toString after ++ ")"

/-- The line of this form for a node and its runs. -/
def LineOf (t : Tree) (raw demoted : Runs) (form : Node → Int → Int → String) (id : NodeId)
    (line : String) : Prop :=
  ∃ n before after, t.nodes[id]? = some n ∧ raw[id]? = some before ∧ demoted[id]? = some after ∧
    line = form n before after

namespace Listing

variable {α β : Type}

theorem lift_bind {r : Except Fault α} {a : α} (h : r = .ok a) (f : α → Listing β) :
    ((liftM r : Listing α) >>= f) = f a := by
  subst h
  change Listing.mk ("" ++ (f a).text) (f a).result = f a
  rw [String.empty_append]

@[simp] theorem text_pure (a : α) : (pure a : Listing α).text = "" := rfl

@[simp] theorem result_pure (a : α) : (pure a : Listing α).result = .ok a := rfl

theorem write_bind (text : String) (f : Unit → Listing β) :
    (write text >>= f) = ⟨text ++ (f ()).text, (f ()).result⟩ := rfl

theorem bind_of_result {l : Listing α} {a : α} (h : l.result = .ok a) (f : α → Listing β) :
    (l >>= f) = ⟨l.text ++ (f a).text, (f a).result⟩ := by
  obtain ⟨text, result⟩ := l
  obtain rfl : result = .ok a := h
  rfl

end Listing

/-! ### What is written -/

/-- The runs of a node are there, before and after demotion. -/
structure Recorded (t : Tree) (raw demoted : Runs) (id : NodeId) : Prop where
  node : ∃ n, t.node id = .ok n
  before : ∃ v, raw.at? id = .ok v
  after : ∃ v, demoted.at? id = .ok v

theorem recorded_of_lt (hr : raw.size = t.size) (hd : demoted.size = t.size) (h : id < t.size) :
    Recorded t raw demoted id where
  node := ⟨_, Tree.node_eq_ok.mpr (Array.getElem?_eq_getElem h)⟩
  before := ⟨_, at?_eq_ok.mpr (Array.getElem?_eq_getElem (hr ▸ h))⟩
  after := ⟨_, at?_eq_ok.mpr (Array.getElem?_eq_getElem (hd ▸ h))⟩

theorem Recorded.values (h : Recorded t raw demoted id) : ∃ n before after,
    t.nodes[id]? = some n ∧ raw[id]? = some before ∧ demoted[id]? = some after := by
  obtain ⟨⟨n, hn⟩, ⟨v, hv⟩, ⟨w, hw⟩⟩ := h
  exact ⟨n, v, w, Tree.node_eq_ok.mp hn, at?_eq_ok.mp hv, at?_eq_ok.mp hw⟩

section Node

variable (hn : t.nodes[id]? = some n) (hb : raw[id]? = some before)
  (ha : demoted[id]? = some after)

include hn hb ha

theorem listNode_eq : listNode t raw demoted id =
    ⟨if t.branchesAt id then runLine n before after ++ "\n" else "", .ok ()⟩ := by
  have hbranches : t.branchesAt id = n.kind.isBranching := by simp [Tree.branchesAt, hn]
  rw [listNode, Listing.lift_bind (Tree.node_eq_ok.mpr hn), hbranches]
  split
  · rw [Listing.write_bind, Listing.lift_bind (at?_eq_ok.mpr hb), Listing.write_bind,
      Listing.lift_bind (at?_eq_ok.mpr ha), runLine]
    cases n.span <;> simp [Listing.write, String.append_assoc]
  · rfl

theorem warnNode_eq : warnNode t unit raw demoted id =
    ⟨if before = after then "" else warningLine unit n before after ++ "\n",
      .ok (before ≠ after)⟩ := by
  rw [warnNode, Listing.lift_bind (at?_eq_ok.mpr hb), Listing.lift_bind (at?_eq_ok.mpr ha)]
  by_cases h : before = after
  · rw [if_pos h, if_pos h, decide_eq_false (not_not.mpr h)]
    rfl
  · rw [if_neg h, if_neg h, Listing.lift_bind (Tree.node_eq_ok.mpr hn), Listing.write_bind,
      decide_eq_true h, warningLine]
    cases n.span <;> simp [String.append_assoc]

end Node

/-- A listing of nodes is the lines of those that branch, in their order. -/
theorem lines_listAll (h : ∀ id ∈ ids, Recorded t raw demoted id) : ∃ lines,
    List.Forall₂ (LineOf t raw demoted runLine) (ids.filter t.branchesAt) lines ∧
      listAll t raw demoted ids = ⟨unlines lines, .ok ()⟩ := by
  induction ids with
  | nil => exact ⟨[], .nil, rfl⟩
  | cons id ids ih =>
    obtain ⟨hid, hids⟩ := List.forall_mem_cons.mp h
    obtain ⟨n, before, after, hn, hb, ha⟩ := hid.values
    obtain ⟨lines, hlines, htext⟩ := ih hids
    rw [listAll, Listing.bind_of_result (by rw [listNode_eq hn hb ha]), htext,
      listNode_eq hn hb ha]
    cases hbranches : t.branchesAt id with
    | true =>
      refine ⟨runLine n before after :: lines, ?_, rfl⟩
      rw [List.filter_cons_of_pos hbranches]
      exact .cons ⟨n, before, after, hn, hb, ha, rfl⟩ hlines
    | false =>
      refine ⟨lines, ?_, ?_⟩
      · rwa [List.filter_cons_of_neg (by simp [hbranches])]
      · simp

/-- The warnings are the lines of the nodes whose runs were changed, and as many as are counted. -/
theorem lines_warnAll (unit : String) (h : ∀ id ∈ ids, Recorded t raw demoted id) : ∃ lines,
    List.Forall₂ (LineOf t raw demoted (warningLine unit))
        (ids.filter fun id => raw[id]? ≠ demoted[id]?) lines ∧
      warnAll t unit raw demoted ids = ⟨unlines lines, .ok lines.length⟩ := by
  induction ids with
  | nil => exact ⟨[], .nil, rfl⟩
  | cons id ids ih =>
    obtain ⟨hid, hids⟩ := List.forall_mem_cons.mp h
    obtain ⟨n, before, after, hn, hb, ha⟩ := hid.values
    obtain ⟨lines, hlines, htext⟩ := ih hids
    rw [warnAll, Listing.bind_of_result (by rw [warnNode_eq hn hb ha]), htext,
      warnNode_eq hn hb ha]
    by_cases heq : before = after
    · refine ⟨lines, ?_, ?_⟩
      · rwa [List.filter_cons_of_neg (by simp [hb, ha, heq])]
      · rw [if_pos heq, decide_eq_false (not_not.mpr heq), Listing.bind_of_result rfl]
        simp
    · refine ⟨warningLine unit n before after :: lines, ?_, ?_⟩
      · rw [List.filter_cons_of_pos (by simp [hb, ha, heq])]
        exact .cons ⟨n, before, after, hn, hb, ha, rfl⟩ hlines
      · rw [if_neg heq, decide_eq_true heq, Listing.bind_of_result rfl]
        simp [unlines]

/-! ### Line feeds -/

theorem not_mem_repr {c : Char} (hdigit : ¬c.isDigit) (hsign : c ≠ '-') (k : Int) :
    c ∉ k.repr.toList := by
  have hnat (m : Nat) : c ∉ (toString m).toList := by
    intro hmem
    rw [show (toString m).toList = Nat.toDigits 10 m from Nat.toList_repr] at hmem
    exact hdigit (Nat.isDigit_of_mem_toDigits (by decide) (by decide) hmem)
  cases k with
  | ofNat m => exact hnat m
  | negSucc m =>
    change c ∉ ("-" ++ toString (m + 1)).toList
    rw [String.toList_append, List.mem_append, not_or]
    exact ⟨by simpa using hsign, hnat (m + 1)⟩

theorem lineFeed_not_mem_name (k : Kind) : '\n' ∉ k.name.toList := by
  cases k <;> decide

/-- A line of the listing has no line feed within. -/
theorem lineFeed_not_mem_runLine (n : Node) (before after : Int) :
    '\n' ∉ (runLine n before after).toList := by
  have hnumber := not_mem_repr (c := '\n') (by decide) (by decide)
  have hname := lineFeed_not_mem_name n.kind
  unfold runLine
  cases n.span <;> simp [Position.text, hname, hnumber]

/-- Nor has a warning, unless the name of the unit has one. -/
theorem lineFeed_not_mem_warningLine (hunit : '\n' ∉ unit.toList) (n : Node) (before after : Int) :
    '\n' ∉ (warningLine unit n before after).toList := by
  have hnumber := not_mem_repr (c := '\n') (by decide) (by decide)
  have hname := lineFeed_not_mem_name n.kind
  unfold warningLine
  cases n.span <;> simp [hunit, hname, hnumber]

/-! ### Coming to an end -/

/-- Once the runs of a tree have been found, before and after demotion, every node has its own. -/
theorem recorded_of_demote {f : Query → Except Fault Int} (ht : e.tree.Loaded)
    (hraw : (Runs.raw e.tree).run f = .ok raw) (hd : (demote e raw).run f = .ok demoted) :
    ∀ id ∈ e.tree.preorder, Recorded e.tree raw demoted id := by
  have hr : raw.size = e.tree.size := (run_raw hraw).1
  have hd : demoted.size = e.tree.size := (run_demoteAll hd).1.trans hr
  intro id hid
  rw [ht.preorder_eq, List.mem_range] at hid
  exact recorded_of_lt hr hd hid

/-- What can be demoted can be listed and warned of, to the end. -/
theorem complete_of_demote {f : Query → Except Fault Int} (ht : e.tree.Loaded)
    (hraw : (Runs.raw e.tree).run f = .ok raw) (hd : (demote e raw).run f = .ok demoted)
    (unit : String) : (list e.tree raw demoted).result = .ok () ∧
      ∃ warned, (warn e.tree unit raw demoted).result = .ok warned := by
  have hall := recorded_of_demote ht hraw hd
  obtain ⟨lines, -, hlist⟩ := lines_listAll hall
  obtain ⟨warnings, -, hwarn⟩ := lines_warnAll unit hall
  rw [list, warn, hlist, hwarn]
  exact ⟨rfl, _, rfl⟩

end BranchTally.Runs
