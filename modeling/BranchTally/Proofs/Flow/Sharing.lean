import BranchTally.Proofs.Flow.Balance
import Mathlib.Algebra.BigOperators.Group.List.Basic

/-! How the handlers of a rescue share the exceptions of the watched body. The first handler gets
all who entered the body and did not complete it, and each other one gets whom the one before it was
offered and did not take. A handler is offered what comes to it, less those who are lost while its
exception list is evaluated. So the handlers telescope: what the last one gets and what all before
it take are no more than what left the body, and as much if no exception list loses anyone. -/

namespace BranchTally

open BranchTally.Flow

/-- The list of exceptions that a handler names. -/
def Tree.exceptions? (t : Tree) (handler : NodeId) : Slot :=
  (t.nodes[handler]?).bind fun n =>
    match n.construct with
    | .handler exceptions _ _ => exceptions
    | _ => none

namespace Flow.Evidence

open Flow.Derivation BranchTally.Tree

variable {e : Evidence} {i a b w : NodeId} {n : Node} {v : Int} {otherwise : Slot}
  {handlers : List NodeId}

/-- The exception list of a handler, if it has one, completes as often as it is entered. -/
def Lossless (e : Evidence) (a : NodeId) : Prop := ∀ x, e.tree.exceptions? a = some x →
  ∃ k, e.Gives (.entry x) k ∧ e.Gives (.completion x) k

section Rescue

variable (h : e.tree.Linked) (hn : e.tree.nodes[i]? = some n)
  (hc : n.construct = .rescue (some w) handlers otherwise)

include h hn hc

/-- The first handler gets all who entered the watched body and did not complete it. -/
theorem handlerEntry_first (ha : handlers[0]? = some a) (hv : e.answer (.handlerEntry a) = .ok v) :
    ∃ u c, e.answer (.entry w) = .ok u ∧ e.answer (.completion w) = .ok c ∧ v = u - c := by
  have hmem := List.mem_of_getElem? ha
  obtain ⟨m, hm, -⟩ := h.handler_kind hn hc hmem
  have hp := h.parent_eq hn (c := a) (by simp [hc, hmem, Construct.present]) hm
  have hrow : n.construct.present = [w] ++ handlers ++ otherwise.toList := by
    simp [hc, Construct.present]
  have hprev := h.previousSibling_first hn hrow ha
  rw [answer_eq h] at hv
  simp only [rule, handlerEntryRule, run_bind_eq_ok, run_lift, node_eq_ok, hm, Option.some.injEq,
    exists_eq_left', hp, hn, hc, hprev, Except.ok.injEq, List.getLast?_singleton, if_true,
    run_count, run_nonNegative] at hv
  obtain ⟨u, hu, c, hcw, rfl, -⟩ := hv
  exact ⟨u, c, hu, hcw, (keeps_answer hu).sub_eq (keeps_answer hcw) (entry_nonneg h hu)
    (completion_nonneg h hcw)⟩

/-- Another handler gets whom the one before it was offered and did not take. -/
theorem handlerEntry_next {k : Nat} (hb : handlers[k]? = some b) (ha : handlers[k + 1]? = some a)
    (hv : e.answer (.handlerEntry a) = .ok v) :
    ∃ offered taken, e.answer (reaching b (e.tree.exceptions? b)) = .ok offered ∧
      e.answer (.execution b) = .ok taken ∧ v = offered - taken := by
  have hmem := List.mem_of_getElem? ha
  have hbm := List.mem_of_getElem? hb
  obtain ⟨m, hm, -⟩ := h.handler_kind hn hc hmem
  obtain ⟨m', hm', hkind⟩ := h.handler_kind hn hc hbm
  have hp := h.parent_eq hn (c := a) (by simp [hc, hmem, Construct.present]) hm
  have hrow : n.construct.present = [w] ++ handlers ++ otherwise.toList := by
    simp [hc, Construct.present]
  have hprev := h.previousSibling_next hn hrow hb ha
  have hbw := (rescue_nodup hc (present_nodup h hn)).1 b hbm
  unfold Node.kind at hkind
  cases hcon : m'.construct with
  | handler exceptions assignment body =>
    rw [show e.tree.exceptions? b = exceptions by simp [exceptions?, hm', hcon]]
    rw [answer_eq h] at hv
    simp only [rule, handlerEntryRule, run_bind_eq_ok, run_lift, node_eq_ok, hm, Option.some.injEq,
      exists_eq_left', hp, hn, hc, hprev, Except.ok.injEq, if_neg hbw, hm', hcon] at hv
    cases exceptions
    all_goals
      simp only [run_bind_eq_ok, run_count, run_nonNegative] at hv
      obtain ⟨offered, ho, taken, ht, rfl, -⟩ := hv
      refine ⟨offered, taken, ho, ht,
        (keeps_answer ho).sub_eq (keeps_answer ht) ?_ (bound_of_execution h ht).1⟩
    · exact entry_nonneg h ho
    · exact completion_nonneg h ho
  | _ => simp [hcon, Construct.kind] at hkind

/-- The entry of a handler is what comes to it. -/
theorem handlerEntry_of_entry (ha : a ∈ handlers) (hv : e.answer (.entry a) = .ok v) :
    e.answer (.handlerEntry a) = .ok v := by
  obtain ⟨hhandlers, -, -, ho⟩ := rescue_nodup hc (present_nodup h hn)
  have hrun := run_childEntry_of_entry h hn (by simp [hc, ha, Construct.present]) hv
  simpa [childEntry, hc, hhandlers a ha, (ho a ha).symm] using hrun

/-- A handler is offered what comes to it, less those who are lost in its exception list. -/
theorem offered_of_reaching (ha : a ∈ handlers)
    (hb : ∀ x, e.tree.exceptions? a = some x → e.Bounded x)
    (ho : e.answer (reaching a (e.tree.exceptions? a)) = .ok v) :
    ∃ u, e.answer (.handlerEntry a) = .ok u ∧ v ≤ u ∧ (e.Lossless a → v = u) := by
  obtain ⟨m, hm, hkind⟩ := h.handler_kind hn hc ha
  cases hx : e.tree.exceptions? a with
  | none =>
    rw [hx] at ho
    exact ⟨v, handlerEntry_of_entry h hn hc ha ho, Int.le_refl v, fun _ => rfl⟩
  | some x =>
    rw [hx] at ho
    -- the exception list is entered as often as the handler
    have hcon : ∃ assignment body, m.construct = .handler (some x) assignment body := by
      unfold Node.kind at hkind
      cases hcon : m.construct with
      | handler exceptions assignment body =>
        obtain rfl : exceptions = some x := by simpa [exceptions?, hm, hcon] using hx
        exact ⟨assignment, body, rfl⟩
      | _ => simp [hcon, Construct.kind] at hkind
    obtain ⟨assignment, body, hcon⟩ := hcon
    obtain ⟨u, hf, hentry⟩ := flows_of_slot h hm (c := x) (by simp [hcon, Construct.present])
      (hb x hx) ho
    have hentry : e.answer (.entry a) = .ok u := by simpa [childEntry, hcon] using hentry
    obtain ⟨-, -, hle⟩ := hf.le h (hb x hx)
    refine ⟨u, handlerEntry_of_entry h hn hc ha hentry, hle, fun hl => ?_⟩
    obtain ⟨k, hk, hk'⟩ := hl x hx
    cases hf.entry.symm.trans ((gives_iff h).mp hk)
    exact Except.ok.inj (ho.symm.trans ((gives_iff h).mp hk'))

/-- What comes to a handler are at least those whom it took and those who come to the next one, and
no others if its exception list loses no one. -/
theorem reached_of_next {k : Nat} (hb : handlers[k]? = some b) (ha : handlers[k + 1]? = some a)
    (hx : ∀ x, e.tree.exceptions? b = some x → e.Bounded x)
    (hv : e.answer (.handlerEntry a) = .ok v) :
    ∃ u taken, e.answer (.handlerEntry b) = .ok u ∧ e.answer (.execution b) = .ok taken ∧
      0 ≤ taken ∧ v + taken ≤ u ∧ (e.Lossless b → v + taken = u) := by
  obtain ⟨offered, taken, ho, ht, rfl⟩ := handlerEntry_next h hn hc hb ha hv
  obtain ⟨u, hu, hle, heq⟩ := offered_of_reaching h hn hc (List.mem_of_getElem? hb) hx ho
  refine ⟨u, taken, hu, ht, (bound_of_execution h ht).1, by omega, fun hl => ?_⟩
  rw [heq hl]
  omega

end Rescue

/-- The exceptions that left the watched body reach the handlers before one of them, which take
some, and so many come to this one. -/
structure Shares (e : Evidence) (before : List NodeId) (raised v : Int) (offers takes : List Int) :
    Prop where
  reached : List.Forall₂ (fun a r => e.answer (.handlerEntry a) = .ok r) before offers
  taken : List.Forall₂ (fun a x => e.answer (.execution a) = .ok x) before takes
  le : v + takes.sum ≤ raised
  eq : (∀ a ∈ before, e.Lossless a) → v + takes.sum = raised
  descends : (offers ++ [v]).Pairwise (· ≥ ·)

theorem Shares.concat {before : List NodeId} {raised u x : Int} {offers takes : List Int}
    (hs : e.Shares before raised u offers takes) (hu : e.answer (.handlerEntry b) = .ok u)
    (hx : e.answer (.execution b) = .ok x) (h0 : 0 ≤ x) (hle : v + x ≤ u)
    (heq : e.Lossless b → v + x = u) :
    e.Shares (before ++ [b]) raised v (offers ++ [u]) (takes ++ [x]) where
  reached := List.rel_append hs.reached (.cons hu .nil)
  taken := List.rel_append hs.taken (.cons hx .nil)
  le := by
    have := hs.le
    rw [List.sum_append, List.sum_singleton]
    omega
  eq hl := by
    have := hs.eq fun a ha => hl a (by simp [ha])
    have := heq (hl b (by simp))
    rw [List.sum_append, List.sum_singleton]
    omega
  descends := by
    obtain ⟨-, -, hlast⟩ := List.pairwise_append.mp hs.descends
    refine List.pairwise_append.mpr ⟨hs.descends, List.pairwise_singleton _ _, ?_⟩
    simp only [List.mem_append, List.mem_singleton, forall_eq]
    rintro r (hr | rfl)
    · have := hlast r hr u (by simp)
      omega
    · omega

/-- The induction goes from the last handler to the first, as what comes to a handler tells what
came to the one before it. -/
theorem exists_shares (h : e.tree.Linked) (hn : e.tree.nodes[i]? = some n)
    (hc : n.construct = .rescue (some w) handlers otherwise)
    (hb : ∀ a ∈ handlers, ∀ x, e.tree.exceptions? a = some x → e.Bounded x)
    {before after : List NodeId} (hsplit : handlers = before ++ a :: after)
    (hv : e.answer (.handlerEntry a) = .ok v) :
    ∃ u c offers takes, e.answer (.entry w) = .ok u ∧ e.answer (.completion w) = .ok c ∧
      e.Shares before (u - c) v offers takes := by
  induction before using List.reverseRecOn generalizing a after v with
  | nil =>
    obtain ⟨u, c, hu, hcw, rfl⟩ := handlerEntry_first h hn hc (by simp [hsplit]) hv
    exact ⟨u, c, [], [], hu, hcw, .nil, .nil, by simp, by simp, by simp⟩
  | append_singleton before b ih =>
    obtain ⟨r, x, hr, hx, h0, hle, heq⟩ := reached_of_next h hn hc (k := before.length) (b := b)
      (by simp [hsplit]) (by simp [hsplit]) (hb b (by simp [hsplit])) hv
    obtain ⟨u, c, offers, takes, hu, hcw, hs⟩ := ih (by simpa using hsplit) hr
    exact ⟨u, c, _, _, hu, hcw, hs.concat hr hx h0 hle heq⟩

/-- On a loaded tree, if the count of the exceptions that come to the last handler of a rescue comes
out, then so do those of all its handlers, which never grow along the handlers, and the executions
of the handlers before the last. Together with these, what comes to the last handler is no more than
what entered the watched body and did not complete it, and as much if no exception list loses
anyone. -/
theorem handlerEntry_add_executions {t : Tree} (ht : t.Loaded) (counters : Counters) (width : Width)
    {i w last : NodeId} {n : Node} {handlers : List NodeId} {otherwise : Slot} {v : Int}
    (hn : t.nodes[i]? = some n) (hc : n.construct = .rescue (some w) handlers otherwise)
    (hb : ∀ a ∈ handlers, ∀ x m, t.exceptions? a = some x → t.nodes[x]? = some m →
      m.kind ≠ .handler)
    (hlast : handlers.getLast? = some last)
    (hv : Gives ⟨t, counters, width⟩ (.handlerEntry last) v) :
    let e : Evidence := ⟨t, counters, width⟩
    ∃ u c offers takes,
      (∀ later, e.lookup later (.entry w) = .ok u) ∧
      (∀ later, e.lookup later (.completion w) = .ok c) ∧
      List.Forall₂ (fun a r => ∀ later, e.lookup later (.handlerEntry a) = .ok r) handlers offers ∧
      List.Forall₂ (fun a x => ∀ later, e.lookup later (.execution a) = .ok x)
        handlers.dropLast takes ∧
      v + takes.sum ≤ u - c ∧
      ((∀ a ∈ handlers.dropLast, e.Lossless a) → v + takes.sum = u - c) ∧
      offers.Pairwise (· ≥ ·) := by
  intro e
  have h : e.tree.Linked := ht.linked
  have hv := (gives_iff h).mp hv
  obtain ⟨before, rfl⟩ := List.getLast?_eq_some_iff.mp hlast
  obtain ⟨u, c, offers, takes, hu, hcw, hs⟩ := exists_shares h hn hc
    (fun a ha x hx m hm => hb a ha x m hx hm) rfl hv
  have hreached := List.rel_append hs.reached (.cons hv .nil)
  simp only [lookup_eq h, forall_const, List.dropLast_concat]
  exact ⟨u, c, offers ++ [v], takes, hu, hcw, hreached, hs.taken, hs.le, hs.eq, hs.descends⟩

end Flow.Evidence

/-- A call with three handlers, the first of which looks up what it rescues. -/
def Dump.relaying : Dump :=
  .node "rescue" 1 none [("entry", "1")]
    [.node "send" 1 none [("completion", "2")] [],
      .node "resbody" 2 none [("entered_body", "3")]
        [.node "send" 2 none [("completion", "4")] [], .node "_" 2 none [] [],
          .node "send" 2 none [] []],
      .node "resbody" 3 none [("entered_body", "5")]
        [.node "const" 3 none [] [], .node "_" 3 none [] [], .node "send" 3 none [] []],
      .node "resbody" 4 none [("entered_body", "6")]
        [.node "_" 4 none [] [], .node "_" 4 none [] [], .node "send" 4 none [] []]]

def Tree.relaying : Tree :=
  let plain (type : String) (parent index : Nat) : Node :=
    ⟨.expression type [], none, some parent, index, [], [], []⟩
  ⟨#[⟨.rescue (some 1) [2, 5, 8] none, none, none, 0, [1, 2, 5, 8], [(.entry, 1)], []⟩,
    ⟨.expression "send" [], none, some 0, 0, [], [(.completion, 2)], []⟩,
    ⟨.handler (some 3) none (some 4), none, some 0, 1, [3, 4], [(.enteredBody, 3)], []⟩,
    ⟨.expression "send" [], none, some 2, 0, [], [(.completion, 4)], []⟩,
    plain "send" 2 1,
    ⟨.handler (some 6) none (some 7), none, some 0, 2, [6, 7], [(.enteredBody, 5)], []⟩,
    plain "const" 5 0,
    plain "send" 5 1,
    ⟨.handler none none (some 9), none, some 0, 3, [9], [(.enteredBody, 6)], []⟩,
    plain "send" 8 0]⟩

theorem Tree.relaying_loaded : Tree.relaying.Loaded := ⟨"relaying", .relaying, by decide +kernel⟩

/-- Of six exceptions one is lost in the list of the first handler, which takes two of the others;
the second takes one and leaves two to the last. -/
theorem Flow.Evidence.handlerEntry_add_executions_relaying :
    let e : Evidence :=
      ⟨.relaying, .ofList [(1, 10), (2, 4), (3, 2), (4, 5), (5, 1), (6, 2)], .word⟩
    e.lookup [] (.entry 1) = .ok 10 ∧ e.lookup [] (.completion 1) = .ok 4 ∧
      e.lookup [] (.handlerEntry 8) = .ok 2 ∧ ∃ offers takes,
      List.Forall₂ (fun a r => ∀ later, e.lookup later (.handlerEntry a) = .ok r) [2, 5, 8] offers ∧
      List.Forall₂ (fun a x => ∀ later, e.lookup later (.execution a) = .ok x) [2, 5] takes ∧
      2 + takes.sum ≤ 10 - 4 ∧ offers.Pairwise (· ≥ ·) := by
  intro e
  have hu : e.lookup [] (.entry 1) = .ok 10 := by decide +kernel
  have hc : e.lookup [] (.completion 1) = .ok 4 := by decide +kernel
  have hv : e.lookup [] (.handlerEntry 8) = .ok 2 := by decide +kernel
  have hb : ∀ a ∈ [2, 5, 8], ∀ x m, Tree.relaying.exceptions? a = some x →
      Tree.relaying.nodes[x]? = some m → m.kind ≠ .handler := by
    intro a ha x m hx hm
    simp only [List.mem_cons, List.not_mem_nil, or_false] at ha
    rcases ha with rfl | rfl | rfl <;> cases hx <;> cases hm <;> decide
  obtain ⟨u, c, offers, takes, hu', hc', hreached, htaken, hle, -, hdescends⟩ :=
    handlerEntry_add_executions Tree.relaying_loaded e.counters e.width (i := 0) rfl rfl hb rfl
      ⟨[], hv⟩
  cases (hu' []).symm.trans hu
  cases (hc' []).symm.trans hc
  exact ⟨hu, hc, hv, offers, takes, hreached, htaken, hle, hdescends⟩

end BranchTally
