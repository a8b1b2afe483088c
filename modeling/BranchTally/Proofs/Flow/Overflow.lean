import BranchTally.Proofs.Flow.Balance
import Mathlib.Data.List.Induction

/-! No count wraps round unnoticed. A rule adds or takes away counts that words hold, so that the
number it ends with wraps round once at most, and then comes out negative, which the check of the
count notices. The arms of a dispatch, of which there may be many, complete together no more often
than control came to the first of them; a rescue adds the completion of one handler. So a count that
comes out of words is what its rule makes of the same counts in whole numbers, and by induction the
same count in whole numbers. -/

namespace BranchTally

open BranchTally.Flow

/-! ### Numbers that were checked -/

namespace Width

variable {a b n : Int}

/-- A count that a word holds. -/
def IsCount (n : Int) : Prop := 0 ≤ n ∧ n < 9223372036854775808

theorem isCount_of_keeps (hk : word.Keeps n) (h0 : 0 ≤ n) : IsCount n :=
  ⟨h0, (keeps_word.mp hk).2⟩

/-- A number that wraps round once comes out negative. -/
theorem fit_eq_of_nonneg (hlo : -9223372036854775808 ≤ n) (hhi : n < 18446744073709551616)
    (h0 : 0 ≤ word.fit n) : word.fit n = n := by
  by_cases hn : n < 9223372036854775808
  · exact keeps_word.mpr ⟨hlo, hn⟩
  · have hwrap : word.fit (n - 18446744073709551616) = word.fit n :=
      Int.sub_bmod_right n wordCount
    have hkept : word.Keeps (n - 18446744073709551616) := keeps_word.mpr (by omega)
    rw [← hwrap, hkept] at h0
    omega

theorem add_eq_of_nonneg (ha : IsCount a) (hb : IsCount b) (h0 : 0 ≤ word.add a b) :
    word.add a b = a + b := by
  obtain ⟨ha0, ha⟩ := ha
  obtain ⟨hb0, hb⟩ := hb
  exact fit_eq_of_nonneg (by omega) (by omega) h0

theorem sub_eq_of_nonneg (ha : IsCount a) (hb : word.Keeps b) (h0 : 0 ≤ word.sub a b) :
    word.sub a b = a - b := by
  obtain ⟨ha0, ha⟩ := ha
  obtain ⟨hb0, hb⟩ := keeps_word.mp hb
  exact fit_eq_of_nonneg (by omega) (by omega) h0

theorem IsCount.sub_eq (ha : IsCount a) (hb : IsCount b) : word.sub a b = a - b :=
  keeps_word.mpr (by
    obtain ⟨ha0, ha⟩ := ha
    obtain ⟨hb0, hb⟩ := hb
    omega)

theorem fit_add_fit (a b : Int) : word.fit (word.fit a + b) = word.fit (a + b) :=
  Int.bmod_add_bmod

end Width

/-! ### Derivations that agree where they are checked -/

namespace Flow.Derivation

variable {α : Type} {f : Query → Except Fault Int}

/-- Whatever comes out of the first derivation and is not negative comes out of the second too, if
both are answered in the same way. -/
def Agrees (f : Query → Except Fault Int) (x y : Derivation Int) : Prop :=
  ∀ v, 0 ≤ v → x.run f = .ok v → y.run f = .ok v

namespace Agrees

theorem refl (x : Derivation Int) : Agrees f x x := fun _ _ hv => hv

theorem pure {a b : Int} (h : 0 ≤ a → a = b) : Agrees f (Pure.pure a) (Pure.pure b) := by
  rintro v h0 hv
  cases hv
  rw [h h0, run_pure]

theorem bind {z : Derivation α} {x y : α → Derivation Int}
    (h : ∀ a, z.run f = .ok a → Agrees f (x a) (y a)) : Agrees f (z >>= x) (z >>= y) := by
  intro v h0 hv
  obtain ⟨a, ha, hv⟩ := Evidence.run_bind_eq_ok.mp hv
  exact Evidence.run_bind_eq_ok.mpr ⟨a, ha, h a ha v h0 hv⟩

theorem nonNegative {quantity : Quantity} {node : Label} {a b : Int} (h : 0 ≤ a → a = b) :
    Agrees f (Evidence.nonNegative quantity node a) (Evidence.nonNegative quantity node b) := by
  intro v h0 hv
  obtain ⟨rfl, -⟩ := Evidence.run_nonNegative.mp hv
  exact Evidence.run_nonNegative.mpr ⟨(h h0).symm, h h0 ▸ h0⟩

end Agrees

end Flow.Derivation

/-- Handlers stand only in a rescue, and no rescue has two of them. -/
structure Tree.Solitary (t : Tree) : Prop where
  handler : ∀ {i : NodeId} {n : Node}, t.nodes[i]? = some n → n.kind = .handler →
    ∃ (p : NodeId) (m : Node) (watched otherwise : Slot) (handlers : List NodeId),
      n.parent = some p ∧ t.nodes[p]? = some m ∧
        m.construct = .rescue watched handlers otherwise ∧ i ∈ handlers
  alone : ∀ {i : NodeId} {n : Node} {watched otherwise : Slot} {handlers : List NodeId},
    t.nodes[i]? = some n → n.construct = .rescue watched handlers otherwise → handlers.length ≤ 1

namespace Flow.Evidence

open Flow.Derivation BranchTally.Tree Width

/-- Counters of a tree whose counts are kept in words. -/
def words (t : Tree) (counters : Counters) : Evidence := ⟨t, counters, .word⟩

variable {t : Tree} {c x : Counters} {e : Evidence} {i p id a body : NodeId} {n m : Node}
  {patterns : List NodeId} {u v w : Int} {q : Query}

/-- A sum of words is the sum that wraps round in the end. -/
theorem run_addCompletions_words {f : Query → Except Fault Int} {ids : List NodeId} {total : Int}
    (hv : ((words t c).addCompletions (word.fit total) ids).run f = .ok v) :
    ∃ sum, ((whole t x).addCompletions total ids).run f = .ok sum ∧ v = word.fit sum := by
  induction ids generalizing total with
  | nil =>
    cases hv
    exact ⟨total, rfl, rfl⟩
  | cons a ids ih =>
    obtain ⟨y, hy, hv⟩ := run_bind_eq_ok.mp hv
    have hwrap : (words t c).width.add (word.fit total) y = word.fit (total + y) :=
      fit_add_fit total y
    rw [hwrap] at hv
    obtain ⟨sum, hsum, rfl⟩ := ih hv
    exact ⟨sum, run_bind_eq_ok.mpr ⟨y, hy, hsum⟩, rfl⟩

/-- A handler stands in no slot but those of a rescue. -/
theorem bounded_of_slot (h : e.tree.Linked) (hs : e.tree.Solitary)
    (hn : e.tree.nodes[i]? = some n) (ha : a ∈ n.construct.present) (hk : n.kind ≠ .rescue) :
    e.Bounded a := by
  intro m hm hmk
  obtain ⟨p, n', watched, otherwise, handlers, hp, hn', hcon, -⟩ := hs.handler hm hmk
  cases (h.parent_eq hn ha hm).symm.trans hp
  cases hn.symm.trans hn'
  exact hk (by simp [Node.kind, hcon, Construct.kind])

/-- An arm completes no more often than it matches. -/
theorem completion_le_matched (h : e.tree.Linked) (hs : e.tree.Solitary)
    (hm : e.tree.nodes[a]? = some m) (hcon : m.construct = .arm patterns (some body))
    (hv : e.answer (.completion a) = .ok v) (hu : e.answer (.entry body) = .ok u) : v ≤ u := by
  obtain ⟨m', -, hm', -, hfall, -⟩ :=
    flows_of_completion h (.of_kind hm (by simp [Node.kind, hcon, Construct.kind])) hv
  cases hm.symm.trans hm'
  have hb : e.answer (.completion body) = .ok v := by
    simpa [fallThrough, hcon, run_bind_eq_ok] using hfall
  have hbody := bounded_of_slot h hs hm (a := body) (by simp [hcon, Construct.present])
    (by simp [Node.kind, hcon, Construct.kind])
  exact (Flows.le h ⟨hu, hb⟩ hbody).2.2

section Rules

variable (h : t.Linked) (hs : t.Solitary) (hh : ∀ tracker, 0 ≤ c.hits .word tracker)
  (hx : ∀ tracker, x.total tracker = c.hits .word tracker)

include h hh in
theorem isCount_answer (hv : (words t c).answer q = .ok v) : IsCount v :=
  isCount_of_keeps (keeps_answer hv) (answer_nonneg (e := words t c) hh h hv)

include h hh in
/-- What a rule asks for is a count. -/
theorem isCount_run (hv : (count q).run (words t c).answer = .ok v) : IsCount v :=
  isCount_answer h hh (run_count _ _ ▸ hv)

include hh in
theorem isCount_reading (n : Node) (role : Role) : IsCount ((words t c).reading n role) :=
  isCount_of_keeps (keeps_reading (words t c) n role) (reading_nonneg (e := words t c) hh n role)

include hx in
theorem reading_whole (n : Node) (role : Role) :
    (whole t x).reading n role = (words t c).reading n role := by
  unfold reading
  cases n.tracker? role with
  | none => rfl
  | some tracker => exact hx tracker

include h hh hx

/-- An entry is read off a tracker or a count, or the sum or difference of two. -/
theorem childEntry_agrees : Agrees (words t c).answer ((words t c).childEntry p n id)
    ((whole t x).childEntry p n id) := by
  have hread := reading_whole (t := t) hx n
  cases hc : n.construct with
  | conditional style condition whenTrue whenFalse =>
    simp only [childEntry, hc, hread]
    split
    · exact .refl _
    split
    · exact .refl _
    refine .bind fun a _ => .bind fun decided hd => .pure fun _ => ?_
    exact (isCount_run h hh hd).sub_eq (isCount_reading hh n .truthy)
  | dispatch subject arms otherwise =>
    simp only [childEntry, hc, hread]
    split
    · exact .refl _
    split
    · exact .refl _
    refine .bind fun previous _ => ?_
    cases previous with
    | none => exact .refl _
    | some b =>
      simp only
      split
      · exact .refl _
      refine .bind fun m _ => ?_
      cases m.construct with
      | arm patterns body =>
        refine .bind fun tried ht => .bind fun _ _ => .bind fun matched hm => .pure fun _ => ?_
        exact (isCount_run h hh ht).sub_eq (isCount_run h hh hm)
      | _ => exact .refl _
  | loop polarity test condition body =>
    simp only [childEntry, hc, hread]
    split
    · exact .refl _
    refine .bind fun b _ => ?_
    cases test with
    | before =>
      refine .bind fun first hf => .bind fun again ha => .pure ?_
      exact add_eq_of_nonneg (isCount_run h hh hf) (isCount_run h hh ha)
    | after => exact .refl _
  | _ =>
    simp only [childEntry, hc, hread]
    exact .refl _

omit hx in
/-- A handler gets a count or the difference of two. -/
theorem handlerEntryRule_agrees : Agrees (words t c).answer ((words t c).handlerEntryRule id)
    ((whole t x).handlerEntryRule id) := by
  refine .bind fun n _ => ?_
  cases n.parent with
  | none => exact .refl _
  | some owner =>
    refine .bind fun m _ => ?_
    cases m.construct with
    | rescue watched handlers otherwise =>
      cases watched with
      | none => exact .refl _
      | some w =>
        refine .bind fun previous _ => ?_
        cases previous with
        | none => exact .refl _
        | some j =>
          simp only
          split
          · refine .bind fun entered he => .bind fun completed hc => .nonNegative fun _ => ?_
            exact (isCount_run h hh he).sub_eq (isCount_run h hh hc)
          refine .bind fun k _ => ?_
          cases k.construct with
          | handler exceptions assignment body =>
            cases exceptions
            all_goals
              refine .bind fun offered ho => .bind fun taken ht => .nonNegative fun _ => ?_
              exact (isCount_run h hh ho).sub_eq (isCount_run h hh ht)
          | _ => exact .refl _
    | _ => exact .refl _

theorem implicitBranchRule_agrees : Agrees (words t c).answer ((words t c).implicitBranchRule id)
    ((whole t x).implicitBranchRule id) := by
  refine .bind fun n _ => ?_
  have hread := reading_whole (t := t) hx n
  cases n.construct with
  | shortCircuit op left right =>
    refine .bind fun _ _ => .bind fun decided hd => .bind fun _ _ => .bind fun evaluated he =>
      .nonNegative fun _ => ?_
    exact (isCount_run h hh hd).sub_eq (isCount_run h hh he)
  | safeNavigation receiver arguments =>
    simp only [hread]
    split
    · exact .refl _
    refine .bind fun _ _ => .bind fun received hr => .nonNegative fun _ => ?_
    exact (isCount_run h hh hr).sub_eq (isCount_reading hh n .nonNil)
  | loop polarity test condition body =>
    refine .bind fun _ _ => .bind fun tested ht => .bind fun _ _ => .bind fun entered he => ?_
    have ht := isCount_run h hh ht
    have he := isCount_run h hh he
    cases test with
    | before => exact .nonNegative fun _ => ht.sub_eq he
    | after =>
      refine .bind fun first hf => ?_
      have hf := isCount_run h hh hf
      -- the passes that repeat the loop may be negative, but only just
      refine .nonNegative fun h0 => ?_
      have hrepeated : word.sub entered first = entered - first := he.sub_eq hf
      have := sub_eq_of_nonneg ht (keeps_sub (words t c) entered first) h0
      exact this.trans (congrArg (tested - ·) hrepeated)
  | _ => exact .refl _

/-! ### Completions in a row -/

omit hh hx in
/-- A sum of counts comes out of words only if it did not wrap round, if it can wrap round once at
most. -/
theorem addCompletions_agrees {ids : List NodeId} {total : Int} (h0 : IsCount total)
    (hhi : ∀ sum, ((whole t x).addCompletions total ids).run (words t c).answer = .ok sum →
      sum < 18446744073709551616) :
    Agrees (words t c).answer ((words t c).addCompletions total ids)
      ((whole t x).addCompletions total ids) := by
  intro v hv0 hv
  have hkept : word.fit total = total := keeps_word.mpr ⟨by have := h0.1; omega, h0.2⟩
  rw [← hkept] at hv
  obtain ⟨sum, hsum, rfl⟩ := run_addCompletions_words (x := x) hv
  have hle := le_addCompletions (e := whole t x) rfl (completion_nonneg (e := words t c) h) hsum
  rw [fit_eq_of_nonneg (by have := h0.1; omega) (hhi sum hsum) hv0, hsum]

/-! ### The arms of a dispatch -/

section Dispatch

variable {arms : List NodeId} {subject otherwise : Slot} (hn : t.nodes[i]? = some n)
  (hc : n.construct = .dispatch subject arms otherwise)

include hs hn hc

omit hh hx in
/-- Some arms complete no more often than control came to the first of them and did not go past
them. -/
theorem addCompletions_le {before after : List NodeId} {r : Int} (harms : arms = before ++ after)
    (hr : (words t c).Unmatched i subject before r)
    (hv : ((whole t x).addCompletions u before).run (words t c).answer = .ok v) :
    ∃ w, (words t c).Unmatched i subject [] w ∧ v ≤ u + (w - r) := by
  induction before using List.reverseRecOn generalizing after r v with
  | nil =>
    cases hv
    exact ⟨r, hr, by omega⟩
  | append_singleton before a ih =>
    rw [List.append_assoc] at harms
    obtain ⟨y, z, hy, hz, rfl⟩ := run_addCompletions_concat.mp hv
    simp only [Unmatched, List.getLast?_concat, gives_iff (e := words t c) h] at hr
    obtain ⟨m, patterns, body, tried, matched, hm, hcon, ht, hmt, rfl⟩ := hr
    have hle := completion_le_matched (e := words t c) h hs hm hcon hz hmt
    obtain ⟨w, hw, hyw⟩ :=
      ih harms (unmatched_of_entry (e := words t c) h hn hc harms ht) hy
    refine ⟨w, hw, ?_⟩
    change y + z ≤ _
    omega

omit hx in
/-- All arms complete no more often than control came to the first of them. -/
theorem addCompletions_lt (hu : IsCount u)
    (hv : ((whole t x).addCompletions u arms).run (words t c).answer = .ok v) :
    v < 18446744073709551616 := by
  obtain ⟨hu0, hu⟩ := hu
  rcases List.eq_nil_or_concat arms with rfl | ⟨before, a, rfl⟩
  · cases hv
    omega
  · rw [List.concat_eq_append] at hv hc
    obtain ⟨y, z, hy, hz, rfl⟩ := run_addCompletions_concat.mp hv
    obtain ⟨m, hm, hk⟩ := h.arm_kind hn hc (a := a) (by simp)
    obtain ⟨-, tried, -, hf, -, -, hle⟩ := flows_of_completion (e := words t c) h
      (.of_kind hm (by simp [hk])) hz
    have hr : (words t c).Unmatched i subject before tried :=
      unmatched_of_entry h hn hc rfl hf.entry
    obtain ⟨w, hw, hyw⟩ := addCompletions_le h hs hn hc rfl hr hy
    simp only [Unmatched, List.getLast?_nil, gives_iff (e := words t c) h] at hw
    have hw := (isCount_answer h hh hw).2
    change y + z < _
    omega

end Dispatch

/-! ### The rules as a whole -/

omit hx in
theorem isCount_lastCompletion {ids : List NodeId} (h0 : IsCount u)
    (hv : (lastCompletion ids u).run (words t c).answer = .ok v) : IsCount v := by
  unfold lastCompletion at hv
  split at hv
  · exact isCount_run h hh hv
  · cases hv
    exact h0

include hs in
theorem fallThrough_agrees (hn : t.nodes[id]? = some n) : Agrees (words t c).answer
    ((words t c).fallThrough id n) ((whole t x).fallThrough id n) := by
  have hread := reading_whole (t := t) hx n
  cases hc : n.construct with
  | conditional style condition whenTrue whenFalse =>
    simp only [fallThrough, hc]
    refine .bind fun _ _ => .bind fun held hd => .bind fun _ _ => .bind fun failed hf => .pure ?_
    exact add_eq_of_nonneg (isCount_run h hh hd) (isCount_run h hh hf)
  | dispatch subject arms otherwise =>
    simp only [fallThrough, hc]
    refine .bind fun _ _ => .bind fun unmatched hu => ?_
    have hu := isCount_run h hh hu
    exact addCompletions_agrees h hu fun sum hsum => addCompletions_lt h hs hh hn hc hu hsum
  | shortCircuit op left right =>
    simp only [fallThrough, hc]
    refine .bind fun _ _ => .bind fun evaluated he => .bind fun skipped hk => .pure ?_
    exact add_eq_of_nonneg (isCount_run h hh he) (isCount_run h hh hk)
  | safeNavigation receiver arguments =>
    simp only [fallThrough, hc, hread]
    split
    · refine .bind fun made hm => .bind fun skipped hk => .pure ?_
      cases hm
      exact add_eq_of_nonneg (isCount_run h hh hk) (isCount_reading hh n _)
    · refine .bind fun made hm => .bind fun skipped hk => .pure ?_
      exact add_eq_of_nonneg (isCount_run h hh hk)
        (isCount_lastCompletion h hh (isCount_reading hh n _) hm)
  | rescue watched handlers otherwise =>
    cases watched with
    | none =>
      simp only [fallThrough, hc]
      exact .refl _
    | some b =>
      simp only [fallThrough, hc]
      refine .bind fun unharmed hu => ?_
      have hu := isCount_run h hh hu
      refine addCompletions_agrees h hu fun sum hsum => ?_
      -- there is one handler at most
      have halone := hs.alone hn hc
      cases handlers with
      | nil =>
        cases hsum
        have := hu.2
        omega
      | cons a handlers =>
        obtain rfl : handlers = [] := List.eq_nil_of_length_eq_zero (by simpa using halone)
        obtain ⟨y, hy, hsum⟩ := run_bind_eq_ok.mp hsum
        cases hsum
        have hy := (isCount_run h hh hy).2
        have := hu.2
        change unharmed + y < _
        omega
  | handler exceptions assignment body =>
    simp only [fallThrough, hc]
    cases body <;> exact .refl _
  | ensure body ensured =>
    simp only [fallThrough, hc]
    cases body with
    | some b => exact .refl _
    | none => cases ensured <;> exact .refl _
  | _ =>
    simp only [fallThrough, hc, hread]
    exact .refl _

include hs in
/-- What a rule makes of counts in words it makes of them in whole numbers. -/
theorem run_rule_whole (hv : ((words t c).rule q).run (words t c).answer = .ok v) :
    ((whole t x).rule q).run (words t c).answer = .ok v := by
  cases q with
  | entry id =>
    obtain ⟨n, hn, hv, h0⟩ := run_entryRule.mp hv
    refine run_entryRule.mpr ⟨n, hn, ?_, h0⟩
    unfold entrance at hv ⊢
    cases hp : n.parent with
    | none =>
      rw [hp] at hv
      rw [reading_whole hx]
      exact hv
    | some p =>
      rw [hp] at hv
      obtain ⟨m, hm, hv⟩ := run_bind_eq_ok.mp hv
      exact run_bind_eq_ok.mpr ⟨m, hm, childEntry_agrees h hh hx v h0 hv⟩
  | execution id =>
    obtain ⟨n, hn, hv, hbound⟩ := run_executionRule.mp hv
    refine run_executionRule.mpr ⟨n, hn, ?_, hbound⟩
    unfold arrival at hv ⊢
    rw [reading_whole hx]
    exact hv
  | completion id =>
    obtain ⟨n, b, hn, hv, hb, h0, hle⟩ := run_completionRule.mp hv
    exact run_completionRule.mpr ⟨n, b, hn, fallThrough_agrees h hs hh hx hn v h0 hv, hb, h0, hle⟩
  | handlerEntry arm =>
    exact handlerEntryRule_agrees h hh v (handlerEntry_nonneg (e := words t c) h
      ((answer_eq (e := words t c) h _).trans hv)) hv
  | implicitBranch id =>
    exact implicitBranchRule_agrees h hh hx v (implicitBranch_nonneg (e := words t c) hh h
      ((answer_eq (e := words t c) h _).trans hv)) hv

include hs in
/-- The induction goes along the order in which counts rest on each other. -/
theorem answer_whole (hv : (words t c).answer q = .ok v) : (whole t x).answer q = .ok v := by
  revert hv
  apply count_induction (t := t) (P := fun q => ∀ v, (words t c).answer q = .ok v →
    (whole t x).answer q = .ok v) _ q v
  intro q ih v hv
  rw [answer_eq (e := words t c) h] at hv
  rw [answer_eq (e := whole t x) h]
  exact (rule_asksOnly (e := whole t x) h q).run_mono ih (run_rule_whole h hs hh hx hv)

end Rules

/-- On a loaded tree in which no rescue has two handlers, and for counters whose hits are not
negative as words, every count that comes out when sums and differences wrap round is the count that
the same hits give in whole numbers. -/
theorem lookup_whole (ht : t.Loaded) (hs : t.Solitary) (counters exact : Counters)
    (hh : ∀ tracker, 0 ≤ counters.hits .word tracker)
    (hexact : ∀ tracker, exact.hits .unbounded tracker = counters.hits .word tracker)
    (hv : Gives ⟨t, counters, .word⟩ q v) :
    ∀ later, Evidence.lookup ⟨t, exact, .unbounded⟩ later q = .ok v := by
  have h : t.Linked := ht.linked
  intro later
  exact (lookup_eq (e := whole t exact) h later q).trans
    (answer_whole h hs hh hexact ((gives_iff (e := words t counters) h).mp hv))

end Flow.Evidence

theorem Tree.sorting_solitary : Tree.sorting.Solitary where
  handler := Tree.sorting_housed.handler
  alone {i n watched otherwise handlers} hn hc := by
    have hi : i < 20 := size_of_node hn
    interval_cases i <;> cases hn <;> cases hc
    decide

/-- As many items as a word can count, half of which are matched by the first arm and a quarter by
the second, so that the completions of the `case` add up to the largest word. -/
theorem Flow.Evidence.lookup_whole_sorting :
    let counters := Counters.ofList [(1, 9223372036854775807), (2, 2305843009213693951),
      (3, 4611686018427387904), (4, 2305843009213693952), (5, 0), (6, 0)]
    Evidence.lookup ⟨.sorting, counters, .word⟩ [] (.completion 2) = .ok 9223372036854775807 ∧
      Evidence.lookup ⟨.sorting, counters, .unbounded⟩ [] (.completion 2) =
        .ok 9223372036854775807 := by
  intro counters
  have hv : Evidence.lookup ⟨.sorting, counters, .word⟩ [] (.completion 2) =
      .ok 9223372036854775807 := by
    decide +kernel
  have hexact : ∀ tracker, counters.hits .unbounded tracker = counters.hits .word tracker :=
    Counters.forall_total (P := fun n => n = Width.word.fit n) rfl (by decide +kernel)
  exact ⟨hv, lookup_whole Tree.sorting_loaded Tree.sorting_solitary counters counters
    (Counters.hits_nonneg (by decide +kernel)) hexact ⟨[], hv⟩ []⟩

end BranchTally
