import BranchTally.Proofs.Dump.Arena
import BranchTally.Proofs.Text.Plain

/-! The stretches that keywords are written with. An attribute of a dump that is named for a keyword is
stored as the stretch that is read from it, and the last one of its name is the one that the loaded node
keeps. As stretches are read from what they print as, the node keeps the stretch that the attribute was
printed from. -/

namespace BranchTally

namespace Dump

variable {d x : Dump} {name text : String} {t : Tree} {i : NodeId} {key : Keyword}

/-- The attribute of a keyword is stored as the stretch that is read from it. -/
theorem readAttribute_keyword {s : Span} (hs : Span.read? text = some s) (d : Dump)
    (seen : Decorations) : d.readAttribute seen key.name text =
      pure { seen with keywords := (key, s) :: seen.keywords } := by
  have hrole : Role.named? key.name = none := by
    cases h : Role.named? key.name with
    | none => rfl
    | some role => exact absurd (Role.named?_eq_some.mp h).symm (role.name_ne_keyword key)
  rw [readAttribute, if_neg key.name_ne_style, hrole, Keyword.named?_eq_some.mpr rfl]
  dsimp only
  rw [hs]

/-- A keyword of a loaded node is the stretch that is read from the last attribute of its name. -/
theorem keyword_of_load (h : (d.load name).2 = .ok t) (hx : d.present[i]? = some x)
    (ha : x.lastAttribute key.name = some text) :
    ∃ s, t.keyword? i key = .ok (some s) ∧ Span.read? text = some s := by
  obtain ⟨p, hp, -, rfl⟩ := layout_of_load h
  obtain ⟨n, hn, hcarries, -⟩ := Tree.node_of_present (portrayRule.layout hp).2 hx
  have hread := hcarries.keywords key
  rw [ha, Option.map_some] at hread
  cases hs : n.keyword? key with
  | none =>
    rw [hs] at hread
    cases hread
  | some s =>
    rw [hs, Option.map_some, Option.some.injEq] at hread
    refine ⟨s, ?_, hread.symm⟩
    have hnode : Tree.node ⟨p.nodes.toArray⟩ i = .ok n := Tree.node_eq_ok.mpr (by simpa using hn)
    rw [Tree.keyword?, hnode, ← hs]
    rfl

end Dump

/-- Printing a stretch and reading a keyword undo each other. A stretch that fits prints plainly, and
an attribute with its text stores it, whatever the node and whatever was read before; the keyword of a
loaded node is the stretch that fits whose text its last attribute is, and prints as that attribute if
this is plain. -/
theorem keyword_of_text (key : Keyword) :
    (∀ s : Span, s.Fits → Span.Plain s.text ∧ ∀ d seen, Dump.readAttribute d seen key.name s.text =
      pure { seen with keywords := (key, s) :: seen.keywords }) ∧
    (∀ text s, Span.read? text = some s → Span.Plain text → s.Fits ∧ s.text = text) ∧
    ∀ (d x : Dump) (name text : String) (t : Tree) (i : NodeId), (d.load name).2 = .ok t →
      d.present[i]? = some x → x.lastAttribute key.name = some text →
      ∃ s, t.keyword? i key = .ok (some s) ∧ Span.read? text = some s ∧
        (∀ r : Span, r.Fits → text = r.text → s = r) ∧ (Span.Plain text → s.text = text) := by
  refine ⟨fun s hs => ⟨hs.plain_text, Dump.readAttribute_keyword hs.read?_text⟩,
    fun text s hs hplain => hplain.text_of_read? hs, ?_⟩
  intro d x name text t i h hx ha
  obtain ⟨s, hkey, hs⟩ := Dump.keyword_of_load h hx ha
  refine ⟨s, hkey, hs, ?_, fun hplain => (hplain.text_of_read? hs).2⟩
  rintro r hr rfl
  exact Option.some.inj (hs.symm.trans hr.read?_text)

/-- An attribute is overridden by one that reaches as far as a stretch can. -/
def Dump.overreaching : Dump :=
  .node "case" 1 none [("else", "007:0-7:4"), ("else", "7:0-2147483647:4")]
    [.node "_" 1 none [] [], .node "send" 7 none [] []]

theorem keyword_of_text_overreaching :
    let s : Span := ⟨⟨7, 0⟩, ⟨2147483647, 4⟩⟩
    s.Fits ∧ Span.Plain "7:0-2147483647:4" ∧
      ∃ t, (Dump.overreaching.load "overreaching").2 = .ok t ∧
        t.keyword? 0 .alternative = .ok (some s) ∧ s.text = "7:0-2147483647:4" := by
  intro s
  have hs : s.Fits := by
    unfold Span.Fits Span.coordinateLimit
    decide
  obtain ⟨hprint, -, hload⟩ := keyword_of_text .alternative
  have htext : s.text = "7:0-2147483647:4" := by decide +kernel
  obtain ⟨t, ht⟩ : ∃ t, (Dump.overreaching.load "overreaching").2 = .ok t := ⟨_, rfl⟩
  obtain ⟨s', hkey, -, hprinted, -⟩ :=
    hload .overreaching .overreaching _ s.text t 0 ht rfl (by rw [htext]; rfl)
  exact ⟨hs, htext ▸ (hprint s hs).1, t, ht, hprinted s hs rfl ▸ hkey, htext⟩

end BranchTally
