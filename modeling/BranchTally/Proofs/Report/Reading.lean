import Mathlib.Data.List.Basic
import BranchTally.Report.Record
import BranchTally.Text.Decimal

/-! A printed report can be read back. A reader takes a value off the front of a text and leaves what
follows. What a descriptor, an entry, a record or a report prints as is taken off as just that,
whatever follows, save that no digit may follow a number. Two reports that print alike therefore have
the same conditions and branches. -/

namespace BranchTally

/-! ### Readers -/

/-- A reader takes a value off the front of a text. -/
abbrev Scan := StateT (List Char) Option

namespace Scan

variable {α β : Type}

/-- Passes over a fixed text. -/
def literal (s : String) : Scan Unit := fun cs => (cs.dropPrefix? s.toList).map ((), ·)

/-- Passes over a fixed text if it is there, and tells whether it was. -/
def accept (s : String) : Scan Bool := fun cs =>
  match cs.dropPrefix? s.toList with
  | some rest => some (true, rest)
  | none => some (false, cs)

/-- A value with a fixed text after it. -/
def closed (p : Scan α) (s : String) : Scan α := do
  let a ← p
  literal s
  return a

/-- All digits in front. -/
def natural : Scan Nat := fun cs =>
  (Decimal.digits? (cs.takeWhile Char.isDigit)).map (·, cs.dropWhile Char.isDigit)

def integer : Scan Int := do
  let negative ← accept "-"
  let n ← natural
  return if negative then -n else n

/-- The first of the values whose text is in front. -/
def oneOf (text : α → String) (values : List α) : Scan α := fun cs =>
  values.findSome? fun a => (cs.dropPrefix? (text a).toList).map (a, ·)

/-- One or more items with separators between them, and no more than the bound. -/
def separated (item : Scan α) (separator : String) : Nat → Scan (List α)
  | 0 => failure
  | bound + 1 => do
    let a ← item
    if ← accept separator then return a :: (← separated item separator bound)
    else return [a]

/-- Items in braces; a text has no more of them than it has characters. -/
def braced (item : Scan α) (separator : String) : Scan (List α) := do
  literal "\x7b"
  if ← accept "\x7d" then return []
  else closed (do separated item separator (← get).length) "\x7d"

/-! ### What readers take -/

/-- The reader takes a text as this value, if what follows is of some sort. -/
def Takes (F : List Char → Prop) (p : Scan α) (s : String) (a : α) : Prop :=
  ∀ rest, F rest → p (s.toList ++ rest) = some (a, rest)

/-- Anything may follow. -/
def Anything (_ : List Char) : Prop := True

/-- No digit follows. -/
def NoDigit (rest : List Char) : Prop := ∀ c ∈ rest.head?, ¬c.isDigit

section Takes

variable {F : List Char → Prop} {p : Scan α} {f : α → Scan β} {s t : String} {a : α} {b : β}

theorem Takes.bind (hp : Takes Anything p s a) (hf : Takes F (f a) t b) :
    Takes F (p >>= f) (s ++ t) b := by
  intro rest hrest
  rw [String.toList_append, List.append_assoc]
  change (p _).bind (fun x => f x.1 x.2) = _
  rw [hp _ trivial]
  exact hf rest hrest

theorem Takes.map (hp : Takes F p s a) (f : α → β) : Takes F (do return f (← p)) s (f a) := by
  intro rest hrest
  change (p _).bind (fun x => some (f x.1, x.2)) = _
  rw [hp _ hrest]
  rfl

theorem dropPrefix?_toList_append (s : String) (rest : List Char) :
    (s.toList ++ rest).dropPrefix? s.toList = some rest :=
  List.dropPrefix?_append_of_beq rest (beq_self_eq_true _)

theorem takes_literal (s : String) : Takes Anything (literal s) s () := by
  intro rest _
  rw [literal, dropPrefix?_toList_append]
  rfl

theorem accept_append (s : String) (rest : List Char) :
    accept s (s.toList ++ rest) = some (true, rest) := by
  rw [accept, dropPrefix?_toList_append]

/-- A fixed text is not there if something else stands in front than what it starts with. -/
theorem accept_of_head {c : Char} {cs : List Char} (hs : s.toList.head? = some c)
    (hcs : cs.head? ≠ some c) : accept s cs = some (false, cs) := by
  have hnone : cs.dropPrefix? s.toList = none := by
    rw [List.head?_eq_some_iff] at hs
    obtain ⟨ys, hs⟩ := hs
    cases cs with
    | nil => rw [hs, List.dropPrefix?]
    | cons d cs =>
      have hne : d ≠ c := fun h => hcs (congrArg some h)
      simp [hs, List.dropPrefix?, hne]
  rw [accept, hnone]

/-- A text that ends a value may itself be followed by anything. -/
theorem Takes.closed (hp : Takes F p s a) (ht : ∀ rest, F (t.toList ++ rest)) :
    Takes Anything (closed p t) (s ++ t) a := by
  intro rest _
  rw [String.toList_append, List.append_assoc]
  change (p _).bind (fun x => ((literal t) x.2).bind fun y => some (x.1, y.2)) = _
  rw [hp _ (ht rest), Option.bind_some, takes_literal t rest trivial]
  rfl

end Takes

/-! ### Numbers -/

theorem takes_natural (n : Nat) : Takes NoDigit natural (toString n) n := by
  intro rest hrest
  have hdigits : ∀ c ∈ Nat.toDigits 10 n, c.isDigit = true := fun c hc =>
    Nat.isDigit_of_mem_toDigits (by decide) (by decide) hc
  have htext : (toString n).toList = Nat.toDigits 10 n := Nat.toList_repr
  have hrest' : rest.takeWhile Char.isDigit = [] ∧ rest.dropWhile Char.isDigit = rest := by
    cases rest with
    | nil => exact ⟨rfl, rfl⟩
    | cons c rest =>
      have hc : ¬c.isDigit := hrest c rfl
      simp [hc]
  rw [natural, htext, List.takeWhile_append_of_pos hdigits, List.dropWhile_append_of_pos hdigits,
    hrest'.1, hrest'.2, List.append_nil, Decimal.digits?_toDigits]
  rfl

/-- The digits of a number start with a digit. -/
theorem head?_toString_append (n : Nat) (rest : List Char) :
    ∃ c, ((toString n).toList ++ rest).head? = some c ∧ c.isDigit := by
  have htext : (toString n).toList = Nat.toDigits 10 n := Nat.toList_repr
  rw [htext]
  cases hds : Nat.toDigits 10 n with
  | nil => exact absurd hds Nat.toDigits_ne_nil
  | cons c ds =>
    exact ⟨c, rfl, Nat.isDigit_of_mem_toDigits (by decide) (by decide) (hds ▸ List.mem_cons_self)⟩

theorem takes_integer (n : Int) : Takes NoDigit integer (toString n) n := by
  intro rest hrest
  have hrun : ∀ cs, integer cs = (accept "-" cs).bind fun x => (natural x.2).bind fun y =>
      some (if x.1 then -(y.1 : Int) else y.1, y.2) := fun cs => rfl
  rw [hrun]
  cases n with
  | ofNat m =>
    obtain ⟨c, hc, hdigit⟩ := head?_toString_append m rest
    have hsign : ((toString m).toList ++ rest).head? ≠ some '-' := by
      rw [hc]
      rintro ⟨⟩
      exact absurd hdigit (by decide)
    change (accept "-" ((toString m).toList ++ rest)).bind _ = _
    rw [accept_of_head rfl hsign, Option.bind_some, takes_natural m rest hrest]
    rfl
  | negSucc m =>
    change (accept "-" (("-" ++ toString (m + 1)).toList ++ rest)).bind _ = _
    rw [String.toList_append, List.append_assoc, accept_append, Option.bind_some,
      takes_natural (m + 1) rest hrest]
    rfl

/-! ### Lists -/

section Lists

variable {α β : Type} {item : Scan β} {text : α → String} {value : α → β} {separator : String}
  {as : List α}

/-- A closing brace follows. -/
def ClosingBrace (rest : List Char) : Prop := rest.head? = some '}'

theorem noDigit_of_head {c : Char} {cs : List Char} (hcs : cs.head? = some c) (hc : ¬c.isDigit) :
    NoDigit cs := by
  intro d hd
  cases hcs.symm.trans hd
  exact hc

theorem separated_succ (bound : Nat) (cs : List Char) :
    separated item separator (bound + 1) cs = (item cs).bind fun x =>
      (accept separator x.2).bind fun y =>
        if y.1 then (separated item separator bound y.2).bind fun z => some (x.1 :: z.1, z.2)
        else some ([x.1], y.2) := by
  change (item cs).bind _ = _
  congr 1
  funext x
  change (accept separator x.2).bind _ = _
  congr 1
  funext y
  obtain ⟨more, rest⟩ := y
  cases more <;> rfl

/-- Items are taken one after the other, as a comma follows each of them or a closing brace. -/
theorem takes_separated (hsep : separator.toList.head? = some ',') {bound : Nat}
    (hitem : ∀ a ∈ as, Takes NoDigit item (text a) (value a)) (hne : as ≠ [])
    (hbound : as.length ≤ bound) :
    Takes ClosingBrace (separated item separator bound) (separator.intercalate (as.map text))
      (as.map value) := by
  induction as generalizing bound with
  | nil => exact absurd rfl hne
  | cons a as ih =>
    obtain ⟨bound, rfl⟩ : ∃ k, bound = k + 1 :=
      Nat.exists_eq_add_one.mpr (Nat.lt_of_lt_of_le (Nat.succ_pos _) hbound)
    obtain ⟨ha, has⟩ := List.forall_mem_cons.mp hitem
    intro rest hrest
    rw [separated_succ, String.toList_intercalate]
    cases as with
    | nil =>
      have hdigit : NoDigit rest := noDigit_of_head hrest (by decide)
      have hmore : rest.head? ≠ some ',' := by
        rw [show rest.head? = some '}' from hrest]
        decide
      simp only [List.map_cons, List.map_nil, List.intercalate_singleton]
      rw [ha rest hdigit, Option.bind_some, accept_of_head hsep hmore]
      rfl
    | cons b as =>
      -- A number at the end of an item stops at the comma.
      have hdigit : ∀ cs, NoDigit (separator.toList ++ cs) := fun cs =>
        noDigit_of_head (by rw [List.head?_append, hsep]; rfl) (by decide)
      have hlater := ih has (by simp) (by simpa using hbound)
      rw [List.map_cons, List.map_cons, List.map_cons, List.map_cons,
        List.intercalate_cons_cons, List.append_assoc, List.append_assoc, ha _ (hdigit _),
        Option.bind_some, accept_append, Option.bind_some, if_pos rfl, ← List.map_cons,
        ← List.map_cons, ← String.toList_intercalate, hlater rest hrest]
      rfl

/-- A list of texts none of which is empty has no more of them than it has characters. -/
theorem length_le_intercalate (separator : String) (hne : ∀ a ∈ as, text a ≠ "") :
    as.length ≤ (separator.intercalate (as.map text)).toList.length := by
  rw [String.toList_intercalate]
  induction as with
  | nil => simp
  | cons a as ih =>
    obtain ⟨ha, has⟩ := List.forall_mem_cons.mp hne
    have hpos : 0 < (text a).toList.length := List.length_pos_of_ne_nil (by simpa using ha)
    have hlater := ih has
    cases as with
    | nil => simpa using Nat.succ_le_of_lt hpos
    | cons b as =>
      simp only [List.map_cons, List.intercalate_cons_cons, List.length_append,
        List.length_cons] at hlater ⊢
      omega

/-- A list starts with what its first text starts with. -/
theorem head?_intercalate {c : Char} (hne : as ≠ [])
    (hhead : ∀ a ∈ as, (text a).toList.head? = some c) :
    (separator.intercalate (as.map text)).toList.head? = some c := by
  obtain ⟨a, as, rfl⟩ := List.exists_cons_of_ne_nil hne
  have ha := hhead a List.mem_cons_self
  cases as with
  | nil => simp [ha]
  | cons b bs => simp [ha]

/-- Braces are taken with all the items between them, as an item that starts with a bracket is told
from a closing brace. -/
theorem takes_braced (hsep : separator.toList.head? = some ',')
    (hitem : ∀ a ∈ as, Takes NoDigit item (text a) (value a))
    (hhead : ∀ a ∈ as, (text a).toList.head? = some '[') :
    Takes Anything (braced item separator)
      ("\x7b" ++ separator.intercalate (as.map text) ++ "\x7d") (as.map value) := by
  rw [String.append_assoc]
  refine (takes_literal "\x7b").bind fun rest _ => ?_
  change (accept "\x7d" _).bind _ = _
  by_cases has : as = []
  · have hclosed : (separator.intercalate (as.map text) ++ "\x7d").toList ++ rest =
        "\x7d".toList ++ rest := by simp [has]
    rw [hclosed, accept_append, has]
    rfl
  · have hopen : ((separator.intercalate (as.map text) ++ "\x7d").toList ++ rest).head? ≠
        some '}' := by
      rw [String.toList_append, List.append_assoc, List.head?_append, head?_intercalate has hhead,
        Option.some_or]
      decide
    have hne : ∀ a ∈ as, text a ≠ "" := fun a ha h => by simpa [h] using hhead a ha
    have hitems : Takes ClosingBrace (do separated item separator (← get).length)
        (separator.intercalate (as.map text)) (as.map value) := by
      intro cs hcs
      -- No item is empty, so that what is left to read bounds their number.
      have hbound : as.length ≤
          ((separator.intercalate (as.map text)).toList ++ cs).length := by
        have := length_le_intercalate separator hne
        rw [List.length_append]
        omega
      exact takes_separated hsep hitem has hbound cs hcs
    rw [accept_of_head rfl hopen, Option.bind_some]
    exact hitems.closed (t := "\x7d") (fun cs => rfl) rest trivial

end Lists

/-! ### Choices -/

/-- A choice of values is taken if no value's text starts another's. -/
theorem takes_oneOf {α : Type} {text : α → String} {values : List α} {a : α} (ha : a ∈ values)
    (hcode : ∀ b ∈ values, (text b).toList <+: (text a).toList ∨
      (text a).toList <+: (text b).toList → b = a) :
    Takes Anything (oneOf text values) (text a) a := by
  intro rest _
  induction values with
  | nil => exact absurd ha List.not_mem_nil
  | cons b bs ih =>
    obtain ⟨hb, hbs⟩ := List.forall_mem_cons.mp hcode
    rw [oneOf, List.findSome?_cons]
    by_cases hba : b = a
    · rw [hba, dropPrefix?_toList_append]
      rfl
    · have hnone : ((text a).toList ++ rest).dropPrefix? (text b).toList = none := by
        by_contra hsome
        obtain ⟨cs, hcs⟩ := Option.ne_none_iff_exists'.mp hsome
        obtain ⟨front, hfront, hbeq⟩ := List.dropPrefix?_eq_some_iff.mp hcs
        rw [eq_of_beq hbeq] at hfront
        exact hba (hb (List.prefix_or_prefix_of_prefix ⟨cs, hfront.symm⟩ ⟨rest, rfl⟩))
      rw [hnone]
      exact ih ((List.mem_cons.mp ha).resolve_left (Ne.symm hba)) hbs

end Scan

/-! ### Reports -/

namespace Report

open Scan

namespace Tag

theorem mem_all (t : Tag) : t ∈ all := by cases t <;> decide

/-- No tag's text starts another's. -/
theorem eq_of_starts : ∀ a ∈ all, ∀ b ∈ all, a.text.toList <+: b.text.toList → a = b := by
  decide

end Tag

theorem takes_tag (t : Tag) : Takes Anything (oneOf Tag.text Tag.all) t.text t :=
  takes_oneOf t.mem_all fun u hu h =>
    h.elim (Tag.eq_of_starts u hu t t.mem_all) fun h => (Tag.eq_of_starts t t.mem_all u hu h).symm

def Descriptor.read : Scan Descriptor := do
  literal "[:"
  let tag ← closed (oneOf Tag.text Tag.all) ", "
  let number ← closed natural ", "
  let startLine ← closed integer ", "
  let startColumn ← closed integer ", "
  let stopLine ← closed integer ", "
  let stopColumn ← closed integer "]"
  return ⟨tag, number, ⟨startLine, startColumn⟩, ⟨stopLine, stopColumn⟩⟩

/-- An entry of a list of branches. -/
def readEntry : Scan (Descriptor × Int) := do
  let place ← closed Descriptor.read "=>"
  return (place, ← integer)

/-- The text of a record tells its condition and its branches, not the node they are of. -/
def readRecord : Scan (Descriptor × List (Descriptor × Int)) := do
  let condition ← closed Descriptor.read "=>"
  return (condition, ← braced readEntry ", ")

/-- Reads a report, with nothing after it. -/
def read? (text : String) : Option (List (Descriptor × List (Descriptor × Int))) :=
  match braced readRecord ",\n " text.toList with
  | some (records, []) => some records
  | _ => none

/-- What the text of a record shows of it. -/
def Record.shown (r : Record) : Descriptor × List (Descriptor × Int) := (r.condition, r.branches)

theorem Descriptor.text_eq (d : Descriptor) : d.text = "[:" ++ ((d.tag.text ++ ", ") ++
    ((toString d.number ++ ", ") ++ ((toString d.span.start.line ++ ", ") ++
    ((toString d.span.start.column ++ ", ") ++ ((toString d.span.stop.line ++ ", ") ++
    (toString d.span.stop.column ++ "]")))))) := by
  simp only [← String.append_assoc]
  rfl

theorem Descriptor.head?_text (d : Descriptor) : d.text.toList.head? = some '[' := by
  rw [text_eq, String.toList_append, List.head?_append]
  rfl

theorem Descriptor.takes_read (d : Descriptor) : Takes Anything read d.text d := by
  have hcomma : ∀ rest, NoDigit (", ".toList ++ rest) := fun rest =>
    noDigit_of_head rfl (by decide)
  have hbracket : ∀ rest, NoDigit ("]".toList ++ rest) := fun rest =>
    noDigit_of_head rfl (by decide)
  rw [text_eq]
  refine (takes_literal "[:").bind ?_
  refine ((takes_tag d.tag).closed fun _ => trivial).bind ?_
  refine ((takes_natural d.number).closed hcomma).bind ?_
  refine ((takes_integer d.span.start.line).closed hcomma).bind ?_
  refine ((takes_integer d.span.start.column).closed hcomma).bind ?_
  refine ((takes_integer d.span.stop.line).closed hcomma).bind ?_
  exact ((takes_integer d.span.stop.column).closed hbracket).map _

theorem takes_readEntry (e : Descriptor × Int) : Takes NoDigit readEntry (entryText e) e :=
  (e.1.takes_read.closed (t := "=>") fun _ => trivial).bind
    ((takes_integer e.2).map fun count => (e.1, count))

theorem head?_entryText (e : Descriptor × Int) : (entryText e).toList.head? = some '[' := by
  simp [entryText, e.1.head?_text]

theorem takes_readRecord (r : Record) : Takes Anything readRecord r.text r.shown := by
  have hbranches : Takes Anything (braced readEntry ", ")
      ("\x7b" ++ ", ".intercalate (r.branches.map entryText) ++ "\x7d") r.branches := by
    rw [← List.map_id r.branches, List.map_map]
    exact takes_braced rfl (fun e _ => takes_readEntry e) fun e _ => head?_entryText e
  have hbrace : "=>\x7b" = "=>" ++ "\x7b" := rfl
  have htext : r.text = (r.condition.text ++ "=>") ++
      ("\x7b" ++ ", ".intercalate (r.branches.map entryText) ++ "\x7d") := by
    rw [Record.text, hbrace]
    simp only [String.append_assoc]
  rw [htext]
  exact (r.condition.takes_read.closed (t := "=>") fun _ => trivial).bind
    (hbranches.map fun branches => (r.condition, branches))

theorem Record.head?_text (r : Record) : r.text.toList.head? = some '[' := by
  simp [text, r.condition.head?_text]

theorem read?_text (records : List Record) :
    read? (text records) = some (records.map Record.shown) := by
  have htakes : Takes Anything (braced readRecord ",\n ") (text records)
      (records.map Record.shown) :=
    takes_braced rfl (fun r _ rest _ => takes_readRecord r rest trivial) fun r _ => r.head?_text
  have hread := htakes [] trivial
  rw [List.append_nil] at hread
  rw [read?, hread]

/-- The text of a report depends on nothing else than what it shows. -/
theorem text_congr {rs ss : List Record} (h : rs.map Record.shown = ss.map Record.shown) :
    text rs = text ss := by
  have htexts : rs.map Record.text = ss.map Record.text := by
    have hmap := congrArg (List.map fun x => Record.text ⟨0, x.1, x.2⟩) h
    rw [List.map_map, List.map_map] at hmap
    exact hmap
  rw [text, htexts, text]

/-- A printed report loses nothing: it is read back to the conditions and branches it shows, and
reports print alike just if these are alike. -/
theorem text_unambiguous :
    (∀ records, read? (text records) = some (records.map Record.shown)) ∧
      ∀ rs ss, text rs = text ss ↔ rs.map Record.shown = ss.map Record.shown := by
  refine ⟨read?_text, fun rs ss => ⟨fun h => ?_, text_congr⟩⟩
  have hread := congrArg read? h
  rw [read?_text, read?_text] at hread
  exact Option.some_inj.mp hread

end Report

end BranchTally
