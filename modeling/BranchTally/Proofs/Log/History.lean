import BranchTally.Log
import Mathlib.Data.List.Induction

/-! The log against its history. What a log shows next depends on the calls made so far, and these can
be asked without any log: which level and which unit they leave, whether another unit has been taken up
since a message was last shown, and how many errors and warnings there were. A log keeps just that, one
call after the other, so that it names a unit when its history calls for it and only then. -/

namespace BranchTally

/-- The level from which messages are shown, if they are not shown at every level. -/
def Severity.threshold : Severity → Option Level
  | .error | .warning => none
  | .info => some .info
  | .debug => some .debug
  | .trace => some .trace

namespace Log

/-! ### Histories -/

/-- A call of the log. -/
inductive Call where
  | level (l : Level)
  | unit (name : String)
  | post (m : Message)
  deriving DecidableEq, Repr

namespace Call

def level? : Call → Option Level
  | level l => some l
  | _ => none

def unit? : Call → Option String
  | unit name => some name
  | _ => none

/-- Whether the call is a message of this severity, shown or not. -/
def posts (severity : Severity) : Call → Bool
  | post m => m.severity = severity
  | _ => false

end Call

def step (log : Log) : Call → Log
  | .level l => log.setLevel l
  | .unit name => log.setUnit name
  | .post m => log.post m

/-- The log after some calls, the first of which found it as it is at the start. -/
def after (calls : List Call) : Log := calls.foldl step start

/-- The level that was set last, or the one at the start. -/
def levelAfter (calls : List Call) : Level := (calls.filterMap Call.level?).getLast?.getD .info

/-- The unit that was named last; the one at the start has an empty name. -/
def unitAfter (calls : List Call) : String := (calls.filterMap Call.unit?).getLast?.getD ""

/-- After these calls the level is too low for the message. -/
def Suppressed (calls : List Call) (m : Message) : Prop :=
  ∃ l ∈ m.severity.threshold, (levelAfter calls).rank < l.rank

/-- A unit was taken up in place of another one, and no message has been shown since. -/
def Renamed (calls : List Call) : Prop :=
  ∃ before name later, calls = before ++ .unit name :: later ∧ name ≠ unitAfter before ∧
    ∀ between m rest, later = between ++ .post m :: rest →
      Suppressed (before ++ .unit name :: between) m

variable {log : Log} {calls before later rest : List Call} {c d : Call} {m : Message}

/-! ### One more call -/

@[simp] theorem after_concat (calls : List Call) (c : Call) :
    after (calls ++ [c]) = (after calls).step c := by
  rw [after, List.foldl_append]
  rfl

@[simp] theorem levelAfter_concat (calls : List Call) (c : Call) :
    levelAfter (calls ++ [c]) = c.level?.getD (levelAfter calls) := by
  cases c <;> simp [levelAfter, Call.level?, List.filterMap_append]

@[simp] theorem unitAfter_concat (calls : List Call) (c : Call) :
    unitAfter (calls ++ [c]) = c.unit?.getD (unitAfter calls) := by
  cases c <;> simp [unitAfter, Call.unit?, List.filterMap_append]

/-- A call among some calls and one more is either the one more or among the others. -/
theorem concat_cases (h : calls ++ [c] = before ++ d :: later) :
    (before = calls ∧ d = c ∧ later = []) ∨
      ∃ rest, later = rest ++ [c] ∧ calls = before ++ d :: rest := by
  rcases List.eq_nil_or_concat later with rfl | ⟨rest, e, rfl⟩
  · obtain ⟨hcalls, hc⟩ := List.append_inj' h rfl
    exact .inl ⟨hcalls.symm, (List.singleton_inj.mp hc).symm, rfl⟩
  · rw [List.concat_eq_append, ← List.cons_append, ← List.append_assoc] at h
    obtain ⟨hcalls, hc⟩ := List.append_inj' h rfl
    exact .inr ⟨rest, by rw [List.singleton_inj.mp hc, List.concat_eq_append], hcalls⟩

/-- A renaming stands until a message is shown. -/
theorem renamed_concat : Renamed (calls ++ [c]) ↔
    (∃ name, c = .unit name ∧ name ≠ unitAfter calls) ∨
      Renamed calls ∧ ∀ m, c = .post m → Suppressed calls m := by
  constructor
  · rintro ⟨before, name, later, h, hne, hquiet⟩
    rcases concat_cases h with ⟨rfl, rfl, rfl⟩ | ⟨rest, rfl, rfl⟩
    · exact .inl ⟨name, rfl, hne⟩
    · refine .inr ⟨⟨before, name, rest, rfl, hne, fun between m others hrest => ?_⟩, fun m hc => ?_⟩
      · exact hquiet between m (others ++ [c]) (by simp [hrest])
      · exact hquiet rest m [] (by rw [hc])
  · rintro (⟨name, rfl, hne⟩ | ⟨⟨before, name, later, rfl, hne, hquiet⟩, hlast⟩)
    · refine ⟨calls, name, [], rfl, hne, fun between m rest h => ?_⟩
      simp at h
    · refine ⟨before, name, later ++ [c], by simp, hne, fun between m rest h => ?_⟩
      rcases concat_cases h with ⟨rfl, hc, -⟩ | ⟨rest, -, hlater⟩
      · exact hlast m hc.symm
      · exact hquiet between m rest hlater

/-! ### The log keeps its history -/

theorem shows_iff (calls : List Call) (m : Message) :
    (levelAfter calls).shows m.severity ↔ ¬Suppressed calls m := by
  unfold Suppressed
  cases m.severity <;> simp [Level.shows, Severity.threshold]

/-- What is counted is never suppressed. -/
theorem Suppressed.not_posts (h : Suppressed calls m) :
    (Call.post m).posts .error = false ∧ (Call.post m).posts .warning = false := by
  obtain ⟨l, hl, -⟩ := h
  cases hm : m.severity with
  | error | warning =>
    rw [hm] at hl
    cases hl
  | info | debug | trace => simp [Call.posts, hm]

@[simp] theorem level_count (log : Log) (s : Severity) : (log.count s).level = log.level := by
  cases s <;> rfl

@[simp] theorem unit_count (log : Log) (s : Severity) : (log.count s).unit = log.unit := by
  cases s <;> rfl

theorem errors_count (log : Log) (m : Message) : (log.count m.severity).errors =
    log.errors + if (Call.post m).posts .error then 1 else 0 := by
  cases h : m.severity <;> simp [count, Call.posts, h]

theorem warnings_count (log : Log) (m : Message) : (log.count m.severity).warnings =
    log.warnings + if (Call.post m).posts .warning then 1 else 0 := by
  cases h : m.severity <;> simp [count, Call.posts, h]

/-- What a log keeps is what its history says. -/
structure Reflects (log : Log) (calls : List Call) : Prop where
  level : log.level = levelAfter calls
  unit : log.unit = unitAfter calls
  headerDue : log.headerDue ↔ Renamed calls
  errors : log.errors = calls.countP (·.posts .error)
  warnings : log.warnings = calls.countP (·.posts .warning)

theorem reflects_start : start.Reflects [] where
  level := rfl
  unit := rfl
  headerDue := by simp [start, Renamed]
  errors := rfl
  warnings := rfl

namespace Reflects

theorem setLevel (h : log.Reflects calls) (l : Level) :
    (log.setLevel l).Reflects (calls ++ [.level l]) where
  level := by simp [Log.setLevel, Call.level?]
  unit := by simp [Log.setLevel, Call.unit?, h.unit]
  headerDue := by simp [Log.setLevel, renamed_concat, h.headerDue]
  errors := by simp [Log.setLevel, Call.posts, h.errors]
  warnings := by simp [Log.setLevel, Call.posts, h.warnings]

theorem setUnit (h : log.Reflects calls) (name : String) :
    (log.setUnit name).Reflects (calls ++ [.unit name]) := by
  have hrenamed : Renamed (calls ++ [.unit name]) ↔ name ≠ log.unit ∨ Renamed calls := by
    simp [renamed_concat, h.unit]
  unfold Log.setUnit
  by_cases hname : name = log.unit
  · rw [if_pos hname]
    constructor
    case level => simp [Call.level?, h.level]
    case unit => simp [Call.unit?, hname]
    case headerDue => rw [hrenamed, h.headerDue, or_iff_right (not_not.mpr hname)]
    case errors => simp [Call.posts, h.errors]
    case warnings => simp [Call.posts, h.warnings]
  · rw [if_neg hname]
    constructor
    case level => simp [Call.level?, h.level]
    case unit => simp [Call.unit?]
    case headerDue => simp [hrenamed, hname]
    case errors => simp [Call.posts, h.errors]
    case warnings => simp [Call.posts, h.warnings]

theorem shows_iff (h : log.Reflects calls) (m : Message) :
    log.level.shows m.severity ↔ ¬Suppressed calls m := by
  rw [h.level, Log.shows_iff]

theorem post (h : log.Reflects calls) (m : Message) :
    (log.post m).Reflects (calls ++ [.post m]) := by
  have hrenamed : Renamed (calls ++ [.post m]) ↔ Renamed calls ∧ Suppressed calls m := by
    simp [renamed_concat]
  unfold Log.post
  by_cases hm : Suppressed calls m
  · rw [if_neg (mt (h.shows_iff m).mp (not_not.mpr hm))]
    constructor
    case level => simp [Call.level?, h.level]
    case unit => simp [Call.unit?, h.unit]
    case headerDue => rw [hrenamed, h.headerDue, and_iff_left hm]
    case errors => simp [hm.not_posts, h.errors]
    case warnings => simp [hm.not_posts, h.warnings]
  · rw [if_pos ((h.shows_iff m).mpr hm)]
    constructor
    case level => simp [Call.level?, h.level]
    case unit => simp [Call.unit?, h.unit]
    case headerDue => simp [hrenamed, hm]
    case errors => rw [List.countP_append, ← h.errors, List.countP_singleton, errors_count]
    case warnings => rw [List.countP_append, ← h.warnings, List.countP_singleton, warnings_count]

end Reflects

theorem reflects_after (calls : List Call) : (after calls).Reflects calls := by
  induction calls using List.reverseRecOn with
  | nil => exact reflects_start
  | append_singleton calls c ih =>
    rw [after_concat]
    cases c with
    | level l => exact ih.setLevel l
    | unit name => exact ih.setUnit name
    | post m => exact ih.post m

/-! ### What is written -/

/-- A shown message is preceded by the header that is due. -/
theorem Reflects.written_post (h : log.Reflects calls) (hm : ¬Suppressed calls m) :
    (log.post m).written = log.written ++ log.header ++ m.severity.mark ++ m.text ++ "\n" := by
  rw [Log.post, if_pos ((h.shows_iff m).mpr hm)]

theorem Reflects.post_suppressed (h : log.Reflects calls) (hm : Suppressed calls m) :
    log.post m = log := by
  rw [Log.post, if_neg (mt (h.shows_iff m).mp (not_not.mpr hm))]

theorem Reflects.header_eq (h : log.Reflects calls) :
    (Renamed calls → log.header = "\nUnit " ++ unitAfter calls ++ "\n") ∧
      (¬Renamed calls → log.header = "") := by
  unfold header
  rw [h.unit]
  constructor
  · intro hr
    rw [if_pos (h.headerDue.mpr hr)]
  · intro hr
    rw [if_neg (mt h.headerDue.mp hr)]

/-- After any calls, a message that is shown is written right after the header of the unit at hand if
a unit was taken up in place of another since a message was last shown, and without a header if not;
once it is shown there is none any more. A message that is suppressed changes nothing, and level and
unit are set without a word. Errors and warnings are counted, and never suppressed. -/
theorem header_iff_renamed (calls : List Call) :
    (∀ m, ¬Suppressed calls m → ∃ header,
      (after (calls ++ [.post m])).written =
        (after calls).written ++ header ++ m.severity.mark ++ m.text ++ "\n" ∧
      (Renamed calls → header = "\nUnit " ++ unitAfter calls ++ "\n") ∧
      (¬Renamed calls → header = "") ∧ ¬Renamed (calls ++ [.post m])) ∧
    (∀ m, Suppressed calls m → after (calls ++ [.post m]) = after calls) ∧
    (∀ l, (after (calls ++ [.level l])).written = (after calls).written) ∧
    (∀ name, (after (calls ++ [.unit name])).written = (after calls).written) ∧
    (after calls).errors = calls.countP (·.posts .error) ∧
    (after calls).warnings = calls.countP (·.posts .warning) ∧
    ∀ m, m.severity = .error ∨ m.severity = .warning → ¬Suppressed calls m := by
  have h := reflects_after calls
  simp only [after_concat]
  refine ⟨fun m hm => ?shown, fun m hm => ?suppressed, fun l => ?level, fun name => ?unit, h.errors,
    h.warnings, fun m hm hs => ?counted⟩
  case shown =>
    refine ⟨(after calls).header, h.written_post hm, h.header_eq.1, h.header_eq.2, ?_⟩
    simp [renamed_concat, hm]
  case suppressed => exact h.post_suppressed hm
  case level => rfl
  case unit =>
    rw [step, Log.setUnit]
    split <;> rfl
  case counted =>
    obtain ⟨herror, hwarning⟩ := hs.not_posts
    rcases hm with hm | hm
    · simp [Call.posts, hm] at herror
    · simp [Call.posts, hm] at hwarning

/-- Units are taken up, left and taken up again, and a message is suppressed on the way. -/
def returning : List Call :=
  [.unit "first", .post ⟨.info, "one"⟩, .unit "second", .post ⟨.debug, "two"⟩, .unit "first",
    .unit "first"]

theorem header_iff_renamed_returning :
    Renamed returning ∧ ¬Suppressed returning ⟨.warning, "three"⟩ ∧
      Suppressed returning ⟨.debug, "two"⟩ ∧
      (after (returning ++ [.post ⟨.warning, "three"⟩])).written =
        "\nUnit first\n-- one\n\nUnit first\n++ WARNING: three\n" ∧
      after (returning ++ [.post ⟨.debug, "two"⟩]) = after returning ∧
      (after returning).warnings = 0 := by
  have hr : Renamed returning := (reflects_after returning).headerDue.mp rfl
  have hquiet : Suppressed returning ⟨.debug, "two"⟩ := ⟨.debug, rfl, by decide⟩
  obtain ⟨hshown, hsuppressed, -, -, -, hwarnings, hcounted⟩ := header_iff_renamed returning
  have hloud : ¬Suppressed returning ⟨.warning, "three"⟩ := hcounted _ (.inr rfl)
  obtain ⟨header, hw, hheader, -, -⟩ := hshown _ hloud
  refine ⟨hr, hloud, hquiet, ?_, hsuppressed _ hquiet, hwarnings⟩
  rw [hw, hheader hr]
  decide +kernel

end Log

end BranchTally
