import BranchTally.Command.Stages
import BranchTally.Proofs.Report.Checks
import BranchTally.Proofs.Runs.Listing

/-! A run of the command prints whole stages or nothing. What the stages come to is stated without
any output or log: the evidence and the records of the report, the runs before and after demotion,
and the verdict, which is the first failure. A stage only adds to what was written and logged before,
and logs no error of its own; so the output of a run, its exit code and whether an error is logged
all follow from what the stages come to. -/

namespace BranchTally

open BranchTally.Flow Flow.Evidence

/-- Only errors are counted as errors. -/
theorem Log.errors_postAll {log : Log} {ms : List Message} (h : ∀ m ∈ ms, m.severity ≠ .error) :
    (log.postAll ms).errors = log.errors := by
  induction ms generalizing log with
  | nil => rfl
  | cons m ms ih =>
    rw [List.forall_mem_cons] at h
    have hpost : (log.post m).errors = log.errors := by
      obtain ⟨severity, text⟩ := m
      unfold Log.post
      split
      · cases severity <;> first | rfl | exact absurd rfl h.1
      · rfl
    exact (ih h.2).trans hpost

namespace Command

/-! ### What the stages come to -/

def treeOf (files : Files) (name : String) : Except String Tree := do
  let dump ← files.dump name
  (dump.load name).2.mapError (·.message name)

/-- The counters in a file, if one is given. -/
def countersOf (files : Files) (name : String) : Except String Counters :=
  if name.isEmpty then .ok .empty
  else (Counters.ofFile (files.text name)).mapError (·.message name)

/-- The program text in a file, if one is given. -/
def sourceOf (files : Files) (name : String) : Except String Source :=
  if name.isEmpty then .ok (.ofText "")
  else
    match files.text name with
    | some text => .ok (.ofText text)
    | none => .error (Source.unreadable name)

/-- The tree with its counters, and the records of its report. -/
def reported (files : Files) (o : Options) (name : String) :
    Except String (Evidence × List Report.Record) := do
  let tree ← treeOf files name
  let counters ← countersOf files o.counters
  let source ← sourceOf files o.source
  let e : Evidence := ⟨tree, counters, .word⟩
  let records ← (Report.build e source e.memory).result.mapError (·.message)
  return (e, records)

/-- The runs before and after demotion. -/
def runsOf (e : Evidence) : Derivation (Runs × Runs) := do
  let raw ← Runs.raw e.tree
  return (raw, ← Runs.demote e raw)

/-- Whether all stages that are asked for succeed, or what the first that fails says. -/
def verdict (files : Files) (o : Options) (name : String) : Except String Unit := do
  let (e, _) ← reported files o name
  if o.runs then
    let _ ← (e.resume (runsOf e) e.memory).1.mapError (·.message)

/-! ### Stages -/

/-- A stage comes to this result, whatever was written and logged before; it adds this text to the
output, and no errors to the log. -/
def Performs {α : Type} (s : Stage α) (text : String) (r : Except String α) : Prop :=
  ∃ ms : List Message, (∀ m ∈ ms, m.severity ≠ .error) ∧
    ∀ d : Desk, s.run.run d = (r, ⟨d.log.postAll ms, d.output ++ text⟩)

namespace Performs

variable {α β : Type} {s : Stage α} {f : α → Stage β} {a : α} {r : Except String β}
  {text after fault : String}

theorem pure (a : α) : Performs (Pure.pure a) "" (.ok a) :=
  ⟨[], by simp, fun d => by simp [Log.postAll]; rfl⟩

theorem fail (fault : String) : Performs (throw fault : Stage α) "" (.error fault) :=
  ⟨[], by simp, fun d => by simp [Log.postAll]; rfl⟩

theorem say {ms : List Message} (h : ∀ m ∈ ms, m.severity ≠ .error) :
    Performs (Command.say ms) "" (.ok ()) :=
  ⟨ms, h, fun d => by simp; rfl⟩

theorem write (text : String) : Performs (Command.write text) text (.ok ()) :=
  ⟨[], by simp, fun d => by simp [Log.postAll]; rfl⟩

/-- A stage that succeeds is followed by the next. -/
theorem bind (hs : Performs s text (.ok a)) (hf : Performs (f a) after r) :
    Performs (s >>= f) (text ++ after) r := by
  obtain ⟨ms, hms, hs⟩ := hs
  obtain ⟨ms', hms', hf⟩ := hf
  refine ⟨ms ++ ms', fun m hm => ?_, fun d => ?_⟩
  · rcases List.mem_append.mp hm with hm | hm
    · exact hms m hm
    · exact hms' m hm
  · have hrun : (s >>= f).run.run d = (f a).run.run ⟨d.log.postAll ms, d.output ++ text⟩ := by
      simp only [ExceptT.run_bind, StateT.run_bind, hs]
      rfl
    rw [hrun, hf]
    simp [Log.postAll, List.foldl_append, String.append_assoc]

/-- A stage that fails is not followed by any other. -/
theorem stop (hs : Performs s text (.error fault)) : Performs (s >>= f) text (.error fault) := by
  obtain ⟨ms, hms, hs⟩ := hs
  refine ⟨ms, hms, fun d => ?_⟩
  simp only [ExceptT.run_bind, StateT.run_bind, hs]
  rfl

/-- A stage that succeeds without output is followed by the next. -/
theorem andThen (hs : Performs s "" (.ok a)) (hf : Performs (f a) text r) :
    Performs (s >>= f) text r := by
  simpa using hs.bind hf

/-- A stage that succeeds is followed by one without output. -/
theorem last (hs : Performs s text (.ok a)) (hf : Performs (f a) "" r) :
    Performs (s >>= f) text r := by
  simpa using hs.bind hf

theorem lift (r : Except String α) : Performs (liftM r : Stage α) "" r :=
  ⟨[], by simp, fun d => by simp [Log.postAll]; rfl⟩

end Performs

section Stages

variable (files : Files) (o : Options) (name : String) {e : Evidence} {source : Source}

theorem severity_of_load (d : Dump) : ∀ m ∈ (d.load name).1, m.severity ≠ .error := by
  intro m hm
  simp only [Dump.load] at hm
  split at hm <;> simp only [List.mem_append, List.mem_map, List.mem_singleton] at hm
  · rcases hm with ⟨u, -, rfl⟩ | rfl <;> simp
  · obtain ⟨u, -, rfl⟩ := hm
    simp

theorem performs_loadTree : Performs (loadTree files name) "" (treeOf files name) := by
  unfold loadTree treeOf
  cases files.dump name with
  | error fault => exact (Performs.lift _).stop
  | ok dump =>
    have hms := severity_of_load name dump
    refine (Performs.lift _).andThen ?_
    change Performs _ "" ((dump.load name).2.mapError _)
    generalize dump.load name = loaded at hms ⊢
    obtain ⟨messages, tree⟩ := loaded
    refine (Performs.say hms).andThen ?_
    cases tree with
    | ok t => exact .pure t
    | error fault => exact .fail _

theorem performs_loadCounters : Performs (loadCounters files name) "" (countersOf files name) := by
  unfold loadCounters countersOf
  split
  next => exact .pure _
  next =>
    cases Counters.ofFile (files.text name) with
    | ok c => exact (Performs.say (by simp [Counters.announcement])).andThen (.pure c)
    | error fault => exact .fail _

theorem performs_loadSource : Performs (loadSource files name) "" (sourceOf files name) := by
  unfold loadSource sourceOf
  split
  next => exact .pure _
  next =>
    cases files.text name with
    | some text => exact (Performs.say (by simp [Source.announcement])).andThen (.pure _)
    | none => exact .fail _

theorem severity_of_survey (ids : List NodeId) (m : Memory) :
    ∀ msg ∈ (Report.survey e source ids m).notes, msg.severity ≠ .error := by
  induction ids generalizing m with
  | nil => simp [Report.survey]
  | cons id ids ih =>
    unfold Report.survey
    split
    · simp
    · exact ih m
    · dsimp only
      split
      · simp
      · intro msg hmsg
        rcases List.mem_cons.mp hmsg with rfl | hmsg
        · simp
        · exact ih _ msg hmsg

theorem severity_of_build (m : Memory) :
    ∀ msg ∈ (Report.build e source m).notes, msg.severity ≠ .error := by
  have h : ∀ msg ∈ (Report.survey e source e.tree.preorder m).notes, msg.severity ≠ .error :=
    severity_of_survey _ m
  unfold Report.build
  dsimp only
  split
  · exact h
  · intro msg hmsg
    rcases List.mem_append.mp hmsg with hmsg | hmsg
    · exact h msg hmsg
    · rw [List.mem_singleton.mp hmsg]
      simp

/-- The report is written as a whole, or not at all. -/
theorem performs_reportStage_ok (hl : e.tree.Linked) {rs : List Report.Record}
    (h : (Report.build e source e.memory).result = .ok rs) :
    ∃ m, m.Sound e ∧ Performs (reportStage e source) (Report.text rs ++ "\n") (.ok m) := by
  refine ⟨(Report.build e source e.memory).memory, ?_, ?_⟩
  · have hsound := (Report.survey_eq_tally hl source e.tree.preorder (memory_sound e)).2
    unfold Report.build
    dsimp only
    split <;> exact hsound
  · unfold reportStage
    refine (Performs.say (severity_of_build e.memory)).andThen ?_
    rw [h]
    exact (Performs.write _).last (.pure _)

theorem performs_reportStage_error {fault : Fault}
    (h : (Report.build e source e.memory).result = .error fault) :
    Performs (reportStage e source) "" (.error fault.message) := by
  unfold reportStage
  refine (Performs.say (severity_of_build e.memory)).andThen ?_
  rw [h]
  exact .fail _

theorem performs_find {α : Type} (r : Except Fault α) :
    Performs (find r) "" (r.mapError (·.message)) := by
  cases r with
  | ok a => exact .pure a
  | error fault => exact .fail _

theorem performs_find_ok {α : Type} {r : Except Fault α} {a : α} (h : r = .ok a) :
    Performs (find r) "" (.ok a) := by
  subst h
  exact performs_find _

theorem performs_find_error {α : Type} {r : Except Fault α} {fault : Fault} (h : r = .error fault) :
    Performs (find r) "" (.error fault.message) := by
  subst h
  exact performs_find _

theorem run_runsOf_eq_ok {f : Query → Except Fault Int} {raw worst : Runs} :
    (runsOf e).run f = .ok (raw, worst) ↔
      (Runs.raw e.tree).run f = .ok raw ∧ (Runs.demote e raw).run f = .ok worst := by
  simp only [runsOf, run_bind_eq_ok, Derivation.run_pure, Except.ok.injEq, Prod.mk.injEq]
  constructor
  · rintro ⟨_, hraw, _, hworst, rfl, rfl⟩
    exact ⟨hraw, hworst⟩
  · rintro ⟨hraw, hworst⟩
    exact ⟨raw, hraw, worst, hworst, rfl, rfl⟩

theorem run_runsOf_eq_error {f : Query → Except Fault Int} {fault : Fault} :
    (runsOf e).run f = .error fault ↔ (Runs.raw e.tree).run f = .error fault ∨
      ∃ raw, (Runs.raw e.tree).run f = .ok raw ∧ (Runs.demote e raw).run f = .error fault := by
  simp only [runsOf, run_bind_eq_error, Derivation.run_pure, reduceCtorEq, and_false, exists_false,
    or_false]

/-- The runs and the warnings are written to the end once there are runs to write. -/
theorem performs_runsStage_ok (ht : e.tree.Loaded) {m : Memory} (hm : m.Sound e) (unit : String)
    {raw worst : Runs} (h : (runsOf e).run e.answer = .ok (raw, worst)) :
    (Runs.list e.tree raw worst).result = .ok () ∧
      (∃ warned, (Runs.warn e.tree unit raw worst).result = .ok warned) ∧
      Performs (runsStage e unit m)
        ((Runs.list e.tree raw worst).text ++ (Runs.warn e.tree unit raw worst).text) (.ok ()) := by
  obtain ⟨hraw, hworst⟩ := run_runsOf_eq_ok.mp h
  obtain ⟨hlist, warned, hwarn⟩ := Runs.complete_of_demote ht hraw hworst unit
  refine ⟨hlist, ⟨warned, hwarn⟩, ?_⟩
  obtain ⟨hraw', hm'⟩ := resume_eq ht.linked (Runs.raw e.tree) hm
  have hworst' := (resume_eq ht.linked (Runs.demote e raw) hm').1
  refine (performs_find_ok (hraw'.trans hraw)).andThen ?_
  refine (performs_find_ok (hworst'.trans hworst)).andThen ?_
  refine (Performs.write _).bind ((performs_find_ok hlist).andThen ?_)
  refine (Performs.write _).last ((performs_find_ok hwarn).andThen ?_)
  exact .say (by simp [Runs.announcement])

/-- Nothing is written if there are no runs. -/
theorem performs_runsStage_error (hl : e.tree.Linked) {m : Memory} (hm : m.Sound e) (unit : String)
    {fault : Fault} (h : (runsOf e).run e.answer = .error fault) :
    Performs (runsStage e unit m) "" (.error fault.message) := by
  obtain ⟨hraw', hm'⟩ := resume_eq hl (Runs.raw e.tree) hm
  rcases run_runsOf_eq_error.mp h with hraw | ⟨raw, hraw, hworst⟩
  · exact (performs_find_error (hraw'.trans hraw)).stop
  · have hworst' := (resume_eq hl (Runs.demote e raw) hm').1
    refine (performs_find_ok (hraw'.trans hraw)).andThen ?_
    exact (performs_find_error (hworst'.trans hworst)).stop

theorem loaded_of_treeOf {t : Tree} (h : treeOf files name = .ok t) : t.Loaded := by
  obtain ⟨dump, -, h⟩ := bind_eq_ok.mp h
  exact ⟨name, dump, mapError_eq_ok.mp h⟩

/-- What stops the report leaves the output empty. -/
theorem performs_stages_error {fault : String} (h : reported files o name = .error fault) :
    Performs (stages files o name) "" (.error fault) := by
  have htree := performs_loadTree files name
  have hcounters := performs_loadCounters files o.counters
  have hsource := performs_loadSource files o.source
  rcases bind_eq_error.mp h with ht | ⟨tree, ht, h⟩
  · exact (ht ▸ htree).stop
  refine (ht ▸ htree).andThen ?_
  rcases bind_eq_error.mp h with hc | ⟨counters, hc, h⟩
  · exact (hc ▸ hcounters).stop
  refine (hc ▸ hcounters).andThen ?_
  rcases bind_eq_error.mp h with hs | ⟨source, hs, h⟩
  · exact (hs ▸ hsource).stop
  refine (hs ▸ hsource).andThen ?_
  rcases bind_eq_error.mp h with hr | ⟨rs, -, h⟩
  · obtain ⟨cause, hbuild, rfl⟩ := mapError_eq_error.mp hr
    exact (performs_reportStage_error hbuild).stop
  · cases h

/-- Once there is a report it is printed, and what is left are the runs. -/
theorem performs_stages_ok {rs : List Report.Record} (h : reported files o name = .ok (e, rs)) :
    e.tree.Loaded ∧ ∃ m, m.Sound e ∧ ∀ text r,
      Performs (if o.runs then runsStage e (o.unit name) m else pure ()) text r →
      Performs (stages files o name) (Report.text rs ++ "\n" ++ text) r := by
  have htree := performs_loadTree files name
  have hcounters := performs_loadCounters files o.counters
  have hsource := performs_loadSource files o.source
  obtain ⟨tree, ht, h⟩ := bind_eq_ok.mp h
  obtain ⟨counters, hc, h⟩ := bind_eq_ok.mp h
  obtain ⟨source, hs, h⟩ := bind_eq_ok.mp h
  obtain ⟨rs', hr, h⟩ := bind_eq_ok.mp h
  cases h
  have hloaded := loaded_of_treeOf files name ht
  obtain ⟨m, hm, hreport⟩ := performs_reportStage_ok hloaded.linked (mapError_eq_ok.mp hr)
  refine ⟨hloaded, m, hm, fun text r hrest => ?_⟩
  refine (ht ▸ htree).andThen ((hc ▸ hcounters).andThen ((hs ▸ hsource).andThen ?_))
  exact hreport.bind hrest

end Stages

/-! ### The run -/

/-- What a run prints: nothing if there is no report; the report alone if no runs are asked for or
there are none; or else the report, the runs and the warnings, each to the end. -/
inductive Printed (files : Files) (o : Options) (name : String) : String → Prop
  | nothing {fault : String} : reported files o name = .error fault → Printed files o name ""
  | report {e : Evidence} {rs : List Report.Record} : reported files o name = .ok (e, rs) →
    (o.runs → ∃ fault, (e.resume (runsOf e) e.memory).1 = .error fault) →
    Printed files o name (Report.text rs ++ "\n")
  | runs {e : Evidence} {rs : List Report.Record} {raw worst : Runs} {warned : Nat} :
    reported files o name = .ok (e, rs) → o.runs →
    (e.resume (runsOf e) e.memory).1 = .ok (raw, worst) →
    (Runs.list e.tree raw worst).result = .ok () →
    (Runs.warn e.tree (o.unit name) raw worst).result = .ok warned →
    Printed files o name (Report.text rs ++ "\n" ++
      ((Runs.list e.tree raw worst).text ++ (Runs.warn e.tree (o.unit name) raw worst).text))

/-- The stages come to the verdict, and have printed whole stages by then. -/
theorem performs_stages (files : Files) (o : Options) (name : String) :
    ∃ text, Printed files o name text ∧
      Performs (stages files o name) text (verdict files o name) := by
  cases hr : reported files o name with
  | error fault =>
    have hv : verdict files o name = .error fault := by rw [verdict, hr]; rfl
    exact ⟨"", .nothing hr, hv ▸ performs_stages_error files o name hr⟩
  | ok found =>
    obtain ⟨e, rs⟩ := found
    have hv : verdict files o name =
        if o.runs then (e.resume (runsOf e) e.memory).1.mapError (·.message) >>= fun _ => pure ()
        else pure () := by
      rw [verdict, hr]
      rfl
    obtain ⟨ht, m, hm, hstages⟩ := performs_stages_ok files o name hr
    have hrun := (resume_eq ht.linked (runsOf e) (memory_sound e)).1
    cases ho : o.runs with
    | false =>
      simp only [ho, Bool.false_eq_true, if_false] at hstages hv
      refine ⟨_, .report hr (by simp [ho]), ?_⟩
      have hstage := hstages _ _ (.pure ())
      rw [String.append_empty] at hstage
      exact hv ▸ hstage
    | true =>
      simp only [ho, if_true] at hstages hv
      rw [hv]
      cases hruns : (e.resume (runsOf e) e.memory).1 with
      | error fault =>
        refine ⟨_, .report hr fun _ => ⟨fault, hruns⟩, ?_⟩
        have hstage := hstages _ _ (performs_runsStage_error ht.linked hm (o.unit name)
          (hrun.symm.trans hruns))
        rw [String.append_empty] at hstage
        exact hstage
      | ok pair =>
        obtain ⟨raw, worst⟩ := pair
        obtain ⟨hlist, ⟨warned, hwarn⟩, hstage⟩ := performs_runsStage_ok ht hm
          (o.unit name) (hrun.symm.trans hruns)
        exact ⟨_, .runs hr ho hruns hlist hwarn, hstages _ _ hstage⟩

theorem Printed.eq_empty_iff {files : Files} {o : Options} {name text : String}
    (h : Printed files o name text) :
    text = "" ↔ ∃ fault, reported files o name = .error fault := by
  cases h with
  | nothing h => simp [h]
  | report h | runs h => simp [h]

/-- Without errors in the log, a run that comes to an end succeeds and has nothing to add. -/
theorem finish_ok (o : Options) {d : Desk} (h : d.log.errors = 0) :
    finish o (.ok ()) d = ⟨0, d.output, d.log.written⟩ := by
  simp [finish, Log.close, Log.succeeded, h]

/-- A run on a tree ends with the verdict of its stages. -/
theorem runOptions_eq_finish {files : Files} {o : Options} {name : String} (hhelp : o.help = false)
    (hversion : o.version = false) (htree : o.tree = some name) :
    runOptions files o =
      let (result, d) :=
        (stages files o name).run.run ⟨(Log.start.setLevel o.level).setUnit name, ""⟩
      finish o result d := by
  rw [runOptions, hhelp, hversion, htree]
  rfl

/-- Whatever the files and the options, a run on a tree prints whole stages or nothing. Its output is
empty exactly if there is no report, it fails exactly if a stage failed and failure may show, and
then alone an error is logged, after messages that are none. -/
theorem run_prints_stages {files : Files} {o : Options} {name : String} (hhelp : o.help = false)
    (hversion : o.version = false) (htree : o.tree = some name) :
    let out := runOptions files o
    let opened := (Log.start.setLevel o.level).setUnit name
    Printed files o name out.output ∧
      (out.output = "" ↔ ∃ fault, reported files o name = .error fault) ∧
      out.exitCode ≤ 1 ∧
      (out.exitCode = 1 ↔ o.exitSuccess = false ∧ ∃ fault, verdict files o name = .error fault) ∧
      ∃ ms : List Message, (∀ m ∈ ms, m.severity ≠ .error) ∧
        (verdict files o name = .ok () ∧ out.log = (opened.postAll ms).written ∨
          ∃ fault, verdict files o name = .error fault ∧
            out.log = ((opened.postAll ms).post ⟨.error, fault ++ "\n"⟩).written) := by
  intro out opened
  obtain ⟨text, hprinted, ms, hms, hrun⟩ := performs_stages files o name
  have hopened : (opened.postAll ms).errors = 0 := by
    rw [Log.errors_postAll hms]
    simp only [opened, Log.setUnit]
    split <;> rfl
  have hout : out = finish o (verdict files o name) ⟨opened.postAll ms, text⟩ := by
    simp only [out, runOptions_eq_finish hhelp hversion htree, hrun, String.empty_append, opened]
  cases hv : verdict files o name with
  | ok done =>
    rw [hv, finish_ok o hopened] at hout
    rw [hout]
    exact ⟨hprinted, hprinted.eq_empty_iff, by simp, by simp, ms, hms, .inl ⟨rfl, rfl⟩⟩
  | error fault =>
    rw [hv, finish] at hout
    rw [hout]
    refine ⟨hprinted, hprinted.eq_empty_iff, ?_, ?_, ms, hms, .inr ⟨fault, rfl, rfl⟩⟩
    · cases o.exitSuccess <;> simp
    · cases o.exitSuccess <;> simp

/-- A run on `Dump.straying` with counters that contradict each other where the report does not
look. The report is printed; after that the runs fail at the second arm of the `case`, which would be
tried minus one times. -/
theorem run_prints_stages_straying :
    let counters := "1 1\n3 2\n4 1\n5 5\n7 1\n8 1\n9 3\n10 1\n11 1\n12 4\n13 1\n14 1\n15 2\n"
    let files : Files := ⟨fun _ => .ok .straying, fun _ => some counters⟩
    let o : Options :=
      { Options.none with tree := some "unit.tree", counters := "unit.counts", runs := true }
    let fault := "inconsistent counts: flow entry count of dispatch arm #5 at 4:0-7:5 is -1"
    verdict files o "unit.tree" = .error fault ∧
      (runOptions files o).output ≠ "" ∧ (runOptions files o).exitCode = 1 := by
  intro counters files o fault
  have hverdict : verdict files o "unit.tree" = .error fault := by decide +kernel
  have hreported : (reported files o "unit.tree").isOk := by decide +kernel
  obtain ⟨-, hsilent, -, hfails, -⟩ := @run_prints_stages files o "unit.tree" rfl rfl rfl
  refine ⟨hverdict, fun h => ?_, hfails.mpr ⟨rfl, fault, hverdict⟩⟩
  obtain ⟨cause, hcause⟩ := hsilent.mp h
  rw [hcause] at hreported
  cases hreported

end Command

end BranchTally
