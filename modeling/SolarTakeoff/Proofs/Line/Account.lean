import SolarTakeoff.Proofs.Line.PartialRuns
import Mathlib.Tactic

/-!
# What a run reports of its rules

A run leaves one decision for every rule it is given: the rule is skipped, comes
to no quantity, or gives a line.  Warnings stand between the decisions but are
none themselves.  Rules may be repeated, so decisions are accounted for by
position: first the positions that are skipped, in catalog order, and then those
that take part, in the order of their lines.
-/

namespace SolarTakeoff

/-- What became of a rule. -/
inductive Outcome where
  | skipped
  | noQuantity
  | line
deriving DecidableEq

/-- The messages that tell of an outcome. -/
def Outcome.messages : Outcome → List String
  | .skipped => [
      "Skipping inactive rule", "Skipping optional rule",
      "Skipping rule outside category filter", "Skipping battery rule, job has no battery"]
  | .noQuantity => ["Rule resolved to no quantity"]
  | .line => ["Accessory line"]

namespace Event

/-- The outcome that an event tells of, if it is a decision on a rule. -/
def outcome? : Event → Option Outcome
  | .ruleSkipped .. => some .skipped
  | .noQuantity .. => some .noQuantity
  | .lineAdded .. => some .line
  | _ => none

variable {event : Event} {outcome : Outcome}

theorem head?_message_configReplaced (reason : String) :
    (configReplaced reason).message.toList.head? = some 'F' := by
  change ("Failed to load engine config: " ++ reason ++ ". Using defaults.").toList.head? = _
  simp

theorem outcome?_eq_some_iff :
    event.outcome? = some outcome ↔ event.message ∈ outcome.messages := by
  cases event with
  | configReplaced reason =>
      have hother : ∀ text ∈ outcome.messages, text.toList.head? ≠ some 'F' := by
        cases outcome <;> simp [Outcome.messages]
      constructor
      · intro h
        cases h
      · intro hmem
        exact (hother _ hmem (head?_message_configReplaced reason)).elim
  | ruleSkipped ruleId reason =>
      unfold outcome? message
      cases reason <;> cases outcome <;> simp [Outcome.messages]
  | _ =>
      unfold outcome? message
      cases outcome <;> simp [Outcome.messages]

theorem outcome?_of_level_warn (h : event.level = .warn) : event.outcome? = none := by
  cases event <;> first | rfl | cases h

theorem countP_outcome? (events : List Event) :
    events.countP (·.outcome? = some .skipped) + events.countP (·.outcome? = some .noQuantity) +
      events.countP (·.outcome? = some .line) = (events.filter (·.outcome?.isSome)).length := by
  induction events with
  | nil => rfl
  | cons event rest ih =>
      cases houtcome : event.outcome? with
      | none => simpa [houtcome] using ih
      | some outcome => cases outcome <;> simp [houtcome] <;> omega

end Event

/-! ## One rule -/

/-- What a run says of a line. -/
def Line.event (line : Line) : Event :=
  .lineAdded line.ruleId line.quantity line.totalCost

/-- What stops a formula is reported as a warning, if at all. -/
theorem Derivation.level_of_ofFormula {ruleId expression details : String} {inputs : Inputs}
    {warning : Option Event} (h : ofFormula ruleId expression inputs = .stopped details warning) :
    ∀ event ∈ warning, event.level = .warn := by
  unfold ofFormula at h
  split at h
  · simp only [Derivation.stopped.injEq] at h
    simp [← h.2]
  · dsimp only at h
    split at h
    · cases h
    · simp only [Derivation.stopped.injEq] at h
      simp [← h.2, Event.level]

namespace Rule

variable {rule : Rule} {job : Job} {selection : Selection} {event : Event}

/-- The decision of a run on a rule. -/
def decision (rule : Rule) (job : Job) (selection : Selection) : Event :=
  match rule.skipReason? job selection with
  | some reason => .ruleSkipped rule.id reason
  | none =>
    match (rule.line? job).value with
    | some line => line.event
    | none => .noQuantity rule.id (rule.resolve job).quantity (rule.resolve job).details

theorem level_of_derive {details : String} {warning : Option Event}
    (h : rule.derive job = .stopped details warning) : ∀ event ∈ warning, event.level = .warn := by
  unfold derive at h
  cases hstrategy : rule.strategy with
  | fixed | perPanel multiplier | perKilowatt multiplier =>
      rw [hstrategy] at h
      cases h
  | perBattery multiplier =>
      cases hbattery : job.usableBattery? with
      | some capacity =>
          rw [hstrategy, hbattery] at h
          cases h
      | none =>
          simp only [hstrategy, hbattery, Derivation.stopped.injEq] at h
          simp [← h.2]
  | formula expression =>
      rw [hstrategy] at h
      exact Derivation.level_of_ofFormula h
  | unrecognized tag =>
      simp only [hstrategy, Derivation.stopped.injEq] at h
      simp [← h.2, Event.level]

theorem warning_round_raise_cut (resolution : Resolution) (roundUp : Bool) (minimum : Binary64)
    (maximum : Option Binary64) :
    (((resolution.round roundUp).raise minimum).cut maximum).warning = resolution.warning := by
  have hraise : ((resolution.round roundUp).raise minimum).warning = resolution.warning := by
    unfold Resolution.raise
    split <;> rfl
  unfold Resolution.cut
  split
  · exact hraise
  · split <;> exact hraise

theorem level_of_warning : ∀ event ∈ (rule.resolve job).warning, event.level = .warn := by
  unfold resolve
  cases hderive : rule.derive job with
  | raw value details => simp [warning_round_raise_cut]
  | stopped details warning => exact level_of_derive hderive

theorem level_of_costWarning? : ∀ event ∈ rule.costWarning?, event.level = .warn := by
  unfold costWarning?
  dsimp only
  split <;> simp [Event.level]

/-- A rule that takes part leaves its decision behind its warnings. -/
theorem exists_events_line? (happlies : rule.applies job selection = true) :
    ∃ warnings, (rule.line? job).events = warnings ++ [rule.decision job selection] ∧
      ∀ event ∈ warnings, event.outcome? = none := by
  have hskip : rule.skipReason? job selection = none := Option.isNone_iff_eq_none.mp happlies
  have hwarning : ∀ event ∈ (rule.resolve job).warning.toList, event.outcome? = none :=
    fun event hevent =>
      Event.outcome?_of_level_warn (level_of_warning event (Option.mem_toList.mp hevent))
  have hcost : ∀ event ∈ rule.costWarning?.toList, event.outcome? = none :=
    fun event hevent =>
      Event.outcome?_of_level_warn (level_of_costWarning? event (Option.mem_toList.mp hevent))
  unfold decision
  rw [hskip]
  unfold line?
  dsimp only
  split
  · exact ⟨_, rfl, hwarning⟩
  · refine ⟨_, rfl, ?_⟩
    rw [List.forall_mem_append]
    exact ⟨hwarning, hcost⟩

/-- The outcome of a rule in a run, said of the rule and the job alone. -/
def ComesTo (rule : Rule) (job : Job) (selection : Selection) : Outcome → Prop
  | .skipped => ¬ rule.TakesPart job selection
  | .noQuantity => rule.TakesPart job selection ∧ ¬ rule.Contributes job selection
  | .line => rule.Contributes job selection

theorem outcome?_decision_eq_some_iff {outcome : Outcome} :
    (rule.decision job selection).outcome? = some outcome ↔
      rule.ComesTo job selection outcome := by
  unfold decision
  cases hskip : rule.skipReason? job selection with
  | some reason =>
      have hout : ¬ rule.TakesPart job selection := by
        rw [← applies_eq_true_iff, applies, hskip]
        simp
      have hnot : ¬ rule.Contributes job selection := fun h => hout h.takesPart
      cases outcome <;> simp [Event.outcome?, ComesTo, hout, hnot]
  | none =>
      have htakes : rule.TakesPart job selection := by
        rw [← applies_eq_true_iff, applies, hskip]
        rfl
      cases hline : (rule.line? job).value with
      | some line =>
          have hcontributes : rule.Contributes job selection :=
            contributes_iff.mpr ⟨htakes, line, hline⟩
          cases outcome <;> simp [Event.outcome?, Line.event, ComesTo, htakes, hcontributes]
      | none =>
          have hnot : ¬ rule.Contributes job selection := by
            intro h
            obtain ⟨line, hsome⟩ := (contributes_iff.mp h).2
            rw [hline] at hsome
            cases hsome
          cases outcome <;> simp [Event.outcome?, ComesTo, htakes, hnot]

theorem isSome_outcome?_decision : (rule.decision job selection).outcome?.isSome = true := by
  unfold decision
  split
  · rfl
  · split <;> rfl

/-- A decision names its rule first. -/
theorem head?_fields_decision :
    (rule.decision job selection).fields.head? = some ("rule_id", rule.id) := by
  unfold decision
  split
  · next reason _ => cases reason <;> rfl
  · split
    · next line hline =>
        rw [← (value_line?_eq_some_iff.mp hline).2.2]
        rfl
    · rfl

theorem filter_events_line? (happlies : rule.applies job selection = true)
    {keep : Event → Bool} (hkeep : ∀ event, keep event = true → event.outcome?.isSome = true) :
    (rule.line? job).events.filter keep = [rule.decision job selection].filter keep := by
  obtain ⟨warnings, hevents, hwarnings⟩ := exists_events_line? happlies
  have hnone : warnings.filter keep = [] := by
    rw [List.filter_eq_nil_iff]
    intro event hevent hkept
    have hsome := hkeep event hkept
    rw [hwarnings event hevent] at hsome
    cases hsome
  rw [hevents, List.filter_append, hnone, List.nil_append]

end Rule

/-! ## The whole run -/

variable {job : Job} {rules : List Rule} {selection : Selection}

/-- The positions of the rules that are skipped, in catalog order. -/
def skippedPositions (job : Job) (rules : List Rule) (selection : Selection) :
    List (Fin rules.length) :=
  (List.finRange rules.length).filter fun position =>
    !(rules.get position).applies job selection

theorem mem_skippedPositions_iff {position : Fin rules.length} :
    position ∈ skippedPositions job rules selection ↔
      ¬ (rules.get position).TakesPart job selection := by
  rw [← Rule.applies_eq_true_iff]
  simp [skippedPositions]

theorem skippedPositions_append_runPositions_perm :
    (skippedPositions job rules selection ++ runPositions job rules selection).Perm
      (List.finRange rules.length) := by
  have hsort : (runPositions job rules selection).Perm ((List.finRange rules.length).filter
      fun position => (rules.get position).applies job selection) :=
    List.mergeSort_perm _ _
  have hsplit := List.filter_append_perm
    (fun position => (rules.get position).applies job selection) (List.finRange rules.length)
  exact (List.perm_append_comm.trans (hsort.append_right _)).trans hsplit

theorem filterMap_skipReason? (rules : List Rule) :
    (rules.filterMap fun rule =>
      (rule.skipReason? job selection).map (Event.ruleSkipped rule.id)) =
      (rules.filter fun rule => !rule.applies job selection).map (·.decision job selection) := by
  induction rules with
  | nil => rfl
  | cons rule rest ih =>
      cases hskip : rule.skipReason? job selection with
      | none => simp [hskip, Rule.applies, ih]
      | some reason => simp [hskip, Rule.applies, Rule.decision, ih]

theorem map_get_skippedPositions :
    (skippedPositions job rules selection).map rules.get =
      rules.filter fun rule => !rule.applies job selection := by
  conv_rhs => rw [← List.map_get_finRange rules, List.filter_map]
  rfl

/-- The decision on the rule at a position. -/
def decisionAt (job : Job) (rules : List Rule) (selection : Selection)
    (position : Fin rules.length) : Event :=
  (rules.get position).decision job selection

theorem map_decisionAt_runPositions :
    (runPositions job rules selection).map (decisionAt job rules selection) =
      (applicableRules job rules selection).map (·.decision job selection) := by
  rw [← map_get_runPositions, List.map_map]
  rfl

theorem events_calculate :
    (calculate job rules selection).events =
      (skippedPositions job rules selection).map (decisionAt job rules selection) ++
        ((applicableRules job rules selection).flatMap (fun rule => (rule.line? job).events) ++
          [.calculated rules.length (calculate job rules selection).value.length job.panelCount
            job.hasBattery]) := by
  have hskipped : (skippedPositions job rules selection).map (decisionAt job rules selection) =
      rules.filterMap fun rule =>
        (rule.skipReason? job selection).map (Event.ruleSkipped rule.id) := by
    rw [filterMap_skipReason?, ← map_get_skippedPositions, List.map_map]
    rfl
  rw [hskipped, ← List.append_assoc]
  simp [calculate, List.flatMap_map]

theorem filter_events_later {keep : Event → Bool}
    (hkeep : ∀ event, keep event = true → event.outcome?.isSome = true) :
    ((applicableRules job rules selection).flatMap fun rule => (rule.line? job).events).filter
        keep =
      ((runPositions job rules selection).map (decisionAt job rules selection)).filter keep := by
  have happlies : ∀ rule ∈ applicableRules job rules selection,
      rule.applies job selection = true := fun rule hrule =>
    Rule.applies_eq_true_iff.mpr (mem_applicableRules_iff.mp hrule).2
  rw [map_decisionAt_runPositions]
  generalize applicableRules job rules selection = part at happlies
  induction part with
  | nil => rfl
  | cons rule rest ih =>
      obtain ⟨hrule, hrest⟩ := List.forall_mem_cons.mp happlies
      rw [List.flatMap_cons, List.filter_append, Rule.filter_events_line? hrule hkeep, ih hrest,
        List.map_cons, ← List.filter_append, List.singleton_append]

/-- Of events that are decisions, a run keeps those on its positions. -/
theorem filter_events_calculate {keep : Event → Bool}
    (hkeep : ∀ event, keep event = true → event.outcome?.isSome = true) :
    (calculate job rules selection).events.filter keep =
      ((skippedPositions job rules selection ++ runPositions job rules selection).map
        (decisionAt job rules selection)).filter keep := by
  have hsummary : ∀ rules lines panelCount hasBattery,
      keep (.calculated rules lines panelCount hasBattery) = false := by
    intro rules lines panelCount hasBattery
    by_contra hkept
    have hsome := hkeep _ (Bool.not_eq_false _ ▸ hkept)
    cases hsome
  rw [events_calculate, List.filter_append, List.filter_append, filter_events_later hkeep,
    List.map_append, List.filter_append]
  simp [hsummary]

theorem filter_decisions_line {part : List Rule}
    (happlies : ∀ rule ∈ part, rule.applies job selection = true) :
    (part.map (·.decision job selection)).filter (·.outcome? = some .line) =
      (part.filterMap fun rule => (rule.line? job).value).map Line.event := by
  induction part with
  | nil => rfl
  | cons rule rest ih =>
      obtain ⟨hrule, hrest⟩ := List.forall_mem_cons.mp happlies
      have hskip : rule.skipReason? job selection = none := Option.isNone_iff_eq_none.mp hrule
      cases hline : (rule.line? job).value with
      | none =>
          have hdecision : (rule.decision job selection).outcome? = some .noQuantity := by
            simp [Rule.decision, hskip, hline, Event.outcome?]
          simp [hline, hdecision, ih hrest]
      | some line =>
          have hdecision : rule.decision job selection = line.event := by
            simp [Rule.decision, hskip, hline]
          have houtcome : line.event.outcome? = some .line := rfl
          simp [hline, hdecision, houtcome, ih hrest]

theorem filter_events_calculate_line :
    (calculate job rules selection).events.filter (·.outcome? = some .line) =
      (calculate job rules selection).value.map Line.event := by
  have hskipped : ((skippedPositions job rules selection).map
      (decisionAt job rules selection)).filter (·.outcome? = some .line) = [] := by
    rw [List.filter_eq_nil_iff]
    intro event hevent hline
    obtain ⟨position, hposition, rfl⟩ := List.mem_map.mp hevent
    have hcontributes := Rule.outcome?_decision_eq_some_iff.mp (of_decide_eq_true hline)
    exact mem_skippedPositions_iff.mp hposition hcontributes.takesPart
  rw [filter_events_calculate fun event h => by simp [of_decide_eq_true h], List.map_append,
    List.filter_append, hskipped, List.nil_append, map_decisionAt_runPositions, value_calculate]
  exact filter_decisions_line fun rule hrule =>
    Rule.applies_eq_true_iff.mpr (mem_applicableRules_iff.mp hrule).2

/-- The events of a run account for the catalog: every position is skipped or
takes part and has one decision that names its rule; skips come before all
other events, the lines are those reported, and a summary closes the run. -/
structure Traced.AccountsFor (run : Traced (List Line)) (job : Job) (rules : List Rule)
    (selection : Selection) (skipped taking : List (Fin rules.length)) : Prop where
  positions : (skipped ++ taking).Perm (List.finRange rules.length)
  skipped_iff : ∀ position,
    position ∈ skipped ↔ ¬ (rules.get position).TakesPart job selection
  skipped_order : skipped.Pairwise (· < ·)
  taking_order : taking.Pairwise (Precedes rules)
  told : ∀ event ∈ run.events, ∀ outcome,
    event.outcome? = some outcome ↔ event.message ∈ outcome.messages
  decisions : run.events.filter (·.outcome?.isSome) =
    (skipped ++ taking).map (decisionAt job rules selection)
  named : ∀ position, (decisionAt job rules selection position).fields.head? =
    some ("rule_id", (rules.get position).id)
  outcome : ∀ position outcome,
    (decisionAt job rules selection position).outcome? = some outcome ↔
      (rules.get position).ComesTo job selection outcome
  skips_first : ∃ later, run.events = skipped.map (decisionAt job rules selection) ++ later ∧
    ∀ event ∈ later, event.outcome? ≠ some .skipped
  count : run.events.countP (·.outcome? = some .skipped) +
    run.events.countP (·.outcome? = some .noQuantity) +
    run.events.countP (·.outcome? = some .line) = rules.length
  lines : run.events.filter (·.outcome? = some .line) = run.value.map Line.event
  summary : ∃ summary, run.events.getLast? = some summary ∧ summary.level = .info ∧
    summary.fields.take 2 =
      [("rules", toString rules.length), ("lines", toString run.value.length)]

theorem outcome?_of_mem_later {event : Event}
    (h : event ∈ (applicableRules job rules selection).flatMap
      fun rule => (rule.line? job).events) : event.outcome? ≠ some .skipped := by
  intro hskipped
  obtain ⟨rule, hrule, hevent⟩ := List.mem_flatMap.mp h
  have htakes := (mem_applicableRules_iff.mp hrule).2
  obtain ⟨warnings, hevents, hwarnings⟩ :=
    Rule.exists_events_line? (Rule.applies_eq_true_iff.mpr htakes)
  rw [hevents, List.mem_append, List.mem_singleton] at hevent
  rcases hevent with hwarning | rfl
  · rw [hwarnings event hwarning] at hskipped
    cases hskipped
  · exact Rule.outcome?_decision_eq_some_iff.mp hskipped htakes

/-- No rule is lost without a word: the events of a run account for every
position of its catalog. -/
theorem calculate_accountsFor (job : Job) (rules : List Rule) (selection : Selection) :
    ∃ skipped taking, (calculate job rules selection).AccountsFor job rules selection
      skipped taking := by
  have hdecisions : (calculate job rules selection).events.filter (·.outcome?.isSome) =
      (skippedPositions job rules selection ++ runPositions job rules selection).map
        (decisionAt job rules selection) := by
    rw [filter_events_calculate fun _ h => h, List.filter_eq_self]
    intro event hevent
    obtain ⟨position, -, rfl⟩ := List.mem_map.mp hevent
    exact Rule.isSome_outcome?_decision
  have hlength : (skippedPositions job rules selection ++
      runPositions job rules selection).length = rules.length := by
    rw [skippedPositions_append_runPositions_perm.length_eq, List.length_finRange]
  refine ⟨skippedPositions job rules selection, runPositions job rules selection, {
    positions := skippedPositions_append_runPositions_perm
    skipped_iff := fun _ => mem_skippedPositions_iff
    skipped_order := (List.sortedLT_finRange rules.length).pairwise.filter _
    taking_order := pairwise_precedes_runPositions
    told := fun _ _ _ => Event.outcome?_eq_some_iff
    decisions := hdecisions
    named := fun _ => Rule.head?_fields_decision
    outcome := fun _ _ => Rule.outcome?_decision_eq_some_iff
    skips_first := ⟨_, events_calculate, ?_⟩
    count := ?_
    lines := filter_events_calculate_line
    summary := ⟨.calculated rules.length (calculate job rules selection).value.length
      job.panelCount job.hasBattery, ?_, rfl, rfl⟩ }⟩
  · intro event hevent
    rcases List.mem_append.mp hevent with hlater | hsummary
    · exact outcome?_of_mem_later hlater
    · rw [List.mem_singleton.mp hsummary]
      simp [Event.outcome?]
  · rw [Event.countP_outcome?, hdecisions, List.length_map, hlength]
  · rw [events_calculate, List.getLast?_append, List.getLast?_append]
    rfl

end SolarTakeoff
