import Scannerless.Proofs.Acceptance

/-!
# The defect that is reported

Some defects cannot be mended by going on: an objection to a call, and a flaw of a production that
a call registers. They are noticed in two phases. Objections are noticed at the call, and the first
one counts. Flaws are noticed when the productions are assembled, which is only done for a script
without objections.

So the defect reported is the earliest of its phase, and not always the earliest of all: a call can
be objected to after a production with a flaw has been registered. `Grammar.ofScript_reports_iff`
says exactly when the earliest defect is the one reported, and when further calls change the report.
-/

namespace Scannerless

/-- What a call gets wrong for good. -/
def ScriptCall.defect? (call : ScriptCall) : Option Defect :=
  call.objection?.or call.flaw?

/-! ## The two kinds of defects -/

/-- Whether the defect is one that only assembly notices. -/
def Defect.isFlaw : Defect → Bool
  | .invalidLhs _ _ => true
  | .duplicateLabel _ => true
  | .reusedNode _ _ => true
  | _ => false

theorem WiredProduction.isFlaw_of_flaw {earlier : List WiredProduction} {entry : WiredProduction}
    {defect : Defect} (flaw : entry.flaw? earlier = some defect) : defect.isFlaw = true := by
  unfold WiredProduction.flaw? at flaw
  dsimp only at flaw
  split at flaw
  · cases flaw
    rfl
  · split at flaw
    · cases flaw
      rfl
    · obtain ⟨node, -, rfl⟩ := Option.map_eq_some_iff.1 flaw
      rfl

theorem ScriptCall.isFlaw_of_flaw {call : ScriptCall} {defect : Defect}
    (flaw : call.flaw? = some defect) : defect.isFlaw = true := by
  unfold ScriptCall.flaw? at flaw
  split at flaw
  · exact WiredProduction.isFlaw_of_flaw flaw
  · cases flaw

theorem GrammarDraft.isFlaw_of_taken {draft : GrammarDraft} {id : NodeId} {defect : Defect}
    (taken : draft.taken? id = some defect) : defect.isFlaw = false := by
  unfold GrammarDraft.taken? at taken
  split at taken
  · cases taken
    rfl
  · cases taken

theorem GrammarDraft.isFlaw_of_misfit {draft : GrammarDraft} {label : String} {defect : Defect} :
    ∀ {index : Nat} {ids : List NodeId} {symbols : List Symbol},
      draft.misfit? label index ids symbols = some defect → defect.isFlaw = false
  | index, id :: ids, expected :: rest, misfit => by
    rw [GrammarDraft.misfit?] at misfit
    split at misfit
    · cases misfit
      rfl
    · split at misfit
      · exact isFlaw_of_misfit misfit
      · cases misfit
        rfl
  | _, [], _, misfit => by simp [GrammarDraft.misfit?] at misfit
  | _, _ :: _, [], misfit => by simp [GrammarDraft.misfit?] at misfit

theorem ScriptCall.isFlaw_of_objection {call : ScriptCall} {defect : Defect}
    (objection : call.objection? = some defect) : defect.isFlaw = false := by
  unfold ScriptCall.objection? at objection
  split at objection
  · exact GrammarDraft.isFlaw_of_taken objection
  · exact GrammarDraft.isFlaw_of_taken objection
  · exact GrammarDraft.isFlaw_of_taken objection
  · split at objection
    · cases objection
      rfl
    · exact GrammarDraft.isFlaw_of_taken objection
  · split at objection
    · cases objection
    · cases objection
      rfl
  · unfold GrammarDraft.wiringDefect? at objection
    split at objection
    · exact GrammarDraft.isFlaw_of_misfit objection
    · cases objection
      rfl
  · cases objection
  · cases objection
  · cases objection

/-! ## Two phases -/

namespace Grammar

variable {start : Symbol} {script : List Declaration} {defect : Defect}

/-- The first objection is reported. -/
theorem ofScript_of_objection
    (first : (GrammarDraft.calls { start } script).findSome? ScriptCall.objection? = some defect) :
    (Grammar.ofScript start script).value = .error defect := by
  refine GrammarDraft.build_of_defect ?_
  rw [GrammarDraft.defect_run, Option.none_or, first]

/-- Without objections, the first flaw is reported. -/
theorem ofScript_of_flaw
    (accepted : ∀ call ∈ GrammarDraft.calls { start } script, call.objection? = none)
    (first : (GrammarDraft.calls { start } script).findSome? ScriptCall.flaw? = some defect) :
    (Grammar.ofScript start script).value = .error defect := by
  have coherent := (GrammarDraft.Coherent.start start).run script
  have sound : (GrammarDraft.run { start } script).defect? = none := by
    rw [GrammarDraft.defect_run, Option.none_or, List.findSome?_eq_none_iff]
    exact accepted
  have flaw : firstFlaw? [] (GrammarDraft.run { start } script).entries = some defect := by
    rw [GrammarDraft.entries, firstFlaw?_append, GrammarDraft.firstFlaw_run, first]
    rfl
  exact (GrammarDraft.build_of_sound sound).trans (coherent.assemble_of_flaw flaw)

/-- If no call is objected to, the earliest defect is the first flaw. -/
theorem findSome?_defect_of_accepted {calls : List ScriptCall}
    (accepted : ∀ call ∈ calls, call.objection? = none) :
    calls.findSome? ScriptCall.defect? = calls.findSome? ScriptCall.flaw? := by
  induction calls with
  | nil => rfl
  | cons call rest ih =>
    rw [findSome?_cons_eq_or, findSome?_cons_eq_or,
      ih fun other member => accepted other (List.mem_cons_of_mem call member), ScriptCall.defect?,
      accepted call List.mem_cons_self, Option.none_or]

/-- If the earliest defect is no flaw, it is the first objection. -/
theorem findSome?_objection_of_defect {calls : List ScriptCall}
    (earliest : calls.findSome? ScriptCall.defect? = some defect) (kind : defect.isFlaw = false) :
    calls.findSome? ScriptCall.objection? = some defect := by
  induction calls with
  | nil => cases earliest
  | cons call rest ih =>
    rw [findSome?_cons_eq_or, ScriptCall.defect?] at earliest
    rw [findSome?_cons_eq_or]
    cases objection : call.objection? with
    | some found =>
      rw [objection, Option.some_or, Option.some_or] at earliest
      exact earliest
    | none =>
      rw [objection, Option.none_or] at earliest
      cases flaw : call.flaw? with
      | some found =>
        rw [flaw, Option.some_or] at earliest
        cases earliest
        rw [ScriptCall.isFlaw_of_flaw flaw] at kind
        cases kind
      | none =>
        rw [flaw, Option.none_or] at earliest
        rw [Option.none_or, ih earliest]

/-! ## Further calls -/

/-- An objection is reported whatever comes after. -/
theorem ofScript_append_of_objection (more : List Declaration)
    (first : (GrammarDraft.calls { start } script).findSome? ScriptCall.objection? = some defect) :
    (Grammar.ofScript start (script ++ more)).value = .error defect := by
  refine ofScript_of_objection ?_
  rw [GrammarDraft.calls_append, List.findSome?_append, first, Option.some_or]

/-- Without objections, a later objection is reported in place of a flaw. -/
theorem ofScript_append_of_later {more : List Declaration}
    (accepted : ∀ call ∈ GrammarDraft.calls { start } script, call.objection? = none)
    (later : ((GrammarDraft.run { start } script).calls more).findSome? ScriptCall.objection? =
      some defect) :
    (Grammar.ofScript start (script ++ more)).value = .error defect := by
  refine ofScript_of_objection ?_
  rw [GrammarDraft.calls_append, List.findSome?_append, List.findSome?_eq_none_iff.2 accepted,
    Option.none_or, later]

/-- A flaw is reported as long as no call is objected to. -/
theorem ofScript_append_of_flaw {more : List Declaration}
    (accepted : ∀ call ∈ GrammarDraft.calls { start } script, call.objection? = none)
    (first : (GrammarDraft.calls { start } script).findSome? ScriptCall.flaw? = some defect)
    (acceptedLater : ∀ call ∈ (GrammarDraft.run { start } script).calls more,
      call.objection? = none) :
    (Grammar.ofScript start (script ++ more)).value = .error defect := by
  refine ofScript_of_flaw ?_ ?_
  · rw [GrammarDraft.calls_append]
    intro call member
    exact (List.mem_append.1 member).elim (accepted call) (acceptedLater call)
  · rw [GrammarDraft.calls_append, List.findSome?_append, first, Option.some_or]

/-- The earliest defect of a script is reported just if it is noticed at the call, or no call is
objected to; otherwise the first objection is reported instead. And further calls leave the report
as it is just if the script has an objection already, or none of the further calls is objected
to. -/
theorem ofScript_reports_iff
    (earliest : (GrammarDraft.calls { start } script).findSome? ScriptCall.defect? = some defect) :
    ((Grammar.ofScript start script).value = .error defect ↔
      defect.isFlaw = false ∨
        ∀ call ∈ GrammarDraft.calls { start } script, call.objection? = none) ∧
    (∀ objection,
      (GrammarDraft.calls { start } script).findSome? ScriptCall.objection? = some objection →
        (Grammar.ofScript start script).value = .error objection) ∧
    ∀ more,
      (Grammar.ofScript start (script ++ more)).value = (Grammar.ofScript start script).value ↔
        (∃ call ∈ GrammarDraft.calls { start } script, call.objection? ≠ none) ∨
          ∀ call ∈ (GrammarDraft.run { start } script).calls more, call.objection? = none := by
  refine ⟨?_, fun objection => ofScript_of_objection, fun more => ?_⟩
  · cases first : (GrammarDraft.calls { start } script).findSome? ScriptCall.objection? with
    | some objection =>
      obtain ⟨call, member, objects⟩ := List.exists_of_findSome?_eq_some first
      have objected : ¬ ∀ call ∈ GrammarDraft.calls { start } script, call.objection? = none := by
        intro accepted
        rw [accepted call member] at objects
        cases objects
      rw [ofScript_of_objection first, or_iff_left objected]
      constructor
      · rintro ⟨⟩
        exact ScriptCall.isFlaw_of_objection objects
      · intro kind
        rw [findSome?_objection_of_defect earliest kind] at first
        cases first
        rfl
    | none =>
      have accepted := List.findSome?_eq_none_iff.1 first
      have flaw := findSome?_defect_of_accepted accepted ▸ earliest
      exact iff_of_true (ofScript_of_flaw accepted flaw) (.inr accepted)
  · cases first : (GrammarDraft.calls { start } script).findSome? ScriptCall.objection? with
    | some objection =>
      obtain ⟨call, member, objects⟩ := List.exists_of_findSome?_eq_some first
      rw [ofScript_append_of_objection more first, ofScript_of_objection first]
      exact iff_of_true rfl (.inl ⟨call, member, objects ▸ Option.some_ne_none _⟩)
    | none =>
      have accepted := List.findSome?_eq_none_iff.1 first
      have flaw := findSome?_defect_of_accepted accepted ▸ earliest
      have noObjection : ¬ ∃ call ∈ GrammarDraft.calls { start } script,
          call.objection? ≠ none := fun ⟨call, member, objects⟩ => objects (accepted call member)
      rw [ofScript_of_flaw accepted flaw, or_iff_right noObjection]
      cases later :
          ((GrammarDraft.run { start } script).calls more).findSome? ScriptCall.objection? with
      | none =>
        have acceptedLater := List.findSome?_eq_none_iff.1 later
        exact iff_of_true (ofScript_append_of_flaw accepted flaw acceptedLater) acceptedLater
      | some objection =>
        obtain ⟨call, member, objects⟩ := List.exists_of_findSome?_eq_some later
        obtain ⟨flawed, -, found⟩ := List.exists_of_findSome?_eq_some flaw
        rw [ofScript_append_of_later accepted later]
        refine iff_of_false ?_ fun acceptedLater => ?_
        · rintro ⟨⟩
          have kind := ScriptCall.isFlaw_of_flaw found
          rw [ScriptCall.isFlaw_of_objection objects] at kind
          cases kind
        · rw [acceptedLater call member] at objects
          cases objects

/-- Two productions with one label, then two nodes with one id. -/
def repeats : List Declaration :=
  [.rule (.nonTerminal "S")
      [.sequence "Same" [.literal "a"] [], .sequence "Same" [.literal "b"] []],
    .literal 7 "a",
    .literal 7 "b"]

/-- The repeated label comes first; it is reported without the nodes, and not with them. -/
theorem ofScript_reports_iff_repeats :
    (GrammarDraft.calls { start := .nonTerminal "S" } repeats).findSome? ScriptCall.defect? =
      some (.duplicateLabel "Same") ∧
    (Grammar.ofScript (.nonTerminal "S") repeats).value = .error (.duplicateNode 7) := by
  have earliest : (GrammarDraft.calls { start := .nonTerminal "S" } repeats).findSome?
      ScriptCall.defect? = some (.duplicateLabel "Same") := by decide +kernel
  refine ⟨earliest, (ofScript_reports_iff earliest).2.1 _ ?_⟩
  decide +kernel

/-- The earliest defect is not always the one reported, and further calls can change the report. -/
theorem ofScript_not_earliest :
    (GrammarDraft.calls { start := .nonTerminal "S" } repeats).findSome? ScriptCall.defect? =
      some (.duplicateLabel "Same") ∧
    (Grammar.ofScript (.nonTerminal "S") repeats).value ≠ .error (.duplicateLabel "Same") ∧
    (Grammar.ofScript (.nonTerminal "S") (repeats.take 1)).value =
      .error (.duplicateLabel "Same") := by
  have reported : (Grammar.ofScript (.nonTerminal "S") repeats).value =
      .error (.duplicateNode 7) := ofScript_of_objection (by decide +kernel)
  refine ⟨by decide +kernel, ?_, ofScript_of_flaw (by decide +kernel) (by decide +kernel)⟩
  rw [reported]
  rintro ⟨⟩

end Grammar

end Scannerless
