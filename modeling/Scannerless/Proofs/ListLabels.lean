import Mathlib.Data.List.Nodup
import Scannerless.Proofs.Acceptance
import Scannerless.Proofs.WrittenSymbols

/-!
# The labels of implied productions

A list symbol that no production of the script defines is given a list production, labelled with the
written form of the symbol. Different list symbols can be written alike, so a script in which
nothing is wrong can be refused for a label that it does not use. `Grammar.ofScript_lists_clash_iff`
says when: two different list symbols that a hyphen in one of their classes makes look the same, as
`Symbol.Alike` has it, and no others.
-/

namespace Scannerless

/-! ## The list symbols left undefined -/

/-- The production of a list symbol defines it, under its written form as the label. -/
theorem Production.of_forListSymbol {symbol : Symbol} {production : Production}
    (found : Production.forListSymbol? symbol = some production) :
    symbol.isList = true ∧ production.lhs = symbol ∧ production.label = symbol.describe := by
  cases symbol with
  | list =>
    cases found
    exact ⟨rfl, rfl, rfl⟩
  | _ => cases found

theorem Production.forListSymbol_eq_none_iff {symbol : Symbol} :
    Production.forListSymbol? symbol = none ↔ symbol.isList = false := by
  cases symbol with
  | list => exact iff_of_false (Option.some_ne_none _) (by simp [Symbol.isList, Symbol.repetition?])
  | _ => exact iff_of_true rfl rfl

namespace GrammarDraft

/-- Whether the draft implies a production for the symbol: it is a list symbol that some node stands
for and no production defines. -/
structure Implies (draft : GrammarDraft) (symbol : Symbol) : Prop where
  list : symbol.isList = true
  node : ∃ node ∈ draft.nodes.values, node.symbol = symbol
  undefined : ∀ entry ∈ draft.prods.toList, entry.production.lhs ≠ symbol

theorem mem_lhs_impliedBy_iff {symbol : Symbol} {nodes : List StackNode} :
    ∀ {defined : Std.TreeSet Symbol},
      symbol ∈ (impliedBy defined nodes).map (fun entry => entry.production.lhs) ↔
        symbol.isList = true ∧ symbol ∉ defined ∧ ∃ node ∈ nodes, node.symbol = symbol := by
  induction nodes with
  | nil => simp [impliedBy]
  | cons node rest ih =>
    intro defined
    simp only [List.exists_mem_cons_iff]
    rw [impliedBy]
    split
    · next found =>
      have notList := Production.forListSymbol_eq_none_iff.1 found
      rw [ih]
      grind
    · next production found =>
      obtain ⟨list, lhs, -⟩ := Production.of_forListSymbol found
      split
      · next known =>
        rw [ih]
        grind
      · next new =>
        rw [List.map_cons, List.mem_cons, ih, lhs, Std.TreeSet.mem_insert]
        grind

/-- Each list symbol is given one production. -/
theorem nodup_lhs_impliedBy {nodes : List StackNode} : ∀ {defined : Std.TreeSet Symbol},
    ((impliedBy defined nodes).map fun entry => entry.production.lhs).Nodup := by
  induction nodes with
  | nil => exact List.nodup_nil
  | cons node rest ih =>
    intro defined
    rw [impliedBy]
    split
    · exact ih
    · next production found =>
      split
      · exact ih
      · rw [List.map_cons, List.nodup_cons, mem_lhs_impliedBy_iff]
        refine ⟨?_, ih⟩
        rintro ⟨-, new, -⟩
        rw [(Production.of_forListSymbol found).2.1] at new
        exact new Std.TreeSet.mem_insert_self

theorem mem_lhs_implied_iff {draft : GrammarDraft} {symbol : Symbol} :
    symbol ∈ draft.implied.map (fun entry => entry.production.lhs) ↔ draft.Implies symbol := by
  rw [implied, mem_lhs_impliedBy_iff, Std.TreeSet.mem_ofList, List.contains_iff_mem, List.mem_map]
  constructor
  · rintro ⟨list, undefined, node⟩
    exact ⟨list, node, fun entry member eq => undefined ⟨entry, member, eq⟩⟩
  · rintro ⟨list, node, undefined⟩
    exact ⟨list, fun ⟨entry, member, eq⟩ => undefined entry member eq, node⟩

/-- The labels of the implied productions are the written forms of the symbols. -/
theorem map_label_implied (draft : GrammarDraft) :
    draft.implied.map (fun entry => entry.production.label) =
      (draft.implied.map fun entry => entry.production.lhs).map Symbol.describe := by
  rw [List.map_map]
  refine List.map_congr_left fun entry member => ?_
  obtain ⟨node, -, found, -⟩ := exists_node_of_mem_impliedBy member
  obtain ⟨-, lhs, label⟩ := Production.of_forListSymbol found
  rw [Function.comp_apply, lhs, label]

/-- Two implied productions have one label just if the draft implies productions for different
symbols that are alike. -/
theorem not_nodup_label_implied_iff {draft : GrammarDraft}
    (names : ∀ symbol, draft.Implies symbol → symbol.PlainNames) :
    ¬ (draft.implied.map fun entry => entry.production.label).Nodup ↔
      ∃ s t, draft.Implies s ∧ draft.Implies t ∧ s ≠ t ∧ s.Alike t := by
  have nodup : (draft.implied.map fun entry => entry.production.lhs).Nodup := nodup_lhs_impliedBy
  rw [map_label_implied, List.nodup_map_iff_inj_on nodup]
  simp only [mem_lhs_implied_iff]
  push Not
  constructor
  · rintro ⟨s, impliesS, t, impliesT, same, different⟩
    exact ⟨s, t, impliesS, impliesT, different,
      (Symbol.describe_eq_iff (names s impliesS) (names t impliesT)).1 same⟩
  · rintro ⟨s, t, impliesS, impliesT, different, alike⟩
    exact ⟨s, impliesS, t, impliesT, Symbol.describe_eq_of_alike alike, different⟩

/-- No implied production has a label that is plain. -/
theorem not_plain_of_mem_implied {draft : GrammarDraft} {entry : WiredProduction}
    (member : entry ∈ draft.implied) : ¬ Text.Plain entry.production.label := by
  obtain ⟨node, -, found, -⟩ := exists_node_of_mem_impliedBy member
  obtain ⟨list, -, label⟩ := Production.of_forListSymbol found
  rw [label]
  intro plain
  cases eq : node.symbol with
  | list element separators repetition =>
    rw [eq] at plain
    refine plain '\x7b' ?_ (by decide)
    rw [Symbol.toList_describe_list]
    exact List.mem_cons_self
  | _ =>
    rw [eq] at list
    cases list

end GrammarDraft

/-! ## Labels that clash -/

/-- A label is reported just if it stands twice. -/
theorem not_nodup_of_firstFlaw {label : String} : ∀ {earlier entries : List WiredProduction},
    firstFlaw? earlier entries = some (.duplicateLabel label) →
      ¬ ((earlier ++ entries).map fun entry => entry.production.label).Nodup
  | _, [], flaw => by cases flaw
  | earlier, entry :: rest, flaw => by
    rw [firstFlaw?] at flaw
    rcases Option.or_eq_some_iff.1 flaw with own | ⟨-, later⟩
    · unfold WiredProduction.flaw? at own
      dsimp only at own
      split at own
      · cases own
      · split at own
        · next again =>
          rw [List.map_append, List.map_cons, List.nodup_append]
          rintro ⟨-, -, apart⟩
          exact apart _ again _ List.mem_cons_self rfl
        · obtain ⟨_, -, eq⟩ := Option.map_eq_some_iff.1 own
          cases eq
    · rw [List.append_cons]
      exact not_nodup_of_firstFlaw later

/-- Where nothing else is wrong with productions, it is a label that is reported. -/
theorem exists_label_of_firstFlaw {defect : Defect} :
    ∀ {earlier entries : List WiredProduction},
      (∀ entry ∈ entries, entry.production.definesLhs = true) →
        (∀ entry ∈ entries, entry.wiring.Nodup) → firstFlaw? earlier entries = some defect →
          ∃ label, defect = .duplicateLabel label
  | _, [], _, _, flaw => by cases flaw
  | earlier, entry :: rest, defines, nodup, flaw => by
    rw [firstFlaw?] at flaw
    rcases Option.or_eq_some_iff.1 flaw with own | ⟨-, later⟩
    · have noRepeat : Grammar.firstRepeat? [] entry.wiring = none :=
        Grammar.firstRepeat_eq_none_iff.2
          ⟨nodup entry List.mem_cons_self, fun _ _ => List.not_mem_nil⟩
      unfold WiredProduction.flaw? at own
      simp only [defines entry List.mem_cons_self, noRepeat, Bool.not_true, Bool.false_eq_true,
        if_false] at own
      split at own
      · cases own
        exact ⟨_, rfl⟩
      · cases own
    · exact exists_label_of_firstFlaw
        (fun other member => defines other (List.mem_cons_of_mem entry member))
        (fun other member => nodup other (List.mem_cons_of_mem entry member)) later

namespace Grammar

variable {start : Symbol} {script : List Declaration}

/-- The labels of the productions given to list symbols with plain names differ, except for symbols
that are alike. A script with different plain labels of its own, to which no call is objected, is
refused for a label only if two different symbols are alike; and if two are, it is refused, for a
label unless something else is wrong with a production. -/
theorem ofScript_lists_clash_iff (sound : (GrammarDraft.run { start } script).defect? = none)
    (distinct : ((GrammarDraft.run { start } script).prods.toList.map fun entry =>
      entry.production.label).Nodup)
    (plain : ∀ entry ∈ (GrammarDraft.run { start } script).prods.toList,
      Text.Plain entry.production.label)
    (names : ∀ symbol, (GrammarDraft.run { start } script).Implies symbol → symbol.PlainNames) :
    (∀ {s t : Symbol} {p q : Production}, s.PlainNames → t.PlainNames →
      Production.forListSymbol? s = some p → Production.forListSymbol? t = some q →
        (p.label = q.label ↔ s.Alike t)) ∧
    ((∃ label, (Grammar.ofScript start script).value = .error (.duplicateLabel label)) →
      ∃ s t, (GrammarDraft.run { start } script).Implies s ∧
        (GrammarDraft.run { start } script).Implies t ∧ s ≠ t ∧ s.Alike t) ∧
    ((∃ s t, (GrammarDraft.run { start } script).Implies s ∧
        (GrammarDraft.run { start } script).Implies t ∧ s ≠ t ∧ s.Alike t) →
      ∃ defect, (Grammar.ofScript start script).value = .error defect ∧
        ((∀ entry ∈ (GrammarDraft.run { start } script).entries,
          entry.production.definesLhs = true ∧ entry.wiring.Nodup) →
            ∃ label, defect = .duplicateLabel label)) := by
  have coherent := (GrammarDraft.Coherent.start start).run script
  have built : (Grammar.ofScript start script).value = _ := GrammarDraft.build_of_sound sound
  rw [built, ← GrammarDraft.not_nodup_label_implied_iff names]
  refine ⟨fun {s t p q} plainS plainT foundS foundT => ?_, fun ⟨label, refused⟩ nodup => ?_,
    fun clash => ?_⟩
  · rw [(Production.of_forListSymbol foundS).2.2, (Production.of_forListSymbol foundT).2.2,
      Symbol.describe_eq_iff plainS plainT]
  · cases flaw : firstFlaw? [] (GrammarDraft.run { start } script).entries with
    | none =>
      rcases coherent.assemble_of_flawless flaw with ⟨-, g, accepted⟩ | ⟨-, symbol, undefined⟩
      · rw [accepted] at refused
        cases refused
      · rw [undefined] at refused
        cases refused
    | some defect =>
      rw [coherent.assemble_of_flaw flaw] at refused
      cases refused
      refine not_nodup_of_firstFlaw flaw ?_
      rw [List.nil_append, GrammarDraft.entries, List.map_append, List.nodup_append]
      refine ⟨distinct, nodup, ?_⟩
      rintro _ said _ unsaid rfl
      obtain ⟨entry, member, eq⟩ := List.mem_map.1 said
      obtain ⟨other, member', eq'⟩ := List.mem_map.1 unsaid
      refine GrammarDraft.not_plain_of_mem_implied member' ?_
      rw [eq', ← eq]
      exact plain entry member
  · cases flaw : firstFlaw? [] (GrammarDraft.run { start } script).entries with
    | none =>
      obtain ⟨-, labels, -⟩ := firstFlaw_eq_none_iff.1 flaw
      rw [GrammarDraft.entries, List.map_append] at labels
      exact absurd (List.nodup_append.1 labels).2.1 clash
    | some defect =>
      refine ⟨defect, coherent.assemble_of_flaw flaw, fun others => ?_⟩
      exact exists_label_of_firstFlaw (fun entry member => (others entry member).1)
        (fun entry member => (others entry member).2) flaw

/-- The characters from `*` to `0`, one or more of them. -/
def starToZero : Symbol :=
  .list (.charClass (.ofRanges [.ofBounds '*' '0'])) [] .plus

/-- The characters `*`, `-` and `0`, one or more of them. -/
def starHyphenZero : Symbol :=
  .list (.charClass (.ofRanges [.single '*', .single '-', .single '0'])) [] .plus

/-- A rule whose alternatives are lists over the two classes. -/
def hyphens : List Declaration :=
  [.rule (.nonTerminal "S") [.sequence "A" [starToZero] [], .sequence "B" [starHyphenZero] []]]

/-- The two lists are alike, so the rule is refused. -/
theorem ofScript_lists_clash_iff_hyphens :
    ∃ defect, (Grammar.ofScript (.nonTerminal "S") hyphens).value = .error defect := by
  have names : ∀ node ∈ (GrammarDraft.run { start := .nonTerminal "S" } hyphens).nodes.values,
      node.symbol.PlainNames := by decide +kernel
  have sound : (GrammarDraft.run { start := .nonTerminal "S" } hyphens).defect? = none := by
    decide +kernel
  have alphanumeric :
      ∀ entry ∈ (GrammarDraft.run { start := .nonTerminal "S" } hyphens).prods.toList,
        entry.production.label.toList.all Char.isAlphanum = true := by decide +kernel
  have clash := (ofScript_lists_clash_iff sound (by decide +kernel)
    (fun entry member => Text.plain_of_isAlphanum (alphanumeric entry member))
    fun symbol implies => by
      obtain ⟨node, member, rfl⟩ := implies.node
      exact names node member).2.2
  obtain ⟨defect, refused, -⟩ := clash ⟨starHyphenZero, starToZero,
    ⟨by decide, by decide +kernel, by decide +kernel⟩,
    ⟨by decide, by decide +kernel, by decide +kernel⟩, by decide +kernel,
    (Symbol.describe_eq_iff (by decide) (by decide)).1 (by decide +kernel)⟩
  exact ⟨defect, refused⟩

/-- Different list symbols can be given one label, so that a script of which nothing else is wrong
is refused. -/
theorem ofScript_lists_clash :
    starToZero ≠ starHyphenZero ∧
    (Production.forListSymbol? starToZero).map Production.label =
      (Production.forListSymbol? starHyphenZero).map Production.label ∧
    (GrammarDraft.run { start := .nonTerminal "S" } hyphens).defect? = none ∧
    (GrammarDraft.run { start := .nonTerminal "S" } hyphens).prods.toList.map
      (fun entry => entry.production.label) = ["A", "B"] ∧
    (Grammar.ofScript (.nonTerminal "S") hyphens).value =
      .error (.duplicateLabel "\x7b[*-0]\x7d+") := by
  have coherent := (GrammarDraft.Coherent.start (.nonTerminal "S")).run hyphens
  have sound : (GrammarDraft.run { start := .nonTerminal "S" } hyphens).defect? = none := by
    decide +kernel
  refine ⟨by decide +kernel, by decide +kernel, sound, by decide +kernel, ?_⟩
  exact (GrammarDraft.build_of_sound sound).trans (coherent.assemble_of_flaw (by decide +kernel))

end Grammar

end Scannerless
