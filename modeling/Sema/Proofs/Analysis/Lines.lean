import Sema.Proofs.Analysis.LineRanges
import Sema.Proofs.Checking.Names
import Sema.Proofs.Parsing.Messages

/-!
# Reports line by line

No text that an analysis writes down on a token or on a problem holds a line feed: the tokens of the
source do not, and what messages show besides their own words is made of these tokens, also after
recovery (`oneLine_names`) and in the checker (`Analysis.oneLine_of_mem_checked`). So the reports
are read line by line as they were put together (`Analysis.ofSource_lines`).
-/

namespace Sema

theorem Violation.oneLine_message {v : Violation} (h : ∀ x ∈ v.names, OneLine x) :
    OneLine v.message := by
  have htypes {opening : String} (hopening : OneLine opening) (σ τ : Ty) :
      OneLine (opening ++ σ.name ++ ", got " ++ τ.name) :=
    .append (.within hopening (.type σ) (by decide)) (.type τ)
  cases v with
  | undefinedType | duplicateFunction | duplicateGlobal | duplicateLocal | undeclaredVariable
  | undefinedFunction | constAssignment => exact .within (by decide) (h _ (.head _)) (by decide)
  | missingMain | mainCall => exact .within (by decide) (by decide) (by decide)
  | severalMains count =>
    exact .within (.within (by decide) (by decide) (by decide)) (.nat count) (by decide)
  | duplicateParameter param func =>
    exact .within (.within (by decide) (h _ (.head _)) (by decide)) (h _ (.tail _ (.head _)))
      (by decide)
  | missingReturn func type =>
    exact .within (.within (by decide) (h _ (.head _)) (by decide)) (.type type) (by decide)
  | badInitializer _ declared actual | badReturn _ declared actual =>
    exact htypes (.within (by decide) (h _ (.head _)) (by decide)) declared actual
  | badAssignment target declared actual =>
    have hactual : OneLine ("Cannot assign " ++ actual.name ++ " to '") :=
      .within (by decide) (.type actual) (by decide)
    exact .append (.within hactual (h _ (.head _)) (by decide)) (.type declared)
  | badArgument index func declared actual =>
    have hindex : OneLine ("Argument " ++ toString index ++ " of '") :=
      .within (by decide) (.nat index) (by decide)
    exact htypes (.within hindex (h _ (.head _)) (by decide)) declared actual
  | arity func declared actual =>
    have hfunc : OneLine ("Wrong number of arguments for '" ++ func ++ "': expected ") :=
      .within (by decide) (h _ (.head _)) (by decide)
    exact .append (.within hfunc (.nat declared) (by decide)) (.nat actual)

variable {source : List Char}

/-- In the program of a source, however it was repaired, no name has a line feed. -/
theorem oneLine_names {r : Parsed} {p : Program} (hr : Parsed.ofSource source = .ok r)
    (hp : r.program = some p) : ∀ n ∈ p.nodes, ∀ x ∈ n.names, OneLine x := by
  obtain ⟨tree, htree, -, hnodes⟩ := exists_spelledIn_tops hr hp
  intro n hn x hx
  obtain ⟨t, ht, hsub⟩ := hnodes n hn
  rcases List.mem_cons.mp (ht.names_subset hx) with rfl | hx
  · decide
  · obtain ⟨token, htoken, rfl⟩ := List.mem_map.mp hx
    have hanchored := Parsing.anchored_recover htree
    obtain ⟨s, hs, rfl | ⟨mark, rfl⟩⟩ := hanchored.anchor token (hsub.subset htoken)
    · exact oneLine_of_mem_tokensOf hs
    · exact mark.oneLine_text

namespace Analysis

/-- What the checker reports on the program of a source is semantic and stays on one line. -/
theorem oneLine_of_mem_checked {r : Parsed} {p : Program} {c : Checked}
    (hr : Parsed.ofSource source = .ok r) (hp : r.program = some p)
    (hc : Checked.ofProgram p = .ok c) {d : Diagnostic} (hd : d ∈ c.diagnostics) :
    d.phase = .semantic ∧ OneLine d.message := by
  refine ⟨phase_of_mem_checked hc hd, ?_⟩
  obtain ⟨hwalks, rfl⟩ := ofProgram_eq_ok_iff.mp hc
  obtain ⟨v, hv, -, hmessage⟩ :=
    Program.namesIn_reports hwalks (oneLine_names hr hp) (Sink.mem_of_mem_items hd)
  rw [hmessage]
  exact Violation.oneLine_message hv

/-- The diagnostics of an analysis are those of the parser and after them those of the checker, each
with a message on one line. -/
theorem exists_phases {a : Analysis} (ha : ofSource source = .ok a) :
    ∃ parser semantic, a.diagnostics = parser ++ semantic ∧
      (∀ d ∈ parser, d.phase = .parser ∧ OneLine d.message) ∧
      ∀ d ∈ semantic, d.phase = .semantic ∧ OneLine d.message := by
  obtain ⟨r, checked, hr, hchecked, rfl⟩ := ofSource_eq_ok_iff.mp ha
  have hreport := (parsed_eq_ok.mp hr).2
  have hparser : ∀ d ∈ r.diagnostics, d.phase = .parser ∧ OneLine d.message := by
    rw [← hreport]
    exact fun d hd => ⟨Repair.phase_of_mem_report hd, oneLine_of_mem_report hd⟩
  have hprogram : ∀ c, checked = some c →
      ∃ p, r.program = some p ∧ Checked.ofProgram p = .ok c := by
    rintro c rfl
    rcases checkedProgram_eq_ok_iff.mp hchecked with ⟨-, hnone⟩ | ⟨p, _, hp, hc, hcheck⟩
    · cases hnone
    · cases hc
      exact ⟨p, hp, hcheck⟩
  have hmerge : merge r.diagnostics checked = r.diagnostics ++ checked.elim [] (·.diagnostics) :=
    merge_eq_append (nodup_texts (hreport ▸ Repair.nodup_texts_report _)
      (fun d hd => (hparser d hd).1) fun c hc => (hprogram c hc).imp fun _ h => h.2)
  refine ⟨_, _, hmerge, hparser, fun d hd => ?_⟩
  cases checked with
  | none => cases hd
  | some c =>
    obtain ⟨p, hp, hc⟩ := hprogram c rfl
    exact oneLine_of_mem_checked hr hp hc hd

/-- The reports of an analysis, read line by line. No token and no problem is written with a line
feed in it. So the token report has one line for each token, in order, and nothing else; and the
report on errors says that there are none just if there is nothing to report, and has else the
problems of the parser under their heading and the semantic ones under theirs, one line for each, in
order, with an empty line between the two groups if there are both. -/
theorem ofSource_lines {a : Analysis} (ha : ofSource source = .ok a) :
    (∀ t ∈ a.tokens, OneLine (Report.tokenLine t)) ∧ (∀ d ∈ a.diagnostics, OneLine d.render) ∧
      (∃ tokens, a.reports.lookup "tokens.txt" = some tokens ∧
        Report.linesOf tokens = a.tokens.map Report.tokenLine ++ [""]) ∧
      ∃ errors parser semantic, a.reports.lookup "errors.txt" = some errors ∧
        (errors = "No errors\n" ↔ a.diagnostics = []) ∧
        a.diagnostics = parser ++ semantic ∧
        (∀ d ∈ parser, d.phase = .parser) ∧ (∀ d ∈ semantic, d.phase = .semantic) ∧
        (a.diagnostics ≠ [] → Report.linesOf errors =
          (if parser = [] then []
            else "=== Lexical and syntax errors ===" :: parser.map Diagnostic.render) ++
          (if parser = [] ∨ semantic = [] then [] else [""]) ++
          (if semantic = [] then []
            else "=== Semantic errors ===" :: semantic.map Diagnostic.render) ++ [""]) := by
  have htokens : ∀ t ∈ a.tokens, OneLine (Report.tokenLine t) := by
    obtain ⟨_, _, -, -, rfl⟩ := ofSource_eq_ok_iff.mp ha
    intro t ht
    obtain ⟨token, -, rfl⟩ := List.mem_map.mp ht
    exact token.oneLine_listed
  obtain ⟨parser, semantic, hdiagnostics, hparser, hsemantic⟩ := exists_phases ha
  have hrender : ∀ d ∈ a.diagnostics, OneLine d.render := by
    rw [hdiagnostics]
    exact List.forall_mem_append.mpr ⟨fun d hd => Diagnostic.oneLine_render (hparser d hd).2,
      fun d hd => Diagnostic.oneLine_render (hsemantic d hd).2⟩
  refine ⟨htokens, hrender, ⟨_, rfl, ?_⟩, _, parser, semantic, rfl, Report.errors_eq_iff,
    hdiagnostics, fun d hd => (hparser d hd).1, fun d hd => (hsemantic d hd).1, fun hne => ?_⟩
  · exact Report.linesOf_ofLines (List.forall_mem_map.mpr htokens)
  · have hphases := Report.errorLines_append (fun d hd => (hparser d hd).1)
      (fun d hd => (hsemantic d hd).1) (hdiagnostics ▸ hne)
    rw [Report.errors, Report.linesOf_ofLines (Report.oneLine_errorLines hrender), hdiagnostics,
      hphases]

theorem unended_lines :
    ∃ a errors, ofSource unended = .ok a ∧ a.reports.lookup "errors.txt" = some errors ∧
      (∀ d ∈ a.diagnostics, OneLine d.render) ∧
      Report.linesOf errors =
        ["=== Lexical and syntax errors ===",
          "Syntax error at line 1:25 - missing ';' at 'a'",
          "",
          "=== Semantic errors ===",
          "Semantic error at line 1: Variable 'b' is not declared",
          "Semantic error at line 1: Cannot assign unknown to 'a' of type int",
          ""] := by
  have hshown : ((ofSource unended).toOption.map fun a =>
      (a.diagnostics.map Diagnostic.phase, a.diagnostics.map Diagnostic.render)) =
        some ([.parser, .semantic, .semantic],
          ["Syntax error at line 1:25 - missing ';' at 'a'",
            "Semantic error at line 1: Variable 'b' is not declared",
            "Semantic error at line 1: Cannot assign unknown to 'a' of type int"]) := by
    decide +kernel
  cases ha : ofSource unended with
  | error e =>
    rw [ha] at hshown
    cases hshown
  | ok a =>
    simp only [ha, Except.toOption, Option.map_some, Option.some.injEq, Prod.mk.injEq] at hshown
    obtain ⟨hphases, hrenders⟩ := hshown
    obtain ⟨-, hrender, -, errors, parser, semantic, herrors, -, hdiagnostics, hparser, hsemantic,
      hlines⟩ := ofSource_lines ha
    refine ⟨a, errors, rfl, herrors, hrender, ?_⟩
    have hne : a.diagnostics ≠ [] := fun hnil => by simp [hnil] at hphases
    rw [hdiagnostics, List.map_append] at hphases hrenders
    rcases parser with _ | ⟨d, _ | ⟨e, rest⟩⟩
    · cases semantic with
      | nil => cases hphases
      | cons e rest =>
        have he := (List.cons.inj hphases).1
        rw [hsemantic e (.head _)] at he
        cases he
    · rw [List.map_singleton, List.singleton_append, List.cons.injEq] at hrenders
      obtain ⟨hd, hrest⟩ := hrenders
      have hsome : semantic ≠ [] := fun hnil => by simp [hnil] at hrest
      simp [hlines hne, hd, hrest, hsome]
    · have he := (List.cons.inj (List.cons.inj hphases).2).1
      rw [hparser e (.tail _ (.head _))] at he
      cases he

end Analysis

end Sema
