import Sema.Report.Text
import Sema.Proofs.Diagnostics.Texts

/-!
# Lines of reports

A text without line feeds stays on one line (`OneLine`). If all lines of a report are such texts,
then reading the report line by line gives them back (`Report.linesOf_ofLines`): no line is split,
and none is made up.

The lines of the report on errors are its groups (`Report.errorLines_append`), and it is the one
that says there are none just if there is nothing to report (`Report.errors_eq_iff`).
-/

namespace Sema

/-- Whether a text has no line feed. -/
def OneLine (s : String) : Prop :=
  '\n' ∉ s.toList

instance (s : String) : Decidable (OneLine s) :=
  inferInstanceAs (Decidable ('\n' ∉ s.toList))

namespace OneLine

theorem append {s t : String} (hs : OneLine s) (ht : OneLine t) : OneLine (s ++ t) := by
  rw [OneLine, String.toList_append, List.mem_append, not_or]
  exact ⟨hs, ht⟩

theorem within {opening s closing : String} (hopening : OneLine opening) (hs : OneLine s)
    (hclosing : OneLine closing) : OneLine (opening ++ s ++ closing) :=
  .append (.append hopening hs) hclosing

theorem nat (n : Nat) : OneLine (toString n) :=
  not_mem_toString_nat (by decide) n

theorem int (n : Int) : OneLine (toString n) :=
  not_mem_toString_int (by decide) (by decide) n

theorem type (τ : Ty) : OneLine τ.name :=
  τ.not_mem_name (by decide)

theorem coordinate (n : Option Int) : OneLine (Diagnostic.coordinate n) :=
  Diagnostic.not_mem_coordinate (by decide) (by decide) n

theorem intercalate {sep : String} (hsep : OneLine sep) {parts : List String}
    (h : ∀ s ∈ parts, OneLine s) : OneLine (sep.intercalate parts) := by
  rw [OneLine, String.toList_intercalate]
  induction parts with
  | nil => exact List.not_mem_nil
  | cons s parts ih =>
    obtain ⟨hs, hparts⟩ := List.forall_mem_cons.mp h
    cases parts with
    | nil =>
      rw [List.map_singleton, List.intercalate_singleton]
      exact hs
    | cons t rest =>
      rw [List.map_cons, List.map_cons, List.intercalate_cons_cons, List.mem_append,
        List.mem_append, not_or, not_or]
      exact ⟨⟨hs, hsep⟩, ih hparts⟩

end OneLine

theorem Diagnostic.oneLine_render {d : Diagnostic} (h : OneLine d.message) : OneLine d.render := by
  have hplace (opening : String) (hopening : OneLine opening) :
      OneLine (opening ++ coordinate d.line ++ ":" ++ coordinate d.column ++ " - ") :=
    .within (.within hopening (.coordinate _) (by decide)) (.coordinate _) (by decide)
  unfold render
  split
  · exact .append (hplace _ (by decide)) h
  · exact .append (hplace _ (by decide)) h
  · split
    · exact .append (by decide) h
    · exact .append (.within (by decide) (.int _) (by decide)) h

namespace Report

/-! ## Lines -/

/-- The lines of a text: what stands between line feeds, before the first and behind the last. -/
def linesOf (text : String) : List String :=
  (text.toList.splitOn '\n').map String.ofList

theorem ofLines_cons (line : String) (lines : List String) :
    ofLines (line :: lines) = line ++ "\n" ++ ofLines lines := by
  rw [ofLines, List.map_cons, String.join_cons]
  rfl

/-- Lines without line feeds are read as they were written, with nothing behind the last one. -/
theorem linesOf_ofLines {lines : List String} (h : ∀ line ∈ lines, OneLine line) :
    linesOf (ofLines lines) = lines ++ [""] := by
  induction lines with
  | nil => rfl
  | cons line lines ih =>
    obtain ⟨hline, hlines⟩ := List.forall_mem_cons.mp h
    have htext : (ofLines (line :: lines)).toList =
        line.toList ++ '\n' :: (ofLines lines).toList := by
      simp [ofLines_cons]
    rw [linesOf, htext, List.splitOn_append_cons_self_of_not_mem hline, List.map_cons,
      String.ofList_toList, List.cons_append, ← ih hlines]
    rfl

/-! ## Groups of errors -/

variable {parser semantic : List Diagnostic}

/-- Each group of problems is read under its heading, with an empty line between the two. -/
theorem errorLines_append (hparser : ∀ d ∈ parser, d.phase = .parser)
    (hsemantic : ∀ d ∈ semantic, d.phase = .semantic) (hne : parser ++ semantic ≠ []) :
    errorLines (parser ++ semantic) =
      (if parser = [] then []
        else "=== Lexical and syntax errors ===" :: parser.map (·.render)) ++
      (if parser = [] ∨ semantic = [] then [] else [""]) ++
      (if semantic = [] then [] else "=== Semantic errors ===" :: semantic.map (·.render)) := by
  have hfilter : (parser ++ semantic).filter (·.phase == .parser) = parser := by
    rw [List.filter_append, List.filter_eq_self.mpr, List.filter_eq_nil_iff.mpr, List.append_nil]
    · intro d hd
      simp [hsemantic d hd]
    · intro d hd
      simp [hparser d hd]
  have hfilter' : (parser ++ semantic).filter (·.phase == .semantic) = semantic := by
    rw [List.filter_append, List.filter_eq_nil_iff.mpr, List.filter_eq_self.mpr, List.nil_append]
    · intro d hd
      simp [hsemantic d hd]
    · intro d hd
      simp [hparser d hd]
  rw [errorLines, hfilter, hfilter']
  cases parser <;> cases semantic <;> simp [group] at hne ⊢

theorem oneLine_group (heading : String) (hheading : OneLine heading) {ds : List Diagnostic}
    (h : ∀ d ∈ ds, OneLine d.render) : ∀ line ∈ group heading ds, OneLine line := by
  unfold group
  split
  · exact List.forall_mem_nil _
  · exact List.forall_mem_cons.mpr ⟨hheading, List.forall_mem_map.mpr h⟩

theorem oneLine_errorLines {ds : List Diagnostic} (h : ∀ d ∈ ds, OneLine d.render) :
    ∀ line ∈ errorLines ds, OneLine line := by
  have hfilter : ∀ phase, ∀ d ∈ ds.filter (·.phase == phase), OneLine d.render :=
    fun _ d hd => h d (List.mem_filter.mp hd).1
  have hparser := oneLine_group "=== Lexical and syntax errors ===" (by decide) (hfilter .parser)
  have hsemantic := oneLine_group "=== Semantic errors ===" (by decide) (hfilter .semantic)
  unfold errorLines
  dsimp only
  split
  · exact List.forall_mem_singleton.mpr (by decide)
  · split
    · exact List.forall_mem_append.mpr ⟨hparser, hsemantic⟩
    · exact List.forall_mem_append.mpr ⟨List.forall_mem_append.mpr
        ⟨hparser, List.forall_mem_singleton.mpr (by decide)⟩, hsemantic⟩

theorem exists_heading {ds : List Diagnostic} (h : ds ≠ []) :
    ∃ heading lines, errorLines ds = heading :: lines ∧ heading.toList.head? = some '=' := by
  have hsome : ds.filter (·.phase == .parser) ≠ [] ∨ ds.filter (·.phase == .semantic) ≠ [] := by
    obtain ⟨d, ds, rfl⟩ := List.exists_cons_of_ne_nil h
    cases hd : d.phase with
    | parser => exact .inl (by simp [hd])
    | semantic => exact .inr (by simp [hd])
  unfold errorLines
  generalize ds.filter (·.phase == .parser) = parser at hsome
  generalize ds.filter (·.phase == .semantic) = semantic at hsome
  cases parser with
  | nil =>
    obtain ⟨d, ds, rfl⟩ := List.exists_cons_of_ne_nil (hsome.resolve_left fun hne => hne rfl)
    exact ⟨_, _, rfl, rfl⟩
  | cons d ds => cases semantic <;> exact ⟨_, _, rfl, rfl⟩

/-- The report says that there are no errors just if nothing is reported. -/
theorem errors_eq_iff {ds : List Diagnostic} : errors ds = "No errors\n" ↔ ds = [] := by
  refine ⟨fun h => Decidable.byContradiction fun hne => ?_, fun h => h ▸ rfl⟩
  obtain ⟨heading, lines, hlines, hhead⟩ := exists_heading hne
  rw [errors, hlines, ofLines_cons, ← String.toList_inj] at h
  have hfirst := congrArg List.head? h
  simp [hhead] at hfirst

end Report

end Sema
