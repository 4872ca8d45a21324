import Sema.Parsing.Parsed
import Sema.Proofs.Automaton.Runs

/-!
# Recovery agrees with strict parsing

As long as strict parsing finds no error, a recovering parse repairs nothing
(`recoverFrom_of_strictFrom_ok`). At the first error of a strict parse it does a repair, and every
repair reports something at the place of the error (`recoverFrom_of_strictFrom_error`). So no
diagnostics means no error, and else the first diagnostic is on the first error (`ofSource_agrees`).

That something is reported is not plain for the end of the input: there the repair lists the marks
that were inserted, and would report nothing if the input were complete without any. It is not, as
the stack on which the end was refused is settled, and the end is refused on it again.
-/

namespace Sema

/-! ## Reports -/

def ParseError.position : ParseError → Position
  | strayCharacter _ pos => pos
  | unexpectedToken t _ => t.start
  | unexpectedEnd pos _ => pos

def ParseError.code : ParseError → Code
  | strayCharacter _ _ => .lexicalError
  | unexpectedToken _ _ | unexpectedEnd _ _ => .syntaxError

/-- The diagnostic reports the parse error: it has the code and the place of it. -/
def Diagnostic.Reports (d : Diagnostic) (e : ParseError) : Prop :=
  d.code = e.code ∧ d.line = some e.position.line ∧ d.column = some e.position.column

namespace Repair

theorem exists_foldl_eq_append (ds : List Diagnostic) : ∀ kept : List Diagnostic,
    ∃ more, ds.foldl (fun ds d => if d ∈ ds then ds else ds ++ [d]) kept = kept ++ more := by
  induction ds with
  | nil => exact fun kept => ⟨[], by simp⟩
  | cons d ds ih =>
    intro kept
    rw [List.foldl_cons]
    split
    · exact ih kept
    · obtain ⟨more, hmore⟩ := ih (kept ++ [d])
      exact ⟨d :: more, by rw [hmore, List.append_assoc, List.singleton_append]⟩

theorem report_cons {done : Repair} {d : Diagnostic} {ds : List Diagnostic}
    (h : done.diagnostics = d :: ds) (repairs : List Repair) :
    ∃ more, report (done :: repairs) = d :: more := by
  obtain ⟨more, hmore⟩ := exists_foldl_eq_append (ds ++ repairs.flatMap diagnostics) [d]
  refine ⟨more, ?_⟩
  rw [report, List.flatMap_cons, h, List.cons_append, List.foldl_cons]
  exact hmore

end Repair

/-- The first repair of an outcome reports the parse error first. -/
def Recovered.StartsAt (r : Recovered) (e : ParseError) : Prop :=
  ∃ done rest d ds, r.repairs = done :: rest ∧ done.diagnostics = d :: ds ∧ d.Reports e

theorem Recovered.StartsAt.diagnostics {r : Recovered} {e : ParseError} (h : r.StartsAt e) :
    ∃ d ds, r.diagnostics = d :: ds ∧ d.Reports e := by
  obtain ⟨done, rest, d, ds, hrepairs, hdone, hd⟩ := h
  obtain ⟨more, hmore⟩ := Repair.report_cons hdone rest
  exact ⟨d, more, by rw [Recovered.diagnostics, hrepairs, hmore], hd⟩

namespace Parsing

open Automaton

/-! ## One token -/

theorem take_of_feed_ok {t : Token} {σ next : Stack} (h : σ.feed t = .ok next) :
    take t σ = ([], next) := by
  simp only [take, h]

theorem take_of_feed_error {t : Token} {σ settled : Stack} (h : σ.feed t = .error settled) :
    take t σ = ([(repair t settled).1], (repair t settled).2) := by
  simp only [take, h]

theorem recoverFrom_token (last : Span) (σ : Stack) (t : Token) (rest : List Piece) :
    recoverFrom last σ (.token t :: rest) =
      ⟨(take t σ).1 ++ (recoverFrom t.span (take t σ).2 rest).repairs,
        (recoverFrom t.span (take t σ).2 rest).tree⟩ := rfl

/-! ## No error -/

/-- Where strict parsing finds no error, a recovering parse repairs nothing. -/
theorem recoverFrom_of_strictFrom_ok {last : Span} {σ : Stack} {ps : List Piece} {tree : Tree}
    (h : strictFrom last.start σ ps = .ok tree) : recoverFrom last σ ps = ⟨[], some tree⟩ := by
  induction ps generalizing last σ with
  | nil =>
    unfold strictFrom at h
    unfold recoverFrom close
    cases hfinish : σ.finish with
    | ok done =>
      rw [hfinish] at h
      cases h
      rfl
    | error settled =>
      rw [hfinish] at h
      cases h
  | cons p rest ih =>
    cases p with
    | token t =>
      unfold strictFrom at h
      cases hfeed : σ.feed t with
      | ok next =>
        rw [hfeed] at h
        have hrest := @ih t.span next h
        rw [recoverFrom_token, take_of_feed_ok hfeed, hrest]
        rfl
      | error settled =>
        rw [hfeed] at h
        cases h
    | ignored cs => exact ih h
    | stray c pos => cases h

/-! ## The first error -/

theorem finish_of_finish_error {σ σ' : Stack} (hσ : Stack.Path σ) (h : σ.finish = .error σ') :
    σ'.finish = .error σ' := by
  have hsettle : σ' = σ.settle .endOfInput := (Stack.path_of_finish_error hσ h).2.2
  have hagain : σ'.settle .endOfInput = σ.settle .endOfInput := by
    rw [hsettle]
    exact Stack.settle_of_settled (Stack.settled_settle hσ)
  unfold Stack.finish at h ⊢
  rw [hagain]
  exact h

theorem marks_ne_nil {last : Span} {n : Nat} {σ σ' : Stack} {marks : List Closer} {tree : Tree}
    (hfinish : σ.finish = .error σ') (h : closeWithin last n σ = some (marks, tree)) :
    marks ≠ [] := by
  cases n with
  | zero => cases h
  | succ n =>
    simp only [closeWithin, hfinish] at h
    split at h
    · obtain ⟨later, -, hlater⟩ := Option.map_eq_some_iff.mp h
      cases hlater
      exact List.cons_ne_nil _ _
    · cases h

theorem diagnostics_repair (t : Token) (σ : Stack) (expected : List Lookahead) :
    ∃ d, (repair t σ).1.diagnostics = [d] ∧ d.Reports (.unexpectedToken t expected) := by
  unfold repair
  split
  · exact ⟨_, rfl, rfl, rfl, rfl⟩
  · split
    · exact ⟨_, rfl, rfl, rfl, rfl⟩
    · exact ⟨_, rfl, rfl, rfl, rfl⟩

theorem startsAt_close {last : Span} {σ σ' : Stack} (hσ : Stack.Path σ) (h : σ.finish = .error σ') :
    (close last σ).StartsAt (.unexpectedEnd last.start σ'.expected) := by
  simp only [close, h]
  split
  · next marks tree hclose =>
    cases marks with
    | nil => exact absurd rfl (marks_ne_nil (finish_of_finish_error hσ h) hclose)
    | cons mark marks => exact ⟨_, _, _, _, rfl, rfl, rfl, rfl, rfl⟩
  · exact ⟨_, _, _, _, rfl, rfl, rfl, rfl, rfl⟩

/-- The first error of a strict parse is the first that a recovering parse reports. -/
theorem recoverFrom_of_strictFrom_error {last : Span} {σ : Stack} {ps : List Piece}
    {e : ParseError} (hσ : Stack.Path σ) (h : strictFrom last.start σ ps = .error e) :
    (recoverFrom last σ ps).StartsAt e := by
  induction ps generalizing last σ with
  | nil =>
    unfold strictFrom at h
    unfold recoverFrom
    cases hfinish : σ.finish with
    | ok done =>
      rw [hfinish] at h
      cases h
    | error settled =>
      rw [hfinish] at h
      cases h
      exact startsAt_close hσ hfinish
  | cons p rest ih =>
    cases p with
    | token t =>
      unfold strictFrom at h
      cases hfeed : σ.feed t with
      | ok next =>
        rw [hfeed] at h
        have hnext := (Stack.path_of_feed_ok hσ hfeed).1
        rw [recoverFrom_token, take_of_feed_ok hfeed]
        exact @ih t.span next hnext h
      | error settled =>
        rw [hfeed] at h
        cases h
        rw [recoverFrom_token, take_of_feed_error hfeed]
        obtain ⟨d, hd, hreports⟩ := diagnostics_repair t settled settled.expected
        exact ⟨_, _, d, [], rfl, hd, hreports⟩
    | ignored cs => exact ih hσ h
    | stray c pos =>
      cases h
      exact ⟨_, _, _, _, rfl, rfl, rfl, rfl, rfl⟩

end Parsing

/-! ## Sources -/

theorem parsed_eq_ok {source : List Char} {r : Parsed} :
    Parsed.ofSource source = .ok r ↔
      (Parsing.recover (pieces source)).program source = .ok r.program ∧
        (Parsing.recover (pieces source)).diagnostics = r.diagnostics := by
  cases r
  cases h : (Parsing.recover (pieces source)).program source with
  | error e => simp [Parsed.ofSource, h, bind, Except.bind]
  | ok p => simp [Parsed.ofSource, h, bind, Except.bind, pure, Except.pure]

theorem ofSource_of_strict_error {source : List Char} {e : ParseError}
    (h : Parsing.strict (pieces source) = .error e) :
    Program.ofSource source = .error (.parse e) := by
  simp only [Program.ofSource, Program.ofPieces, h]

theorem parsed_of_strict_ok {source : List Char} {tree : Tree}
    (h : Parsing.strict (pieces source) = .ok tree) (p : Program) :
    Program.ofSource source = .ok p ↔ Parsed.ofSource source = .ok ⟨some p, []⟩ := by
  have hrecover : Parsing.recover (pieces source) = ⟨[], some tree⟩ :=
    Parsing.recoverFrom_of_strictFrom_ok h
  rw [parsed_eq_ok, hrecover]
  unfold Program.ofSource Program.ofPieces
  rw [h]
  cases hread : Reading.program source tree with
  | error e => simp [Recovered.program, hread, Functor.map, Except.map]
  | ok q =>
    simp [Recovered.program, hread, Functor.map, Except.map, Recovered.diagnostics, Repair.report]

theorem parsed_of_strict_error {source : List Char} {e : ParseError} {r : Parsed}
    (h : Parsing.strict (pieces source) = .error e) (hr : Parsed.ofSource source = .ok r) :
    ∃ d ds, r.diagnostics = d :: ds ∧ d.Reports e := by
  have hstarts : (Parsing.recover (pieces source)).StartsAt e :=
    Parsing.recoverFrom_of_strictFrom_error .nil h
  rw [← (parsed_eq_ok.mp hr).2]
  exact hstarts.diagnostics

/-- The two ways to parse a source agree: they give the same program where there is no error, and
else the first diagnostic is on the error that strict parsing ends with. -/
theorem ofSource_agrees (source : List Char) :
    (∀ p, Program.ofSource source = .ok p ↔ Parsed.ofSource source = .ok ⟨some p, []⟩) ∧
    ∀ e r, Program.ofSource source = .error (.parse e) → Parsed.ofSource source = .ok r →
      ∃ d ds, r.diagnostics = d :: ds ∧ d.code = e.code ∧
        d.line = some e.position.line ∧ d.column = some e.position.column := by
  cases hstrict : Parsing.strict (pieces source) with
  | ok tree =>
    refine ⟨parsed_of_strict_ok hstrict, fun e r herror => ?_⟩
    unfold Program.ofSource Program.ofPieces at herror
    rw [hstrict] at herror
    cases hread : Reading.program source tree <;> simp [hread] at herror
  | error e =>
    rw [ofSource_of_strict_error hstrict]
    refine ⟨fun p => ⟨(nomatch ·), fun hr => ?_⟩, fun e' r herror hr => ?_⟩
    · obtain ⟨d, ds, hdiagnostics, -⟩ := parsed_of_strict_error hstrict hr
      cases hdiagnostics
    · cases herror
      exact parsed_of_strict_error hstrict hr

def unfinished : List Char :=
  "int x = (1".toList

theorem unfinished_agrees : ∃ e r d ds, Program.ofSource unfinished = .error (.parse e) ∧
    Parsed.ofSource unfinished = .ok r ∧ r.diagnostics = d :: ds ∧ d.code = e.code ∧
    d.line = some e.position.line ∧ d.column = some e.position.column := by
  obtain ⟨-, hfirst⟩ := ofSource_agrees unfinished
  have hstrict : (Parsing.strict (pieces unfinished)).isOk = false := by decide +kernel
  have hparsed : (Parsed.ofSource unfinished).isOk = true := by decide +kernel
  cases hr : Parsed.ofSource unfinished with
  | error e => simp [hr, Except.isOk, Except.toBool] at hparsed
  | ok r =>
    cases he : Parsing.strict (pieces unfinished) with
    | ok tree => simp [he, Except.isOk, Except.toBool] at hstrict
    | error e =>
      have hsource := ofSource_of_strict_error he
      obtain ⟨d, ds, hd⟩ := hfirst e r hsource hr
      exact ⟨e, r, d, ds, hsource, rfl, hd⟩

end Sema
