import Sema.Proofs.Parsing.ReportPlaces
import Sema.Proofs.Report.Lines

/-!
# Messages of the parser

A message of the parser shows tokens, a stray character, marks and names of token kinds. No token
of a source holds a line feed, and no stray character is one (`oneLine_pieces`). So, whatever is
repaired, what a recovering parse reports stays on one line (`oneLine_of_mem_report`).

In the token listing a line feed could not show either, since it would be escaped
(`Token.oneLine_listed`).
-/

namespace Sema

/-! ## The token listing -/

theorem Terminal.oneLine_label (kind : Terminal) : OneLine kind.label := by
  cases kind <;> decide

theorem Lookahead.oneLine_label (la : Lookahead) : OneLine la.label := by
  cases la with
  | token kind => exact kind.oneLine_label
  | endOfInput => decide

namespace Token

theorem not_mem_escapeLineFeeds (cs : List Char) : '\n' ∉ escapeLineFeeds cs := by
  intro h
  obtain ⟨c, -, hc⟩ := List.mem_flatMap.mp h
  split at hc
  · simp at hc
  · next hne => exact hne (List.mem_singleton.mp hc).symm

/-- A token is listed on one line. -/
theorem oneLine_listed (t : Token) : OneLine (Report.tokenLine t.listed) := by
  have htext : OneLine t.listed.text := by
    rw [OneLine, listed, String.toList_ofList]
    exact not_mem_escapeLineFeeds _
  have hkind : OneLine t.listed.kind := t.kind.oneLine_label
  exact .within (.within (.within (by decide) hkind (by decide)) htext (by decide)) (.int _)
    (by decide)

end Token

/-! ## Pieces of a source -/

/-- Whether what messages show of a piece has no line feed. -/
def Piece.OneLine : Piece → Prop
  | token t => Sema.OneLine t.text
  | ignored _ => True
  | stray c _ => c ≠ '\n'

variable {source : List Char}

theorem oneLine_of_mem_tokensOf {t : Token} (h : t ∈ tokensOf (pieces source)) :
    OneLine t.text := by
  obtain ⟨_, _, hpieces⟩ := exists_append_of_mem_tokensOf h
  obtain ⟨-, -, -, -, -, -, hline⟩ := exists_text_around hpieces
  exact hline

/-- Messages can show what there is in a source on one line. -/
theorem oneLine_pieces (source : List Char) : ∀ p ∈ pieces source, p.OneLine := by
  intro p hp
  cases p with
  | token t => exact oneLine_of_mem_tokensOf (List.mem_filterMap.mpr ⟨_, hp, rfl⟩)
  | ignored cs => trivial
  | stray c pos => exact ne_lineFeed_of_stray_mem hp

/-! ## Repairs -/

theorem Closer.oneLine_text (mark : Closer) : OneLine mark.text := by
  cases mark <;> decide

namespace Repair

theorem oneLine_mismatch {found : String} (h : OneLine found) (expected : List Lookahead) :
    OneLine (mismatch found expected) := by
  have hlabels : OneLine (", ".intercalate (expected.map (·.label))) := by
    refine .intercalate (by decide) fun s hs => ?_
    obtain ⟨la, -, rfl⟩ := List.mem_map.mp hs
    exact la.oneLine_label
  exact .within (.within (by decide) h (by decide)) hlabels (by decide)

theorem oneLine_missing (mark : Closer) {found : String} (h : OneLine found) :
    OneLine s!"missing '{mark.text}' at {found}" :=
  .append (.within (by decide) mark.oneLine_text (by decide)) h

theorem oneLine_shown {t : Token} (h : OneLine t.text) : OneLine (shown t) :=
  .within (by decide) h (by decide)

theorem oneLine_stray {c : Char} (h : c ≠ '\n') :
    OneLine s!"token recognition error at: '{c}'" := by
  have hc : OneLine (String.singleton c) := by
    rw [OneLine, String.toList_singleton, List.mem_singleton]
    exact h.symm
  exact .within (by decide) hc (by decide)

end Repair

namespace Parsing

open Automaton

theorem AtEnd.oneLine {message : String} (h : AtEnd message) : OneLine message := by
  rcases h with ⟨mark, rfl⟩ | ⟨expected, rfl⟩
  · exact .within (by decide) mark.oneLine_text (by decide)
  · exact Repair.oneLine_mismatch (by decide) expected

theorem oneLine_take {t : Token} (ht : OneLine t.text) (σ : Stack) :
    ∀ d ∈ (take t σ).1.flatMap Repair.diagnostics, OneLine d.message := by
  have hshown := Repair.oneLine_shown ht
  cases hfeed : σ.feed t with
  | ok fed =>
    rw [take_of_feed_ok hfeed]
    exact List.forall_mem_nil _
  | error settled =>
    rw [take_of_feed_error hfeed, List.flatMap_singleton, repair]
    split
    · next mark _ _ => exact List.forall_mem_singleton.mpr (Repair.oneLine_missing mark hshown)
    · split
      · exact List.forall_mem_singleton.mpr (Repair.oneLine_mismatch hshown _)
      · exact List.forall_mem_singleton.mpr (Repair.oneLine_mismatch hshown _)

theorem oneLine_recoverFrom {ps : List Piece} (hps : ∀ p ∈ ps, p.OneLine) (last : Span)
    (σ : Stack) :
    ∀ d ∈ (recoverFrom last σ ps).repairs.flatMap Repair.diagnostics, OneLine d.message := by
  induction ps generalizing last σ with
  | nil => exact fun d hd => (of_mem_diagnostics_close hd).2.oneLine
  | cons p ps ih =>
    obtain ⟨hp, hrest⟩ := List.forall_mem_cons.mp hps
    clear hps
    cases p with
    | ignored cs => exact ih hrest last σ
    | stray c pos =>
      exact List.forall_mem_cons.mpr ⟨Repair.oneLine_stray hp, ih hrest last σ⟩
    | token t =>
      rw [recoverFrom_token, List.flatMap_append]
      exact List.forall_mem_append.mpr ⟨oneLine_take hp σ, ih hrest _ _⟩

end Parsing

/-- What a recovering parse of a source reports stays on one line. -/
theorem oneLine_of_mem_report {d : Diagnostic}
    (h : d ∈ (Parsing.recover (pieces source)).diagnostics) : OneLine d.message := by
  rw [Recovered.diagnostics, Repair.report_eq_firsts] at h
  exact Parsing.oneLine_recoverFrom (oneLine_pieces source) _ _ d (sublist_firsts.subset h)

end Sema
