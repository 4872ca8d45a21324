import Sema.Lexical.Listing

/-!
# The token listing ends

Each time a text is lexed again for its listing, a stray character has become a space, and a space
is never stray. So there are as many rounds as it takes, and the listing is that of a text without
stray characters (`lexed_ofSource`).
-/

namespace Sema

/-! ## Stray characters -/

theorem exists_of_stray_mem {start : Position} {cs : List Char} {c : Char} {pos : Position}
    (h : .stray c pos ∈ piecesFrom start cs) :
    ∃ before after, cs = before ++ c :: after ∧ pos = start.advance before ∧
      Lexeme.first? c after = none := by
  fun_induction piecesFrom start cs with
  | case1 => cases h
  | case2 start d cs hnone ih =>
    rcases List.mem_cons.mp h with heq | h
    · cases heq
      exact ⟨[], cs, rfl, rfl, hnone⟩
    · obtain ⟨before, after, rfl, hpos, hfirst⟩ := ih h
      exact ⟨d :: before, after, rfl, hpos, hfirst⟩
  | case3 start d cs cls n _ lexeme ih =>
    rcases List.mem_cons.mp h with heq | h
    · cases cls <;> cases heq
    · obtain ⟨before, after, hcs, hpos, hfirst⟩ := ih h
      refine ⟨lexeme ++ before, after, ?_, ?_, hfirst⟩
      · rw [List.append_assoc, ← hcs, List.cons_append, List.take_append_drop]
      · rw [hpos, Position.advance_append]

namespace Listing

/-! ## Rounds -/

def inked (source : List Char) : Nat :=
  source.countP (· != ' ')

/-- The text in which the characters at the given places are replaced by spaces. -/
def blank (source : List Char) (places : List Position) : List Char :=
  places.foldl (fun text pos => text.set pos.offset ' ') source

theorem lexed_eq_ok {source : List Char} {tokens : List Token} (h : lexed source = .ok tokens) :
    tokens = (pieces source).filterMap Piece.token? := by
  unfold lexed at h
  split at h
  · cases h
  · exact (Except.ok.inj h).symm

theorem inked_set_lt {source : List Char} {pos : Position} (h : lexed source = .error pos) :
    inked (source.set pos.offset ' ') < inked source := by
  unfold lexed at h
  split at h
  · next c place hstray =>
    cases h
    obtain ⟨piece, hmem, hpiece⟩ := List.exists_of_findSome?_eq_some hstray
    obtain rfl : piece = .stray c pos := by
      cases piece <;> cases hpiece
      rfl
    obtain ⟨before, after, rfl, rfl, hfirst⟩ := exists_of_stray_mem hmem
    have hspace : c ≠ ' ' := by
      rintro rfl
      simp [Lexeme.first?, Lexeme.isBlank] at hfirst
    have hoffset : (Position.start.advance before).offset = before.length := by
      rw [Position.offset_advance, Position.start, Nat.zero_add]
    rw [hoffset, List.set_append_right _ _ (Nat.le_refl _), Nat.sub_self, List.set_cons_zero]
    simp [inked, List.countP_append, hspace]
  · cases h

theorem lexed_within {rounds : Nat} {source : List Char} (h : inked source ≤ rounds) :
    lexed (blank source (within rounds source).replaced) = .ok (within rounds source).tokens := by
  induction rounds generalizing source with
  | zero =>
    cases hlexed : lexed source with
    | ok tokens => rw [within, ← lexed_eq_ok hlexed]; exact hlexed
    | error pos =>
      have := inked_set_lt hlexed
      omega
  | succ rounds ih =>
    rw [within]
    cases hlexed : lexed source with
    | ok tokens => exact hlexed
    | error pos =>
      have hless := inked_set_lt hlexed
      have hrounds : inked (source.set pos.offset ' ') ≤ rounds := by omega
      exact ih hrounds

/-- The listing of a text ends with a text without stray characters. -/
theorem lexed_ofSource (source : List Char) :
    lexed (blank source (ofSource source).replaced) = .ok (ofSource source).tokens :=
  lexed_within List.countP_le_length

end Listing

end Sema
