import Sema.Lexical.Lexeme

/-!
# Where lexemes end

A lexeme that ends within the start of a text is settled there, up to the character after it. So a
text may be changed from some place on without a change to the lexemes before it, if what stands
there afterwards starts with white space, a semicolon or a closing brace and brings no end of a
comment that was not there before (`Replaces.first?_append`). No lexeme goes on with such a
character, except a string or a comment, and these end where they did.
-/

namespace Sema

/-- Whether a token of this kind ends a statement or a block. -/
def Terminal.isBoundary (kind : Terminal) : Bool :=
  kind == .semicolon || kind == .rbrace

namespace Lexeme

/-! ## Where lexemes end -/

/-- The characters with which no lexeme goes on, strings and comments apart. -/
def isBreak (c : Char) : Bool :=
  isBlank c || c == ';' || c == '\x7d'

theorem eq_of_isBreak {c : Char} (h : isBreak c = true) :
    c = ' ' ∨ c = '\t' ∨ c = '\x0c' ∨ c = '\r' ∨ c = '\n' ∨ c = ';' ∨ c = '\x7d' := by
  simpa [isBreak, isBlank, or_assoc] using h

theorem isWordPart_of_isBreak {c : Char} (h : isBreak c = true) : isWordPart c = false := by
  rcases eq_of_isBreak h with rfl | rfl | rfl | rfl | rfl | rfl | rfl <;> decide

theorem isDigit_of_isBreak {c : Char} (h : isBreak c = true) :
    DecimalDigit.isDigit c = false := by
  rcases eq_of_isBreak h with rfl | rfl | rfl | rfl | rfl | rfl | rfl <;> decide

theorem ofPair?_of_isBreak (c : Char) {d : Char} (h : isBreak d = true) :
    Terminal.ofPair? c d = none := by
  rcases eq_of_isBreak h with rfl | rfl | rfl | rfl | rfl | rfl | rfl <;>
    simp [Terminal.ofPair?]

def commentEnd : List Char := ['*', '/']

/-- At a place before `v` a text may go on with `v'` instead, without a change to the tokens
before. -/
structure Splits (v v' : List Char) : Prop where
  /-- Lexemes end at that place. -/
  breaks : ∃ c rest, v' = c :: rest ∧ isBreak c = true
  /-- A block comment ends afterwards only where one did before. -/
  closes : commentEnd <:+: v' → commentEnd <:+: v

/-- At a place before `v` a text may go on with `v'` instead, without a change to what stands
before. -/
structure Replaces (v v' : List Char) : Prop where
  /-- No line ends at that place. -/
  inLine : ∃ c rest, v = c :: rest ∧ c ≠ '\n'
  /-- Lexemes end at that place. -/
  breaks : ∃ c rest, v' = c :: rest ∧ isBreak c = true
  /-- A block comment ends afterwards only where one did before. -/
  closes : commentEnd <:+: v' → commentEnd <:+: v

theorem Replaces.splits {v v' : List Char} (hv : Replaces v v') : Splits v v' :=
  ⟨hv.breaks, hv.closes⟩

theorem run_cons (p : Char → Bool) (c : Char) (cs : List Char) :
    run p (c :: cs) = if p c then run p cs + 1 else 0 := by
  rw [run, List.takeWhile_cons]
  split <;> simp [run]

theorem of_mem_take_run {p : Char → Bool} {cs : List Char} {c : Char} (h : c ∈ cs.take (run p cs)) :
    p c = true := by
  have htake := List.prefix_iff_eq_take.mp (List.takeWhile_prefix (l := cs) p)
  rw [run, ← htake] at h
  exact List.all_eq_true.mp List.all_takeWhile c h

/-- A run that ends within `x` does not look at what follows, if it also stops after `x` where it
did. -/
theorem run_append {p : Char → Bool} {x v v' : List Char} (hn : run p (x ++ v) ≤ x.length)
    (hstop : run p v = 0 → run p v' = 0) : run p (x ++ v') = run p (x ++ v) := by
  induction x with
  | nil =>
    have hv : run p v = 0 := Nat.le_zero.mp hn
    rw [List.nil_append, List.nil_append, hv, hstop hv]
  | cons c x ih =>
    rw [List.cons_append, run_cons] at hn
    rw [List.cons_append, List.cons_append, run_cons, run_cons]
    split
    · next hc =>
      rw [if_pos hc, List.length_cons] at hn
      rw [ih (by omega)]
    · rfl

theorem run_break {p : Char → Bool} {v' : List Char}
    (h : ∃ c rest, v' = c :: rest ∧ isBreak c = true)
    (hp : ∀ c, isBreak c = true → p c = false) : run p v' = 0 := by
  obtain ⟨c, rest, rfl, hc⟩ := h
  rw [run_cons, hp c hc]
  rfl

/-! ## Strings and comments -/

theorem stringEnd?_escape {c : Char} (hc : c ≠ '\n') (cs : List Char) :
    stringEnd? ('\\' :: c :: cs) = (stringEnd? cs).map (· + 2) := by
  rw [stringEnd?]
  exact hc

theorem stringEnd?_cons {c : Char} (hquote : c ≠ '"') (hline : c ≠ '\n') (hescape : c ≠ '\\')
    (cs : List Char) : stringEnd? (c :: cs) = (stringEnd? cs).map (· + 1) := by
  rw [stringEnd?] <;> simp [hquote, hline, hescape]

theorem pos_of_stringEnd? {cs : List Char} {n : Nat} (h : stringEnd? cs = some n) : 0 < n := by
  fun_cases stringEnd? cs <;> simp_all [stringEnd?] <;> grind

theorem stringEnd?_append {x v v' : List Char} {n : Nat} (h : stringEnd? (x ++ v) = some n)
    (hn : n ≤ x.length) : stringEnd? (x ++ v') = some n := by
  fun_induction stringEnd? x generalizing n with
  | case1 =>
    have hpos := pos_of_stringEnd? h
    simp only [List.length_nil] at hn
    omega
  | case2 rest => simpa [stringEnd?] using h
  | case3 rest => simp [stringEnd?] at h
  | case4 =>
    exfalso
    rcases v with _ | ⟨c, v⟩
    · simp [stringEnd?] at h
    · by_cases hc : c = '\n'
      · simp [stringEnd?, hc] at h
      · rw [List.singleton_append, stringEnd?_escape hc] at h
        obtain ⟨m, -, rfl⟩ := Option.map_eq_some_iff.mp h
        simp at hn
  | case5 rest => simp [stringEnd?] at h
  | case6 c rest hc ih =>
    rw [List.cons_append, List.cons_append, stringEnd?_escape hc] at h
    obtain ⟨m, hm, rfl⟩ := Option.map_eq_some_iff.mp h
    simp only [List.length_cons] at hn
    rw [List.cons_append, List.cons_append, stringEnd?_escape hc, ih hm (by omega)]
    rfl
  | case7 c rest hquote hline hlast _ hescape ih =>
    have hc : c ≠ '\\' := by
      rintro rfl
      rcases rest with _ | ⟨d, rest⟩
      · exact hlast rfl rfl
      · exact hescape d rest rfl rfl
    rw [List.cons_append, stringEnd?_cons hquote hline hc] at h
    obtain ⟨m, hm, rfl⟩ := Option.map_eq_some_iff.mp h
    simp only [List.length_cons] at hn
    rw [List.cons_append, stringEnd?_cons hquote hline hc, ih hm (by omega)]
    rfl

theorem not_mem_of_stringEnd? {cs : List Char} {n : Nat} (h : stringEnd? cs = some n) :
    '\n' ∉ cs.take n := by
  fun_induction stringEnd? cs generalizing n with
  | case1 | case3 | case4 | case5 => cases h
  | case2 rest =>
    cases h
    simp
  | case6 c rest hc ih =>
    obtain ⟨m, hm, rfl⟩ := Option.map_eq_some_iff.mp h
    have hc' : '\n' ≠ c := fun heq => hc heq.symm
    simp [ih hm, hc']
  | case7 c rest _ hline _ _ _ ih =>
    obtain ⟨m, hm, rfl⟩ := Option.map_eq_some_iff.mp h
    have hline' : '\n' ≠ c := fun heq => hline heq.symm
    simp [ih hm, hline']

theorem blockEnd?_cons {c : Char} {cs : List Char} (h : ¬ commentEnd <+: c :: cs) :
    blockEnd? (c :: cs) = (blockEnd? cs).map (· + 1) := by
  rw [blockEnd?]
  rintro rest rfl rfl
  exact h ⟨rest, rfl⟩

theorem blockEnd?_of_start {cs : List Char} (h : commentEnd <+: cs) : blockEnd? cs = some 2 := by
  obtain ⟨rest, rfl⟩ := h
  rfl

theorem blockEnd?_eq_none_iff {cs : List Char} :
    blockEnd? cs = none ↔ ¬ commentEnd <:+: cs := by
  induction cs with
  | nil => simp [blockEnd?, commentEnd]
  | cons c cs ih =>
    by_cases hc : commentEnd <+: c :: cs
    · simp [blockEnd?_of_start hc, hc.isInfix]
    · rw [blockEnd?_cons hc, Option.map_eq_none_iff, ih, List.infix_cons_iff]
      simp [hc]

theorem two_le_of_blockEnd? {cs : List Char} {n : Nat} (h : blockEnd? cs = some n) : 2 ≤ n := by
  fun_induction blockEnd? cs generalizing n with
  | case1 => cases h
  | case2 rest =>
    cases h
    exact Nat.le_refl 2
  | case3 c rest _ ih =>
    obtain ⟨m, hm, rfl⟩ := Option.map_eq_some_iff.mp h
    exact Nat.le_succ_of_le (ih hm)

theorem blockEnd?_append {x v v' : List Char} {n : Nat} (h : blockEnd? (x ++ v) = some n)
    (hn : n ≤ x.length) : blockEnd? (x ++ v') = some n := by
  have htwo := two_le_of_blockEnd? h
  induction x generalizing n with
  | nil =>
    simp only [List.length_nil] at hn
    omega
  | cons c x ih =>
    rcases x with _ | ⟨d, x⟩
    · simp only [List.length_cons, List.length_nil] at hn
      omega
    have hsame : commentEnd <+: c :: (d :: x ++ v') ↔ commentEnd <+: c :: (d :: x ++ v) := by
      simp [commentEnd]
    by_cases hend : commentEnd <+: c :: (d :: x ++ v)
    · rw [List.cons_append, blockEnd?_of_start hend] at h
      rw [List.cons_append, blockEnd?_of_start (hsame.mpr hend), h]
    · rw [List.cons_append, blockEnd?_cons hend] at h
      obtain ⟨m, hm, rfl⟩ := Option.map_eq_some_iff.mp h
      have hm' := ih hm (by simpa using hn) (two_le_of_blockEnd? hm)
      rw [List.cons_append, blockEnd?_cons (mt hsame.mp hend), hm']
      rfl

theorem Splits.blockEnd?_eq_none {x v v' : List Char} (hv : Splits v v')
    (h : blockEnd? (x ++ v) = none) : blockEnd? (x ++ v') = none := by
  rw [blockEnd?_eq_none_iff] at h ⊢
  refine mt ?_ h
  clear h
  induction x with
  | nil => exact hv.closes
  | cons c x ih =>
    rw [List.cons_append, List.cons_append, List.infix_cons_iff, List.infix_cons_iff]
    rintro (hstart | hinfix)
    · rcases x with _ | ⟨d, x⟩
      · obtain ⟨d, rest, rfl, hd⟩ := hv.breaks
        obtain ⟨-, rfl⟩ : '*' = c ∧ '/' = d := by simpa [commentEnd] using hstart
        cases hd
      · exact .inl (by simpa [commentEnd] using hstart)
    · exact .inr (ih hinfix)

theorem pos_of_comment? {cs : List Char} {n : Nat} (h : comment? cs = some n) : 0 < n := by
  unfold comment? at h
  split at h
  · cases h
    omega
  · obtain ⟨m, -, rfl⟩ := Option.map_eq_some_iff.mp h
    omega
  · cases h

theorem Replaces.comment?_append {x v v' : List Char} {n : Nat} (hv : Replaces v v')
    (h : comment? (x ++ v) = some n) (hn : n ≤ x.length) : comment? (x ++ v') = some n := by
  rcases x with _ | ⟨c, x⟩
  · exact absurd hn (Nat.not_le.mpr (pos_of_comment? h))
  rw [List.cons_append] at h ⊢
  rw [List.length_cons] at hn
  by_cases hslash : c = '/'
  · subst hslash
    obtain rfl : 1 + run (· != '\n') (x ++ v) = n := Option.some.inj h
    have hstop : run (· != '\n') v = 0 → run (· != '\n') v' = 0 := by
      obtain ⟨d, rest, rfl, hd⟩ := hv.inLine
      rw [run_cons, if_pos (by simpa using hd)]
      intro hzero
      cases hzero
    rw [comment?, run_append (by omega) hstop]
  by_cases hstar : c = '*'
  · subst hstar
    obtain ⟨m, hm, rfl⟩ := Option.map_eq_some_iff.mp h
    rw [comment?, blockEnd?_append hm (by omega)]
    rfl
  · rw [comment?] at h <;> simp_all

theorem Splits.comment?_eq_none {x v v' : List Char} (hv : Splits v v')
    (h : comment? (x ++ v) = none) : comment? (x ++ v') = none := by
  rcases x with _ | ⟨c, x⟩
  · obtain ⟨d, rest, rfl, hd⟩ := hv.breaks
    rcases eq_of_isBreak hd with rfl | rfl | rfl | rfl | rfl | rfl | rfl <;> rfl
  · rw [List.cons_append] at h ⊢
    by_cases hslash : c = '/'
    · subst hslash
      cases h
    by_cases hstar : c = '*'
    · subst hstar
      have hnone := Option.map_eq_none_iff.mp h
      rw [comment?, hv.blockEnd?_eq_none hnone]
      rfl
    · rw [comment?] <;> simp [hslash, hstar]

/-! ## Numbers, marks and all the rest -/

/-- The length of a decimal point with the digits after it, if a text starts with them. -/
def fraction? : List Char → Option Nat
  | '.' :: d :: rest =>
    if DecimalDigit.isDigit d then some (2 + run DecimalDigit.isDigit rest) else none
  | _ => none

theorem number_eq (cs : List Char) :
    number cs =
      match fraction? (cs.drop (run DecimalDigit.isDigit cs)) with
      | some n => (.floatLit, run DecimalDigit.isDigit cs + n)
      | none => (.intLit, run DecimalDigit.isDigit cs) := by
  simp only [number]
  generalize cs.drop (run DecimalDigit.isDigit cs) = rest
  fun_cases fraction? rest with
  | case1 d rest hd => simp [hd, Nat.add_assoc]
  | case2 d rest hd => simp [hd]
  | case3 rest hrest =>
    split
    · next d rest' => exact absurd rfl (hrest d rest')
    · rfl

theorem fraction?_cons {c : Char} (hc : c ≠ '.') (cs : List Char) : fraction? (c :: cs) = none := by
  rw [fraction?]
  intro d rest heq
  exact hc (List.cons.inj heq).1

theorem fraction?_point {d : Char} (hd : DecimalDigit.isDigit d = false) (cs : List Char) :
    fraction? ('.' :: d :: cs) = none := by
  simp [fraction?, hd]

theorem exists_of_fraction? {cs : List Char} {n : Nat} (h : fraction? cs = some n) :
    ∃ d rest, cs = '.' :: d :: rest ∧ DecimalDigit.isDigit d = true ∧
      n = 2 + run DecimalDigit.isDigit rest := by
  unfold fraction? at h
  split at h
  · next d rest =>
    obtain ⟨hd, heq⟩ := Option.ite_none_right_eq_some.mp h
    cases heq
    exact ⟨d, rest, rfl, hd, rfl⟩
  · cases h

theorem Splits.fraction?_append {y v v' : List Char} (hv : Splits v v')
    (hn : ∀ n, fraction? (y ++ v) = some n → n ≤ y.length) :
    fraction? (y ++ v') = fraction? (y ++ v) := by
  have hnone (hy : y.length < 2) : fraction? (y ++ v) = none := by
    cases h : fraction? (y ++ v) with
    | none => rfl
    | some n =>
      obtain ⟨_, _, -, -, rfl⟩ := exists_of_fraction? h
      have hle := hn _ h
      omega
  obtain ⟨c, rest, rfl, hc⟩ := hv.breaks
  rcases y with _ | ⟨point, _ | ⟨d, y⟩⟩
  · rw [hnone (by simp), List.nil_append, fraction?_cons]
    rintro rfl
    cases hc
  · rw [hnone (by simp), List.singleton_append]
    by_cases hpoint : point = '.'
    · rw [hpoint, fraction?_point (isDigit_of_isBreak hc)]
    · rw [fraction?_cons hpoint]
  · by_cases hpoint : point = '.'
    · subst hpoint
      simp only [List.cons_append, fraction?, List.length_cons] at hn ⊢
      split
      · next hd =>
        have hle := hn _ (if_pos hd)
        have hstop : run DecimalDigit.isDigit v = 0 → run DecimalDigit.isDigit (c :: rest) = 0 :=
          fun _ => run_break hv.breaks fun _ => isDigit_of_isBreak
        rw [run_append (by omega) hstop]
      · rfl
    · simp only [List.cons_append, fraction?_cons hpoint]

theorem Splits.number_append {x v v' : List Char} (hv : Splits v v')
    (hn : (number (x ++ v)).2 ≤ x.length) : number (x ++ v') = number (x ++ v) := by
  have hdigits : run DecimalDigit.isDigit v = 0 → run DecimalDigit.isDigit v' = 0 :=
    fun _ => run_break hv.breaks fun _ => isDigit_of_isBreak
  have hwhole : run DecimalDigit.isDigit (x ++ v) ≤ x.length := by
    refine Nat.le_trans ?_ hn
    rw [number_eq]
    split <;> simp only <;> omega
  rw [number_eq] at hn
  rw [number_eq, number_eq, run_append hwhole hdigits, List.drop_append_of_le_length hwhole,
    List.drop_append_of_le_length hwhole, hv.fraction?_append]
  intro n h
  rw [List.drop_append_of_le_length hwhole, h] at hn
  simp only [List.length_drop] at hn ⊢
  omega

theorem mark?_cases {c : Char} {cs : List Char} {kind : Terminal} {n : Nat}
    (h : mark? c cs = some (kind, n)) :
    (∃ d rest, cs = d :: rest ∧ Terminal.ofPair? c d = some kind ∧ n = 1) ∨
      (Terminal.ofChar? c = some kind ∧ n = 0) := by
  unfold mark? at h
  split at h
  · next kind' hpair =>
    cases h
    obtain ⟨d, hhead, hd⟩ := Option.bind_eq_some_iff.mp hpair
    obtain ⟨rest, hcs⟩ := List.head?_eq_some_iff.mp hhead
    exact .inl ⟨d, rest, hcs, hd, rfl⟩
  · obtain ⟨kind', hchar, heq⟩ := Option.map_eq_some_iff.mp h
    cases heq
    exact .inr ⟨hchar, rfl⟩

theorem Splits.mark?_append {c : Char} {x v v' : List Char} {kind : Terminal} {n : Nat}
    (hv : Splits v v') (h : mark? c (x ++ v) = some (kind, n)) (hn : n ≤ x.length) :
    mark? c (x ++ v') = some (kind, n) := by
  rcases x with _ | ⟨d, x⟩
  · obtain ⟨d, rest, rfl, hd⟩ := hv.breaks
    have hnone : ((([] : List Char) ++ d :: rest).head?.bind (Terminal.ofPair? c)) = none :=
      ofPair?_of_isBreak c hd
    rcases mark?_cases h with ⟨_, _, -, -, rfl⟩ | ⟨hchar, rfl⟩
    · simp at hn
    · rw [mark?, hnone, hchar]
      rfl
  · exact h

theorem first?_quote (cs : List Char) :
    first? '"' cs = (stringEnd? cs).map (.token .stringLit, ·) := by
  have hdigit : DecimalDigit.isDigit '"' = false := by decide
  simp [first?, isBlank, isWordStart, hdigit]

theorem first?_mark {c : Char} (hblank : isBlank c = false) (hword : isWordStart c = false)
    (hdigit : DecimalDigit.isDigit c = false) (hquote : c ≠ '"') (cs : List Char) :
    first? c cs =
      match (if c == '/' then comment? cs else none) with
      | some n => some (.ignored, n)
      | none => (mark? c cs).map fun (kind, n) => (.token kind, n) := by
  have hquote' : ¬ (c == '"') = true := by simpa using hquote
  exact (if_neg (by simp [hblank])).trans ((if_neg (by simp [hword])).trans
    ((if_neg (by simp [hdigit])).trans (if_neg hquote')))

/-- What the class of a first character says of the lexeme that is found. -/
inductive FirstCases (c : Char) : Prop
  | blank (white : isBlank c = true) (found : ∀ cs, first? c cs = some (.ignored, run isBlank cs))
  | word (starts : isWordStart c = true)
      (found : ∀ cs, first? c cs =
        some (.token (.ofWord (c :: cs.take (run isWordPart cs))), run isWordPart cs))
  | number (digit : DecimalDigit.isDigit c = true)
      (found : ∀ cs, first? c cs = some (.token (number cs).1, (number cs).2))
  | quote (opens : c = '"')
      (found : ∀ cs, first? c cs = (stringEnd? cs).map (.token .stringLit, ·))
  | other (others : isBlank c = false ∧ isWordStart c = false ∧ DecimalDigit.isDigit c = false)
      (found : ∀ cs, first? c cs =
        match (if c == '/' then comment? cs else none) with
        | some n => some (.ignored, n)
        | none => (mark? c cs).map fun (kind, n) => (.token kind, n))

theorem firstCases (c : Char) : FirstCases c := by
  cases hblank : isBlank c with
  | true => exact .blank hblank fun cs => by rw [first?, if_pos hblank]
  | false =>
  cases hword : isWordStart c with
  | true => exact .word hword fun cs => by simp [first?, hblank, hword]
  | false =>
  cases hdigit : DecimalDigit.isDigit c with
  | true => exact .number hdigit fun cs => by simp [first?, hblank, hword, hdigit]
  | false =>
  by_cases hquote : c = '"'
  · subst hquote
    exact .quote rfl first?_quote
  · exact .other ⟨hblank, hword, hdigit⟩ (first?_mark hblank hword hdigit hquote)

/-- Where no lexeme is found, the first character is none of white space, a word or a number: these
are lexemes whatever follows. -/
theorem classes_of_first? {c : Char} {cs : List Char} (h : first? c cs = none) :
    isBlank c = false ∧ isWordStart c = false ∧ DecimalDigit.isDigit c = false := by
  cases firstCases c with
  | blank _ hfound | word _ hfound | number _ hfound =>
    rw [hfound] at h
    cases h
  | quote hc _ =>
    subst hc
    decide
  | other hothers _ => exact hothers

/-- The lexeme at the start of a text, white space apart, is the same afterwards if it ends before
the place, or at the place and is no comment. -/
theorem Splits.first?_append {c : Char} {x v v' : List Char} {cls : LexemeClass} {n : Nat}
    (hv : Splits v v') (hblank : isBlank c = false) (h : first? c (x ++ v) = some (cls, n))
    (hn : n ≤ x.length)
    (hcomments : cls = .ignored → comment? (x ++ v) = some n → comment? (x ++ v') = some n) :
    first? c (x ++ v') = some (cls, n) := by
  cases firstCases c with
  | blank hc =>
    rw [hblank] at hc
    cases hc
  | word _ hfound =>
    rw [hfound] at h ⊢
    cases h
    have hstop : run isWordPart v = 0 → run isWordPart v' = 0 :=
      fun _ => run_break hv.breaks fun _ => isWordPart_of_isBreak
    rw [run_append hn hstop, List.take_append_of_le_length hn, List.take_append_of_le_length hn]
  | number _ hfound =>
    rw [hfound] at h ⊢
    cases h
    rw [hv.number_append hn]
  | quote _ hfound =>
    rw [hfound] at h ⊢
    obtain ⟨m, hm, heq⟩ := Option.map_eq_some_iff.mp h
    cases heq
    rw [stringEnd?_append hm hn]
    rfl
  | other _ hfound =>
    rw [hfound] at h ⊢
    cases hcomment : (if c == '/' then comment? (x ++ v) else none) with
    | some m =>
      rw [hcomment] at h
      cases h
      obtain ⟨hslash, hm⟩ := Option.ite_none_right_eq_some.mp hcomment
      rw [if_pos hslash, hcomments rfl hm]
    | none =>
      have hnone : (if c == '/' then comment? (x ++ v') else none) = none := by
        split at hcomment
        · next hslash => rw [if_pos hslash, hv.comment?_eq_none hcomment]
        · next hslash => rw [if_neg hslash]
      rw [hcomment] at h
      rw [hnone]
      obtain ⟨⟨kind, m⟩, hm, heq⟩ := Option.map_eq_some_iff.mp h
      cases heq
      rw [hv.mark?_append hm hn]
      rfl

/-- The lexeme at the start of a text, white space apart, is the same afterwards if it ends before
the place. -/
theorem Replaces.first?_append {c : Char} {x v v' : List Char} {cls : LexemeClass} {n : Nat}
    (hv : Replaces v v') (hblank : isBlank c = false) (h : first? c (x ++ v) = some (cls, n))
    (hn : n ≤ x.length) : first? c (x ++ v') = some (cls, n) :=
  hv.splits.first?_append hblank h hn fun _ hcomment => hv.comment?_append hcomment hn

/-! ## Tokens stand on one line -/

theorem not_mem_take_run {p : Char → Bool} (hp : p '\n' = false) (cs : List Char) :
    '\n' ∉ cs.take (run p cs) := by
  intro h
  rw [of_mem_take_run h] at hp
  cases hp

theorem not_mem_of_fraction? {cs : List Char} {n : Nat} (h : fraction? cs = some n) :
    '\n' ∉ cs.take n := by
  obtain ⟨d, rest, rfl, hd, rfl⟩ := exists_of_fraction? h
  have hd' : '\n' ≠ d := by
    rintro rfl
    exact absurd hd (by decide)
  have hrest := @not_mem_take_run DecimalDigit.isDigit (by decide) rest
  simp [Nat.add_comm 2, hd', hrest]

theorem not_mem_take_number (cs : List Char) : '\n' ∉ cs.take (number cs).2 := by
  have hwhole := @not_mem_take_run DecimalDigit.isDigit (by decide) cs
  rw [number_eq]
  split
  · next n hn =>
    rw [List.take_add, List.mem_append, not_or]
    exact ⟨hwhole, not_mem_of_fraction? hn⟩
  · exact hwhole

theorem not_mem_of_mark? {c : Char} {cs : List Char} {kind : Terminal} {n : Nat}
    (h : mark? c cs = some (kind, n)) : '\n' ∉ cs.take n := by
  rcases mark?_cases h with ⟨d, rest, rfl, hd, rfl⟩ | ⟨-, rfl⟩
  · have hd' : '\n' ≠ d := by
      rintro rfl
      rw [ofPair?_of_isBreak c (by decide)] at hd
      cases hd
    simp [hd']
  · simp

theorem not_mem_of_first? {c : Char} {cs : List Char} {kind : Terminal} {n : Nat}
    (h : first? c cs = some (.token kind, n)) : '\n' ∉ c :: cs.take n := by
  have hc : '\n' ≠ c := by
    rintro rfl
    cases h
  rw [List.mem_cons, not_or]
  refine ⟨hc, ?_⟩
  cases firstCases c with
  | blank _ hfound =>
    rw [hfound] at h
    cases h
  | word _ hfound =>
    rw [hfound] at h
    cases h
    exact not_mem_take_run (by decide) cs
  | number _ hfound =>
    rw [hfound] at h
    cases h
    exact not_mem_take_number cs
  | quote _ hfound =>
    rw [hfound] at h
    obtain ⟨m, hm, heq⟩ := Option.map_eq_some_iff.mp h
    cases heq
    exact not_mem_of_stringEnd? hm
  | other _ hfound =>
    rw [hfound] at h
    split at h
    · cases h
    · obtain ⟨⟨kind, m⟩, hm, heq⟩ := Option.map_eq_some_iff.mp h
      cases heq
      exact not_mem_of_mark? hm

/-! ## Semicolons and closing braces -/

theorem isBoundary_ofWord (word : List Char) : (Terminal.ofWord word).isBoundary = false := by
  cases h : Terminal.keywords.lookup word with
  | none => simp [Terminal.ofWord, h, Terminal.isBoundary]
  | some kind =>
    have hall : ∀ entry ∈ Terminal.keywords, entry.2.isBoundary = false := by decide
    obtain ⟨before, after, hentry, -⟩ := List.lookup_eq_some_iff.mp h
    simpa [Terminal.ofWord, h] using hall (word, kind) (by simp [hentry])

theorem isBoundary_number (cs : List Char) : (number cs).1.isBoundary = false := by
  rw [number_eq]
  split <;> rfl

theorem not_isBoundary_ofPair? {c d : Char} {kind : Terminal}
    (h : Terminal.ofPair? c d = some kind) : kind.isBoundary = false := by
  unfold Terminal.ofPair? at h
  split at h <;> cases h <;> rfl

theorem eq_of_ofChar? {c : Char} {kind : Terminal} (h : Terminal.ofChar? c = some kind)
    (hkind : kind.isBoundary = true) : c = ';' ∨ c = '\x7d' := by
  unfold Terminal.ofChar? at h
  split at h <;> cases h <;> first | exact .inl rfl | exact .inr rfl | cases hkind

theorem first?_of_isBoundary {c : Char} {cs : List Char} {kind : Terminal} {n : Nat}
    (h : first? c cs = some (.token kind, n)) (hkind : kind.isBoundary = true) :
    n = 0 ∧ (c = ';' ∨ c = '\x7d') := by
  cases firstCases c with
  | blank _ hfound =>
    rw [hfound] at h
    cases h
  | word _ hfound =>
    rw [hfound] at h
    cases h
    rw [isBoundary_ofWord] at hkind
    cases hkind
  | number _ hfound =>
    rw [hfound] at h
    cases h
    rw [isBoundary_number] at hkind
    cases hkind
  | quote _ hfound =>
    rw [hfound] at h
    obtain ⟨m, -, heq⟩ := Option.map_eq_some_iff.mp h
    cases heq
    cases hkind
  | other _ hfound =>
    rw [hfound] at h
    split at h
    · cases h
    obtain ⟨⟨kind', m⟩, hm, heq⟩ := Option.map_eq_some_iff.mp h
    cases heq
    rcases mark?_cases hm with ⟨d, rest, -, hd, -⟩ | ⟨hchar, rfl⟩
    · rw [not_isBoundary_ofPair? hd] at hkind
      cases hkind
    · exact ⟨rfl, eq_of_ofChar? hchar hkind⟩

theorem first?_semicolon (cs : List Char) : first? ';' cs = some (.token .semicolon, 0) := by
  have hdigit : DecimalDigit.isDigit ';' = false := by decide
  have hpair : cs.head?.bind (Terminal.ofPair? ';') = none := by
    cases cs <;> simp [Terminal.ofPair?]
  simp [first?, isBlank, isWordStart, hdigit, mark?, hpair, Terminal.ofChar?]

theorem first?_rbrace (cs : List Char) : first? '\x7d' cs = some (.token .rbrace, 0) := by
  have hdigit : DecimalDigit.isDigit '\x7d' = false := by decide
  have hpair : cs.head?.bind (Terminal.ofPair? '\x7d') = none := by
    cases cs <;> simp [Terminal.ofPair?]
  simp [first?, isBlank, isWordStart, hdigit, mark?, hpair, Terminal.ofChar?]

end Lexeme

end Sema
