import Sema.Proofs.Lexical.Lexemes

/-!
# The languages of the lexemes

Which texts are tokens of which kind (`Terminal.Spells`) and which are ignored
(`LexemeClass.Spells`), said without a look at what follows them. The lexeme at the start of a text
is one of these texts, and the longest one: no token of any kind that the text starts with is
longer than the token that is found (`longest_of_first?`), a comment is found wherever one starts
and ends where it first can (`ignored_of_first?`), and no lexeme is missed (`not_prefix_of_first?`).
-/

namespace Sema

namespace Terminal

/-- The operators and punctuation marks, each with its text. -/
def marks : List (List Char × Terminal) :=
  [("||".toList, or), ("&&".toList, and), ("==".toList, eq), ("!=".toList, ne), ("<=".toList, le),
    (">=".toList, ge), ("<".toList, lt), (">".toList, gt), ("+".toList, plus), ("-".toList, minus),
    ("*".toList, star), ("/".toList, slash), ("!".toList, bang), ("=".toList, equal),
    (";".toList, semicolon), (",".toList, comma), ("(".toList, lpar), (")".toList, rpar),
    ("\x7b".toList, lbrace), ("\x7d".toList, rbrace)]

/-- What may stand between the quotes of a string: a backslash takes the next character with it. -/
inductive StringBody : List Char → Prop
  | nil : StringBody []
  | plain {c : Char} {cs : List Char} (quote : c ≠ '"') (escape : c ≠ '\\') (line : c ≠ '\n')
      (rest : StringBody cs) : StringBody (c :: cs)
  | escape {c : Char} {cs : List Char} (line : c ≠ '\n') (rest : StringBody cs) :
      StringBody ('\\' :: c :: cs)

/-- The texts of the tokens of a kind. -/
inductive Spells : Terminal → List Char → Prop
  | keyword {cs : List Char} {kind : Terminal} (mem : (cs, kind) ∈ keywords) : Spells kind cs
  | mark {cs : List Char} {kind : Terminal} (mem : (cs, kind) ∈ marks) : Spells kind cs
  | name {c : Char} {cs : List Char} (start : Lexeme.isWordStart c = true)
      (rest : ∀ d ∈ cs, Lexeme.isWordPart d = true) : Spells .name (c :: cs)
  | intLit {c : Char} {cs : List Char} (digits : ∀ d ∈ c :: cs, DecimalDigit.isDigit d = true) :
      Spells .intLit (c :: cs)
  | floatLit {c d : Char} {cs ds : List Char}
      (whole : ∀ e ∈ c :: cs, DecimalDigit.isDigit e = true)
      (fraction : ∀ e ∈ d :: ds, DecimalDigit.isDigit e = true) :
      Spells .floatLit (c :: cs ++ '.' :: d :: ds)
  | stringLit {cs : List Char} (body : StringBody cs) : Spells .stringLit ('"' :: (cs ++ ['"']))

end Terminal

namespace Lexeme

def Blanks (cs : List Char) : Prop :=
  cs ≠ [] ∧ ∀ c ∈ cs, isBlank c = true

def LineComment (cs : List Char) : Prop :=
  ∃ body, cs = '/' :: '/' :: body ∧ '\n' ∉ body

def BlockComment (cs : List Char) : Prop :=
  ∃ body, cs = '/' :: '*' :: (body ++ commentEnd)

end Lexeme

/-- The texts of the lexemes of a class. -/
def LexemeClass.Spells : LexemeClass → List Char → Prop
  | token kind, cs => kind.Spells cs
  | ignored, cs => Lexeme.Blanks cs ∨ Lexeme.LineComment cs ∨ Lexeme.BlockComment cs

namespace Lexeme

open Terminal (Spells StringBody)

/-- Whether a text starts with a comment: `//` always starts one, and `/*` does if `*/` comes after
these two characters. -/
def StartsComment (cs : List Char) : Prop :=
  (∃ rest, cs = '/' :: '/' :: rest) ∨ ∃ rest, cs = '/' :: '*' :: rest ∧ commentEnd <:+: rest

/-! ## Classes of characters -/

theorem isDigit_of_isWordStart {c : Char} (h : isWordStart c = true) :
    DecimalDigit.isDigit c = false := by
  simp only [isWordStart] at h
  delta Char.isAlpha Char.isUpper Char.isLower at h
  simp only [Bool.or_eq_true, Bool.and_eq_true, decide_eq_true_eq, beq_iff_eq, ge_iff_le,
    UInt32.le_iff_toNat_le] at h
  change ((65 ≤ c.toNat ∧ c.toNat ≤ 90) ∨ (97 ≤ c.toNat ∧ c.toNat ≤ 122)) ∨ c = '_' at h
  have hcode : 58 ≤ c.toNat ∧ c.toNat < 128 := by
    rcases h with h | rfl
    · omega
    · decide
  have hzeros : ∀ z ∈ DecimalDigit.zeros, z = 48 ∨ 128 ≤ z := by decide
  have hnone : DecimalDigit.zeros.find? (fun z => z ≤ c.toNat && c.toNat < z + 10) = none := by
    rw [List.find?_eq_none]
    intro z hz
    have hz' := hzeros z hz
    simp only [Bool.and_eq_true, decide_eq_true_eq]
    omega
  simp [DecimalDigit.isDigit, DecimalDigit.value?, hnone]

theorem isWordPart_of_isWordStart {c : Char} (h : isWordStart c = true) : isWordPart c = true := by
  simp only [isWordStart, Bool.or_eq_true] at h
  simp only [isWordPart, Char.isAlphanum, Bool.or_eq_true]
  exact h.imp_left .inl

/-- The characters with which an operator or a punctuation mark starts. -/
def isMarkStart (c : Char) : Bool :=
  Terminal.marks.any fun entry => entry.1.head? == some c

theorem classes_of_isMarkStart {c : Char} (h : isMarkStart c = true) :
    isBlank c = false ∧ isWordStart c = false ∧ DecimalDigit.isDigit c = false ∧ c ≠ '"' := by
  obtain ⟨entry, hentry, hhead⟩ := List.any_eq_true.mp h
  -- characters are gone through with `all` and `any`: a quantifier would range over all there are
  have hall : ∀ entry ∈ Terminal.marks, (entry.1.head?.all fun c =>
      !isBlank c && !isWordStart c && !DecimalDigit.isDigit c && c != '"') = true := by
    decide +kernel
  have hclasses := hall entry hentry
  rw [eq_of_beq hhead] at hclasses
  simpa [and_assoc] using hclasses

theorem isMarkStart_of_mem {c : Char} {cs : List Char} {kind : Terminal}
    (h : (c :: cs, kind) ∈ Terminal.marks) : isMarkStart c = true :=
  List.any_eq_true.mpr ⟨_, h, by simp⟩

theorem word_of_mem_keywords {cs : List Char} {kind : Terminal}
    (h : (cs, kind) ∈ Terminal.keywords) :
    ∃ c rest, cs = c :: rest ∧ isWordStart c = true ∧ ∀ d ∈ cs, isWordPart d = true := by
  have hall : ∀ entry ∈ Terminal.keywords,
      entry.1.head?.any isWordStart = true ∧ entry.1.all isWordPart = true := by decide +kernel
  obtain ⟨hstart, hparts⟩ := hall _ h
  obtain ⟨c, hhead, hc⟩ := (Option.any_eq_true _ _).mp hstart
  obtain ⟨rest, rfl⟩ := List.head?_eq_some_iff.mp hhead
  exact ⟨c, rest, rfl, hc, List.all_eq_true.mp hparts⟩

/-! ## Marks -/

theorem exists_of_mem_marks {cs : List Char} {kind : Terminal} (h : (cs, kind) ∈ Terminal.marks) :
    (∃ c, cs = [c] ∧ Terminal.ofChar? c = some kind) ∨
      ∃ c d, cs = [c, d] ∧ Terminal.ofPair? c d = some kind := by
  have hall : ∀ entry ∈ Terminal.marks,
      (entry.1.any fun c => entry.1 = [c] ∧ Terminal.ofChar? c = some entry.2) = true ∨
        (entry.1.any fun c => entry.1.any fun d =>
          entry.1 = [c, d] ∧ Terminal.ofPair? c d = some entry.2) = true := by
    decide +kernel
  rcases hall _ h with hchar | hpair
  · obtain ⟨c, -, hc⟩ := List.any_eq_true.mp hchar
    exact .inl ⟨c, of_decide_eq_true hc⟩
  · obtain ⟨c, -, hc⟩ := List.any_eq_true.mp hpair
    obtain ⟨d, -, hd⟩ := List.any_eq_true.mp hc
    exact .inr ⟨c, d, of_decide_eq_true hd⟩

theorem mem_marks_of_ofChar? {c : Char} {kind : Terminal} (h : Terminal.ofChar? c = some kind) :
    ([c], kind) ∈ Terminal.marks := by
  unfold Terminal.ofChar? at h
  split at h <;> cases h <;> decide

theorem mem_marks_of_ofPair? {c d : Char} {kind : Terminal}
    (h : Terminal.ofPair? c d = some kind) : ([c, d], kind) ∈ Terminal.marks := by
  unfold Terminal.ofPair? at h
  split at h <;> cases h <;> decide

theorem mem_marks_of_mark? {c : Char} {cs : List Char} {kind : Terminal} {n : Nat}
    (h : mark? c cs = some (kind, n)) : (c :: cs.take n, kind) ∈ Terminal.marks := by
  rcases mark?_cases h with ⟨d, rest, rfl, hd, rfl⟩ | ⟨hchar, rfl⟩
  · exact mem_marks_of_ofPair? hd
  · exact mem_marks_of_ofChar? hchar

theorem exists_mark?_of_mem {c : Char} {cs m : List Char} {kind : Terminal}
    (h : (m, kind) ∈ Terminal.marks) (hm : m <+: c :: cs) :
    ∃ kind' n, mark? c cs = some (kind', n) ∧ m.length ≤ n + 1 := by
  rcases exists_of_mem_marks h with ⟨d, rfl, hchar⟩ | ⟨d, e, rfl, hpair⟩
  · obtain ⟨rfl, -⟩ := List.cons_prefix_cons.mp hm
    unfold mark?
    split
    · exact ⟨_, _, rfl, by simp⟩
    · exact ⟨kind, 0, by rw [hchar]; rfl, by simp⟩
  · obtain ⟨rfl, rest, rfl⟩ := List.cons_prefix_cons.mp hm
    refine ⟨kind, 1, ?_, by simp⟩
    have hhead : (([e] ++ rest).head?.bind (Terminal.ofPair? d)) = some kind := hpair
    rw [mark?, hhead]

/-! ## Runs -/

theorem length_le_run {p : Char → Bool} {m cs : List Char} (hm : ∀ c ∈ m, p c = true)
    (h : m <+: cs) : m.length ≤ run p cs := by
  obtain ⟨rest, rfl⟩ := h
  rw [run, List.takeWhile_append_of_pos hm, List.length_append]
  omega

theorem run_append_cons {p : Char → Bool} {m rest : List Char} {d : Char}
    (hm : ∀ c ∈ m, p c = true) (hd : p d = false) : run p (m ++ d :: rest) = m.length := by
  rw [run, List.takeWhile_append_of_pos hm, List.takeWhile_cons_of_neg (by simp [hd]),
    List.append_nil]

theorem head?_drop_run {p : Char → Bool} {cs : List Char} {c : Char}
    (h : (cs.drop (run p cs)).head? = some c) : p c = false := by
  induction cs with
  | nil => simp at h
  | cons d cs ih =>
    rw [run_cons] at h
    split at h
    · exact ih h
    · next hd =>
      obtain rfl : d = c := by simpa using h
      simpa using hd

/-! ## Strings -/

theorem stringEnd?_body {body : List Char} (h : StringBody body) (rest : List Char) :
    stringEnd? (body ++ '"' :: rest) = some (body.length + 1) := by
  induction h with
  | nil => simp [stringEnd?]
  | plain hquote hescape hline _ ih =>
    rw [List.cons_append, stringEnd?_cons hquote hline hescape, ih]
    rfl
  | escape hline _ ih =>
    rw [List.cons_append, List.cons_append, stringEnd?_escape hline, ih]
    rfl

theorem exists_body {cs : List Char} {n : Nat} (h : stringEnd? cs = some n) :
    ∃ body, StringBody body ∧ cs.take n = body ++ ['"'] := by
  fun_induction stringEnd? cs generalizing n with
  | case1 | case3 | case4 | case5 => cases h
  | case2 rest =>
    cases h
    exact ⟨[], .nil, rfl⟩
  | case6 c rest hc ih =>
    obtain ⟨m, hm, rfl⟩ := Option.map_eq_some_iff.mp h
    obtain ⟨body, hbody, htake⟩ := ih hm
    exact ⟨_, .escape hc hbody, by rw [List.take_succ_cons, List.take_succ_cons, htake]; rfl⟩
  | case7 c rest hquote hline hlast _ hescape ih =>
    obtain ⟨m, hm, rfl⟩ := Option.map_eq_some_iff.mp h
    obtain ⟨body, hbody, htake⟩ := ih hm
    have hc : c ≠ '\\' := by
      rintro rfl
      rcases rest with _ | ⟨d, rest⟩
      · exact hlast rfl rfl
      · exact hescape d rest rfl rfl
    exact ⟨_, .plain hquote hc hline hbody, by rw [List.take_succ_cons, htake]; rfl⟩

/-! ## Comments -/

theorem first_of_blockEnd? {cs : List Char} {n : Nat} (h : blockEnd? cs = some n) :
    (∃ body, cs.take n = body ++ commentEnd) ∧
      ∀ body, body ++ commentEnd <+: cs → n ≤ body.length + 2 := by
  fun_induction blockEnd? cs generalizing n with
  | case1 => cases h
  | case2 rest =>
    cases h
    exact ⟨⟨[], rfl⟩, fun body _ => Nat.le_add_left ..⟩
  | case3 c rest hnot ih =>
    obtain ⟨m, hm, rfl⟩ := Option.map_eq_some_iff.mp h
    obtain ⟨⟨body, htake⟩, hfirst⟩ := ih hm
    refine ⟨⟨c :: body, by rw [List.take_succ_cons, htake]; rfl⟩, fun body' hbody' => ?_⟩
    rcases body' with _ | ⟨d, body'⟩
    · obtain ⟨rest', heq⟩ := hbody'
      simp only [commentEnd, List.nil_append, List.cons_append, List.cons.injEq] at heq
      exact absurd heq.2.symm (hnot rest' heq.1.symm)
    · have hle := hfirst body' (List.cons_prefix_cons.mp hbody').2
      simp only [List.length_cons]
      omega

theorem comment?_eq_none_iff {cs : List Char} :
    comment? cs = none ↔ ¬StartsComment ('/' :: cs) := by
  unfold comment? StartsComment
  split
  · simp
  · next rest => simp [blockEnd?_eq_none_iff]
  · next hslash hstar =>
    refine iff_of_true rfl ?_
    rintro (⟨rest, heq⟩ | ⟨rest, heq, -⟩)
    · exact hslash rest (List.cons.inj heq).2
    · exact hstar rest (List.cons.inj heq).2

/-! ## Tokens -/

theorem token_cases {c : Char} {cs : List Char} {kind : Terminal} {n : Nat}
    (h : first? c cs = some (.token kind, n)) :
    (isWordStart c = true ∧ kind = .ofWord (c :: cs.take n) ∧ n = run isWordPart cs) ∨
      (DecimalDigit.isDigit c = true ∧ number cs = (kind, n)) ∨
      (c = '"' ∧ kind = .stringLit ∧ stringEnd? cs = some n) ∨
      (isMarkStart c = true ∧ mark? c cs = some (kind, n) ∧ (c = '/' → comment? cs = none)) := by
  cases firstCases c with
  | blank _ hfound =>
    rw [hfound] at h
    cases h
  | word hc hfound =>
    rw [hfound] at h
    cases h
    exact .inl ⟨hc, rfl, rfl⟩
  | number hc hfound =>
    rw [hfound] at h
    cases h
    exact .inr (.inl ⟨hc, rfl⟩)
  | quote hc hfound =>
    rw [hfound] at h
    obtain ⟨m, hm, heq⟩ := Option.map_eq_some_iff.mp h
    cases heq
    exact .inr (.inr (.inl ⟨hc, rfl, hm⟩))
  | other _ hfound =>
    rw [hfound] at h
    split at h
    · cases h
    · next hcomment =>
      obtain ⟨⟨kind', m⟩, hm, heq⟩ := Option.map_eq_some_iff.mp h
      cases heq
      refine .inr (.inr (.inr ⟨isMarkStart_of_mem (mem_marks_of_mark? hm), hm, ?_⟩))
      rintro rfl
      exact hcomment

theorem spells_of_first? {c : Char} {cs : List Char} {kind : Terminal} {n : Nat}
    (h : first? c cs = some (.token kind, n)) : kind.Spells (c :: cs.take n) := by
  rcases token_cases h with ⟨hc, rfl, rfl⟩ | ⟨hc, hnumber⟩ | ⟨rfl, rfl, hn⟩ | ⟨-, hmark, -⟩
  · cases hlookup : Terminal.keywords.lookup (c :: cs.take (run isWordPart cs)) with
    | none =>
      rw [Terminal.ofWord, hlookup]
      exact .name hc fun d hd => of_mem_take_run hd
    | some kind =>
      obtain ⟨before, after, hentry, -⟩ := List.lookup_eq_some_iff.mp hlookup
      rw [Terminal.ofWord, hlookup]
      exact .keyword (by rw [hentry]; simp)
  · have hwhole : ∀ d ∈ c :: cs.take (run DecimalDigit.isDigit cs), DecimalDigit.isDigit d = true :=
      List.forall_mem_cons.mpr ⟨hc, fun d hd => of_mem_take_run hd⟩
    rw [number_eq] at hnumber
    split at hnumber
    · next m hm =>
      cases hnumber
      obtain ⟨d, rest, hdrop, hd, rfl⟩ := exists_of_fraction? hm
      have hfraction : ∀ e ∈ d :: rest.take (run DecimalDigit.isDigit rest),
          DecimalDigit.isDigit e = true :=
        List.forall_mem_cons.mpr ⟨hd, fun e he => of_mem_take_run he⟩
      rw [List.take_add, hdrop, Nat.add_comm 2, List.take_succ_cons, List.take_succ_cons]
      exact .floatLit hwhole hfraction
    · cases hnumber
      exact .intLit hwhole
  · obtain ⟨body, hbody, htake⟩ := exists_body hn
    rw [htake]
    exact .stringLit hbody
  · exact .mark (mem_marks_of_mark? hmark)

theorem le_length_of_stringEnd? {cs : List Char} {n : Nat} (h : stringEnd? cs = some n) :
    n ≤ cs.length := by
  fun_induction stringEnd? cs generalizing n with
  | case1 | case3 | case4 | case5 => cases h
  | case2 rest =>
    cases h
    simp
  | case6 c rest _ ih =>
    obtain ⟨m, hm, rfl⟩ := Option.map_eq_some_iff.mp h
    exact Nat.succ_le_succ (Nat.succ_le_succ (ih hm))
  | case7 c rest _ _ _ _ _ ih =>
    obtain ⟨m, hm, rfl⟩ := Option.map_eq_some_iff.mp h
    exact Nat.succ_le_succ (ih hm)

theorem run_le_length (p : Char → Bool) (cs : List Char) : run p cs ≤ cs.length :=
  (List.takeWhile_prefix p).length_le

theorem number_le_length (cs : List Char) : (number cs).2 ≤ cs.length := by
  have hwhole := run_le_length DecimalDigit.isDigit cs
  have hdrop := List.length_drop (i := run DecimalDigit.isDigit cs) (l := cs)
  rw [number_eq]
  split
  · next n hn =>
    obtain ⟨d, rest, hrest, -, rfl⟩ := exists_of_fraction? hn
    have hfraction := run_le_length DecimalDigit.isDigit rest
    rw [hrest, List.length_cons, List.length_cons] at hdrop
    show run DecimalDigit.isDigit cs + (2 + run DecimalDigit.isDigit rest) ≤ cs.length
    omega
  · exact hwhole

theorem le_length_of_first? {c : Char} {cs : List Char} {kind : Terminal} {n : Nat}
    (h : first? c cs = some (.token kind, n)) : n ≤ cs.length := by
  rcases token_cases h with ⟨-, -, rfl⟩ | ⟨-, hnumber⟩ | ⟨-, -, hn⟩ | ⟨-, hmark, -⟩
  · exact run_le_length _ cs
  · rw [show n = (number cs).2 by rw [hnumber]]
    exact number_le_length cs
  · exact le_length_of_stringEnd? hn
  · rcases mark?_cases hmark with ⟨d, rest, rfl, -, rfl⟩ | ⟨-, rfl⟩
    · simp
    · exact Nat.zero_le _

theorem not_startsComment_of_first? {c : Char} {cs : List Char} {kind : Terminal} {n : Nat}
    (h : first? c cs = some (.token kind, n)) : ¬StartsComment (c :: cs) := by
  by_cases hslash : c = '/'
  · subst hslash
    have hdigit : DecimalDigit.isDigit '/' = false := by decide
    rcases token_cases h with ⟨hc, -⟩ | ⟨hc, -⟩ | ⟨hc, -⟩ | ⟨-, -, hcomment⟩
    · cases hc
    · rw [hdigit] at hc
      cases hc
    · cases hc
    · exact comment?_eq_none_iff.mp (hcomment rfl)
  · rintro (⟨rest, heq⟩ | ⟨rest, heq, -⟩)
    · exact hslash (List.cons.inj heq).1
    · exact hslash (List.cons.inj heq).1

/-! ## The longest match -/

section Longest

variable {c : Char} {cs m : List Char} {kind : Terminal}

theorem cases_of_spells (h : kind.Spells m) (hm : m <+: c :: cs) :
    (isWordStart c = true ∧ ∀ d ∈ m, isWordPart d = true) ∨
      (DecimalDigit.isDigit c = true ∧ ((∀ d ∈ m, DecimalDigit.isDigit d = true) ∨
        ∃ whole d ds, m = c :: whole ++ '.' :: d :: ds ∧
          (∀ e ∈ whole, DecimalDigit.isDigit e = true) ∧
          ∀ e ∈ d :: ds, DecimalDigit.isDigit e = true)) ∨
      (c = '"' ∧ ∃ body, StringBody body ∧ m = '"' :: (body ++ ['"'])) ∨
      (isMarkStart c = true ∧ (m, kind) ∈ Terminal.marks) := by
  cases h with
  | keyword mem =>
    obtain ⟨d, rest, rfl, hd, hparts⟩ := word_of_mem_keywords mem
    obtain ⟨rfl, -⟩ := List.cons_prefix_cons.mp hm
    exact .inl ⟨hd, hparts⟩
  | name start rest =>
    obtain ⟨rfl, -⟩ := List.cons_prefix_cons.mp hm
    exact .inl ⟨start, List.forall_mem_cons.mpr ⟨isWordPart_of_isWordStart start, rest⟩⟩
  | intLit digits =>
    obtain ⟨rfl, -⟩ := List.cons_prefix_cons.mp hm
    exact .inr (.inl ⟨digits _ List.mem_cons_self, .inl digits⟩)
  | floatLit whole fraction =>
    obtain ⟨rfl, -⟩ := List.cons_prefix_cons.mp hm
    obtain ⟨hc, hwhole⟩ := List.forall_mem_cons.mp whole
    exact .inr (.inl ⟨hc, .inr ⟨_, _, _, rfl, hwhole, fraction⟩⟩)
  | stringLit body =>
    obtain ⟨rfl, -⟩ := List.cons_prefix_cons.mp hm
    exact .inr (.inr (.inl ⟨rfl, _, body, rfl⟩))
  | mark mem =>
    rcases m with _ | ⟨d, m⟩
    · rcases exists_of_mem_marks mem with ⟨_, heq, -⟩ | ⟨_, _, heq, -⟩ <;> cases heq
    · obtain ⟨rfl, -⟩ := List.cons_prefix_cons.mp hm
      exact .inr (.inr (.inr ⟨isMarkStart_of_mem mem, mem⟩))

theorem length_le_of_word (hm : m <+: c :: cs) (hc : isWordStart c = true)
    (hparts : ∀ d ∈ m, isWordPart d = true) : m.length ≤ run isWordPart cs + 1 := by
  have hrun := length_le_run hparts hm
  rwa [run_cons, if_pos (isWordPart_of_isWordStart hc)] at hrun

theorem length_le_of_digits (hm : m <+: c :: cs) (hc : DecimalDigit.isDigit c = true)
    (hdigits : ∀ d ∈ m, DecimalDigit.isDigit d = true) : m.length ≤ (number cs).2 + 1 := by
  have hrun := length_le_run hdigits hm
  rw [run_cons, if_pos hc] at hrun
  refine Nat.le_trans hrun (Nat.succ_le_succ ?_)
  rw [number_eq]
  split
  · exact Nat.le_add_right ..
  · exact Nat.le_refl _

theorem length_le_of_fraction {whole ds : List Char} {d : Char}
    (hm : c :: whole ++ '.' :: d :: ds <+: c :: cs)
    (hwhole : ∀ e ∈ whole, DecimalDigit.isDigit e = true)
    (hfraction : ∀ e ∈ d :: ds, DecimalDigit.isDigit e = true) :
    (c :: whole ++ '.' :: d :: ds).length ≤ (number cs).2 + 1 := by
  obtain ⟨hd, hds⟩ := List.forall_mem_cons.mp hfraction
  obtain ⟨rest, hrest⟩ := (List.cons_prefix_cons.mp hm).2
  obtain rfl : whole ++ '.' :: (d :: ds ++ rest) = cs := by simpa using hrest
  have hpoint : run DecimalDigit.isDigit (whole ++ '.' :: (d :: ds ++ rest)) = whole.length :=
    run_append_cons hwhole (by decide)
  have hds := length_le_run hds (List.prefix_append ds rest)
  rw [number_eq, hpoint, List.drop_left]
  simp only [List.cons_append, fraction?, hd, if_pos, List.length_cons, List.length_append]
  omega

/-- No token that a text starts with is longer than the one that is found. -/
theorem longest_of_first? {kind' : Terminal} {n : Nat} (h : first? c cs = some (.token kind', n))
    (hspells : kind.Spells m) (hm : m <+: c :: cs) : m.length ≤ n + 1 := by
  have hother {P : Prop} (hc : isMarkStart c = true)
      (hclass : isWordStart c = true ∨ DecimalDigit.isDigit c = true ∨ c = '"') : P := by
    obtain ⟨-, hword, hdigit, hquote⟩ := classes_of_isMarkStart hc
    simp [hword, hdigit, hquote] at hclass
  have hquote : DecimalDigit.isDigit '"' = false := by decide
  rcases token_cases h with ⟨hc, -, rfl⟩ | ⟨hc, hnumber⟩ | ⟨rfl, -, hn⟩ | ⟨hc, hmark, -⟩
  · rcases cases_of_spells hspells hm with ⟨-, hparts⟩ | ⟨hdigit, -⟩ | ⟨rfl, -⟩ | ⟨hmark, -⟩
    · exact length_le_of_word hm hc hparts
    · rw [isDigit_of_isWordStart hc] at hdigit
      cases hdigit
    · cases hc
    · exact hother hmark (.inl hc)
  · rw [show n = (number cs).2 by rw [hnumber]]
    rcases cases_of_spells hspells hm with ⟨hword, -⟩ | ⟨-, hm'⟩ | ⟨rfl, -⟩ | ⟨hmark, -⟩
    · rw [isDigit_of_isWordStart hword] at hc
      cases hc
    · rcases hm' with hdigits | ⟨whole, d, ds, rfl, hwhole, hfraction⟩
      · exact length_le_of_digits hm hc hdigits
      · exact length_le_of_fraction hm hwhole hfraction
    · rw [hquote] at hc
      cases hc
    · exact hother hmark (.inr (.inl hc))
  · rcases cases_of_spells hspells hm with ⟨hword, -⟩ | ⟨hdigit, -⟩ | ⟨-, body, hbody, rfl⟩ |
      ⟨hmark, -⟩
    · cases hword
    · rw [hquote] at hdigit
      cases hdigit
    · obtain ⟨rest, rfl⟩ := (List.cons_prefix_cons.mp hm).2
      rw [List.append_assoc, List.singleton_append, stringEnd?_body hbody] at hn
      cases hn
      simp
    · exact hother hmark (.inr (.inr rfl))
  · rcases cases_of_spells hspells hm with ⟨hword, -⟩ | ⟨hdigit, -⟩ | ⟨hquote, -⟩ | ⟨-, hmem⟩
    · exact hother hc (.inl hword)
    · exact hother hc (.inr (.inl hdigit))
    · exact hother hc (.inr (.inr hquote))
    · obtain ⟨kind₂, n₂, hmark₂, hle⟩ := exists_mark?_of_mem hmem hm
      rw [hmark] at hmark₂
      cases hmark₂
      exact hle

end Longest

/-! ## What is ignored -/

theorem ends_of_comment? {cs : List Char} {n : Nat} (h : comment? cs = some n) :
    (LineComment ('/' :: cs.take n) ∧ ∀ d ∈ (cs.drop n).head?, d = '\n') ∨
      (BlockComment ('/' :: cs.take n) ∧
        ∀ m, BlockComment m → m <+: '/' :: cs → n + 1 ≤ m.length) := by
  unfold comment? at h
  split at h
  · next rest =>
    cases h
    left
    rw [Nat.add_comm, List.take_succ_cons, List.drop_succ_cons]
    refine ⟨⟨_, rfl, not_mem_take_run (by decide) rest⟩, fun d hd => ?_⟩
    simpa using head?_drop_run hd
  · next rest =>
    obtain ⟨m, hm, rfl⟩ := Option.map_eq_some_iff.mp h
    obtain ⟨⟨body, hbody⟩, hfirst⟩ := first_of_blockEnd? hm
    right
    rw [Nat.add_comm, List.take_succ_cons, hbody]
    refine ⟨⟨body, rfl⟩, ?_⟩
    rintro _ ⟨body', rfl⟩ hpre
    have hle := hfirst body' (List.cons_prefix_cons.mp (List.cons_prefix_cons.mp hpre).2).2
    simp only [List.length_cons, List.length_append, commentEnd, List.length_nil]
    omega
  · cases h

/-- White space is ignored as far as it reaches, and a comment up to where it first can end. -/
theorem ignored_of_first? {c : Char} {cs : List Char} {n : Nat}
    (h : first? c cs = some (.ignored, n)) :
    (Blanks (c :: cs.take n) ∧ ∀ d ∈ (cs.drop n).head?, isBlank d = false) ∨
      (LineComment (c :: cs.take n) ∧ ∀ d ∈ (cs.drop n).head?, d = '\n') ∨
      (BlockComment (c :: cs.take n) ∧
        ∀ m, BlockComment m → m <+: c :: cs → n + 1 ≤ m.length) := by
  cases firstCases c with
  | blank hblank hfound =>
    rw [hfound] at h
    cases h
    refine .inl ⟨⟨List.cons_ne_nil _ _, ?_⟩, fun d hd => head?_drop_run hd⟩
    exact List.forall_mem_cons.mpr ⟨hblank, fun d hd => of_mem_take_run hd⟩
  | word _ hfound | number _ hfound =>
    rw [hfound] at h
    cases h
  | quote _ hfound =>
    rw [hfound] at h
    obtain ⟨_, -, heq⟩ := Option.map_eq_some_iff.mp h
    cases heq
  | other _ hfound =>
    rw [hfound] at h
    split at h
    · next m hcomment =>
      cases h
      obtain ⟨hslash, hcomment⟩ := Option.ite_none_right_eq_some.mp hcomment
      obtain rfl : c = '/' := by simpa using hslash
      exact .inr (ends_of_comment? hcomment)
    · obtain ⟨_, -, heq⟩ := Option.map_eq_some_iff.mp h
      cases heq

/-! ## What is no lexeme -/

/-- Where no lexeme is found, no text starts that is one. -/
theorem not_prefix_of_first? {c : Char} {cs : List Char} (h : first? c cs = none)
    {cls : LexemeClass} {m : List Char} (hm : cls.Spells m) : ¬m <+: c :: cs := by
  intro hpre
  obtain ⟨hblank, hword, hdigit⟩ := classes_of_first? h
  have hmark {m' : List Char} {kind : Terminal} (hmem : (m', kind) ∈ Terminal.marks)
      (hstart : isMarkStart c = true) (hpre' : m' <+: c :: cs) : False := by
    obtain ⟨-, -, -, hquote⟩ := classes_of_isMarkStart hstart
    obtain ⟨kind', n, hfound, -⟩ := exists_mark?_of_mem hmem hpre'
    rw [first?_mark hblank hword hdigit hquote] at h
    split at h
    · cases h
    · rw [hfound] at h
      cases h
  cases cls with
  | token kind =>
    rcases cases_of_spells hm hpre with ⟨hc, -⟩ | ⟨hc, -⟩ | ⟨rfl, body, hbody, rfl⟩ | ⟨hc, hmem⟩
    · rw [hword] at hc
      cases hc
    · rw [hdigit] at hc
      cases hc
    · obtain ⟨rest, rfl⟩ := (List.cons_prefix_cons.mp hpre).2
      rw [first?_quote, List.append_assoc, List.singleton_append, stringEnd?_body hbody] at h
      cases h
    · exact hmark hmem hc hpre
  | ignored =>
    have hslash : c ≠ '/' := by
      rintro rfl
      have hmem : (['/'], Terminal.slash) ∈ Terminal.marks := by decide
      exact hmark hmem (by decide) ⟨cs, rfl⟩
    rcases hm with ⟨hne, hall⟩ | ⟨body, rfl, -⟩ | ⟨body, rfl⟩
    · obtain ⟨d, m, rfl⟩ := List.exists_cons_of_ne_nil hne
      obtain ⟨rfl, -⟩ := List.cons_prefix_cons.mp hpre
      rw [hall d List.mem_cons_self] at hblank
      cases hblank
    · exact hslash (List.cons_prefix_cons.mp hpre).1.symm
    · exact hslash (List.cons_prefix_cons.mp hpre).1.symm

end Lexeme

end Sema
