import Sema.Proofs.Parsing.Outcomes

/-!
# What has been read can be completed

Every stack of the automaton holds the start of a program: the rule in progress in its state has the
newest frames as its first parts (`item_of_next?`), phrases for its other parts exist
(`GrammarSymbol.exists_trees`), and with these the rule makes a phrase that the state below can pass.
Each rule that is ended this way leaves a shorter stack, or a phrase nearer to the program, so in the
end there is a program (`exists_grammatical`).

A token that does not fit after such tokens is thus the first with which they start no program any
more, and strict parsing finds an error at the earliest token at which it can
(`strict_error_earliest`).
-/

namespace Sema

def Grammatical (w : List Token) : Prop :=
  ∃ tree : Tree, tree.Derives (.phrase .program) w

def Token.IsSpelled (t : Token) : Prop :=
  ∃ text, pieces text = [.token t]

/-! ## A phrase of each category -/

def Terminal.sample : Terminal → List Char
  | const => "const".toList | void => "void".toList | int => "int".toList
  | float => "float".toList | double => "double".toList | string => "string".toList
  | ifKw => "if".toList | elseKw => "else".toList | whileKw => "while".toList
  | forKw => "for".toList | returnKw => "return".toList
  | or => "||".toList | and => "&&".toList | eq => "==".toList | ne => "!=".toList
  | le => "<=".toList | ge => ">=".toList | lt => "<".toList | gt => ">".toList
  | plus => "+".toList | minus => "-".toList | star => "*".toList | slash => "/".toList
  | bang => "!".toList | equal => "=".toList | semicolon => ";".toList | comma => ",".toList
  | lpar => "(".toList | rpar => ")".toList | lbrace => "\x7b".toList | rbrace => "\x7d".toList
  | name => "x".toList | floatLit => "1.0".toList | intLit => "1".toList
  | stringLit => "\"\"".toList

theorem Terminal.exists_spelled (kind : Terminal) : ∃ t : Token, t.kind = kind ∧ t.IsSpelled := by
  refine ⟨⟨kind, String.ofList kind.sample, .start, Position.start.advance kind.sample⟩, rfl,
    kind.sample, ?_⟩
  cases kind <;> decide +kernel

/-- How far a symbol is from the program, along the first parts of rules. -/
def GrammarSymbol.height : GrammarSymbol → Nat
  | .terminal _ => 15
  | .phrase c =>
    match c with
    | .program => 0
    | .decls | .stmts => 1
    | .decl | .stmt => 2
    | .varDecl | .funcDef | .exprStmt | .ifStmt | .whileStmt | .forStmt | .returnStmt => 3
    | .block | .params | .paramTail | .forInit | .forCond | .forUpdate | .args | .argTail => 4
    | .varSpec | .param | .expr => 5
    | .typeName | .assign => 6
    | .orExpr => 7
    | .andExpr => 8
    | .eqExpr => 9
    | .relExpr => 10
    | .addExpr => 11
    | .mulExpr => 12
    | .unary => 13
    | .atom => 14

theorem GrammarSymbol.height_le (x : GrammarSymbol) : x.height ≤ 15 := by
  cases x with
  | terminal kind => exact Nat.le_refl _
  | phrase c => cases c <;> decide

/-- A rule of each category, with all phrases among its parts farther from the program. -/
def Category.simplest : Category → Rule
  | program => .programEmpty
  | decls => .declsFirst
  | decl => .declVar
  | varDecl => .varDecl
  | varSpec => .varSpec false false
  | funcDef => .funcDef .absent false
  | params => .paramsOne
  | paramTail => .paramTailFirst
  | param => .param
  | typeName => .typeName .int
  | block => .blockEmpty
  | stmts => .stmtsFirst
  | stmt => .stmt .block
  | exprStmt => .exprStmt
  | ifStmt => .ifThen
  | whileStmt => .whileLoop
  | forStmt => .forLoop
  | forInit => .forInitEmpty
  | forCond => .forCondEmpty
  | forUpdate => .forUpdateEmpty
  | returnStmt => .returnBare
  | expr => .expr
  | assign => .assignNone
  | orExpr => .operand .or
  | andExpr => .operand .and
  | eqExpr => .operand .equality
  | relExpr => .operand .relation
  | addExpr => .operand .sum
  | mulExpr => .operand .product
  | unary => .unaryAtom
  | atom => .name
  | args => .argsOne
  | argTail => .argTailFirst

theorem Category.category_simplest (c : Category) : c.simplest.category = c := by
  cases c <;> rfl

theorem Category.height_lt_of_mem_simplest {c : Category} {x : GrammarSymbol}
    (h : x ∈ c.simplest.body) : (GrammarSymbol.phrase c).height < x.height := by
  have hall : c.simplest.body.all fun x => (GrammarSymbol.phrase c).height < x.height := by
    cases c <;> decide
  simpa using List.all_eq_true.mp hall x h

/-- The symbol stands for some tokens that can be spelled. -/
def GrammarSymbol.IsProductive (x : GrammarSymbol) : Prop :=
  ∃ (t : Tree) (w : List Token), t.Derives x w ∧ ∀ s ∈ w, s.IsSpelled

theorem GrammarSymbol.exists_trees {xs : List GrammarSymbol} (h : ∀ x ∈ xs, x.IsProductive) :
    ∃ ts : List Tree, ts.map Tree.symbol = xs ∧ Tree.AllWellFormed ts ∧
      ∀ s ∈ Tree.leavesAll ts, s.IsSpelled := by
  induction xs with
  | nil => exact ⟨[], rfl, trivial, by simp [Tree.leavesAll]⟩
  | cons x xs ih =>
    obtain ⟨t, w, ht, hw⟩ := h x List.mem_cons_self
    obtain ⟨ts, hsymbols, hts, hspelled⟩ := ih fun y hy => h y (List.mem_cons_of_mem _ hy)
    refine ⟨t :: ts, by rw [List.map_cons, ht.symbol, hsymbols], ⟨ht.wellFormed, hts⟩, ?_⟩
    intro s hs
    rw [Tree.leavesAll, ht.leaves] at hs
    exact (List.mem_append.mp hs).elim (hw s) (hspelled s)

theorem GrammarSymbol.isProductive (x : GrammarSymbol) : x.IsProductive := by
  cases x with
  | terminal kind =>
    obtain ⟨t, rfl, ht⟩ := kind.exists_spelled
    exact ⟨.leaf t, [t], ⟨trivial, rfl, rfl⟩, by simpa using ht⟩
  | phrase c =>
    have hparts : ∀ y ∈ c.simplest.body, y.IsProductive := fun y hy =>
      have := Category.height_lt_of_mem_simplest hy
      have := y.height_le
      isProductive y
    obtain ⟨ts, hsymbols, hts, hspelled⟩ := exists_trees hparts
    refine ⟨.node c.simplest ts, _, ⟨⟨hsymbols, hts⟩, ?_, rfl⟩, hspelled⟩
    rw [Tree.symbol_node, c.category_simplest]
termination_by 15 - x.height

namespace Automaton

/-! ## The rule in progress -/

/-- A rule in progress in a state, and how many of its parts have been read. -/
def item? (s : State) : Option (Rule × Nat) :=
  match inProgress.lookup s with
  | some item => some item
  | none => (row s).complete.map fun r => (r, r.body.length)

theorem past_of_item? {s : State} {r : Rule} {n : Nat} (h : item? s = some (r, n)) :
    past s = (r.body.take n).reverse := by
  unfold item? at h
  unfold past
  split at h
  · next item hlookup =>
    cases h
    rw [hlookup]
  · next hlookup =>
    obtain ⟨r', hcomplete, hr'⟩ := Option.map_eq_some_iff.mp h
    cases hr'
    rw [hlookup, hcomplete, List.take_length]
    rfl

/-- Whether the parts of a rule that are left after `n` of them lead to where it is complete. Where
only the part `x` has been read, the category of the rule is to be nearer to the program. -/
def endsRule (x : GrammarSymbol) (s : State) (r : Rule) (n : Nat) : Bool :=
  0 < n && n ≤ r.body.length && (walk s (r.body.drop n)).any (fun e => (row e).complete = some r) &&
    (n != 1 || (GrammarSymbol.phrase r.category).height < x.height)

/-- After each step but the one to the last state there is a rule in progress. -/
theorem item_of_next? {s s' : State} {x : GrammarSymbol} (h : next? s x = some s')
    (hs' : s' ≠ final) :
    ∃ r n e, 0 < n ∧ n ≤ r.body.length ∧ past s' = (r.body.take n).reverse ∧
      walk s' (r.body.drop n) = some e ∧ (row e).complete = some r ∧
      (n = 1 → (GrammarSymbol.phrase r.category).height < x.height) := by
  have hall := of_all_edges (p := fun _ x s' =>
    s' == final || (item? s').any fun (r, n) => endsRule x s' r n) (by decide +kernel) h
  have hitem : ((item? s').any fun (r, n) => endsRule x s' r n) = true := by simpa [hs'] using hall
  rw [Option.any_eq_true] at hitem
  obtain ⟨⟨r, n⟩, hrn, hends⟩ := hitem
  simp only [endsRule, Bool.and_eq_true, decide_eq_true_eq, Option.any_eq_true] at hends
  obtain ⟨⟨⟨hn, hlen⟩, e, hwalk, hcomplete⟩, hheight⟩ := hends
  exact ⟨r, n, e, hn, hlen, past_of_item? hrn, hwalk, hcomplete,
    by simpa [Decidable.or_iff_not_imp_left] using hheight⟩

namespace Stack

theorem Path.eq_nil_of_initial {σ : Stack} (h : Path σ) (hσ : state σ = initial) : σ = [] := by
  cases h with
  | nil => rfl
  | cons _ _ next => exact absurd hσ (initial_of_next? next).1

/-- How much is left until the frames of a stack have become a program. -/
def distance : Stack → Nat
  | [] => 0
  | frame :: σ => 16 * σ.length + frame.tree.symbol.height

/-- With trees for the other parts of the rule in progress, the rule makes a phrase of the newest
frames and these trees. -/
theorem exists_path_ended {σ : Stack} {r : Rule} {n : Nat} {e : State} {ts : List Tree}
    (hσ : Path σ) (hn : n ≤ r.body.length) (hpast : past (state σ) = (r.body.take n).reverse)
    (hwalk : walk (state σ) (r.body.drop n) = some e) (hcomplete : (row e).complete = some r)
    (hsymbols : ts.map Tree.symbol = r.body.drop n) (hts : Tree.AllWellFormed ts) :
    n ≤ σ.length ∧ ∃ s, Path (⟨s, .node r (trees (σ.take n) ++ ts)⟩ :: σ.drop n) := by
  have hparts : symbols (σ.take n) = (r.body.take n).reverse := by
    have htake := List.prefix_iff_eq_take.mp (hpast ▸ past_prefix_symbols hσ)
    rw [List.length_reverse, List.length_take, Nat.min_eq_left hn] at htake
    rw [htake, symbols, symbols, List.map_take]
  have hlength : n ≤ σ.length := by
    have := congrArg List.length hparts
    simp only [symbols, List.length_map, List.length_take, List.length_reverse] at this
    omega
  have hbefore : (trees (σ.take n)).map Tree.symbol = r.body.take n := by
    rw [trees, List.map_reverse, List.map_map]
    exact List.reverse_eq_iff.mpr hparts
  have hbody : walk (state (σ.drop n)) r.body = some e := by
    have hnewest := walk_symbols_take hσ n
    rw [hparts, List.reverse_reverse] at hnewest
    rw [← List.take_append_drop n r.body, walk_append, hnewest, Option.bind_some, hwalk]
  obtain ⟨s, hnext⟩ := exists_goto_of_walk hbody hcomplete
  have htrees : Tree.AllWellFormed (trees (σ.take n)) :=
    allWellFormed_iff.mpr fun t ht => by
      obtain ⟨frame, hframe, rfl⟩ := List.mem_map.mp (List.mem_reverse.mp ht)
      exact hσ.allWellFormed frame (List.mem_of_mem_take hframe)
  refine ⟨hlength, s, .cons (hσ.drop n) ⟨?_, allWellFormed_append htrees hts⟩ hnext⟩
  rw [List.map_append, hbefore, hsymbols, List.take_append_drop]

theorem exists_nearer {σ : Stack} (hσ : Path σ) (hne : σ ≠ []) (hfinal : state σ ≠ final) :
    ∃ (τ : Stack) (w : List Token), Path τ ∧ leaves τ = leaves σ ++ w ∧
      (∀ t ∈ w, t.IsSpelled) ∧ distance τ < distance σ := by
  cases hσ with
  | nil => exact absurd rfl hne
  | @cons frame below hbelow htree hnext =>
    have hσ : Path (frame :: below) := .cons hbelow htree hnext
    obtain ⟨r, n, e, hn, hlen, hpast, hwalk, hcomplete, hheight⟩ := item_of_next? hnext hfinal
    obtain ⟨ts, hsymbols, hts, hspelled⟩ :=
      GrammarSymbol.exists_trees fun x (_ : x ∈ r.body.drop n) => x.isProductive
    obtain ⟨hlength, s, hpath⟩ :=
      exists_path_ended hσ hlen hpast hwalk hcomplete hsymbols hts
    refine ⟨_, Tree.leavesAll ts, hpath, ?_, hspelled, ?_⟩
    · have hleaves : leaves ((frame :: below).drop n) ++ leaves ((frame :: below).take n) =
          leaves (frame :: below) := by rw [← leaves_append, List.take_append_drop]
      rw [leaves_cons, Tree.leaves, leavesAll_append, ← List.append_assoc]
      exact congrArg (· ++ _) hleaves
    · have hshallow := (GrammarSymbol.phrase r.category).height_le
      simp only [distance, Tree.symbol_node, List.length_drop, List.length_cons] at hlength ⊢
      rcases Nat.lt_or_ge 1 n with hmany | hone
      · omega
      · have := hheight (by omega)
        omega

/-- What has been read can be completed to a program, with tokens that can be spelled. -/
theorem exists_grammatical {σ : Stack} (hσ : Path σ) :
    ∃ w, (∀ t ∈ w, t.IsSpelled) ∧ Grammatical (leaves σ ++ w) := by
  by_cases hne : σ = []
  · subst hne
    exact ⟨[], by simp, .node .programEmpty [], ⟨rfl, trivial⟩, rfl, rfl⟩
  by_cases hfinal : state σ = final
  · cases hσ with
    | nil => exact absurd rfl hne
    | @cons frame below hbelow htree hnext =>
      obtain ⟨hinitial, hprogram⟩ := (initial_of_next? hnext).2 hfinal
      obtain rfl := hbelow.eq_nil_of_initial hinitial
      exact ⟨[], by simp, frame.tree, htree, hprogram, by simp [leaves_cons]⟩
  · obtain ⟨τ, w, hτ, hleaves, hw, hnearer⟩ := exists_nearer hσ hne hfinal
    obtain ⟨v, hv, hwhole⟩ := exists_grammatical hτ
    rw [hleaves, List.append_assoc] at hwhole
    exact ⟨w ++ v, fun t ht => (List.mem_append.mp ht).elim (hw t) (hv t), hwhole⟩
termination_by distance σ

end Stack

end Automaton

/-! ## Errors of strict parsing -/

/-- The error stands at the start of the pieces `rest`, with the stack `σ` before them. -/
def ParseError.StandsAt (σ : Automaton.Stack) (rest : List Piece) : ParseError → Prop
  | .strayCharacter c pos => ∃ after, rest = .stray c pos :: after
  | .unexpectedToken t _ => ∃ after settled, rest = .token t :: after ∧ σ.feed t = .error settled
  | .unexpectedEnd _ _ => ∃ settled, rest = [] ∧ σ.finish = .error settled

namespace Parsing

open Automaton

theorem exists_feedAll_of_error {last : Position} {σ : Stack} {ps : List Piece} {e : ParseError}
    (h : strictFrom last σ ps = .error e) :
    ∃ before rest τ, ps = before ++ rest ∧ NoStray before ∧
      σ.feedAll (tokensOf before) = some τ ∧ e.StandsAt τ rest := by
  fun_induction strictFrom last σ ps with
  | case1 => cases h
  | case2 last σ settled hfinish =>
    cases h
    exact ⟨[], [], σ, rfl, noStray_nil, rfl, settled, rfl, hfinish⟩
  | case3 last σ cs rest ih =>
    obtain ⟨before, after, τ, rfl, hstray, hfeed, hstands⟩ := ih h
    exact ⟨.ignored cs :: before, after, τ, rfl, by simpa using hstray, hfeed, hstands⟩
  | case4 last σ c pos rest =>
    cases h
    exact ⟨[], .stray c pos :: rest, σ, rfl, noStray_nil, rfl, rest, rfl⟩
  | case5 last σ t rest next hfeed ih =>
    obtain ⟨before, after, τ, rfl, hstray, hlater, hstands⟩ := ih h
    refine ⟨.token t :: before, after, τ, rfl, by simpa using hstray, ?_, hstands⟩
    rw [tokensOf_token, Stack.feedAll_cons_of_feed hfeed, hlater]
  | case6 last σ t rest settled hfeed =>
    cases h
    exact ⟨[], .token t :: rest, σ, rfl, noStray_nil, rfl, rest, settled, rfl, hfeed⟩

theorem not_grammatical_of_feed_error {w : List Token} {σ settled : Stack} {t : Token}
    (hw : Stack.feedAll [] w = some σ) (hfeed : σ.feed t = .error settled) (more : List Token) :
    ¬ Grammatical (w ++ t :: more) := by
  rintro ⟨tree, htree⟩
  obtain ⟨τ, hτ, -⟩ := derives_program_iff.mp htree
  obtain ⟨σ', hσ', hrest⟩ := Stack.feedAll_append_eq_some.mp hτ
  obtain ⟨next, hnext, -⟩ := Stack.feedAll_cons_eq_some.mp hrest
  rw [hw] at hσ'
  cases hσ'
  rw [hfeed] at hnext
  cases hnext

theorem not_grammatical_of_finish_error {w : List Token} {σ settled : Stack}
    (hw : Stack.feedAll [] w = some σ) (hfinish : σ.finish = .error settled) :
    ¬ Grammatical w := by
  rintro ⟨tree, htree⟩
  obtain ⟨τ, hτ, hok⟩ := derives_program_iff.mp htree
  rw [hw] at hτ
  cases hτ
  rw [hfinish] at hok
  cases hok

/-- Strict parsing finds an error at the earliest token at which it can. The tokens before a token
out of place start a program, and with it they start none. At the end of the input, the tokens
start a program but are none. Before a stray character, the tokens start a program. -/
theorem strict_error_earliest {source : List Char} {e : ParseError}
    (h : Program.ofSource source = .error (.parse e)) :
    match e with
    | .unexpectedToken t _ =>
      ∃ before after, pieces source = before ++ .token t :: after ∧ NoStray before ∧
        (∃ more, (∀ s ∈ more, s.IsSpelled) ∧ Grammatical (tokensOf before ++ more)) ∧
        ∀ more, ¬ Grammatical (tokensOf before ++ t :: more)
    | .unexpectedEnd _ _ =>
      NoStray (pieces source) ∧
        (∃ more, more ≠ [] ∧ (∀ s ∈ more, s.IsSpelled) ∧
          Grammatical (tokensOf (pieces source) ++ more)) ∧
        ¬ Grammatical (tokensOf (pieces source))
    | .strayCharacter c pos =>
      ∃ before after, pieces source = before ++ .stray c pos :: after ∧ NoStray before ∧
        ∃ more, (∀ s ∈ more, s.IsSpelled) ∧ Grammatical (tokensOf before ++ more) := by
  have hstrict := Program.ofPieces_eq_error_parse h
  obtain ⟨before, rest, σ, hsource, hstray, hfeed, hstands⟩ := exists_feedAll_of_error hstrict
  obtain ⟨hσ, hleaves⟩ := Stack.path_feedAll .nil hfeed
  obtain ⟨more, hmore, hwhole⟩ := Stack.exists_grammatical hσ
  rw [hleaves, Stack.leaves_nil, List.nil_append] at hwhole
  cases e with
  | unexpectedToken t expected =>
    obtain ⟨after, settled, rfl, herror⟩ := hstands
    exact ⟨before, after, hsource, hstray, ⟨more, hmore, hwhole⟩,
      not_grammatical_of_feed_error hfeed herror⟩
  | unexpectedEnd pos expected =>
    obtain ⟨settled, rfl, herror⟩ := hstands
    rw [List.append_nil] at hsource
    have hnot := not_grammatical_of_finish_error hfeed herror
    subst hsource
    refine ⟨hstray, ⟨more, ?_, hmore, hwhole⟩, hnot⟩
    rintro rfl
    exact hnot (by simpa using hwhole)
  | strayCharacter c pos =>
    obtain ⟨after, rfl⟩ := hstands
    exact ⟨before, after, hsource, hstray, more, hmore, hwhole⟩

def missingValue : List Char := "int x = ;".toList

/-- In `int x = ;` the mark is out of place: `int x =` starts a program, and `int x = ;` does not. -/
theorem missing_value_found_earliest :
    ∃ t expected, t.text = ";" ∧
      Program.ofSource missingValue = .error (.parse (.unexpectedToken t expected)) ∧
      ∃ before after, pieces missingValue = before ++ .token t :: after ∧ NoStray before ∧
        (∃ more, (∀ s ∈ more, s.IsSpelled) ∧ Grammatical (tokensOf before ++ more)) ∧
        ∀ more, ¬ Grammatical (tokensOf before ++ t :: more) := by
  have herror : (match Program.ofSource missingValue with
      | .error (.parse (.unexpectedToken t _)) => t.text == ";"
      | _ => false) = true := by decide +kernel
  split at herror
  · next t expected h =>
    exact ⟨t, expected, by simpa using herror, h, strict_error_earliest h⟩
  · cases herror

end Parsing

end Sema
