import Sema.Proofs.Checking.Summary
import Sema.Proofs.Syntax.Contents

/-!
# Where the unknown type comes from

The check of a program visits all expressions in it, each in some scopes (`Program.visits`). The
type of an expression is unknown if a name or a function is not declared, or if a declaration names
an undefined type, and all of that is reported. It is also unknown if arithmetic has no result for
the types of its operands, and that is not reported (`product_unreported`). There is no other way
(`reported_or_clashes`).

A check that reports nothing keeps the types of all symbols known (`ScopeStack.Known`), and passes
in every expression that it visits (`Visit.Quiet`).
-/

namespace Sema

/-! ## The expressions that a check visits -/

/-- An expression that is walked over, with the surroundings and the scopes of that walk. -/
structure Visit where
  env : Env
  scopes : ScopeStack
  expr : Expr

namespace Visit

/-- Whether the walk over the expression gives it the type `τ`. -/
def Has (v : Visit) (τ : Ty) : Prop :=
  (Checking.checkExpr v.expr v.env v.scopes).value = .ok τ

/-- The visits in an expression that may be missing. A walk over an expression leaves the scopes as
they are, so all parts are visited in the same ones. -/
def parts (env : Env) (s : ScopeStack) (e : Option Expr) : List Visit :=
  (Expr.optionParts e).map (⟨env, s, ·⟩)

end Visit

mutual

/-- The visits in a statement that is walked over from the scopes `s`. -/
def Stmt.visits (env : Env) (s : ScopeStack) : Stmt → List Visit
  | .varDecl decl => Visit.parts env s decl.value
  | .assign _ _ value => Visit.parts env s value
  | .expr _ value => Visit.parts env s (some value)
  | .block _ body => body.visits env s
  | .ifThen _ condition thenBlock elseBlock =>
    Visit.parts env s (some condition) ++
      (thenBlock.visits env s ++ Block.optionVisits env s elseBlock)
  | .whileLoop _ condition body => Visit.parts env s (some condition) ++ body.visits env s
  | .forLoop _ init condition update body =>
    let s₁ := (Checking.checkStmt? init env s.push).scopes
    let s₂ := (Checking.checkStmt? update env s₁).scopes
    Stmt.optionVisits env s.push init ++ (Visit.parts env s₁ condition ++
      (Stmt.optionVisits env s₁ update ++ body.visits env s₂))
  | .result _ value => if env.caller.isSome then Visit.parts env s value else []
  | .unsupported => []

def Stmt.optionVisits (env : Env) (s : ScopeStack) : Option Stmt → List Visit
  | none => []
  | some st => st.visits env s

def Block.visits (env : Env) (s : ScopeStack) : Block → List Visit
  | .mk _ statements => Stmt.allVisits env s.push statements

def Block.optionVisits (env : Env) (s : ScopeStack) : Option Block → List Visit
  | none => []
  | some b => b.visits env s

/-- The visits in the statements of a list: each one starts from the scopes that the one before it
leaves. -/
def Stmt.allVisits (env : Env) (s : ScopeStack) : List Stmt → List Visit
  | [] => []
  | st :: sts => st.visits env s ++ Stmt.allVisits env (Checking.checkStmt st env s).scopes sts

end

def Site.visits (callee? : String → Option Signature) (site : Site) : List Visit :=
  let env : Env := ⟨callee?, site.decl.caller?⟩
  let s : ScopeStack := ⟨[], site.globals⟩
  match site.decl with
  | .func f =>
    Stmt.allVisits env (Checking.bindParams f.name f.params env s.push).scopes f.body.statements
  | .var d => Visit.parts env s d.value
  | .unsupported => []

/-- The visits in a program: in all of its global variables and functions, those of a name that is
taken included. -/
def Program.visits (p : Program) : List Visit :=
  p.sites.flatMap (Site.visits p.callee?)

/-! ## Arithmetic without a result -/

namespace Visit

/-- An arithmetic operation on two operands of known types, for which there is no result: either the
expression itself or, through parentheses and arithmetic, one of its operands. -/
inductive Clashes (env : Env) (s : ScopeStack) : Expr → Prop
  | operation {loc : Location} {op : String} {left right : Expr} {σ τ : Ty}
      (hleft : Has ⟨env, s, left⟩ σ) (hright : Has ⟨env, s, right⟩ τ) (known : σ ≠ .unknown)
      (known' : τ ≠ .unknown) (none : Typing.Operation op σ τ .unknown) :
      Clashes env s (.binary loc op left right)
  | left {loc : Location} {op : String} {left right : Expr}
      (arithmetic : op ∈ ["+", "-", "*", "/"]) (operand : Clashes env s left) :
      Clashes env s (.binary loc op left right)
  | right {loc : Location} {op : String} {left right : Expr}
      (arithmetic : op ∈ ["+", "-", "*", "/"]) (operand : Clashes env s right) :
      Clashes env s (.binary loc op left right)
  | paren {loc : Location} {value : Expr} (inner : Clashes env s value) :
      Clashes env s (.paren loc value)

end Visit

theorem Typing.Operation.arithmetic {op : String} {σ τ : Ty} (h : Operation op σ τ .unknown) :
    op ∈ ["+", "-", "*", "/"] := by
  cases h with
  | sum additive _ => grind
  | product multiplicative _ => grind

/-! ## Known types -/

theorem Ty.ne_unknown_of_resolve {name : Option String} {τ : Ty} (h : Ty.resolve name = .ok τ) :
    τ ≠ .unknown := by
  cases Typing.names_iff.mpr h <;> nofun

def Env.Known (env : Env) : Prop :=
  ∀ name sig, env.callee? name = some sig → sig.type ≠ .unknown

namespace ScopeStack

/-- Whether all symbols in the open frames have known types. -/
def Known (s : ScopeStack) : Prop :=
  ∀ F ∈ s.frames, ∀ binding ∈ F, binding.2.type ≠ .unknown

variable {s s' : ScopeStack}

theorem Known.resolve (hs : s.Known) {name : String} {symbol : Symbol}
    (h : s.resolve name = some symbol) : symbol.type ≠ .unknown := by
  obtain ⟨F, hF, hlookup⟩ := List.exists_of_findSome?_eq_some h
  obtain ⟨before, after, hbinding, -⟩ := List.lookup_eq_some_iff.mp hlookup
  exact hs F hF (name, symbol) (by simp [hbinding])

theorem Known.push (hs : s.Known) : s.push.Known := by
  intro F hF
  rw [frames_push] at hF
  rcases List.mem_cons.mp hF with rfl | hF
  · exact fun _ hbinding => nomatch hbinding
  · exact hs F hF

theorem Known.declare (hs : s.Known) {name : String} {symbol : Symbol}
    (hsymbol : symbol.type ≠ .unknown) (h : s.declare name symbol = .ok s') : s'.Known := by
  obtain ⟨F, rest, hframes, -, hframes'⟩ := declare_eq_ok_iff.mp h
  rw [Known, hframes, List.forall_mem_cons] at hs
  rw [Known, hframes', List.forall_mem_cons, List.forall_mem_cons]
  exact ⟨⟨hsymbol, hs.1⟩, hs.2⟩

end ScopeStack

/-! ## Expressions -/

theorem Walk.Passes.value_eq {α : Type} {w : Walk α} {env : Env} {s s' : ScopeStack} {a : α}
    (h : w.Passes env s a s') : (w env s).value = .ok a := by
  obtain ⟨fs, hgives, -⟩ := h
  rw [show w env s = _ from hgives]

theorem Walk.Passes.scopes_eq {α : Type} {w : Walk α} {env : Env} {s s' : ScopeStack} {a : α}
    (h : w.Passes env s a s') : (w env s).scopes = s' := by
  obtain ⟨fs, hgives, -⟩ := h
  rw [show w env s = _ from hgives]

theorem Walk.Still.passes_self {α : Type} {w : Walk α} (hw : w.Still) {env : Env}
    {s s' : ScopeStack} {a : α} (h : w.Passes env s a s') : w.Passes env s a s := by
  have hs := hw.eq_of_passes h
  rwa [hs] at h

namespace Checking

open Walk

variable {env : Env} {s s' : ScopeStack}

theorem clashes_of_passes (henv : env.Known) (hs : s.Known) :
    ∀ (e : Expr) {s' : ScopeStack},
      (checkExpr e).Passes env s .unknown s' → Visit.Clashes env s e
  | .int _ _, _, h | .float _ _, _, h | .string _ _, _, h => by
    rw [checkExpr, passes_pure] at h
    cases h.1
  | .name _ ident, _, h => by
    rw [checkExpr, passes_resolve_bind] at h
    cases hr : s.resolve ident with
    | none =>
      rw [hr] at h
      exact absurd h not_passes_report_bind
    | some symbol =>
      rw [hr] at h
      exact absurd (passes_pure.mp h).1 (hs.resolve hr)
  | .paren _ value, _, h => by
    rw [checkExpr] at h
    exact .paren (clashes_of_passes henv hs value h)
  | .not _ _, _, h => by
    rw [checkExpr, passes_bind] at h
    obtain ⟨_, _, -, h⟩ := h
    cases (passes_pure.mp h).1
  | .binary _ op left right, _, h => by
    rw [checkExpr, passes_bind] at h
    obtain ⟨σ, s₁, hleft, h⟩ := h
    rw [(still_checkExpr left).eq_of_passes hleft] at h
    obtain ⟨τ, _, hright, h⟩ := passes_bind.mp h
    have hoperation : Typing.Operation op σ τ .unknown := by
      cases hop : BinaryOp.ofText? op with
      | none => exact absurd (by simpa only [hop] using h) not_passes_fail
      | some known =>
        simp only [hop, passes_pure] at h
        exact Typing.operation_iff.mpr ⟨known, hop, h.1⟩
    by_cases hσ : σ = .unknown
    · subst hσ
      exact .left hoperation.arithmetic (clashes_of_passes henv hs left hleft)
    · by_cases hτ : τ = .unknown
      · subst hτ
        exact .right hoperation.arithmetic (clashes_of_passes henv hs right hright)
      · exact .operation hleft.value_eq hright.value_eq hσ hτ hoperation
  | .assign _ target value, _, h => by
    rw [checkExpr, checkAssign_passes_iff] at h
    obtain ⟨symbol, hr, -, htype, -⟩ := h
    exact absurd htype (hs.resolve hr)
  | .call _ func args, _, h => by
    rw [checkExpr, passes_bind] at h
    obtain ⟨_, _, hcallee, h⟩ := h
    obtain ⟨⟨sig, hsig, -, rfl⟩, -⟩ := checkCallee_passes_iff.mp hcallee
    obtain ⟨_, _, -, h⟩ := passes_bind.mp h
    exact absurd (callType_passes_iff.mp h).1 (henv func sig hsig)
  | .unsupported, _, h => by
    rw [checkExpr] at h
    exact absurd h not_passes_fail

mutual

theorem checkExpr_passes_parts :
    ∀ (e : Expr) {τ : Ty} {s' : ScopeStack}, (checkExpr e).Passes env s τ s' →
      ∀ part ∈ e.parts, ∃ σ, (checkExpr part).Passes env s σ s
  | .int _ _, τ, _, h | .float _ _, τ, _, h | .string _ _, τ, _, h | .name _ _, τ, _, h
  | .unsupported, τ, _, h => by
    rw [Expr.parts.eq_def, List.forall_mem_singleton]
    exact ⟨τ, (still_checkExpr _).passes_self h⟩
  | .paren loc value, τ, _, h => by
    rw [Expr.parts, List.forall_mem_cons]
    refine ⟨⟨τ, (still_checkExpr _).passes_self h⟩, ?_⟩
    rw [checkExpr] at h
    exact checkExpr_passes_parts value h
  | .not loc operand, τ, _, h => by
    rw [Expr.parts, List.forall_mem_cons]
    refine ⟨⟨τ, (still_checkExpr _).passes_self h⟩, ?_⟩
    rw [checkExpr] at h
    obtain ⟨_, _, hoperand, -⟩ := passes_bind.mp h
    exact checkExpr_passes_parts operand hoperand
  | .binary loc op left right, τ, _, h => by
    rw [Expr.parts, List.forall_mem_cons, List.forall_mem_append]
    refine ⟨⟨τ, (still_checkExpr _).passes_self h⟩, ?_⟩
    rw [checkExpr] at h
    obtain ⟨_, s₁, hleft, h⟩ := passes_bind.mp h
    rw [(still_checkExpr left).eq_of_passes hleft] at h
    obtain ⟨_, _, hright, -⟩ := passes_bind.mp h
    exact ⟨checkExpr_passes_parts left hleft, checkExpr_passes_parts right hright⟩
  | .assign loc target value, τ, _, h => by
    rw [Expr.parts, List.forall_mem_cons]
    refine ⟨⟨τ, (still_checkExpr _).passes_self h⟩, ?_⟩
    rw [checkExpr] at h
    exact checkAssign_passes_parts h
  | .call loc func args, τ, _, h => by
    rw [Expr.parts, List.forall_mem_cons]
    refine ⟨⟨τ, (still_checkExpr _).passes_self h⟩, ?_⟩
    rw [checkExpr] at h
    obtain ⟨_, s₁, hcallee, h⟩ := passes_bind.mp h
    obtain ⟨-, rfl⟩ := checkCallee_passes_iff.mp hcallee
    obtain ⟨_, _, hargs, -⟩ := passes_bind.mp h
    exact checkExprs_passes_parts args hargs

theorem checkAssign_passes_parts {target : String} {loc : Location} :
    ∀ {value : Option Expr} {τ : Ty} {s' : ScopeStack},
      (checkAssign target loc (checkValue? value)).Passes env s τ s' →
      ∀ part ∈ Expr.optionParts value, ∃ σ, (checkExpr part).Passes env s σ s
  | none, _, _, _ => nofun
  | some e, τ, s', h => by
    rw [checkValue?, checkAssign_passes_iff] at h
    obtain ⟨_, -, -, -, _, hvalue, -⟩ := h
    exact checkExpr_passes_parts e hvalue

theorem checkExprs_passes_parts :
    ∀ (es : List Expr) {τs : List Ty} {s' : ScopeStack}, (checkExprs es).Passes env s τs s' →
      ∀ part ∈ Expr.allParts es, ∃ σ, (checkExpr part).Passes env s σ s
  | [], _, _, _ => nofun
  | e :: es, _, _, h => by
    rw [checkExprs] at h
    obtain ⟨_, s₁, hfirst, h⟩ := passes_bind.mp h
    rw [(still_checkExpr e).eq_of_passes hfirst] at h
    obtain ⟨_, _, hrest, -⟩ := passes_bind.mp h
    rw [Expr.allParts, List.forall_mem_append]
    exact ⟨checkExpr_passes_parts e hfirst, checkExprs_passes_parts es hrest⟩

end

/-! ## Statements -/

end Checking

/-- Whether the walk over the expression reports nothing, and sees known types only. -/
structure Visit.Quiet (v : Visit) : Prop where
  env : v.env.Known
  scopes : v.scopes.Known
  passes : ∃ τ, (Checking.checkExpr v.expr).Passes v.env v.scopes τ v.scopes

theorem Visit.Quiet.clashes {v : Visit} (h : v.Quiet) (hunknown : v.Has .unknown) :
    Clashes v.env v.scopes v.expr := by
  obtain ⟨τ, hpasses⟩ := h.passes
  obtain rfl : Ty.unknown = τ := Except.ok.inj (hunknown.symm.trans hpasses.value_eq)
  exact Checking.clashes_of_passes h.env h.scopes v.expr hpasses

theorem Visit.quiet_parts {env : Env} {s : ScopeStack} (henv : env.Known) (hs : s.Known)
    {e : Option Expr}
    (h : ∀ part ∈ Expr.optionParts e, ∃ σ, (Checking.checkExpr part).Passes env s σ s) :
    ∀ v ∈ parts env s e, v.Quiet := by
  intro v hv
  obtain ⟨part, hpart, rfl⟩ := List.mem_map.mp hv
  exact ⟨henv, hs, h part hpart⟩

namespace Checking

open Walk

variable {env : Env} {s s' : ScopeStack}

theorem checkExpr_quiet (henv : env.Known) (hs : s.Known) {e : Expr} {τ : Ty}
    (h : (checkExpr e).Passes env s τ s') : ∀ v ∈ Visit.parts env s (some e), v.Quiet :=
  Visit.quiet_parts henv hs (checkExpr_passes_parts e h)

theorem checkVarDecl_quiet (henv : env.Known) (hs : s.Known) {extent : Extent} {d : VarDecl}
    {u : Unit} (h : (checkVarDecl extent d).Passes env s u s') :
    (∀ v ∈ Visit.parts env s d.value, v.Quiet) ∧ s'.Known := by
  unfold checkVarDecl at h
  obtain ⟨τ, hτ, h⟩ := passes_resolveType_bind.mp h
  have hknown := Ty.ne_unknown_of_resolve hτ
  cases hv : d.value with
  | none =>
    rw [hv] at h
    have hdeclare := declare_found_passes_iff.mp h
    exact ⟨nofun, hs.declare hknown hdeclare⟩
  | some e =>
    rw [hv] at h
    obtain ⟨σ, s₁, he, h⟩ := passes_bind.mp h
    rw [(still_checkExpr e).eq_of_passes he] at h
    obtain ⟨-, h⟩ := passes_reportIf_bind.mp h
    have hdeclare := declare_found_passes_iff.mp h
    exact ⟨checkExpr_quiet henv hs he, hs.declare hknown hdeclare⟩

theorem checkCondition?_quiet (henv : env.Known) (hs : s.Known) {condition : Option Expr}
    {u : Unit} (h : (checkCondition? condition).Passes env s u s') :
    ∀ v ∈ Visit.parts env s condition, v.Quiet := by
  cases condition with
  | none => nofun
  | some e =>
    obtain ⟨τ, he⟩ := passes_discard.mp h
    exact checkExpr_quiet henv hs he

theorem checkReturn_quiet (henv : env.Known) (hs : s.Known) {loc : Location}
    {value : Option Expr} {u : Unit} (h : (checkReturn loc value).Passes env s u s') :
    (∀ v ∈ (Stmt.result loc value).visits env s, v.Quiet) ∧ s'.Known := by
  rw [Stmt.visits]
  cases hcaller : env.caller with
  | none =>
    rw [checkReturn, passes_caller_bind, hcaller] at h
    obtain ⟨-, rfl⟩ := passes_pure.mp h
    exact ⟨List.forall_mem_nil _, hs⟩
  | some caller =>
    rw [checkReturn_passes_iff hcaller] at h
    cases value with
    | none =>
      obtain ⟨-, rfl⟩ := h
      exact ⟨List.forall_mem_nil _, hs⟩
    | some e =>
      obtain ⟨σ, he, -⟩ := h
      rw [(still_checkExpr e).eq_of_passes he]
      exact ⟨checkExpr_quiet henv hs he, hs⟩

mutual

theorem checkStmt_quiet (henv : env.Known) :
    ∀ (st : Stmt) {s s' : ScopeStack} {u : Unit}, s.Known → (checkStmt st).Passes env s u s' →
      (∀ v ∈ st.visits env s, v.Quiet) ∧ s'.Known
  | .varDecl decl, _, _, _, hs, h => by
    rw [checkStmt] at h
    rw [Stmt.visits]
    exact checkVarDecl_quiet henv hs h
  | .assign loc target value, s, _, _, hs, h => by
    rw [checkStmt] at h
    obtain ⟨τ, h⟩ := passes_discard.mp h
    have hstill := still_checkExpr (.assign loc target value)
    rw [checkExpr] at hstill
    rw [hstill.eq_of_passes h, Stmt.visits]
    exact ⟨Visit.quiet_parts henv hs (checkAssign_passes_parts h), hs⟩
  | .expr _ value, s, _, _, hs, h => by
    rw [checkStmt] at h
    obtain ⟨τ, h⟩ := passes_discard.mp h
    rw [(still_checkExpr value).eq_of_passes h, Stmt.visits]
    exact ⟨checkExpr_quiet henv hs h, hs⟩
  | .block _ body, _, _, _, hs, h => by
    rw [checkStmt] at h
    rw [Stmt.visits]
    exact checkBlock_quiet henv body hs h
  | .ifThen _ condition thenBlock elseBlock, s, _, _, hs, h => by
    rw [checkStmt] at h
    obtain ⟨-, h⟩ := passes_find_bind.mp h
    obtain ⟨_, s₁, hcondition, h⟩ := passes_bind.mp h
    rw [(still_checkExpr condition).eq_of_passes hcondition] at h
    obtain ⟨_, s₂, hthen, helse⟩ := passes_bind.mp h
    obtain ⟨hquiet, hs₂⟩ := checkBlock_quiet henv thenBlock hs hthen
    rw [(still_checkBlock thenBlock).eq_of_passes hthen] at helse
    obtain ⟨hquiet', hs'⟩ := checkBlock?_quiet henv elseBlock hs helse
    rw [Stmt.visits, List.forall_mem_append, List.forall_mem_append]
    exact ⟨⟨checkExpr_quiet henv hs hcondition, hquiet, hquiet'⟩, hs'⟩
  | .whileLoop _ condition body, s, _, _, hs, h => by
    rw [checkStmt] at h
    obtain ⟨-, h⟩ := passes_find_bind.mp h
    obtain ⟨_, s₁, hcondition, h⟩ := passes_bind.mp h
    rw [(still_checkExpr condition).eq_of_passes hcondition] at h
    obtain ⟨hquiet, hs'⟩ := checkBlock_quiet henv body hs h
    rw [Stmt.visits, List.forall_mem_append]
    exact ⟨⟨checkExpr_quiet henv hs hcondition, hquiet⟩, hs'⟩
  | .forLoop loc init condition update body, s, _, _, hs, h => by
    rw [checkStmt_forLoop] at h
    obtain ⟨-, h⟩ := passes_find_bind.mp h
    obtain ⟨⟨s₅, h⟩, hsame⟩ :=
      (passes_enclosed_iff (framed_forLoop init condition update body)).mp h
    obtain ⟨_, s₁, hinit, h⟩ := passes_bind.mp h
    obtain ⟨hquiet₁, hs₁⟩ := checkStmt?_quiet henv init hs.push hinit
    obtain ⟨_, s₂, hcondition, h⟩ := passes_bind.mp h
    rw [(still_checkCondition? condition).eq_of_passes hcondition] at h
    obtain ⟨_, s₃, hupdate, hbody⟩ := passes_bind.mp h
    obtain ⟨hquiet₃, hs₃⟩ := checkStmt?_quiet henv update hs₁ hupdate
    obtain ⟨hquiet₄, -⟩ := checkBlock_quiet henv body hs₃ hbody
    simp only [Stmt.visits, hinit.scopes_eq, hupdate.scopes_eq, List.forall_mem_append, hsame]
    exact ⟨⟨hquiet₁, checkCondition?_quiet henv hs₁ hcondition, hquiet₃, hquiet₄⟩, hs⟩
  | .result _ _, _, _, _, hs, h => by
    rw [checkStmt] at h
    exact checkReturn_quiet henv hs h
  | .unsupported, _, _, _, _, h => by
    rw [checkStmt] at h
    exact absurd h not_passes_fail

theorem checkStmt?_quiet (henv : env.Known) :
    ∀ (st : Option Stmt) {s s' : ScopeStack} {u : Unit}, s.Known →
      (checkStmt? st).Passes env s u s' →
      (∀ v ∈ Stmt.optionVisits env s st, v.Quiet) ∧ s'.Known
  | none, _, _, _, hs, h => by
    rw [checkStmt?] at h
    obtain ⟨-, rfl⟩ := passes_pure.mp h
    exact ⟨nofun, hs⟩
  | some st, _, _, _, hs, h => by
    rw [checkStmt?] at h
    rw [Stmt.optionVisits]
    exact checkStmt_quiet henv st hs h

theorem checkBlock_quiet (henv : env.Known) :
    ∀ (b : Block) {s s' : ScopeStack} {u : Unit}, s.Known → (checkBlock b).Passes env s u s' →
      (∀ v ∈ b.visits env s, v.Quiet) ∧ s'.Known
  | .mk loc sts, s, _, _, hs, h => by
    rw [checkBlock_eq] at h
    obtain ⟨⟨s₁, h⟩, hsame⟩ := (passes_enclosed_iff (framed_checkStmts _)).mp h
    rw [hsame, Block.visits]
    exact ⟨(checkStmts_quiet henv sts hs.push h).1, hs⟩

theorem checkBlock?_quiet (henv : env.Known) :
    ∀ (b : Option Block) {s s' : ScopeStack} {u : Unit}, s.Known →
      (checkBlock? b).Passes env s u s' →
      (∀ v ∈ Block.optionVisits env s b, v.Quiet) ∧ s'.Known
  | none, _, _, _, hs, h => by
    rw [checkBlock?] at h
    obtain ⟨-, rfl⟩ := passes_pure.mp h
    exact ⟨nofun, hs⟩
  | some b, _, _, _, hs, h => by
    rw [checkBlock?] at h
    rw [Block.optionVisits]
    exact checkBlock_quiet henv b hs h

theorem checkStmts_quiet (henv : env.Known) :
    ∀ (sts : List Stmt) {s s' : ScopeStack} {u : Unit}, s.Known →
      (checkStmts sts).Passes env s u s' →
      (∀ v ∈ Stmt.allVisits env s sts, v.Quiet) ∧ s'.Known
  | [], _, _, _, hs, h => by
    rw [checkStmts] at h
    obtain ⟨-, rfl⟩ := passes_pure.mp h
    exact ⟨nofun, hs⟩
  | st :: sts, _, _, _, hs, h => by
    rw [checkStmts] at h
    obtain ⟨_, s₁, hfirst, hrest⟩ := passes_bind.mp h
    obtain ⟨hquiet, hs₁⟩ := checkStmt_quiet henv st hs hfirst
    obtain ⟨hquiet', hs'⟩ := checkStmts_quiet henv sts hs₁ hrest
    rw [Stmt.allVisits, hfirst.scopes_eq, List.forall_mem_append]
    exact ⟨⟨hquiet, hquiet'⟩, hs'⟩

end

theorem bindParams_known {func : String} {ps : List Param} {u : Unit} (hs : s.Known)
    (h : (bindParams func ps).Passes env s u s') : s'.Known := by
  induction ps generalizing s with
  | nil =>
    obtain ⟨-, rfl⟩ := passes_pure.mp h
    exact hs
  | cons p ps ih =>
    obtain ⟨τ, s₁, hτ, hdeclare, h⟩ := bindParams_cons_passes_iff.mp h
    exact ih (hs.declare (Ty.ne_unknown_of_resolve hτ) hdeclare) h

end Checking

/-! ## Programs -/

namespace Site

variable {callee? : String → Option Signature} {site : Site}

theorem passes_of_reports_eq_nil (hwalks : site.Walks callee?) (h : site.reports callee? = []) :
    ∃ s', site.decl.walk.Passes ⟨callee?, site.decl.caller?⟩ ⟨[], site.globals⟩ () s' := by
  obtain ⟨s', fs, hwalked⟩ := walks_iff.mp hwalks
  rw [reports, List.append_eq_nil_iff, hwalked] at h
  exact ⟨s', fs, hwalked, h.1⟩

theorem quiet_visits {G : Scope} {d : Decl} (hwalks : (Site.mk G d).Walks callee?)
    (hreports : (Site.mk G d).reports callee? = []) (hcallees : (Env.mk callee? d.caller?).Known)
    (hG : (ScopeStack.mk [] G).Known) :
    (∀ v ∈ (Site.mk G d).visits callee?, v.Quiet) ∧ (ScopeStack.mk [] (d.after G)).Known := by
  obtain ⟨s', hpasses⟩ := passes_of_reports_eq_nil hwalks hreports
  cases d with
  | func f =>
    obtain ⟨_, s₁, hpush, h⟩ := Walk.passes_bind.mp hpasses
    obtain rfl := Walk.passes_push.mp hpush
    obtain ⟨_, s₂, hparams, h⟩ := Walk.passes_bind.mp h
    have hs₂ := Checking.bindParams_known hG.push hparams
    simp only [visits, hparams.scopes_eq]
    exact ⟨(Checking.checkStmts_quiet hcallees _ hs₂ h).1, hG⟩
  | var d =>
    obtain ⟨hquiet, hs'⟩ := Checking.checkVarDecl_quiet hcallees hG hpasses
    obtain ⟨fs, hgives, -⟩ := hpasses
    rw [(Checking.checkVarDecl_global_gives hgives).1] at hs'
    exact ⟨hquiet, hs'⟩
  | unsupported => exact absurd hpasses Walk.not_passes_fail

end Site

theorem quiet_sites {callee? : String → Option Signature} {G : Scope} {ds : List Decl}
    (h : ∀ site ∈ sites G ds, site.Walks callee? ∧ site.reports callee? = [])
    (hcallees : ∀ caller, (Env.mk callee? caller).Known) (hG : (ScopeStack.mk [] G).Known) :
    ∀ site ∈ sites G ds, ∀ v ∈ site.visits callee?, v.Quiet := by
  induction ds generalizing G with
  | nil => exact List.forall_mem_nil _
  | cons d ds ih =>
    rw [sites, List.forall_mem_cons] at h ⊢
    obtain ⟨⟨hwalks, hreports⟩, hrest⟩ := h
    obtain ⟨hquiet, hafter⟩ := Site.quiet_visits hwalks hreports (hcallees _) hG
    exact ⟨hquiet, ih hrest hafter⟩

theorem Ty.named_ne_unknown {name : Option String} {loc : Location}
    (h : typeReports name loc = []) : Ty.named name ≠ .unknown := by
  unfold typeReports at h
  cases hname : Ty.resolve name with
  | ok τ =>
    rw [Ty.named_of_resolve hname]
    exact Ty.ne_unknown_of_resolve hname
  | error e => simp [hname] at h

theorem Program.known_callees {p : Program} (h : ∀ f ∈ p.functions, f.headReports = [])
    (caller : Option Caller) : (Env.mk p.callee? caller).Known := by
  intro name sig hsig
  obtain ⟨f, hf, rfl⟩ := Option.map_eq_some_iff.mp hsig
  have hhead := h f (List.mem_of_find?_eq_some hf)
  exact Ty.named_ne_unknown (List.append_eq_nil_iff.mp hhead).1

/-- Where the type of an expression is unknown, something is reported, or arithmetic is at fault. -/
theorem reported_or_clashes {p : Program} {checked : Checked}
    (h : Checked.ofProgram p = .ok checked) {v : Visit} (hv : v ∈ p.visits)
    (hunknown : v.Has .unknown) :
    checked.diagnostics ≠ [] ∨ Visit.Clashes v.env v.scopes v.expr := by
  obtain ⟨hwalks, rfl⟩ := ofProgram_eq_ok_iff.mp h
  refine Classical.or_iff_not_imp_left.mpr fun hnil => ?_
  have hreports : p.reports = [] := 
    Sink.items_extend_empty_eq_nil_iff.mp (Classical.not_not.mp hnil)
  have hnone : ∀ d, d ∉ p.reports := by simp [hreports]
  have hheads : ∀ f ∈ p.functions, f.headReports = [] := fun f hf =>
    List.eq_nil_iff_forall_not_mem.mpr fun d hd =>
      hnone d (Program.mem_reports.mpr (.inl ⟨f, hf, hd⟩))
  have hsites : ∀ site ∈ p.sites, site.Walks p.callee? ∧ site.reports p.callee? = [] :=
    fun site hsite => ⟨hwalks site hsite, List.eq_nil_iff_forall_not_mem.mpr fun d hd =>
      hnone d (Program.mem_reports.mpr (.inr (.inr (.inl ⟨site, hsite, hd⟩))))⟩
  have hempty : (ScopeStack.mk [] []).Known := by simp [ScopeStack.Known, ScopeStack.frames]
  obtain ⟨site, hsite, hvisit⟩ := List.mem_flatMap.mp hv
  exact (quiet_sites hsites (Program.known_callees hheads) hempty site hsite v hvisit).clashes
    hunknown

namespace Doubling

def here : Location :=
  ⟨1, 1, none⟩

def product : Expr :=
  .binary here "*" (.string here "a") (.int here 2)

/-- The program `void main() { "a" * 2; }`. -/
def program : Program where
  declarations := [.func {
    loc := here
    name := "main"
    params := []
    returnType := some "void"
    body := .mk here [.expr here product] }]

def visit : Visit where
  env := ⟨program.callee?, some ⟨"main", .void⟩⟩
  scopes := ⟨[[]], []⟩
  expr := product

theorem visit_mem : visit ∈ program.visits :=
  List.mem_cons_self

theorem visit_has_unknown : visit.Has .unknown :=
  rfl

theorem exists_unreported : ∃ checked, Checked.ofProgram program = .ok checked ∧
    checked.diagnostics = [] :=
  ⟨_, rfl, rfl⟩

end Doubling

/-- The type of a visited expression may be unknown although nothing is reported. -/
theorem product_unreported :
    ¬∀ (p : Program) (checked : Checked), Checked.ofProgram p = .ok checked →
      (∃ v ∈ p.visits, v.Has .unknown) → checked.diagnostics ≠ [] := by
  intro h
  obtain ⟨checked, hchecked, hnil⟩ := Doubling.exists_unreported
  exact h _ _ hchecked ⟨_, Doubling.visit_mem, Doubling.visit_has_unknown⟩ hnil

/-- In that program arithmetic is at fault. -/
theorem product_clashes :
    ∃ checked, Checked.ofProgram Doubling.program = .ok checked ∧
      Doubling.visit ∈ Doubling.program.visits ∧ Doubling.visit.Has .unknown ∧
      checked.diagnostics = [] ∧
      Visit.Clashes Doubling.visit.env Doubling.visit.scopes Doubling.product := by
  obtain ⟨checked, hchecked, hnil⟩ := Doubling.exists_unreported
  refine ⟨checked, hchecked, Doubling.visit_mem, Doubling.visit_has_unknown, hnil, ?_⟩
  exact (reported_or_clashes hchecked Doubling.visit_mem Doubling.visit_has_unknown).resolve_left
    fun hreported => hreported hnil

end Sema
