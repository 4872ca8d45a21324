import Sema.Checking.Expression
import Sema.Proofs.Checking.Passing
import Sema.Proofs.Syntax.Children
import Sema.Proofs.Syntax.Supported

/-!
# The walk over expressions follows the typing rules

The rules on types agree with the functions that decide them (`names_iff`, `fits_iff`,
`operation_iff`). The walk over an expression passes with a type just if the expression has that
type in the context of the open frames (`checkExpr_passes_iff`), provided that the functions which
the walk knows are those of the rules (`Env.Serves`).
-/

namespace Sema

open Typing

namespace Typing

/-! ## Types -/

theorem names_iff {name : Option String} {τ : Ty} : Names name τ ↔ Ty.resolve name = .ok τ := by
  constructor
  · intro h
    cases h <;> rfl
  · intro h
    cases name with
    | none =>
      cases h
      exact .absent
    | some s =>
      rw [Ty.resolve] at h
      cases hf : Ty.declarable.find? (·.name == s) with
      | none => simp [hf] at h
      | some σ =>
        have hname : σ.name = s := by simpa using List.find?_some hf
        have hmem := List.mem_of_find?_eq_some hf
        simp only [hf, Except.ok.injEq] at h
        subst h hname
        simp only [Ty.declarable, List.mem_cons, List.not_mem_nil, or_false] at hmem
        rcases hmem with rfl | rfl | rfl | rfl | rfl
        · exact .int
        · exact .float
        · exact .double
        · exact .string
        · exact .void

theorem fits_iff {τ σ : Ty} : Fits τ σ ↔ τ.accepts σ = true := by
  simp only [Ty.accepts, Bool.and_eq_true, bne_iff_ne, ne_eq, Bool.or_eq_true, beq_iff_eq,
    List.contains_iff_mem]
  constructor
  · intro h
    cases h with
    | same known => exact ⟨known, .inl (.inr rfl)⟩
    | null => exact ⟨nofun, .inl (.inl rfl)⟩
    | intToFloat => exact ⟨nofun, .inr (by simp [Ty.widens])⟩
    | intToDouble => exact ⟨nofun, .inr (by simp [Ty.widens])⟩
    | floatToDouble => exact ⟨nofun, .inr (by simp [Ty.widens])⟩
  · rintro ⟨known, (rfl | rfl) | hw⟩
    · exact .null
    · exact .same known
    · cases τ <;> simp only [Ty.widens, List.mem_cons, List.not_mem_nil, or_false] at hw
      · subst hw
        exact .intToFloat
      · rcases hw with rfl | rfl
        · exact .floatToDouble
        · exact .intToDouble

theorem fractional_iff {τ : Ty} : Fractional τ ↔ τ.isFractional = true := by
  constructor
  · intro h
    cases h <;> rfl
  · intro h
    cases τ <;> first | exact .float | exact .double | cases h

theorem product_iff {σ τ υ : Ty} : Product σ τ υ ↔ σ.product τ = υ := by
  constructor
  · intro h
    cases h with
    | left fractional => simp [Ty.product, fractional_iff.mp fractional]
    | right fractional => simp [Ty.product, fractional_iff.mp fractional]
    | int => rfl
    | none left right integers =>
      rw [fractional_iff, Bool.not_eq_true] at left right
      simp [Ty.product, left, right, integers]
  · rintro rfl
    by_cases hl : Fractional σ
    · simpa [Ty.product, fractional_iff.mp hl] using Product.left hl
    · by_cases hr : Fractional τ
      · simpa [Ty.product, fractional_iff.mp hr] using Product.right hr
      · have hl' := hl
        have hr' := hr
        rw [fractional_iff, Bool.not_eq_true] at hl' hr'
        by_cases hi : σ = .int ∧ τ = .int
        · obtain ⟨rfl, rfl⟩ := hi
          exact .int
        · simpa [Ty.product, hl', hr', hi] using Product.none hl hr hi

theorem sum_iff {σ τ υ : Ty} : Sum σ τ υ ↔ σ.sum τ = υ := by
  simp only [Ty.sum, Bool.or_eq_true, beq_iff_eq]
  constructor
  · intro h
    cases h with
    | left => rw [if_pos (.inl rfl)]
    | right => rw [if_pos (.inr rfl)]
    | numbers left right product =>
      rw [if_neg (not_or.mpr ⟨left, right⟩)]
      exact product_iff.mp product
  · rintro rfl
    split
    · next h =>
      rcases h with rfl | rfl
      · exact .left
      · exact .right
    · next h =>
      exact .numbers (fun hl => h (.inl hl)) (fun hr => h (.inr hr)) (product_iff.mpr rfl)

theorem ofText?_eq_some_iff {s : String} {op : BinaryOp} :
    BinaryOp.ofText? s = some op ↔ s = op.text := by
  constructor
  · intro h
    have hop : op.text = s := by simpa using List.find?_some h
    exact hop.symm
  · rintro rfl
    cases op <;> decide

/-- The type of an operation is that of its operator, as its level has it. -/
theorem operation_iff {s : String} {σ τ υ : Ty} :
    Operation s σ τ υ ↔
      ∃ op, BinaryOp.ofText? s = some op ∧ Checking.binaryType op σ τ = υ := by
  simp only [ofText?_eq_some_iff]
  constructor
  · intro h
    cases h with
    | sum additive sum =>
      simp only [List.mem_cons, List.not_mem_nil, or_false] at additive
      rcases additive with rfl | rfl
      · exact ⟨.add, rfl, sum_iff.mp sum⟩
      · exact ⟨.sub, rfl, sum_iff.mp sum⟩
    | product multiplicative product =>
      simp only [List.mem_cons, List.not_mem_nil, or_false] at multiplicative
      rcases multiplicative with rfl | rfl
      · exact ⟨.mul, rfl, product_iff.mp product⟩
      · exact ⟨.div, rfl, product_iff.mp product⟩
    | truth logical =>
      simp only [List.mem_cons, List.not_mem_nil, or_false] at logical
      rcases logical with rfl | rfl | rfl | rfl | rfl | rfl | rfl | rfl
      · exact ⟨.or, rfl, rfl⟩
      · exact ⟨.and, rfl, rfl⟩
      · exact ⟨.eq, rfl, rfl⟩
      · exact ⟨.ne, rfl, rfl⟩
      · exact ⟨.lt, rfl, rfl⟩
      · exact ⟨.le, rfl, rfl⟩
      · exact ⟨.gt, rfl, rfl⟩
      · exact ⟨.ge, rfl, rfl⟩
  · rintro ⟨op, rfl, rfl⟩
    cases op with
    | add => exact .sum (by decide) (sum_iff.mpr rfl)
    | sub => exact .sum (by decide) (sum_iff.mpr rfl)
    | mul => exact .product (by decide) (product_iff.mpr rfl)
    | div => exact .product (by decide) (product_iff.mpr rfl)
    | _ => exact .truth (by decide)

end Typing

/-! ## Functions and their signatures -/

def FunctionDef.Signs (f : FunctionDef) (sig : Signature) : Prop :=
  Ty.resolve f.returnType = .ok sig.type ∧
    f.params.map (fun p => Ty.resolve p.type) = sig.parameters.map .ok ∧
    (sig.isMain = true ↔ f.name = mainName)

/-- The functions that a walk knows are `fs`, with their signatures. -/
def Env.Serves (env : Env) (fs : List FunctionDef) : Prop :=
  ∀ name sig, env.callee? name = some sig ↔ ∃ f ∈ fs, f.name = name ∧ f.Signs sig

theorem paramsTake_iff {ps : List Param} {σs : List Ty} :
    ParamsTake ps σs ↔
      ∃ declared : List Ty, ps.map (fun p => Ty.resolve p.type) = declared.map .ok ∧
        σs.length = declared.length ∧ ∀ pair ∈ declared.zip σs, pair.1.accepts pair.2 = true := by
  constructor
  · intro h
    induction h with
    | nil => exact ⟨[], rfl, rfl, by simp⟩
    | @cons p ps τ σ σs named fits rest ih =>
      obtain ⟨declared, hd, hl, hfit⟩ := ih
      refine ⟨τ :: declared, ?_, by simp [hl], ?_⟩
      · rw [List.map_cons, List.map_cons, names_iff.mp named, hd]
      · simpa using ⟨fits_iff.mp fits, fun a b => hfit (a, b)⟩
  · rintro ⟨declared, hd, hl, hfit⟩
    induction ps generalizing declared σs with
    | nil =>
      cases declared with
      | nil =>
        rw [List.eq_nil_of_length_eq_zero hl]
        exact .nil
      | cons τ declared => simp at hd
    | cons p ps ih =>
      cases declared with
      | nil => simp at hd
      | cons τ declared =>
        cases σs with
        | nil => simp at hl
        | cons σ σs =>
          rw [List.map_cons, List.map_cons, List.cons.injEq] at hd
          simp only [List.zip_cons_cons, List.mem_cons, forall_eq_or_imp] at hfit
          exact .cons (names_iff.mpr hd.1) (fits_iff.mpr hfit.1)
            (ih declared hd.2 (Nat.succ.inj hl) hfit.2)

namespace Checking

open Walk

variable {env : Env} {s s' : ScopeStack}

/-! ## Calls -/

theorem checkArguments_passes_iff {func : String} {loc : Location} {index : Nat}
    {declared actual : List Ty} {u : Unit} :
    (checkArguments func loc index declared actual).Passes env s u s' ↔
      (∀ pair ∈ declared.zip actual, pair.1.accepts pair.2 = true) ∧ s = s' := by
  induction declared generalizing index actual with
  | nil => simp [checkArguments, passes_pure]
  | cons τ declared ih =>
    cases actual with
    | nil => simp [checkArguments, passes_pure]
    | cons σ actual =>
      simp only [checkArguments, passes_reportIf_bind, Bool.not_eq_false', ih, List.zip_cons_cons,
        List.mem_cons, forall_eq_or_imp, and_assoc]

theorem checkCallee_passes_iff {func : String} {loc : Location} {o : Option Signature} :
    (checkCallee func loc).Passes env s o s' ↔
      (∃ sig, env.callee? func = some sig ∧ sig.isMain = false ∧ o = some sig) ∧ s = s' := by
  unfold checkCallee
  rw [passes_callee?_bind]
  cases hc : env.callee? func with
  | none => simp only [not_passes_report_bind, reduceCtorEq, false_and, exists_false]
  | some sig =>
    simp only [passes_reportIf_bind, passes_caller_bind, Option.some.injEq, exists_eq_left']
    split
    · simp only [passes_find_bind, Finding.diagnostic?, passes_pure, true_and, and_assoc, eq_comm]
    · simp only [passes_pure, and_assoc, eq_comm]

theorem callType_passes_iff {func : String} {loc : Location} {σs : List Ty} {τ : Ty}
    {sig : Signature} :
    (callType func loc σs (some sig)).Passes env s τ s' ↔
      sig.type = τ ∧ σs.length = sig.parameters.length ∧
        (∀ pair ∈ sig.parameters.zip σs, pair.1.accepts pair.2 = true) ∧ s = s' := by
  simp only [callType, beq_iff_eq]
  split
  · next hl =>
    simp only [passes_bind, checkArguments_passes_iff, passes_pure, hl, true_and]
    constructor
    · rintro ⟨_, _, ⟨hargs, rfl⟩, hτ, rfl⟩
      exact ⟨hτ, hargs, rfl⟩
    · rintro ⟨hτ, hargs, rfl⟩
      exact ⟨(), s, ⟨hargs, rfl⟩, hτ, rfl⟩
  · next hl => simp only [not_passes_report_bind, hl, false_and, and_false]

/-! ## Expressions -/

theorem checkAssign_passes_iff {target : String} {loc : Location} {value : Option (Walk Ty)}
    {τ : Ty} :
    (checkAssign target loc value).Passes env s τ s' ↔
      ∃ symbol, s.resolve target = some symbol ∧ symbol.isConst = false ∧ symbol.type = τ ∧
        match value with
        | none => s = s'
        | some w => ∃ σ, w.Passes env s σ s' ∧ τ.accepts σ = true := by
  unfold checkAssign
  rw [passes_resolve_bind]
  cases hr : s.resolve target with
  | none => simp only [not_passes_report_bind, reduceCtorEq, false_and, exists_false]
  | some symbol =>
    simp only [passes_reportIf_bind, Option.some.injEq, exists_eq_left']
    refine and_congr_right fun _ => ?_
    cases value with
    | none => exact passes_pure
    | some w =>
      rw [passes_bind]
      simp only [passes_reportIf_bind, Bool.not_eq_false', passes_pure]
      constructor
      · rintro ⟨σ, _, hw, hσ, rfl, rfl⟩
        exact ⟨rfl, σ, hw, hσ⟩
      · rintro ⟨rfl, σ, hw, hσ⟩
        exact ⟨σ, s', hw, hσ, rfl, rfl⟩

variable {fs : List FunctionDef}

theorem call_iff (henv : env.Serves fs) {Γ : Context} {loc : Location} {func : String}
    {args : List Expr} {τ : Ty} :
    HasType fs Γ (.call loc func args) τ ↔
      ∃ sig σs, env.callee? func = some sig ∧ sig.isMain = false ∧ HaveTypes fs Γ args σs ∧
        sig.type = τ ∧ σs.length = sig.parameters.length ∧
        ∀ pair ∈ sig.parameters.zip σs, pair.1.accepts pair.2 = true := by
  constructor
  · intro h
    cases h with
    | @call _ f _ σs _ mem notMain result arguments taken =>
      obtain ⟨declared, hd, hl, hfit⟩ := paramsTake_iff.mp taken
      let sig : Signature := ⟨τ, declared, false⟩
      have hsig : f.Signs sig := ⟨names_iff.mp result, hd, by simp [sig, notMain]⟩
      exact ⟨sig, σs, (henv _ _).mpr ⟨f, mem, rfl, hsig⟩, rfl, arguments, rfl, hl, hfit⟩
  · rintro ⟨sig, σs, hc, hm, hargs, rfl, hl, hfit⟩
    obtain ⟨f, hf, rfl, hret, hparams, hmain⟩ := (henv _ _).mp hc
    refine .call hf ?_ (names_iff.mpr hret) hargs (paramsTake_iff.mpr ⟨_, hparams, hl, hfit⟩)
    intro hname
    rw [hmain.mpr hname] at hm
    cases hm

mutual

/-- The walk over an expression passes with the types that the rules give it. -/
theorem checkExpr_passes_iff (henv : env.Serves fs) (hs : s.Distinct) :
    ∀ (e : Expr) {τ : Ty} {s' : ScopeStack},
      (checkExpr e).Passes env s τ s' ↔ HasType fs s.context e τ ∧ s = s'
  | .int _ _, τ, s' => by
    rw [checkExpr, passes_pure]
    exact and_congr_left fun _ => ⟨fun h => h ▸ .int, fun h => by cases h; rfl⟩
  | .float _ _, τ, s' => by
    rw [checkExpr, passes_pure]
    exact and_congr_left fun _ => ⟨fun h => h ▸ .float, fun h => by cases h; rfl⟩
  | .string _ _, τ, s' => by
    rw [checkExpr, passes_pure]
    exact and_congr_left fun _ => ⟨fun h => h ▸ .string, fun h => by cases h; rfl⟩
  | .name loc ident, τ, s' => by
    rw [checkExpr, passes_resolve_bind]
    cases hr : s.resolve ident with
    | none =>
      simp only [not_passes_report_bind, false_iff, not_and]
      intro h
      cases h with
      | name resolves =>
        obtain ⟨symbol, hsymbol, -⟩ := (ScopeStack.resolves_context_iff hs).mp resolves
        rw [hr] at hsymbol
        cases hsymbol
    | some symbol =>
      rw [passes_pure]
      refine and_congr_left fun _ => ⟨?_, ?_⟩
      · rintro rfl
        exact .name ((ScopeStack.resolves_context_iff hs).mpr ⟨symbol, hr, rfl⟩)
      · intro h
        cases h with
        | name resolves =>
          obtain ⟨symbol', hsymbol, rfl⟩ := (ScopeStack.resolves_context_iff hs).mp resolves
          rw [hr] at hsymbol
          cases hsymbol
          rfl
  | .paren _ value, τ, s' => by
    rw [checkExpr, checkExpr_passes_iff henv hs value]
    exact and_congr_left fun _ => ⟨.paren, fun h => by cases h; assumption⟩
  | .not _ operand, τ, s' => by
    rw [checkExpr, passes_bind]
    simp only [checkExpr_passes_iff henv hs operand, passes_pure]
    constructor
    · rintro ⟨σ, _, ⟨ho, rfl⟩, rfl, rfl⟩
      exact ⟨.not ho, rfl⟩
    · rintro ⟨h, rfl⟩
      cases h with
      | not ho => exact ⟨_, s, ⟨ho, rfl⟩, rfl, rfl⟩
  | .binary _ op left right, τ, s' => by
    rw [checkExpr, passes_bind]
    simp only [checkExpr_passes_iff henv hs left]
    constructor
    · rintro ⟨σ, _, ⟨hl, rfl⟩, h⟩
      obtain ⟨υ, _, hright, h⟩ := passes_bind.mp h
      obtain ⟨hr, rfl⟩ := (checkExpr_passes_iff henv hs right).mp hright
      cases hop : BinaryOp.ofText? op with
      | none => exact absurd (by simpa only [hop] using h) not_passes_fail
      | some known =>
        simp only [hop, passes_pure] at h
        exact ⟨.binary hl hr (operation_iff.mpr ⟨known, hop, h.1⟩), h.2⟩
    · rintro ⟨h, rfl⟩
      cases h with
      | @binary _ _ _ _ σ υ _ hl hr operation =>
        obtain ⟨known, hop, rfl⟩ := operation_iff.mp operation
        refine ⟨σ, s, ⟨hl, rfl⟩, passes_bind.mpr
          ⟨υ, s, (checkExpr_passes_iff henv hs right).mpr ⟨hr, rfl⟩, ?_⟩⟩
        simp only [hop, passes_pure, and_self]
  | .assign loc target none, τ, s' => by
    rw [checkExpr, checkValue?, checkAssign_passes_iff]
    constructor
    · rintro ⟨symbol, hr, hc, rfl, rfl⟩
      exact ⟨.target ((ScopeStack.resolves_context_iff hs).mpr ⟨symbol, hr, rfl⟩) hc, rfl⟩
    · rintro ⟨h, rfl⟩
      cases h with
      | target resolves mutable =>
        obtain ⟨symbol, hr, rfl⟩ := (ScopeStack.resolves_context_iff hs).mp resolves
        exact ⟨symbol, hr, mutable, rfl, rfl⟩
  | .assign loc target (some value), τ, s' => by
    rw [checkExpr, checkValue?, checkAssign_passes_iff]
    simp only [checkExpr_passes_iff henv hs value]
    constructor
    · rintro ⟨symbol, hr, hc, rfl, σ, ⟨hv, rfl⟩, hfit⟩
      exact ⟨.assign ((ScopeStack.resolves_context_iff hs).mpr ⟨symbol, hr, rfl⟩) hc hv
        (fits_iff.mpr hfit), rfl⟩
    · rintro ⟨h, rfl⟩
      cases h with
      | assign resolves mutable hv fits =>
        obtain ⟨symbol, hr, rfl⟩ := (ScopeStack.resolves_context_iff hs).mp resolves
        exact ⟨symbol, hr, mutable, rfl, _, ⟨hv, rfl⟩, fits_iff.mp fits⟩
  | .call loc func args, τ, s' => by
    rw [checkExpr, passes_bind, call_iff henv]
    simp only [checkCallee_passes_iff]
    constructor
    · rintro ⟨_, _, ⟨⟨sig, hc, hm, rfl⟩, rfl⟩, h⟩
      obtain ⟨σs, _, hwalk, h⟩ := passes_bind.mp h
      obtain ⟨hargs, rfl⟩ := (checkExprs_passes_iff henv hs args).mp hwalk
      obtain ⟨hτ, hl, hfit, rfl⟩ := callType_passes_iff.mp h
      exact ⟨⟨sig, σs, hc, hm, hargs, hτ, hl, hfit⟩, rfl⟩
    · rintro ⟨⟨sig, σs, hc, hm, hargs, hτ, hl, hfit⟩, rfl⟩
      exact ⟨some sig, s, ⟨⟨sig, hc, hm, rfl⟩, rfl⟩, passes_bind.mpr
        ⟨σs, s, (checkExprs_passes_iff henv hs args).mpr ⟨hargs, rfl⟩,
          callType_passes_iff.mpr ⟨hτ, hl, hfit, rfl⟩⟩⟩
  | .unsupported, τ, s' => by
    rw [checkExpr]
    exact ⟨fun h => absurd h not_passes_fail, fun h => nomatch h.1⟩

theorem checkExprs_passes_iff (henv : env.Serves fs) (hs : s.Distinct) :
    ∀ (es : List Expr) {τs : List Ty} {s' : ScopeStack},
      (checkExprs es).Passes env s τs s' ↔ HaveTypes fs s.context es τs ∧ s = s'
  | [], τs, s' => by
    rw [checkExprs, passes_pure]
    exact and_congr_left fun _ => ⟨fun h => h ▸ .nil, fun h => by cases h; rfl⟩
  | e :: es, τs, s' => by
    rw [checkExprs, passes_bind]
    simp only [checkExpr_passes_iff henv hs e]
    constructor
    · rintro ⟨τ, _, ⟨he, rfl⟩, h⟩
      obtain ⟨rest, _, hwalk, h⟩ := passes_bind.mp h
      obtain ⟨hes, rfl⟩ := (checkExprs_passes_iff henv hs es).mp hwalk
      obtain ⟨rfl, rfl⟩ := passes_pure.mp h
      exact ⟨.cons he hes, rfl⟩
    · rintro ⟨h, rfl⟩
      cases h with
      | @cons _ _ τ rest he hes =>
        exact ⟨τ, s, ⟨he, rfl⟩, passes_bind.mpr
          ⟨rest, s, (checkExprs_passes_iff henv hs es).mpr ⟨hes, rfl⟩, passes_pure.mpr ⟨rfl, rfl⟩⟩⟩

end

/-! ## Properties of all walks over expressions -/

section closed

variable {L : Location → Prop} {P : ∀ {α : Type}, Walk α → Prop}

theorem closed_checkArguments (hP : ClosedAt L P) (func : String) {loc : Location} (hloc : L loc)
    (index : Nat) (declared actual : List Ty) :
    P (checkArguments func loc index declared actual) := by
  fun_induction checkArguments func loc index declared actual with
  | case1 index τ declared σ actual ih => exact hP.bind (hP.reportIf _ _ _ hloc) fun _ => ih
  | case2 => exact hP.pure ()

theorem closed_checkCallee (hP : ClosedAt L P) (func : String) (loc : Location)
    (hloc : L loc := by trivial) : P (checkCallee func loc) := by
  refine hP.bind (hP.callee? func) fun callee => ?_
  cases callee with
  | none => exact hP.bind (hP.report _ _ hloc) fun _ => hP.pure _
  | some sig =>
    refine hP.bind (hP.reportIf _ _ _ hloc) fun _ => hP.bind hP.caller fun caller => ?_
    dsimp only
    split
    · exact hP.bind hP.selfCall fun _ => hP.pure _
    · exact hP.pure _

theorem closed_callType (hP : ClosedAt L P) (func : String) {loc : Location} (hloc : L loc)
    (σs : List Ty) (callee : Option Signature) : P (callType func loc σs callee) := by
  cases callee with
  | none => exact hP.pure _
  | some sig =>
    dsimp only [callType]
    split
    · exact hP.bind (closed_checkArguments hP _ hloc _ _ _) fun _ => hP.pure _
    · exact hP.bind (hP.report _ _ hloc) fun _ => hP.pure _

theorem closed_checkAssign (hP : ClosedAt L P) (target : String) {loc : Location} (hloc : L loc)
    {value : Option (Walk Ty)} (hv : ∀ w, value = some w → P w) :
    P (checkAssign target loc value) := by
  refine hP.bind (hP.resolve target) fun symbol => ?_
  cases symbol with
  | none =>
    refine hP.bind (hP.report _ _ hloc) fun _ => ?_
    cases value with
    | none => exact hP.pure _
    | some w => exact hP.bind (hv w rfl) fun _ => hP.pure _
  | some symbol =>
    refine hP.bind (hP.reportIf _ _ _ hloc) fun _ => ?_
    cases value with
    | none => exact hP.pure _
    | some w =>
      exact hP.bind (hv w rfl) fun _ => hP.bind (hP.reportIf _ _ _ hloc) fun _ => hP.pure _

mutual

/-- A property of the elementary walks holds of the walk over an expression, if the expression is
supported or the property holds of failure too, and if it may find things wherever the parts of the
expression stand. -/
theorem closed_checkExpr (hP : ClosedAt L P) :
    ∀ e : Expr, e.Supported ∨ (∀ {α : Type} err, P (fail err : Walk α)) →
      ∀ (_ : (Node.expr e).Everywhere L := by simp), P (checkExpr e)
  | .int _ _, _, _ => hP.pure _
  | .float _ _, _, _ => hP.pure _
  | .string _ _, _, _ => hP.pure _
  | .name loc ident, _, hL => by
    refine hP.bind (hP.resolve ident) fun symbol => ?_
    cases symbol with
    | none => exact hP.bind (hP.report _ _ hL.here) fun _ => hP.pure _
    | some symbol => exact hP.pure _
  | .paren _ value, h, hL => closed_checkExpr hP value h (hL.child (.head _))
  | .not _ operand, h, hL =>
    hP.bind (closed_checkExpr hP operand h (hL.child (.head _))) fun _ => hP.pure _
  | .binary _ op left right, h, hL => by
    have hright : Node.expr right ∈ [Node.expr left, .expr right] := .tail _ (.head _)
    refine hP.bind (closed_checkExpr hP left (h.imp_left (·.1)) (hL.child (.head _))) fun _ =>
      hP.bind (closed_checkExpr hP right (h.imp_left (·.2.1)) (hL.child hright)) fun _ => ?_
    split
    · exact hP.pure _
    · next hop =>
      rcases h with ⟨-, -, known, rfl⟩ | hfail
      · rw [ofText?_eq_some_iff.mpr rfl] at hop
        cases hop
      · exact hfail _
  | .assign loc target none, _, hL => closed_checkAssign hP target hL.here fun _ h => nomatch h
  | .assign loc target (some value), h, hL =>
    closed_checkAssign hP target hL.here fun _ hw =>
      Option.some.inj hw ▸ closed_checkExpr hP value h (hL.child (.head _))
  | .call loc func args, h, hL =>
    hP.bind (closed_checkCallee hP func loc hL.here) fun _ =>
      hP.bind (closed_checkExprs hP args h fun _ he => hL.child (List.mem_map_of_mem he)) fun _ =>
        closed_callType hP _ hL.here _ _
  | .unsupported, h, _ => h.elim False.elim fun hfail => hfail _

theorem closed_checkExprs (hP : ClosedAt L P) :
    ∀ es : List Expr, Expr.AllSupported es ∨ (∀ {α : Type} err, P (fail err : Walk α)) →
      (∀ e ∈ es, (Node.expr e).Everywhere L) → P (checkExprs es)
  | [], _, _ => hP.pure _
  | e :: es, h, hL =>
    hP.bind (closed_checkExpr hP e (h.imp_left (·.1)) (hL e (.head _))) fun _ =>
      hP.bind (closed_checkExprs hP es (h.imp_left (·.2)) fun e he => hL e (.tail _ he)) fun _ =>
        hP.pure _

end

end closed

theorem still_checkExpr (e : Expr) : (checkExpr e).Still :=
  closed_checkExpr closed_still e (.inr still_fail)

end Checking

end Sema
