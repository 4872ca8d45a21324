import Sema.Proofs.Checking.Summary
import Sema.Proofs.Diagnostics.Texts

/-!
# Walks over renamed programs

A renaming that suits a program carries over from its syntax to all that a check deals with:
symbols, scopes, violations and findings. The walk over a renamed part of the program, in renamed
surroundings and scopes, then does what the walk over that part does, with the new names
(`Walk.Renames`). This is kept from one walk to the next, and holds of the elementary walks.

The names in the scopes and in the findings are those of the program, where the renaming keeps names
apart. So a name is bound in a renamed frame just if it was bound before (`lookup_rename`).
-/

namespace Sema

/-! ## What a check deals with -/

def Symbol.rename (ρ : Renaming) (symbol : Symbol) : Symbol :=
  { symbol with name := ρ.var symbol.name }

def FunctionSymbol.rename (ρ : Renaming) (f : FunctionSymbol) : FunctionSymbol :=
  { f with
    name := ρ.func f.name
    parameters := f.parameters.map (Symbol.rename ρ)
    locals := f.locals.map (Symbol.rename ρ) }

def Caller.rename (ρ : Renaming) (c : Caller) : Caller :=
  { c with name := ρ.func c.name }

namespace Violation

def rename (ρ : Renaming) : Violation → Violation
  | undefinedType e => undefinedType e
  | duplicateFunction name => duplicateFunction (ρ.func name)
  | duplicateParameter param func => duplicateParameter (ρ.var param) (ρ.func func)
  | duplicateGlobal name => duplicateGlobal (ρ.var name)
  | duplicateLocal name => duplicateLocal (ρ.var name)
  | missingMain => missingMain
  | severalMains count => severalMains count
  | missingReturn func type => missingReturn (ρ.func func) type
  | badInitializer name declared actual => badInitializer (ρ.var name) declared actual
  | badReturn func declared actual => badReturn (ρ.func func) declared actual
  | badAssignment target declared actual => badAssignment (ρ.var target) declared actual
  | badArgument index func declared actual => badArgument index (ρ.func func) declared actual
  | undeclaredVariable name => undeclaredVariable (ρ.var name)
  | undefinedFunction name => undefinedFunction (ρ.func name)
  | constAssignment target => constAssignment (ρ.var target)
  | mainCall => mainCall
  | arity func declared actual => arity (ρ.func func) declared actual

theorem code_rename (ρ : Renaming) (v : Violation) : (v.rename ρ).code = v.code := by
  cases v <;> rfl

theorem identifiers_rename (ρ : Renaming) (v : Violation) :
    (v.rename ρ).identifiers = v.identifiers.map ρ.apply := by
  cases v <;> rfl

theorem rename_rename {ρ ρ' : Renaming} {v : Violation}
    (h : ∀ i ∈ v.identifiers, ρ'.apply (ρ.apply i) = i) : (v.rename ρ).rename ρ' = v := by
  cases v <;> simp_all [identifiers, rename, Renaming.apply]

end Violation

namespace Finding

def rename (ρ : Renaming) : Finding → Finding
  | violation v loc => violation (v.rename ρ) loc
  | globalVar symbol => globalVar (symbol.rename ρ)
  | localVar symbol => localVar (symbol.rename ρ)
  | control record => control record
  | returned => returned
  | selfCall => selfCall

def identifiers : Finding → List Identifier
  | violation v _ => v.identifiers
  | _ => []

end Finding

def Scope.rename (ρ : Renaming) (F : Scope) : Scope :=
  F.map fun binding => (ρ.var binding.1, binding.2.rename ρ)

/-- Whether the names in a frame are names of the program. -/
def Scope.Within (p : Program) (F : Scope) : Prop :=
  ∀ binding ∈ F, .var binding.1 ∈ p.identifiers

namespace ScopeStack

def rename (ρ : Renaming) (s : ScopeStack) : ScopeStack where
  inner := s.inner.map (Scope.rename ρ)
  global := Scope.rename ρ s.global

def Within (p : Program) (s : ScopeStack) : Prop :=
  ∀ F ∈ s.frames, Scope.Within p F

theorem frames_rename (ρ : Renaming) (s : ScopeStack) :
    (s.rename ρ).frames = s.frames.map (Scope.rename ρ) := by
  simp [frames, rename]

theorem innermost_rename (ρ : Renaming) (s : ScopeStack) :
    (s.rename ρ).innermost = Scope.rename ρ s.innermost := by
  obtain ⟨inner, global⟩ := s
  cases inner <;> rfl

theorem pop_rename {ρ : Renaming} {s t : ScopeStack} (h : s.pop = .ok t) :
    (s.rename ρ).pop = .ok (t.rename ρ) := by
  obtain ⟨inner, global⟩ := s
  cases inner with
  | nil => cases h
  | cons F rest =>
    cases h
    rfl

end ScopeStack

section

variable {ρ : Renaming} {p : Program}

/-! ## Scopes -/

/-- In a renamed frame, the new name of a variable stands for its renamed symbol. -/
theorem lookup_rename (hρ : ρ.Suits p) {F : Scope} (hF : F.Within p) {x : String}
    (hx : .var x ∈ p.identifiers) :
    (Scope.rename ρ F).lookup (ρ.var x) = (F.lookup x).map (Symbol.rename ρ) := by
  induction F with
  | nil => rfl
  | cons binding F ih =>
    obtain ⟨y, symbol⟩ := binding
    rw [Scope.Within, List.forall_mem_cons] at hF
    rw [Scope.rename, List.map_cons, List.lookup_cons, List.lookup_cons]
    by_cases hxy : x = y
    · simp [hxy]
    · have hne : ρ.var x ≠ ρ.var y := mt (hρ.var_inj hx hF.1).mp hxy
      rw [beq_false_of_ne hxy, beq_false_of_ne hne]
      exact ih hF.2

namespace ScopeStack

variable {s t : ScopeStack} {x : String} {symbol : Symbol}

theorem Within.innermost (hs : s.Within p) : s.innermost.Within p := by
  obtain ⟨rest, hframes⟩ := exists_frames s
  exact hs _ (hframes ▸ List.mem_cons_self)

theorem Within.push (hs : s.Within p) : s.push.Within p := by
  rw [Within, frames_push, List.forall_mem_cons]
  exact ⟨nofun, hs⟩

theorem Within.pop (hs : s.Within p) (h : s.pop = .ok t) : t.Within p := by
  obtain ⟨inner, global⟩ := s
  cases inner with
  | nil => cases h
  | cons F rest =>
    cases h
    exact fun F hF => hs F (List.mem_cons_of_mem _ hF)

theorem Within.declare (hs : s.Within p) (hx : .var x ∈ p.identifiers)
    (h : s.declare x symbol = .ok t) : t.Within p := by
  obtain ⟨F, rest, hframes, -, hframes'⟩ := declare_eq_ok_iff.mp h
  rw [Within, hframes, List.forall_mem_cons] at hs
  rw [Within, hframes', List.forall_mem_cons]
  exact ⟨List.forall_mem_cons.mpr ⟨hx, hs.1⟩, hs.2⟩

theorem resolve_rename (hρ : ρ.Suits p) (hs : s.Within p) (hx : .var x ∈ p.identifiers) :
    (s.rename ρ).resolve (ρ.var x) = (s.resolve x).map (Symbol.rename ρ) := by
  show (s.rename ρ).frames.findSome? _ = (s.frames.findSome? _).map _
  rw [frames_rename]
  rw [Within] at hs
  generalize s.frames = frames at hs ⊢
  induction frames with
  | nil => rfl
  | cons F rest ih =>
    rw [List.forall_mem_cons] at hs
    rw [List.map_cons, List.findSome?_cons, List.findSome?_cons, lookup_rename hρ hs.1 hx]
    cases F.lookup x with
    | none => exact ih hs.2
    | some found => rfl

theorem declare_rename (hρ : ρ.Suits p) (hs : s.Within p) (hx : .var x ∈ p.identifiers)
    (h : s.declare x symbol = .ok t) :
    (s.rename ρ).declare (ρ.var x) (symbol.rename ρ) = .ok (t.rename ρ) := by
  obtain ⟨F, rest, hframes, hfree, hframes'⟩ := declare_eq_ok_iff.mp h
  have hF : F.Within p := hs F (hframes ▸ List.mem_cons_self)
  refine declare_eq_ok_iff.mpr ⟨Scope.rename ρ F, rest.map (Scope.rename ρ), ?_, ?_, ?_⟩
  · rw [frames_rename, hframes, List.map_cons]
  · rw [lookup_rename hρ hF hx, hfree, Option.map_none]
  · rw [frames_rename, hframes', List.map_cons]
    rfl

theorem declare_rename_error (hρ : ρ.Suits p) (hs : s.Within p) (hx : .var x ∈ p.identifiers)
    {e : ScopeError} (h : s.declare x symbol = .error e) :
    ∃ e', (s.rename ρ).declare (ρ.var x) (symbol.rename ρ) = .error e' := by
  obtain ⟨existing, hbound, -⟩ := declare_eq_error_iff.mp h
  refine ⟨_, declare_eq_error_iff.mpr ⟨existing.rename ρ, ?_, rfl⟩⟩
  rw [innermost_rename, lookup_rename hρ hs.innermost hx, hbound, Option.map_some]

end ScopeStack

/-! ## Walks -/

/-- The surroundings `env'` know the functions of the program that `env` knows, by new names. -/
structure Env.Renamed (ρ : Renaming) (p : Program) (env env' : Env) : Prop where
  callee : ∀ func, .func func ∈ p.identifiers → env'.callee? (ρ.func func) = env.callee? func
  caller : env'.caller = env.caller.map (Caller.rename ρ)
  caller_mem : ∀ c, env.caller = some c → .func c.name ∈ p.identifiers

namespace Walk

variable {α β : Type}

/-- In renamed surroundings and scopes, the walk `w'` finds the renamed findings of `w`, leaves its
renamed scopes and has a value that `R` relates to that of `w`. -/
def Renames (ρ : Renaming) (p : Program) (R : α → α → Prop) (w w' : Walk α) : Prop :=
  ∀ env env' s fs a s₁, Env.Renamed ρ p env env' → s.Within p → w.Gives env s fs a s₁ →
    s₁.Within p ∧ (∀ finding ∈ fs, finding.identifiers ⊆ p.identifiers) ∧
      ∃ a', R a a' ∧ w'.Gives env' (s.rename ρ) (fs.map (Finding.rename ρ)) a' (s₁.rename ρ)

namespace Renames

variable {R : α → α → Prop} {S : β → β → Prop}

theorem bind {w w' : Walk α} {f f' : α → Walk β} (hw : w.Renames ρ p R w')
    (hf : ∀ a a', R a a' → (f a).Renames ρ p S (f' a')) : (w >>= f).Renames ρ p S (w' >>= f') := by
  intro env env' s fs b s' henv hs h
  obtain ⟨fs₁, a, s₁, fs₂, h₁, h₂, rfl⟩ := gives_bind.mp h
  obtain ⟨hs₁, hfs₁, a', ha, h₁'⟩ := hw env env' s fs₁ a s₁ henv hs h₁
  obtain ⟨hs', hfs₂, b', hb, h₂'⟩ := hf a a' ha env env' s₁ fs₂ b s' henv hs₁ h₂
  refine ⟨hs', List.forall_mem_append.mpr ⟨hfs₁, hfs₂⟩, b', hb, ?_⟩
  exact gives_bind.mpr ⟨_, a', _, _, h₁', h₂', List.map_append⟩

theorem read {g g' : Env → ScopeStack → α}
    (h : ∀ env env' s, Env.Renamed ρ p env env' → s.Within p → R (g env s) (g' env' (s.rename ρ))) :
    Renames ρ p R (fun env s => ⟨s, [], .ok (g env s)⟩) (fun env s => ⟨s, [], .ok (g' env s)⟩) := by
  intro env env' s fs a s' henv hs hgives
  obtain ⟨rfl, rfl, rfl⟩ := gives_read.mp hgives
  exact ⟨hs, List.forall_mem_nil _, _, h env env' _ henv hs, rfl⟩

theorem pure {a a' : α} (h : R a a') : (pure a : Walk α).Renames ρ p R (pure a') :=
  read fun _ _ _ _ _ => h

theorem find (finding : Finding) (h : finding.identifiers ⊆ p.identifiers) :
    (find finding).Renames ρ p Eq (find (finding.rename ρ)) := by
  intro env env' s fs u s' henv hs hgives
  obtain ⟨rfl, rfl⟩ := gives_find.mp hgives
  exact ⟨hs, by simpa using h, (), rfl, rfl⟩

theorem report (v : Violation) (loc : Location) (h : v.identifiers ⊆ p.identifiers) :
    (report v loc).Renames ρ p Eq (report (v.rename ρ) loc) :=
  find (.violation v loc) h

theorem reportIf (broken : Bool) (v : Violation) (loc : Location)
    (h : v.identifiers ⊆ p.identifiers) :
    (reportIf broken v loc).Renames ρ p Eq (reportIf broken (v.rename ρ) loc) := by
  cases broken with
  | false => exact pure rfl
  | true => exact report v loc h

theorem fail (e : CheckError) {w' : Walk α} : (fail e : Walk α).Renames ρ p R w' :=
  fun _ _ _ _ _ _ _ _ h => absurd h not_gives_fail

theorem callee? {func : String} (h : .func func ∈ p.identifiers) :
    (callee? func).Renames ρ p Eq (callee? (ρ.func func)) :=
  read fun _ _ _ henv _ => (henv.callee func h).symm

theorem caller : Walk.caller.Renames ρ p
    (fun o o' => o' = o.map (Caller.rename ρ) ∧ ∀ c, o = some c → .func c.name ∈ p.identifiers)
    Walk.caller :=
  read fun _ _ _ henv _ => ⟨henv.caller, henv.caller_mem⟩

theorem resolve (hρ : ρ.Suits p) {x : String} (hx : .var x ∈ p.identifiers) :
    (resolve x).Renames ρ p (fun o o' => o' = o.map (Symbol.rename ρ)) (resolve (ρ.var x)) :=
  read fun _ _ _ _ hs => ScopeStack.resolve_rename hρ hs hx

theorem push : push.Renames ρ p Eq Walk.push := by
  intro env env' s fs u s' henv hs hgives
  obtain ⟨rfl, rfl⟩ := gives_push.mp hgives
  exact ⟨hs.push, List.forall_mem_nil _, (), rfl, rfl⟩

theorem pop : pop.Renames ρ p Eq Walk.pop := by
  intro env env' s fs u s' henv hs hgives
  obtain ⟨hpop, rfl⟩ := gives_pop.mp hgives
  exact ⟨hs.pop hpop, List.forall_mem_nil _, (), rfl,
    gives_pop.mpr ⟨ScopeStack.pop_rename hpop, rfl⟩⟩

theorem declare (hρ : ρ.Suits p) (symbol : Symbol) (h : .var symbol.name ∈ p.identifiers) :
    (declare symbol).Renames ρ p Eq (declare (symbol.rename ρ)) := by
  intro env env' s fs fresh s' henv hs hgives
  obtain ⟨hcases, rfl⟩ := gives_declare.mp hgives
  rcases hcases with ⟨hok, rfl⟩ | ⟨⟨e, herror⟩, rfl, rfl⟩
  · refine ⟨hs.declare h hok, List.forall_mem_nil _, true, rfl,
      gives_declare.mpr ⟨.inl ⟨?_, rfl⟩, rfl⟩⟩
    exact ScopeStack.declare_rename hρ hs h hok
  · refine ⟨hs, List.forall_mem_nil _, false, rfl,
      gives_declare.mpr ⟨.inr ⟨?_, rfl, rfl⟩, rfl⟩⟩
    exact ScopeStack.declare_rename_error hρ hs h herror

theorem resolveType (name : Option String) (loc : Location) :
    (resolveType name loc).Renames ρ p Eq (resolveType name loc) := by
  unfold Walk.resolveType
  cases Ty.resolve name with
  | ok τ => exact pure rfl
  | error e => exact (report (.undefinedType e) loc (List.nil_subset _)).bind fun _ _ _ => pure rfl

end Renames

end Walk

/-! ## Expressions -/

namespace Checking

open Walk

theorem checkArguments_renames {func : String} (hfunc : .func func ∈ p.identifiers)
    (loc : Location) (index : Nat) (declared actual : List Ty) :
    (checkArguments func loc index declared actual).Renames ρ p Eq
      (checkArguments (ρ.func func) loc index declared actual) := by
  induction declared generalizing index actual with
  | nil => exact .pure rfl
  | cons σ declared ih =>
    cases actual with
    | nil => exact .pure rfl
    | cons τ actual =>
      exact (Renames.reportIf _ (.badArgument index func σ τ) loc
        (by simpa [Violation.identifiers] using hfunc)).bind fun _ _ _ => ih _ _

theorem checkCallee_renames (hρ : ρ.Suits p) {func : String} (hfunc : .func func ∈ p.identifiers)
    (loc : Location) :
    (checkCallee func loc).Renames ρ p Eq (checkCallee (ρ.func func) loc) := by
  have hmem : [Identifier.func func] ⊆ p.identifiers := by simpa using hfunc
  refine (Renames.callee? hfunc).bind fun o _ ho => ?_
  subst ho
  cases o with
  | none => exact (Renames.report (.undefinedFunction func) loc hmem).bind fun _ _ _ => .pure rfl
  | some sig =>
    refine (Renames.reportIf _ .mainCall loc (List.nil_subset _)).bind fun _ _ _ => ?_
    refine Renames.caller.bind fun o o' ho => ?_
    obtain ⟨rfl, hcaller⟩ := ho
    have hself :
        (o.map (Caller.rename ρ)).any (·.name == ρ.func func) = o.any (·.name == func) := by
      cases o with
      | none => rfl
      | some c => simp [Caller.rename, Bool.beq_eq_decide_eq, hρ.func_inj (hcaller c rfl) hfunc]
    rw [hself]
    split
    · exact (Renames.find .selfCall (List.nil_subset _)).bind fun _ _ _ => .pure rfl
    · exact .pure rfl

theorem callType_renames {func : String} (hfunc : .func func ∈ p.identifiers) (loc : Location)
    (actual : List Ty) (o : Option Signature) :
    (callType func loc actual o).Renames ρ p Eq (callType (ρ.func func) loc actual o) := by
  have hmem : [Identifier.func func] ⊆ p.identifiers := by simpa using hfunc
  cases o with
  | none => exact .pure rfl
  | some sig =>
    rw [callType, callType]
    split
    · exact (checkArguments_renames hfunc _ _ _ _).bind fun _ _ _ => .pure rfl
    · exact (Renames.report (.arity func _ _) loc hmem).bind fun _ _ _ => .pure rfl

theorem checkAssign_renames (hρ : ρ.Suits p) {target : String}
    (htarget : .var target ∈ p.identifiers) (loc : Location) {value value' : Option (Walk Ty)}
    (hvalue : Option.Rel (Renames ρ p Eq) value value') :
    (checkAssign target loc value).Renames ρ p Eq (checkAssign (ρ.var target) loc value') := by
  have hmem : [Identifier.var target] ⊆ p.identifiers := by simpa using htarget
  refine (Renames.resolve hρ htarget).bind fun o _ ho => ?_
  subst ho
  cases o with
  | none =>
    refine (Renames.report (.undeclaredVariable target) loc hmem).bind fun _ _ _ => ?_
    cases hvalue with
    | none => exact .pure rfl
    | some hw => exact Renames.bind hw fun _ _ _ => .pure rfl
  | some symbol =>
    refine (Renames.reportIf _ (.constAssignment target) loc hmem).bind fun _ _ _ => ?_
    cases hvalue with
    | none => exact .pure rfl
    | some hw =>
      refine Renames.bind hw fun actual _ hactual => ?_
      subst hactual
      exact (Renames.reportIf _ (.badAssignment target symbol.type actual) loc hmem).bind
        fun _ _ _ => .pure rfl

mutual

theorem checkExpr_renames (hρ : ρ.Suits p) :
    ∀ e : Expr, e.identifiers ⊆ p.identifiers →
      (checkExpr e).Renames ρ p Eq (checkExpr (e.rename ρ))
  | .int _ _, _ | .float _ _, _ | .string _ _, _ => by
    rw [Expr.rename, checkExpr]
    exact .pure rfl
  | .name loc ident, h => by
    rw [Expr.identifiers] at h
    rw [Expr.rename, checkExpr, checkExpr]
    refine (Renames.resolve hρ (h List.mem_cons_self)).bind fun o _ ho => ?_
    subst ho
    cases o with
    | none => exact (Renames.report (.undeclaredVariable ident) loc h).bind fun _ _ _ => .pure rfl
    | some symbol => exact .pure rfl
  | .paren _ value, h => by
    rw [Expr.rename, checkExpr, checkExpr]
    exact checkExpr_renames hρ value h
  | .not _ operand, h => by
    rw [Expr.rename, checkExpr, checkExpr]
    exact (checkExpr_renames hρ operand h).bind fun _ _ _ => .pure rfl
  | .binary _ op left right, h => by
    rw [Expr.identifiers, List.append_subset] at h
    rw [Expr.rename, checkExpr, checkExpr]
    refine (checkExpr_renames hρ left h.1).bind fun σ _ hσ => ?_
    refine (checkExpr_renames hρ right h.2).bind fun τ _ hτ => ?_
    subst hσ hτ
    cases BinaryOp.ofText? op with
    | none => exact .fail _
    | some known => exact .pure rfl
  | .assign loc target value, h => by
    rw [Expr.identifiers, List.cons_subset] at h
    rw [Expr.rename, checkExpr, checkExpr]
    exact checkAssign_renames hρ h.1 loc (checkValue?_renames hρ value h.2)
  | .call loc func args, h => by
    rw [Expr.identifiers, List.cons_subset] at h
    rw [Expr.rename, checkExpr, checkExpr]
    refine (checkCallee_renames hρ h.1 loc).bind fun o _ ho => ?_
    refine (checkExprs_renames hρ args h.2).bind fun τs _ hτs => ?_
    subst ho hτs
    exact callType_renames h.1 loc τs o
  | .unsupported, _ => by
    rw [checkExpr]
    exact .fail _

theorem checkValue?_renames (hρ : ρ.Suits p) :
    ∀ value : Option Expr, Expr.optionIdentifiers value ⊆ p.identifiers →
      Option.Rel (Renames ρ p Eq) (checkValue? value) (checkValue? (Expr.optionRename ρ value))
  | none, _ => .none
  | some e, h => .some (checkExpr_renames hρ e h)

theorem checkExprs_renames (hρ : ρ.Suits p) :
    ∀ es : List Expr, Expr.allIdentifiers es ⊆ p.identifiers →
      (checkExprs es).Renames ρ p Eq (checkExprs (Expr.allRename ρ es))
  | [], _ => by
    rw [Expr.allRename, checkExprs]
    exact .pure rfl
  | e :: es, h => by
    rw [Expr.allIdentifiers, List.append_subset] at h
    rw [Expr.allRename, checkExprs, checkExprs]
    refine (checkExpr_renames hρ e h.1).bind fun τ _ hτ => ?_
    refine (checkExprs_renames hρ es h.2).bind fun τs _ hτs => ?_
    subst hτ hτs
    exact .pure rfl

end

/-! ## Statements -/

theorem checkVarDecl_renames (hρ : ρ.Suits p) (extent : Extent) {d : VarDecl}
    (h : d.identifiers ⊆ p.identifiers) :
    (checkVarDecl extent d).Renames ρ p Eq (checkVarDecl extent (d.rename ρ)) := by
  rw [VarDecl.identifiers, List.cons_subset] at h
  obtain ⟨hname, hvalue⟩ := h
  have hmem : [Identifier.var d.name] ⊆ p.identifiers := by simpa using hname
  refine (Renames.resolveType d.type d.loc).bind fun type _ htype => ?_
  subst htype
  have hdeclare : (Walk.declare (declaredSymbol d type) >>= fun fresh =>
        if fresh then Walk.find (extent.found (declaredSymbol d type))
        else Walk.report (extent.duplicate d.name) d.loc).Renames ρ p Eq
      (Walk.declare (declaredSymbol (d.rename ρ) type) >>= fun fresh =>
        if fresh then Walk.find (extent.found (declaredSymbol (d.rename ρ) type))
        else Walk.report (extent.duplicate (d.rename ρ).name) d.loc) := by
    refine (Renames.declare hρ (declaredSymbol d type) hname).bind fun fresh _ hfresh => ?_
    subst hfresh
    cases fresh <;> cases extent
    · exact .report (.duplicateGlobal d.name) d.loc hmem
    · exact .report (.duplicateLocal d.name) d.loc hmem
    · exact .find (.globalVar _) (List.nil_subset _)
    · exact .find (.localVar _) (List.nil_subset _)
  rw [show (d.rename ρ).value = Expr.optionRename ρ d.value from rfl]
  cases hv : d.value with
  | none => exact hdeclare
  | some e =>
    rw [hv] at hvalue
    refine (checkExpr_renames hρ e hvalue).bind fun actual _ hactual => ?_
    subst hactual
    exact (Renames.reportIf _ (.badInitializer d.name type actual) d.loc hmem).bind
      fun _ _ _ => hdeclare

theorem recordControl_renames (kind : ControlKind) (loc : Location) :
    (recordControl kind loc).Renames ρ p Eq (recordControl kind loc) :=
  .find (.control _) (List.nil_subset _)

theorem checkCondition?_renames (hρ : ρ.Suits p) {condition : Option Expr}
    (h : Expr.optionIdentifiers condition ⊆ p.identifiers) :
    (checkCondition? condition).Renames ρ p Eq
      (checkCondition? (Expr.optionRename ρ condition)) := by
  cases condition with
  | none => exact .pure rfl
  | some e => exact (checkExpr_renames hρ e h).bind fun _ _ _ => .pure rfl

theorem checkReturn_renames (hρ : ρ.Suits p) (loc : Location) {value : Option Expr}
    (h : Expr.optionIdentifiers value ⊆ p.identifiers) :
    (checkReturn loc value).Renames ρ p Eq (checkReturn loc (Expr.optionRename ρ value)) := by
  refine Renames.caller.bind fun o _ ho => ?_
  obtain ⟨rfl, hcaller⟩ := ho
  cases o with
  | none => exact .pure rfl
  | some c =>
    have hmem : [Identifier.func c.name] ⊆ p.identifiers := by simpa using hcaller c rfl
    refine (Renames.find .returned (List.nil_subset _)).bind fun _ _ _ => ?_
    have hreport : ∀ actual : Ty,
        (Walk.reportIf (!c.type.accepts actual) (.badReturn c.name c.type actual) loc).Renames
          ρ p Eq
          (Walk.reportIf (!c.type.accepts actual) (.badReturn (ρ.func c.name) c.type actual) loc) :=
      fun actual => .reportIf _ (.badReturn c.name c.type actual) loc hmem
    cases value with
    | none => exact hreport .void
    | some e =>
      refine (checkExpr_renames hρ e h).bind fun actual _ hactual => ?_
      subst hactual
      exact hreport actual

mutual

theorem checkStmt_renames (hρ : ρ.Suits p) :
    ∀ st : Stmt, st.identifiers ⊆ p.identifiers →
      (checkStmt st).Renames ρ p Eq (checkStmt (st.rename ρ))
  | .varDecl decl, h => by
    rw [Stmt.rename, checkStmt, checkStmt]
    exact checkVarDecl_renames hρ .inFunction h
  | .assign loc target value, h => by
    rw [Stmt.identifiers, List.cons_subset] at h
    rw [Stmt.rename, checkStmt, checkStmt]
    exact (checkAssign_renames hρ h.1 loc (checkValue?_renames hρ value h.2)).bind
      fun _ _ _ => .pure rfl
  | .expr _ value, h => by
    rw [Stmt.rename, checkStmt, checkStmt]
    exact (checkExpr_renames hρ value h).bind fun _ _ _ => .pure rfl
  | .block _ body, h => by
    rw [Stmt.rename, checkStmt, checkStmt]
    exact checkBlock_renames hρ body h
  | .ifThen loc condition thenBlock elseBlock, h => by
    rw [Stmt.identifiers, List.append_subset, List.append_subset] at h
    obtain ⟨hcondition, hthen, helse⟩ := h
    rw [Stmt.rename, checkStmt, checkStmt]
    exact (recordControl_renames _ loc).bind fun _ _ _ =>
      (checkExpr_renames hρ condition hcondition).bind fun _ _ _ =>
        (checkBlock_renames hρ thenBlock hthen).bind fun _ _ _ =>
          checkBlock?_renames hρ elseBlock helse
  | .whileLoop loc condition body, h => by
    rw [Stmt.identifiers, List.append_subset] at h
    rw [Stmt.rename, checkStmt, checkStmt]
    exact (recordControl_renames _ loc).bind fun _ _ _ =>
      (checkExpr_renames hρ condition h.1).bind fun _ _ _ => checkBlock_renames hρ body h.2
  | .forLoop loc init condition update body, h => by
    rw [Stmt.identifiers, List.append_subset, List.append_subset, List.append_subset] at h
    obtain ⟨hinit, hcondition, hupdate, hbody⟩ := h
    rw [Stmt.rename, checkStmt, checkStmt]
    exact (recordControl_renames _ loc).bind fun _ _ _ => Renames.push.bind fun _ _ _ =>
      (checkStmt?_renames hρ init hinit).bind fun _ _ _ =>
        (checkCondition?_renames hρ hcondition).bind fun _ _ _ =>
          (checkStmt?_renames hρ update hupdate).bind fun _ _ _ =>
            (checkBlock_renames hρ body hbody).bind fun _ _ _ => .pop
  | .result loc value, h => by
    rw [Stmt.rename, checkStmt, checkStmt]
    exact checkReturn_renames hρ loc h
  | .unsupported, _ => by
    rw [checkStmt]
    exact .fail _

theorem checkStmt?_renames (hρ : ρ.Suits p) :
    ∀ st : Option Stmt, Stmt.optionIdentifiers st ⊆ p.identifiers →
      (checkStmt? st).Renames ρ p Eq (checkStmt? (Stmt.optionRename ρ st))
  | none, _ => by
    rw [Stmt.optionRename, checkStmt?]
    exact .pure rfl
  | some st, h => by
    rw [Stmt.optionRename, checkStmt?, checkStmt?]
    exact checkStmt_renames hρ st h

theorem checkBlock_renames (hρ : ρ.Suits p) :
    ∀ b : Block, b.identifiers ⊆ p.identifiers →
      (checkBlock b).Renames ρ p Eq (checkBlock (b.rename ρ))
  | .mk _ sts, h => by
    rw [Block.rename, checkBlock, checkBlock]
    exact Renames.push.bind fun _ _ _ => (checkStmts_renames hρ sts h).bind fun _ _ _ => .pop

theorem checkBlock?_renames (hρ : ρ.Suits p) :
    ∀ b : Option Block, Block.optionIdentifiers b ⊆ p.identifiers →
      (checkBlock? b).Renames ρ p Eq (checkBlock? (Block.optionRename ρ b))
  | none, _ => by
    rw [Block.optionRename, checkBlock?]
    exact .pure rfl
  | some b, h => by
    rw [Block.optionRename, checkBlock?, checkBlock?]
    exact checkBlock_renames hρ b h

theorem checkStmts_renames (hρ : ρ.Suits p) :
    ∀ sts : List Stmt, Stmt.allIdentifiers sts ⊆ p.identifiers →
      (checkStmts sts).Renames ρ p Eq (checkStmts (Stmt.allRename ρ sts))
  | [], _ => by
    rw [Stmt.allRename, checkStmts]
    exact .pure rfl
  | st :: sts, h => by
    rw [Stmt.allIdentifiers, List.append_subset] at h
    rw [Stmt.allRename, checkStmts, checkStmts]
    exact (checkStmt_renames hρ st h.1).bind fun _ _ _ => checkStmts_renames hρ sts h.2

end

/-! ## Functions -/

theorem bindParams_renames (hρ : ρ.Suits p) {func : String} (hfunc : .func func ∈ p.identifiers)
    {ps : List Param} (h : ∀ param ∈ ps, .var param.name ∈ p.identifiers) :
    (bindParams func ps).Renames ρ p Eq
      (bindParams (ρ.func func) (ps.map (Param.rename ρ))) := by
  induction ps with
  | nil => exact .pure rfl
  | cons param ps ih =>
    rw [List.forall_mem_cons] at h
    refine (Renames.resolveType param.type param.loc).bind fun type _ htype => ?_
    subst htype
    refine (Renames.declare hρ (paramSymbol param type) h.1).bind fun fresh _ hfresh => ?_
    subst hfresh
    have hmem : [Identifier.var param.name, Identifier.func func] ⊆ p.identifiers := by
      simpa using ⟨h.1, hfunc⟩
    exact (Renames.reportIf _ (.duplicateParameter param.name func) param.loc hmem).bind
      fun _ _ _ => ih h.2

theorem checkBody_renames (hρ : ρ.Suits p) {f : FunctionDef} (h : f.identifiers ⊆ p.identifiers) :
    (checkBody f).Renames ρ p Eq (checkBody (f.rename ρ)) := by
  rw [FunctionDef.identifiers, List.cons_subset, List.append_subset] at h
  obtain ⟨hname, hparams, hbody⟩ := h
  have hbody' : Stmt.allIdentifiers f.body.statements ⊆ p.identifiers := by
    cases hb : f.body
    rwa [hb] at hbody
  rw [checkBody, checkBody, show (f.rename ρ).body.statements = Stmt.allRename ρ f.body.statements
    from Block.statements_rename ρ f.body]
  refine Renames.push.bind fun _ _ _ => ?_
  refine (bindParams_renames hρ hname fun param hparam => ?_).bind fun _ _ _ =>
    checkStmts_renames hρ _ hbody'
  exact hparams (List.mem_map_of_mem hparam)

end Checking

end

end Sema
