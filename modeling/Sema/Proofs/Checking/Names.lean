import Sema.Proofs.Checking.FirstDefinitions
import Sema.Proofs.Diagnostics.Texts
import Sema.Proofs.Syntax.Names

/-!
# Names in reports

A report shows names between the words of its message (`Violation.names`). The check of a program
does not make any up: each of them stands in a node of the program (`Program.namesIn_reports`).

For the walks this says that they find nothing but with names that are admitted, if the names in
the walked part are, and that of the function which the walk is in (`Walk.Keeps`). It is kept from
one walk to the next, and holds of the elementary walks.
-/

namespace Sema

variable {N : String → Prop}

/-! ## Names of findings -/

/-- The names that the message of a violation shows, those of types that are not defined among
them. -/
def Violation.names : Violation → List String
  | .undefinedType e => [e.name]
  | v => v.identifiers.map Identifier.text

/-- Whether `N` admits the names that a finding reports. -/
def Finding.NamesIn (N : String → Prop) : Finding → Prop
  | .violation v _ => ∀ x ∈ v.names, N x
  | _ => True

theorem Ty.mem_of_resolve {name : Option String} {e : Ty.Undefined}
    (h : Ty.resolve name = .error e) : e.name ∈ name := by
  cases name with
  | none => cases h
  | some s =>
    simp only [resolve] at h
    split at h
    · cases h
    · exact congrArg some (congrArg Undefined.name (Except.error.inj h))

namespace Walk

variable {α β : Type}

/-- The walk finds only names that `N` admits, if `N` admits the name of the function that the walk
is in. -/
def Keeps (N : String → Prop) (w : Walk α) : Prop :=
  ∀ env s fs a s', (∀ c ∈ env.caller, N c.name) → w.Gives env s fs a s' →
    ∀ finding ∈ fs, finding.NamesIn N

theorem Finds.keeps {w : Walk α} (hw : w.Finds (Finding.NamesIn N)) : w.Keeps N :=
  fun env s fs a s' _ h => hw env s fs a s' h

namespace Keeps

theorem bind {w : Walk α} {f : α → Walk β} (hw : w.Keeps N) (hf : ∀ a, (f a).Keeps N) :
    (w >>= f).Keeps N := by
  intro env s fs b s' hcaller h finding hmem
  obtain ⟨fs₁, a, s₁, fs₂, h₁, h₂, rfl⟩ := gives_bind.mp h
  rcases List.mem_append.mp hmem with hmem | hmem
  · exact hw env s fs₁ a s₁ hcaller h₁ finding hmem
  · exact hf a env s₁ fs₂ b s' hcaller h₂ finding hmem

theorem read {g : Env → ScopeStack → α} : Keeps N (fun env s => ⟨s, [], .ok (g env s)⟩) :=
  finds_read.keeps

theorem find {finding : Finding} (h : finding.NamesIn N) : (find finding).Keeps N :=
  (finds_find h).keeps

theorem report {v : Violation} {loc : Location} (h : ∀ x ∈ v.names, N x) :
    (report v loc).Keeps N :=
  find h

theorem reportIf {broken : Bool} {v : Violation} {loc : Location} (h : ∀ x ∈ v.names, N x) :
    (reportIf broken v loc).Keeps N := by
  cases broken with
  | false => exact read
  | true => exact report h

theorem fail {e : CheckError} : (fail e : Walk α).Keeps N :=
  (finds_fail e).keeps

theorem caller_bind {f : Option Caller → Walk β}
    (hf : ∀ caller, (∀ c ∈ caller, N c.name) → (f caller).Keeps N) : (caller >>= f).Keeps N := by
  intro env s fs b s' hcaller h finding hmem
  obtain ⟨fs₁, c, s₁, fs₂, h₁, h₂, rfl⟩ := gives_bind.mp h
  obtain ⟨rfl, rfl, rfl⟩ := gives_read.mp h₁
  exact hf _ hcaller env s fs₂ b s' hcaller h₂ finding hmem

theorem enclosed {w : Walk Unit} (hw : w.Keeps N) : (enclosed w).Keeps N :=
  finds_push.keeps.bind fun _ => hw.bind fun _ => finds_pop.keeps

theorem resolveType {name : Option String} {loc : Location} (h : ∀ x ∈ name, N x) :
    (resolveType name loc).Keeps N := by
  unfold Walk.resolveType
  split
  · exact read
  · next e he =>
    refine bind (report (List.forall_mem_singleton.mpr ?_)) fun _ => read
    exact h e.name (Ty.mem_of_resolve he)

end Keeps

end Walk

/-! ## Expressions -/

namespace Checking

open Walk

theorem checkArguments_keeps {func : String} (hfunc : ∀ x ∈ [func], N x) (loc : Location)
    (index : Nat) (declared actual : List Ty) :
    (checkArguments func loc index declared actual).Keeps N := by
  fun_induction checkArguments func loc index declared actual with
  | case1 index τ declared σ actual ih => exact Keeps.bind (.reportIf hfunc) fun _ => ih
  | case2 => exact .read

theorem checkCallee_keeps {func : String} (hfunc : ∀ x ∈ [func], N x) (loc : Location) :
    (checkCallee func loc).Keeps N := by
  refine Keeps.read.bind fun callee => ?_
  cases callee with
  | none => exact Keeps.bind (.report hfunc) fun _ => .read
  | some sig =>
    refine Keeps.bind (.reportIf (List.forall_mem_nil _)) fun _ => Keeps.read.bind fun caller => ?_
    dsimp only
    split
    · exact Keeps.bind (.find trivial) fun _ => .read
    · exact .read

theorem callType_keeps {func : String} (hfunc : ∀ x ∈ [func], N x) (loc : Location)
    (σs : List Ty) (callee : Option Signature) : (callType func loc σs callee).Keeps N := by
  cases callee with
  | none => exact .read
  | some sig =>
    dsimp only [callType]
    split
    · exact (checkArguments_keeps hfunc _ _ _ _).bind fun _ => .read
    · exact Keeps.bind (.report hfunc) fun _ => .read

theorem checkAssign_keeps {target : String} (htarget : ∀ x ∈ [target], N x) (loc : Location)
    {value : Option (Walk Ty)} (hvalue : ∀ w ∈ value, w.Keeps N) :
    (checkAssign target loc value).Keeps N := by
  refine Keeps.read.bind fun symbol => ?_
  cases symbol with
  | none =>
    refine Keeps.bind (.report htarget) fun _ => ?_
    cases value with
    | none => exact .read
    | some w => exact (hvalue w rfl).bind fun _ => .read
  | some symbol =>
    refine Keeps.bind (.reportIf htarget) fun _ => ?_
    cases value with
    | none => exact .read
    | some w => exact (hvalue w rfl).bind fun _ => Keeps.bind (.reportIf htarget) fun _ => .read

mutual

theorem checkExpr_keeps : ∀ e : Expr, (Node.expr e).NamesIn N → (checkExpr e).Keeps N
  | .int _ _, _ | .float _ _, _ | .string _ _, _ => .read
  | .name loc ident, h => by
    refine Keeps.read.bind fun symbol => ?_
    cases symbol with
    | none => exact Keeps.bind (.report h.here) fun _ => .read
    | some symbol => exact .read
  | .paren _ value, h => checkExpr_keeps value (h.child (.head _))
  | .not _ operand, h => (checkExpr_keeps operand (h.child (.head _))).bind fun _ => .read
  | .binary _ op left right, h => by
    refine (checkExpr_keeps left (h.child (.head _))).bind fun _ =>
      (checkExpr_keeps right (h.child (.tail _ (.head _)))).bind fun _ => ?_
    split
    · exact .read
    · exact .fail
  | .assign loc target value, h =>
    checkAssign_keeps h.here loc (checkValue?_keeps value fun _ he =>
      h.child (Node.mem_of_mem_option _ he))
  | .call loc func args, h =>
    (checkCallee_keeps h.here loc).bind fun _ =>
      (checkExprs_keeps args fun _ he => h.child (List.mem_map_of_mem he)).bind fun _ =>
        callType_keeps h.here loc _ _
  | .unsupported, _ => .fail

theorem checkValue?_keeps : ∀ value : Option Expr, (∀ e ∈ value, (Node.expr e).NamesIn N) →
    ∀ w ∈ checkValue? value, w.Keeps N
  | none, _ => fun _ hw => nomatch hw
  | some e, h => fun _ hw => Option.some.inj hw ▸ checkExpr_keeps e (h e rfl)

theorem checkExprs_keeps : ∀ es : List Expr, (∀ e ∈ es, (Node.expr e).NamesIn N) →
    (checkExprs es).Keeps N
  | [], _ => .read
  | e :: es, h =>
    (checkExpr_keeps e (h e (.head _))).bind fun _ =>
      (checkExprs_keeps es fun e he => h e (.tail _ he)).bind fun _ => .read

end

/-! ## Statements -/

theorem checkVarDecl_keeps (extent : Extent) (d : VarDecl) (h : (Node.var d).NamesIn N) :
    (checkVarDecl extent d).Keeps N := by
  obtain ⟨hname, htype⟩ := List.forall_mem_cons.mp h.here
  have hname : ∀ x ∈ [d.name], N x := List.forall_mem_singleton.mpr hname
  have hdeclare : ∀ symbol : Symbol, (Walk.declare symbol >>= fun fresh =>
      if fresh then Walk.find (extent.found symbol)
      else Walk.report (extent.duplicate d.name) d.loc).Keeps N := by
    intro symbol
    refine (finds_declare symbol).keeps.bind fun fresh => ?_
    cases fresh with
    | true => cases extent <;> exact .find trivial
    | false => cases extent <;> exact .report hname
  refine (Keeps.resolveType fun x hx => htype x (Option.mem_toList.mpr hx)).bind fun τ => ?_
  cases hv : d.value with
  | none => exact hdeclare _
  | some e =>
    have he : (Node.expr e).NamesIn N := h.child (by simp [Node.children, hv])
    exact (checkExpr_keeps e he).bind fun _ => Keeps.bind (.reportIf hname) fun _ => hdeclare _

theorem checkCondition?_keeps (condition : Option Expr)
    (h : ∀ e ∈ condition, (Node.expr e).NamesIn N) : (checkCondition? condition).Keeps N := by
  cases condition with
  | none => exact .read
  | some e => exact (checkExpr_keeps e (h e rfl)).bind fun _ => .read

theorem checkReturn_keeps (loc : Location) (value : Option Expr)
    (h : ∀ e ∈ value, (Node.expr e).NamesIn N) : (checkReturn loc value).Keeps N := by
  refine Keeps.caller_bind fun caller hcaller => ?_
  cases caller with
  | none => exact .read
  | some caller =>
    have hname : ∀ x ∈ [caller.name], N x := List.forall_mem_singleton.mpr (hcaller caller rfl)
    refine Keeps.bind (.find trivial) fun _ => ?_
    cases value with
    | none => exact Keeps.read.bind fun _ => .reportIf hname
    | some e => exact (checkExpr_keeps e (h e rfl)).bind fun _ => .reportIf hname

mutual

theorem checkStmt_keeps : ∀ st : Stmt, st.node.NamesIn N → (checkStmt st).Keeps N
  | .varDecl d, h => checkVarDecl_keeps .inFunction d h
  | .assign loc target value, h =>
    (checkAssign_keeps h.here loc (checkValue?_keeps value fun _ he =>
      h.child (Node.mem_of_mem_option _ he))).bind fun _ => .read
  | .expr _ value, h => (checkExpr_keeps value (h.child (.head _))).bind fun _ => .read
  | .block _ body, h => checkBlock_keeps body (h.child (.head _))
  | .ifThen loc condition thenBlock elseBlock, h =>
    Keeps.bind (.find trivial) fun _ =>
      (checkExpr_keeps condition (h.child (.head _))).bind fun _ =>
        (checkBlock_keeps thenBlock (h.child (.tail _ (.head _)))).bind fun _ =>
          checkBlock?_keeps elseBlock fun _ hb =>
            h.child (.tail _ (.tail _ (Node.mem_of_mem_option _ hb)))
  | .whileLoop loc condition body, h =>
    Keeps.bind (.find trivial) fun _ =>
      (checkExpr_keeps condition (h.child (.head _))).bind fun _ =>
        checkBlock_keeps body (h.child (.tail _ (.head _)))
  | .forLoop loc init condition update body, h => by
    have hinit : ∀ s ∈ init, s.node.NamesIn N :=
      fun _ hs => h.child (Stmt.init_mem_children hs)
    have hcondition : ∀ e ∈ condition, (Node.expr e).NamesIn N :=
      fun _ he => h.child (Stmt.condition_mem_children he)
    have hupdate : ∀ s ∈ update, s.node.NamesIn N :=
      fun _ hs => h.child (Stmt.update_mem_children hs)
    have hbody : (Node.block body).NamesIn N := h.child Stmt.body_mem_children
    rw [checkStmt_forLoop]
    refine Keeps.bind (.find trivial) fun _ => .enclosed ?_
    exact (checkStmt?_keeps init hinit).bind fun _ =>
      (checkCondition?_keeps condition hcondition).bind fun _ =>
        (checkStmt?_keeps update hupdate).bind fun _ => checkBlock_keeps body hbody
  | .result loc value, h =>
    checkReturn_keeps loc value fun _ he =>
      h.child (Node.mem_of_mem_option _ he)
  | .unsupported, _ => .fail

theorem checkStmt?_keeps : ∀ st : Option Stmt, (∀ s ∈ st, s.node.NamesIn N) →
    (checkStmt? st).Keeps N
  | none, _ => .read
  | some st, h => checkStmt_keeps st (h st rfl)

theorem checkBlock_keeps : ∀ b : Block, (Node.block b).NamesIn N → (checkBlock b).Keeps N
  | .mk _ statements, h => by
    rw [checkBlock_eq]
    exact .enclosed (checkStmts_keeps statements fun _ hs => h.child (List.mem_map_of_mem hs))

theorem checkBlock?_keeps : ∀ b : Option Block, (∀ block ∈ b, (Node.block block).NamesIn N) →
    (checkBlock? b).Keeps N
  | none, _ => .read
  | some b, h => checkBlock_keeps b (h b rfl)

theorem checkStmts_keeps : ∀ ss : List Stmt, (∀ s ∈ ss, s.node.NamesIn N) →
    (checkStmts ss).Keeps N
  | [], _ => .read
  | st :: ss, h =>
    (checkStmt_keeps st (h st (.head _))).bind fun _ =>
      checkStmts_keeps ss fun s hs => h s (.tail _ hs)

end

/-! ## Declarations -/

theorem bindParams_keeps {func : String} (hfunc : N func) (ps : List Param)
    (h : ∀ p ∈ ps, (Node.param p).NamesIn N) : (bindParams func ps).Keeps N := by
  induction ps with
  | nil => exact .read
  | cons p ps ih =>
    obtain ⟨hp, hps⟩ := List.forall_mem_cons.mp h
    obtain ⟨hname, htype⟩ := List.forall_mem_cons.mp hp.here
    have hnames : ∀ x ∈ [p.name, func], N x :=
      List.forall_mem_cons.mpr ⟨hname, List.forall_mem_singleton.mpr hfunc⟩
    exact (Keeps.resolveType fun x hx => htype x (Option.mem_toList.mpr hx)).bind fun _ =>
      (finds_declare _).keeps.bind fun _ => Keeps.bind (.reportIf hnames) fun _ => ih hps

end Checking

namespace Node.NamesIn

variable {f : FunctionDef}

theorem name (h : (Node.function f).NamesIn N) : N f.name :=
  h.here _ (.head _)

theorem result (h : (Node.function f).NamesIn N) : ∀ x ∈ f.returnType, N x :=
  fun x hx => h.here x (.tail _ (Option.mem_toList.mpr hx))

theorem params (h : (Node.function f).NamesIn N) : ∀ p ∈ f.params, (Node.param p).NamesIn N :=
  fun _ hp => h.child (f.param_mem_children hp)

theorem body (h : (Node.function f).NamesIn N) : (Node.block f.body).NamesIn N :=
  h.child f.body_mem_children

end Node.NamesIn

theorem Decl.walk_keeps {decl : Decl} (h : ∀ n ∈ decl.node?, n.NamesIn N) :
    decl.walk.Keeps N := by
  cases decl with
  | func f =>
    have hf : (Node.function f).NamesIn N := h _ rfl
    exact Walk.finds_push.keeps.bind fun _ =>
      (Checking.bindParams_keeps hf.name f.params hf.params).bind fun _ =>
        Checking.checkStmts_keeps _ fun _ hs => hf.body.child (List.mem_map_of_mem hs)
  | var d => exact Checking.checkVarDecl_keeps .global d (h _ rfl)
  | unsupported => exact .fail

/-! ## Reports -/

/-- Whether a diagnostic reports a violation with no names but those that `N` admits. -/
def Diagnostic.NamesIn (N : String → Prop) (d : Diagnostic) : Prop :=
  ∃ v : Violation, (∀ x ∈ v.names, N x) ∧ d.code = v.code ∧ d.message = v.message

namespace Diagnostic.NamesIn

variable {d : Diagnostic}

theorem located {v : Violation} (loc : Location) (h : ∀ x ∈ v.names, N x) :
    (v.located loc).NamesIn N :=
  ⟨v, h, rfl, rfl⟩

theorem of_mem_typeReports {name : Option String} {loc : Location} (hname : ∀ x ∈ name, N x)
    (h : d ∈ typeReports name loc) : d.NamesIn N := by
  obtain ⟨e, he, rfl⟩ := exists_of_mem_typeReports h
  exact located loc (List.forall_mem_singleton.mpr (hname _ (Ty.mem_of_resolve he)))

theorem of_mem_headReports {f : FunctionDef} (hf : (Node.function f).NamesIn N)
    (h : d ∈ f.headReports) : d.NamesIn N := by
  rcases List.mem_append.mp h with h | h
  · exact of_mem_typeReports hf.result h
  · obtain ⟨p, hp, h⟩ := exists_of_mem_paramReports h
    obtain ⟨hname, htype⟩ := List.forall_mem_cons.mp (hf.params p hp).here
    rcases h with rfl | h
    · exact located _ (List.forall_mem_cons.mpr ⟨hname, List.forall_mem_singleton.mpr hf.name⟩)
    · exact of_mem_typeReports (fun x hx => htype x (Option.mem_toList.mpr hx)) h

theorem of_mem_site {callee? : String → Option Signature} {site : Site}
    (hsite : site.Walks callee?) (hdecl : ∀ n ∈ site.decl.node?, n.NamesIn N)
    (h : d ∈ site.reports callee?) : d.NamesIn N := by
  rcases List.mem_append.mp h with h | h
  · obtain ⟨s', fs, hwalked⟩ := Site.walks_iff.mp hsite
    have hcaller : ∀ c ∈ site.decl.caller?, N c.name := by
      intro c hc
      obtain ⟨G, decl⟩ := site
      cases decl <;> cases hc
      exact (hdecl _ rfl).name
    obtain ⟨finding, hmem, hd⟩ := List.mem_filterMap.mp h
    rw [hwalked] at hmem
    have hnames := Decl.walk_keeps hdecl _ _ _ _ _ hcaller hwalked finding hmem
    cases finding with
    | violation v loc =>
      obtain rfl := Option.some.inj hd
      exact located loc hnames
    | _ => cases hd
  · obtain ⟨f, hfunc, rfl⟩ := Decl.exists_of_mem_returnReports h
    rw [hfunc] at hdecl
    exact located _ (List.forall_mem_singleton.mpr (hdecl _ rfl).name)

end Diagnostic.NamesIn

namespace Program

variable {p : Program}

/-- All names that are reported are names in the program. -/
theorem namesIn_reports (hp : p.Walks) (hN : ∀ n ∈ p.nodes, ∀ x ∈ n.names, N x) {d : Diagnostic}
    (h : d ∈ p.reports) : d.NamesIn N := by
  have htops : ∀ n ∈ p.tops, n.NamesIn N := fun n hn m hm =>
    hN m (mem_nodes_iff.mpr ⟨n, hn, hm⟩)
  have hfunctions : ∀ f ∈ p.functions, (Node.function f).NamesIn N := fun f hf =>
    htops _ (function_mem_tops hf)
  rcases mem_reports.mp h with ⟨f, hf, hd⟩ | ⟨f, hf, rfl⟩ | ⟨site, hsite, hd⟩ | hmain
  · exact .of_mem_headReports (hfunctions f hf) hd
  · have hname := (hfunctions f (sublist_repeats.subset hf)).name
    exact .located _ (List.forall_mem_singleton.mpr hname)
  · exact .of_mem_site (hp site hsite)
      (fun n hn => htops n (mem_tops (decl_mem_of_mem_sites hsite) hn)) hd
  · rw [(mem_mainReports.mp hmain).2]
    exact ⟨.missingMain, List.forall_mem_nil _, rfl, rfl⟩

end Program

end Sema
