import Mathlib.Data.List.Forall2
import Sema.Proofs.Checking.Faults
import Sema.Proofs.Checking.Summary

/-!
# What a statement changes

A statement that is walked to its end leaves a small trace in the checker (`Footprint`). Of the
scopes it changes the innermost frame only, and that only if it is a declaration, which adds its own
binding (`checkStmt_binds`). Of the functions it changes the one that it is in, and of that one only
what grows with its body (`FunctionSymbol.Grows`): findings are noted there one by one, and each of
them adds something (`FunctionSymbol.Grows.note`).

So the frames that are opened in a check are closed in it (`footprint_checkStmt`).
-/

namespace Sema

/-! ## Frames -/

namespace ScopeStack

variable {s t : ScopeStack} {name : String} {symbol : Symbol}

theorem depth_of_tail_frames (h : t.frames.tail = s.frames.tail) : t.depth = s.depth := by
  have hdepth : ∀ s : ScopeStack, s.depth = s.frames.tail.length + 1 := fun s => by
    simp [depth, frames]
  rw [hdepth, hdepth, h]

theorem innermost_of_declare (h : s.declare name symbol = .ok t) :
    s.innermost.lookup name = none ∧ t.innermost = (name, symbol) :: s.innermost := by
  obtain ⟨F, rest, hs, hl, ht⟩ := declare_eq_ok_iff.mp h
  obtain ⟨_, hs'⟩ := s.exists_frames
  obtain ⟨_, ht'⟩ := t.exists_frames
  rw [hs] at hs'
  rw [ht] at ht'
  obtain ⟨rfl, -⟩ := List.cons.inj hs'
  exact ⟨hl, (List.cons.inj ht').1.symm⟩

end ScopeStack

/-! ## Functions that grow -/

/-- A function with the same head has all that the body has shown so far, in the same order, and
what was added to it. -/
structure FunctionSymbol.Grows (f g : FunctionSymbol) : Prop where
  head : g.head = f.head
  locals : f.locals <+: g.locals
  controls : f.controls <+: g.controls
  hasReturn : f.hasReturn = true → g.hasReturn = true
  isRecursive : f.isRecursive = true → g.isRecursive = true

namespace FunctionSymbol.Grows

variable {f g h : FunctionSymbol}

theorem refl (f : FunctionSymbol) : f.Grows f :=
  ⟨rfl, List.prefix_rfl, List.prefix_rfl, id, id⟩

theorem trans (hfg : f.Grows g) (hgh : g.Grows h) : f.Grows h where
  head := hgh.head.trans hfg.head
  locals := hfg.locals.trans hgh.locals
  controls := hfg.controls.trans hgh.controls
  hasReturn := hgh.hasReturn ∘ hfg.hasReturn
  isRecursive := hgh.isRecursive ∘ hfg.isRecursive

theorem note (f : FunctionSymbol) (finding : Finding) : f.Grows (f.note finding) := by
  refine ⟨f.head_note finding, ?_, ?_, ?_, ?_⟩ <;> cases finding <;> simp [FunctionSymbol.note]

theorem foldl_note (f : FunctionSymbol) (findings : List Finding) :
    f.Grows (findings.foldl FunctionSymbol.note f) := by
  induction findings generalizing f with
  | nil => exact refl f
  | cons finding findings ih => exact (note f finding).trans (ih _)

end FunctionSymbol.Grows

/-! ## Footprints -/

/-- What the function that a checker is in can become: an entry of the table stays that entry, and a
function outside of the table grows. -/
inductive Current.Grows : Current → Current → Prop where
  | refl (current : Current) : Grows current current
  | detached {f g : FunctionSymbol} (grows : f.Grows g) : Grows (.detached f) (.detached g)

/-- What one entry of the table can become, given where the checker is. -/
def EntryGrows (current : Current) (e e' : String × FunctionSymbol) : Prop :=
  e'.1 = e.1 ∧ if current = .entry e.1 then e.2.Grows e'.2 else e'.2 = e.2

/-- The scopes after a statement: as before, unless the statement declares a variable. Then the name
may have been free in the innermost frame and be bound there now. -/
def Stmt.Binds (st : Stmt) (s s' : ScopeStack) : Prop :=
  s' = s ∨ ∃ d, st = .varDecl d ∧ s.declare d.name d.symbol = .ok s'

/-- The trace that a statement leaves in a checker. -/
structure Footprint (st : Stmt) (c c' : Checker) : Prop where
  depth : c'.scopes.depth = c.scopes.depth
  outer : c'.scopes.frames.tail = c.scopes.frames.tail
  innermost : c'.scopes.innermost = c.scopes.innermost ∨
    ∃ d, st = .varDecl d ∧ c.scopes.innermost.lookup d.name = none ∧
      c'.scopes.innermost = (d.name, d.symbol) :: c.scopes.innermost
  globals : c'.globals = c.globals
  functions : List.Forall₂ (EntryGrows c.current) c.functions.entries c'.functions.entries
  current : c.current.Grows c'.current
  diagnostics : c.sink.items <+: c'.sink.items

namespace Checking

open Walk

variable {env : Env} {s s' : ScopeStack} {fs : List Finding} {u : Unit}

theorem declare_or_report_gives {symbol : Symbol} {finding : Finding} {v : Violation}
    {loc : Location}
    (h : (Walk.declare symbol >>= fun fresh =>
      if fresh then Walk.find finding else Walk.report v loc).Gives env s fs u s') :
    s' = s ∨ s.declare symbol.name symbol = .ok s' := by
  obtain ⟨_, fresh, s₁, _, hdeclare, hfind, rfl⟩ := gives_bind.mp h
  have hs' : s' = s₁ := by
    cases fresh <;> exact (gives_find.mp hfind).1.symm
  subst hs'
  obtain ⟨⟨hok, -⟩ | ⟨-, rfl, -⟩, -⟩ := gives_declare.mp hdeclare
  · exact .inr hok
  · exact .inl rfl

theorem checkVarDecl_gives {extent : Extent} {d : VarDecl}
    (h : (checkVarDecl extent d).Gives env s fs u s') :
    s' = s ∨ s.declare d.name d.symbol = .ok s' := by
  obtain ⟨_, τ, _, _, htype, hrest, -⟩ := gives_bind.mp h
  obtain ⟨rfl, rfl, -⟩ := (reports_resolveType _ _).eq_of_gives htype
  cases hv : d.value with
  | none =>
    rw [hv] at hrest
    exact declare_or_report_gives hrest
  | some e =>
    rw [hv] at hrest
    obtain ⟨_, _, _, _, hexpr, hrest, -⟩ := gives_bind.mp hrest
    cases still_checkExpr e _ _ _ _ _ hexpr
    obtain ⟨_, _, _, _, hreport, hbind, -⟩ := gives_bind.mp hrest
    obtain ⟨-, rfl, -⟩ := (Reports.reportIf _ _ _).eq_of_gives hreport
    exact declare_or_report_gives hbind

theorem still_checkReturn (loc : Location) (value : Option Expr) :
    (checkReturn loc value).Still := by
  refine still_read.bind fun caller => ?_
  cases caller with
  | none => exact still_read
  | some caller =>
    refine (still_find _).bind fun _ => ?_
    cases value with
    | none => exact closed_still.reportIf _ _ _
    | some e => exact (still_checkExpr e).bind fun _ => closed_still.reportIf _ _ _

/-- Only a declaration binds a name in the frame that it stands in. -/
theorem checkStmt_binds {st : Stmt} (h : (checkStmt st).Gives env s fs u s') : st.Binds s s' := by
  have hstill : (checkStmt st).Still → st.Binds s s' := fun hst => .inl (hst _ _ _ _ _ h)
  cases st with
  | varDecl d => exact (checkVarDecl_gives h).imp_right fun hok => ⟨d, rfl, hok⟩
  | assign loc target value =>
    exact hstill ((still_checkExpr (.assign loc target value)).bind fun _ => still_read)
  | expr _ value => exact hstill ((still_checkExpr value).bind fun _ => still_read)
  | block _ body => exact hstill (still_checkBlock body)
  | ifThen loc condition thenBlock elseBlock =>
    exact hstill <| (still_find _).bind fun _ => (still_checkExpr condition).bind fun _ =>
      (still_checkBlock thenBlock).bind fun _ => still_checkBlock? elseBlock
  | whileLoop loc condition body =>
    exact hstill <| (still_find _).bind fun _ => (still_checkExpr condition).bind fun _ =>
      still_checkBlock body
  | forLoop loc init condition update body =>
    rw [checkStmt_forLoop] at hstill
    exact hstill <| (still_find _).bind fun _ =>
      (framed_forLoop init condition update body).still_enclosed
  | result loc value => exact hstill (still_checkReturn loc value)
  | unsupported => exact absurd h not_gives_fail

theorem finds_checkStmt (st : Stmt) : (checkStmt st).Finds Finding.Inner :=
  closed_checkStmt closedInFrames_finds_inner st (.inr finds_fail)

end Checking

/-! ## What a checker takes in from a statement -/

namespace Checker

variable (c : Checker) {fs : List Finding}

theorem entries_grow_refl (current : Current) (l : List (String × FunctionSymbol)) :
    List.Forall₂ (EntryGrows current) l l := by
  refine List.forall₂_same.mpr fun e _ => ⟨rfl, ?_⟩
  split
  · exact .refl e.2
  · rfl

theorem absorbed_grows (fs : List Finding) :
    List.Forall₂ (EntryGrows c.current) c.functions.entries (fs.foldl absorb c).functions.entries ∧
      c.current.Grows (fs.foldl absorb c).current ∧
      (fs.foldl absorb c).globals = c.globals ++ fs.filterMap Finding.global? := by
  cases h : c.current with
  | nowhere =>
    rw [absorbed_nowhere c h]
    exact ⟨entries_grow_refl _ _, h ▸ .refl _, rfl⟩
  | entry key =>
    rw [absorbed_entry c h]
    refine ⟨?_, h ▸ .refl _, rfl⟩
    rw [FunctionTable.modify, List.forall₂_map_right_iff]
    refine List.forall₂_same.mpr fun e _ => ?_
    by_cases hkey : e.1 = key
    · simpa [EntryGrows, hkey] using FunctionSymbol.Grows.foldl_note e.2 fs
    · simp [EntryGrows, hkey, Ne.symm hkey]
  | detached f =>
    rw [absorbed_detached c h]
    exact ⟨entries_grow_refl _ _, .detached (.foldl_note f fs), rfl⟩

end Checker

namespace Checking

theorem footprint_of_run {st : Stmt} {c c' : Checker}
    (h : (CheckM.walk (checkStmt st)).run c = (.ok (), c')) : Footprint st c c' := by
  obtain ⟨fs, s', hst, rfl⟩ := CheckM.gives_walk.mp h
  obtain ⟨hscopes, hsink, -⟩ := Checker.absorbed_frame { c with scopes := s' } fs
  obtain ⟨hentries, hcurrent, hglobals⟩ := Checker.absorbed_grows { c with scopes := s' } fs
  have houter : s'.frames.tail = c.scopes.frames.tail :=
    (framed_checkStmt st _ _ _ _ _ hst).1
  have hnone : fs.filterMap Finding.global? = [] :=
    List.filterMap_eq_nil_iff.mpr fun finding hmem =>
      (finds_checkStmt st _ _ _ _ _ hst finding hmem).2
  obtain ⟨more, hmore⟩ := c.sink.exists_items_extend (fs.filterMap Finding.diagnostic?)
  refine ⟨?_, ?_, ?_, ?_, hentries, hcurrent, ?_⟩
  · rw [hscopes]
    exact ScopeStack.depth_of_tail_frames houter
  · rw [hscopes]
    exact houter
  · rw [hscopes]
    rcases checkStmt_binds hst with rfl | ⟨d, rfl, hok⟩
    · exact .inl rfl
    · exact .inr ⟨d, rfl, ScopeStack.innermost_of_declare hok⟩
  · rw [hglobals, hnone, List.append_nil]
  · rw [hsink]
    exact ⟨more, hmore.symm⟩

end Checking

/-! ## Checks that are balanced -/

/-- Whether a step that starts outside of functions and succeeds has closed the frames that it has
opened, and is outside of functions again. -/
def CheckM.Balanced (m : CheckM Unit) : Prop :=
  ∀ c c', m.Gives c () c' → c.current = .nowhere →
    c'.scopes.frames.tail = c.scopes.frames.tail ∧ c'.current = .nowhere

theorem CheckM.Balanced.bind {m : CheckM Unit} {f : Unit → CheckM Unit} (hm : m.Balanced)
    (hf : ∀ u, (f u).Balanced) : (m >>= f).Balanced := by
  intro c c' h hc
  obtain ⟨_, c₁, h₁, h₂⟩ := CheckM.gives_bind.mp h
  obtain ⟨hscopes₁, hcurrent₁⟩ := hm c c₁ h₁ hc
  obtain ⟨hscopes₂, hcurrent₂⟩ := hf () c₁ c' h₂ hcurrent₁
  exact ⟨hscopes₂.trans hscopes₁, hcurrent₂⟩

namespace Checking

open CheckM (walk setCurrent)

variable {c c' : Checker}

theorem closing_gives {f : FunctionDef} (h : (closing f).Gives c () c') :
    c'.scopes = c.scopes ∧ c'.current = .nowhere := by
  obtain ⟨_, _, hwalk, -⟩ := CheckM.gives_bind.mp h
  obtain ⟨_, _, hbody, -⟩ := CheckM.gives_walk.mp hwalk
  obtain ⟨_, hrun, hclosed⟩ := run_closing hbody
  rw [CheckM.Gives, hrun] at h
  cases h
  exact hclosed

theorem balanced_checkFunction (f : FunctionDef) (registered : Bool) :
    (checkFunction f registered).Balanced := by
  intro c c' h _
  cases registered with
  | true =>
    obtain ⟨hscopes, hcurrent⟩ := closing_gives (c := { c with current := .entry f.name }) h
    exact ⟨by rw [hscopes], hcurrent⟩
  | false =>
    have h := (CheckM.gives_walk_reports_bind (Walk.reports_resolveType _ _)).mp h
    obtain ⟨hscopes, hcurrent⟩ := closing_gives h
    exact ⟨by rw [hscopes], hcurrent⟩

theorem balanced_checkVarDecl (d : VarDecl) : (walk (checkVarDecl .global d)).Balanced := by
  intro c c' h hc
  obtain ⟨fs, s', hwalk, rfl⟩ := CheckM.gives_walk.mp h
  rw [Checker.absorbed_nowhere { c with scopes := s' } hc]
  exact ⟨(framed_checkVarDecl .global d _ _ _ _ _ hwalk).1, hc⟩

theorem balanced_checkDecls (taken : List String) (ds : List Decl) :
    (checkDecls taken ds).Balanced := by
  induction ds generalizing taken with
  | nil =>
    intro c c' h hc
    obtain ⟨-, rfl⟩ := CheckM.gives_pure.mp h
    exact ⟨rfl, hc⟩
  | cons d ds ih =>
    cases d with
    | func f => exact (balanced_checkFunction f _).bind fun _ => ih _
    | var d => exact (balanced_checkVarDecl d).bind fun _ => ih _
    | unsupported => exact fun c c' h => nomatch h

theorem balanced_checkMain : checkMain.Balanced := by
  intro c c' h hc
  rw [checkMain, CheckM.gives_modify] at h
  subst h
  split <;> exact ⟨rfl, hc⟩

theorem balanced_checkProgram (p : Program) : (checkProgram p).Balanced := by
  intro c c' h hc
  obtain ⟨_, c₁, hregister, hrest⟩ := CheckM.gives_bind.mp (CheckM.gives_get_bind.mp h)
  have hc₁ := registerFunctions_gives_iff.mp hregister
  subst hc₁
  have hdecls : (do
      checkDecls c.functions.keys p.declarations
      checkMain : CheckM Unit).Balanced :=
    (balanced_checkDecls _ _).bind fun _ => balanced_checkMain
  have hrest := hdecls _ c' hrest
  exact hrest hc

theorem checkProgram_ne_scope (p : Program) (c : Checker) (e : ScopeError) :
    ((checkProgram p).run c).1 ≠ .error (.scope e) := by
  rw [Ne, checkProgram_stops, firstError?, Option.map_eq_some_iff]
  rintro ⟨fault, -, hfault⟩
  cases fault <;> cases hfault

end Checking

/-- A statement that is walked to its end leaves a footprint in the checker, and nothing else. So a
check that starts with the global frame alone and outside of functions ends so, unless it stops; and
no check stops because of its scopes. -/
theorem footprint_checkStmt :
    (∀ (st : Stmt) (c c' : Checker),
      (CheckM.walk (Checking.checkStmt st)).run c = (.ok (), c') → Footprint st c c') ∧
    (∀ (p : Program) (c c' : Checker), c.scopes.depth = 1 → c.current = .nowhere →
      (Checking.checkProgram p).run c = (.ok (), c') →
        c'.scopes.depth = 1 ∧ c'.current = .nowhere) ∧
    ∀ (p : Program) (c : Checker) (e : ScopeError),
      ((Checking.checkProgram p).run c).1 ≠ .error (.scope e) := by
  refine ⟨fun _ _ _ => Checking.footprint_of_run, ?_, Checking.checkProgram_ne_scope⟩
  intro p c c' hdepth hcurrent h
  obtain ⟨hscopes, hcurrent'⟩ := Checking.balanced_checkProgram p c c' h hcurrent
  exact ⟨(ScopeStack.depth_of_tail_frames hscopes).trans hdepth, hcurrent'⟩

namespace Diving

def inside : Checker where
  scopes := ScopeStack.empty.push
  functions := ⟨[entry.entry, dive.entry]⟩
  current := .entry "dive"

/-- The statement `int depth = dive(n);`, which uses a name that is not declared. -/
def recursion : VarDecl where
  loc := place 3
  name := "depth"
  type := some "int"
  value := some (.call (place 3) "dive" [.name (place 3) "n"])

theorem footprint_recursion :
    (∃ c', (CheckM.walk (Checking.checkStmt (.varDecl recursion))).run inside = (.ok (), c') ∧
      Footprint (.varDecl recursion) inside c') ∧
    ∃ c', (Checking.checkProgram (program [entry, dive, again])).run Checker.empty = (.ok (), c') ∧
      c'.scopes.depth = 1 ∧ c'.current = .nowhere := by
  obtain ⟨hstmt, hprogram, -⟩ := footprint_checkStmt
  have hsupported : Stmt.Supported (.varDecl recursion) := by
    simp [Stmt.Supported, recursion, Expr.OptionSupported, Expr.Supported, Expr.AllSupported]
  have hcompletes := Checking.closed_checkStmt Walk.closedInFrames_completes _ (.inl hsupported)
  obtain ⟨_, c, hrun⟩ := CheckM.Completes.walk hcompletes.2 inside
  have hprograms : (program [entry, dive, again]).Supported := by
    simp [Program.Supported, program, Decl.Supported, depth, entry, dive, again, Block.Supported,
      Stmt.AllSupported, Stmt.Supported, Expr.OptionSupported, Expr.Supported, Expr.AllSupported]
  obtain ⟨_, c', hcheck⟩ := Checking.completes_checkProgram hprograms Checker.empty
  exact ⟨⟨c, hrun, hstmt _ _ _ hrun⟩, ⟨c', hcheck, hprogram _ _ _ rfl rfl hcheck⟩⟩

end Diving

end Sema
