import Sema.Proofs.Checking.FirstDefinitions
import Sema.Proofs.Syntax.Contents

/-!
# Walks that show what a body contains

The walk over a part of a body shows the items of that part (`Walk.Shows`): it lists their control
structures and their new variables, and finds whether they call the function that they are in.

Which variables are new depends on the names before them, so a walk is followed with the names that
have been declared so far, each with its frame. At the position `n` of the frame `φ` (`Tracks`) the
innermost open frame binds just the names of `φ`, and nothing is declared yet in the frames under
`n` and the positions after it. A walk in a frame of its own leads from one such place to another
(`Opens`).
-/

namespace Sema

/-! ## Findings -/

def Finding.control? : Finding → Option ControlRecord
  | .control record => some record
  | _ => none

def Finding.local? : Finding → Option Symbol
  | .localVar symbol => some symbol
  | _ => none

/-- Whether a finding shows nothing but, maybe, a call. -/
structure Finding.Plain (finding : Finding) : Prop where
  control : finding.control? = none
  localVar : finding.local? = none
  returned : finding ≠ .returned

theorem Finding.plain_of_diagnostic {finding : Finding} (h : finding.diagnostic? ≠ none) :
    finding.Plain := by
  cases finding with
  | violation v loc => exact ⟨rfl, rfl, nofun⟩
  | _ => exact absurd rfl h

namespace FunctionSymbol

variable (f : FunctionSymbol) (fs : List Finding)

theorem controls_foldl_note :
    (fs.foldl note f).controls = f.controls ++ fs.filterMap Finding.control? := by
  induction fs generalizing f with
  | nil => simp
  | cons finding fs ih =>
    rw [List.foldl_cons, ih, List.filterMap_cons]
    cases finding <;> simp [note, Finding.control?]

theorem locals_foldl_note :
    (fs.foldl note f).locals = f.locals ++ fs.filterMap Finding.local? := by
  induction fs generalizing f with
  | nil => simp
  | cons finding fs ih =>
    rw [List.foldl_cons, ih, List.filterMap_cons]
    cases finding <;> simp [note, Finding.local?]

theorem isRecursive_foldl_note :
    (fs.foldl note f).isRecursive = true ↔ f.isRecursive = true ∨ .selfCall ∈ fs := by
  induction fs generalizing f with
  | nil => simp
  | cons finding fs ih =>
    rw [List.foldl_cons, ih]
    cases finding <;> simp [note]

end FunctionSymbol

def declaredKeys (items : List Item) : List (FramePath × String) :=
  (items.filterMap Item.declared?).map FunctionDef.variableKey

theorem declaredKeys_append (items items' : List Item) :
    declaredKeys (items ++ items') = declaredKeys items ++ declaredKeys items' := by
  simp [declaredKeys]

theorem exists_declared_of_mem {items : List Item} {key : FramePath × String}
    (h : key ∈ declaredKeys items) : ∃ d, .declared key.1 d ∈ items := by
  obtain ⟨placed, hplaced, rfl⟩ := List.mem_map.mp h
  obtain ⟨item, hitem, hdeclared⟩ := List.mem_filterMap.mp hplaced
  cases item with
  | declared φ d =>
    cases hdeclared
    exact ⟨d, hitem⟩
  | _ => cases hdeclared

/-- The findings are those that the items show in a function of the given name; `seen` holds the
names before them. -/
structure Shown (name : String) (seen : List (FramePath × String)) (items : List Item)
    (fs : List Finding) : Prop where
  controls : fs.filterMap Finding.control? = items.filterMap Item.control?
  returned : .returned ∈ fs ↔ items.any Item.isResult = true
  selfCall : .selfCall ∈ fs ↔ Expr.SomeCalls name (items.flatMap Item.expressions)
  locals : fs.filterMap Finding.local? =
    (firsts FunctionDef.variableKey seen (items.filterMap Item.declared?)).map (·.2.symbol)

theorem Shown.append {name : String} {seen : List (FramePath × String)} {items items' : List Item}
    {fs fs' : List Finding} (h : Shown name seen items fs)
    (h' : Shown name (seen ++ declaredKeys items) items' fs') :
    Shown name seen (items ++ items') (fs ++ fs') where
  controls := by rw [List.filterMap_append, List.filterMap_append, h.controls, h'.controls]
  returned := by
    rw [List.mem_append, List.any_append, Bool.or_eq_true, h.returned, h'.returned]
  selfCall := by
    rw [List.mem_append, List.flatMap_append, Expr.someCalls_append, h.selfCall, h'.selfCall]
  locals := by
    have hseen : ∀ key, key ∈ seen ++ declaredKeys items ↔ key ∈ declaredKeys items ++ seen := by
      simp [or_comm]
    rw [List.filterMap_append, List.filterMap_append, h.locals, h'.locals, firsts_congr hseen,
      firsts_append, List.map_append]
    rfl

theorem Shown.of_plain {name : String} {seen : List (FramePath × String)} {items : List Item}
    {fs : List Finding} (hitems : ∀ item ∈ items, ∃ e, item = .expr e)
    (hfs : ∀ finding ∈ fs, finding.Plain)
    (hcalls : .selfCall ∈ fs ↔ Expr.SomeCalls name (items.flatMap Item.expressions)) :
    Shown name seen items fs ∧ declaredKeys items = [] := by
  have hcontrols : items.filterMap Item.control? = [] := by
    refine List.filterMap_eq_nil_iff.mpr fun item hitem => ?_
    obtain ⟨e, rfl⟩ := hitems item hitem
    rfl
  have hresult : items.any Item.isResult = false := by
    refine List.any_eq_false.mpr fun item hitem => ?_
    obtain ⟨e, rfl⟩ := hitems item hitem
    exact Bool.false_ne_true
  have hdeclared : items.filterMap Item.declared? = [] := by
    refine List.filterMap_eq_nil_iff.mpr fun item hitem => ?_
    obtain ⟨e, rfl⟩ := hitems item hitem
    rfl
  refine ⟨⟨?_, ?_, hcalls, ?_⟩, by rw [declaredKeys, hdeclared, List.map_nil]⟩
  · rw [hcontrols]
    exact List.filterMap_eq_nil_iff.mpr fun finding hmem => (hfs finding hmem).control
  · rw [hresult]
    exact iff_of_false (fun hmem => (hfs _ hmem).returned rfl) Bool.false_ne_true
  · rw [hdeclared]
    exact List.filterMap_eq_nil_iff.mpr fun finding hmem => (hfs finding hmem).localVar

theorem Shown.of_violations {name : String} {seen : List (FramePath × String)} {fs : List Finding}
    (h : ∀ finding ∈ fs, finding.diagnostic? ≠ none) : Shown name seen [] fs :=
  (of_plain (by simp) (fun finding hmem => Finding.plain_of_diagnostic (h finding hmem))
    (iff_of_false (fun hmem => h _ hmem rfl) Expr.someCalls_nil)).1

/-! ## Places in a body -/

/-- What holds at a place of a walk: of the names declared so far and of the open frames. -/
abbrev BodyPlace := List (FramePath × String) → ScopeStack → Prop

/-- The place before the position `n` of the frame `φ`. -/
structure Tracks (φ : FramePath) (n : Nat) (seen : List (FramePath × String)) (s : ScopeStack) :
    Prop where
  names : ∀ x, (φ, x) ∈ seen ↔ s.innermost.lookup x ≠ none
  unused : ∀ key ∈ seen, ∀ m, n ≤ m → ¬(m :: φ) <:+ key.1

/-- The place inside the position `n` of the frame `φ`, before the frame number `k` there. -/
structure Partway (φ : FramePath) (n k : Nat) (seen : List (FramePath × String)) (s : ScopeStack) :
    Prop extends Tracks φ (n + 1) seen s where
  inner : ∀ key ∈ seen, ∀ m, k ≤ m → ¬(m :: n :: φ) <:+ key.1

/-- Opening and closing the frame `χ` leads from `P` to `Q`: before, nothing is declared in `χ`, and
what is declared there does not matter afterwards. -/
structure Opens (χ : FramePath) (P Q : BodyPlace) : Prop where
  fresh : ∀ {seen s}, P seen s → ∀ key ∈ seen, ¬χ <:+ key.1
  closes : ∀ {seen s new}, P seen s → (∀ key ∈ new, χ <:+ key.1) → Q (seen ++ new) s

theorem not_cons_suffix_self {φ : FramePath} {m : Nat} : ¬(m :: φ) <:+ φ :=
  fun h => Nat.not_succ_le_self _ h.length_le

theorem not_cons_suffix_of_ne {φ ψ : FramePath} {m n : Nat} (hne : m ≠ n) (h : (n :: φ) <:+ ψ) :
    ¬(m :: φ) <:+ ψ := by
  intro h'
  have hsame := List.suffix_of_suffix_length_le h h' (Nat.le_refl _)
  rcases List.suffix_cons_iff.mp hsame with hsame | hsame
  · exact hne (List.cons.inj hsame).1.symm
  · exact not_cons_suffix_self hsame

namespace Tracks

variable {φ : FramePath} {n : Nat} {seen : List (FramePath × String)} {s : ScopeStack}

theorem next (h : Tracks φ n seen s) : Tracks φ (n + 1) seen s :=
  ⟨h.names, fun key hkey m hm => h.unused key hkey m (Nat.le_of_succ_le hm)⟩

theorem push (h : ∀ key ∈ seen, ¬φ <:+ key.1) : Tracks φ 0 seen s.push where
  names x := iff_of_false (fun hx => h _ hx List.suffix_rfl) (by simp)
  unused key hkey _ _ hm := h key hkey (.trans (List.suffix_cons _ _) hm)

theorem extend (h : Tracks φ (n + 1) seen s) {new : List (FramePath × String)}
    (hnew : ∀ key ∈ new, (n :: φ) <:+ key.1) : Tracks φ (n + 1) (seen ++ new) s where
  names x := by
    rw [List.mem_append, or_iff_left fun hx => not_cons_suffix_self (hnew _ hx)]
    exact h.names x
  unused key hkey m hm := by
    rcases List.mem_append.mp hkey with hkey | hkey
    · exact h.unused key hkey m hm
    · exact not_cons_suffix_of_ne (Nat.ne_of_gt hm) (hnew key hkey)

theorem opens : Opens (n :: φ) (Tracks φ n) (Tracks φ (n + 1)) where
  fresh h key hkey := h.unused key hkey n (Nat.le_refl n)
  closes h hnew := h.next.extend hnew

theorem partway (h : Tracks φ n seen s) : Partway φ n 0 seen s where
  toTracks := h.next
  inner key hkey _ _ hm := h.unused key hkey n (Nat.le_refl n) (.trans (List.suffix_cons _ _) hm)

end Tracks

theorem Partway.opens {φ : FramePath} {n k : Nat} :
    Opens (k :: n :: φ) (Partway φ n k) (Partway φ n (k + 1)) where
  fresh h key hkey := h.inner key hkey k (Nat.le_refl k)
  closes h hnew := {
    toTracks := h.toTracks.extend fun key hkey => .trans (List.suffix_cons _ _) (hnew key hkey)
    inner := by
      intro key hkey m hm
      rcases List.mem_append.mp hkey with hkey | hkey
      · exact h.inner key hkey m (Nat.le_of_succ_le hm)
      · exact not_cons_suffix_of_ne (Nat.ne_of_gt hm) (hnew key hkey) }

/-! ## Walks that show items -/

namespace Walk

variable {α β : Type} {name : String} {env : Env} {P Q R : BodyPlace} {items items' : List Item}

/-- From the place `P`, the walk shows the items and leads to the place `Q`. -/
def Shows (name : String) (env : Env) (w : Walk α) (P : BodyPlace) (items : List Item)
    (Q : BodyPlace) : Prop :=
  ∀ seen s fs a s', P seen s → w.Gives env s fs a s' →
    Shown name seen items fs ∧ Q (seen ++ declaredKeys items) s'

/-- A walk that only visits expressions: it shows nothing but the calls in them. -/
structure Visits (name : String) (env : Env) (w : Walk α) (es : List Expr) : Prop where
  still : w.Still
  plain : w.Finds Finding.Plain
  selfCall : w.Detects .selfCall env (Expr.SomeCalls name es)

theorem Reporting.detects {w : Walk α} (hw : w.Reporting) {finding : Finding}
    (h : finding.diagnostic? = none) : w.Detects finding env False :=
  fun s fs a s' hgives => iff_of_false (fun hmem => (hw env s fs a s' hgives).2 finding hmem h) id

namespace Shows

theorem bind {w : Walk α} {f : α → Walk β} (hw : w.Shows name env P items Q)
    (hf : ∀ a, (f a).Shows name env Q items' R) :
    (w >>= f).Shows name env P (items ++ items') R := by
  intro seen s fs b s' hP h
  obtain ⟨fs₁, a, s₁, fs₂, h₁, h₂, rfl⟩ := gives_bind.mp h
  obtain ⟨hshown₁, hQ⟩ := hw seen s fs₁ a s₁ hP h₁
  obtain ⟨hshown₂, hR⟩ := hf a _ s₁ fs₂ b s' hQ h₂
  rw [List.append_assoc, ← declaredKeys_append] at hR
  exact ⟨hshown₁.append hshown₂, hR⟩

theorem weaken {w : Walk α} (hw : w.Shows name env P items Q) {P' Q' : BodyPlace}
    (hP : ∀ seen s, P' seen s → P seen s) (hQ : ∀ seen s, Q seen s → Q' seen s) :
    w.Shows name env P' items Q' := by
  intro seen s fs a s' hP' h
  obtain ⟨hshown, hQ₁⟩ := hw seen s fs a s' (hP seen s hP') h
  exact ⟨hshown, hQ _ _ hQ₁⟩

theorem fail (e : CheckError) : (fail e : Walk α).Shows name env P items Q :=
  fun _ _ _ _ _ _ h => absurd h not_gives_fail

theorem control (record : ControlRecord) :
    (find (.control record)).Shows name env P [.control record] P := by
  intro seen s fs u s' hP h
  obtain ⟨rfl, rfl⟩ := gives_find.mp h
  refine ⟨⟨rfl, ?_, ?_, rfl⟩, (List.append_nil seen).symm ▸ hP⟩
  · exact iff_of_false (by simp) Bool.false_ne_true
  · exact iff_of_false (by simp) Expr.someCalls_nil

theorem result : (find .returned).Shows name env P [.result] P := by
  intro seen s fs u s' hP h
  obtain ⟨rfl, rfl⟩ := gives_find.mp h
  refine ⟨⟨rfl, ?_, ?_, rfl⟩, (List.append_nil seen).symm ▸ hP⟩
  · exact iff_of_true (by simp) rfl
  · exact iff_of_false (by simp) Expr.someCalls_nil

theorem enclosed {w : Walk Unit} {χ : FramePath} (hopens : Opens χ P Q) (hframed : w.Framed)
    (hframe : ∀ key ∈ declaredKeys items, χ <:+ key.1)
    (hw : w.Shows name env (Tracks χ 0) items R) :
    (enclosed w).Shows name env P items Q := by
  intro seen s fs u s' hP h
  obtain ⟨⟨s₁, h⟩, rfl⟩ := (gives_enclosed_iff hframed).mp h
  exact ⟨(hw seen _ fs () s₁ (.push (hopens.fresh hP)) h).1, hopens.closes hP hframe⟩

end Shows

namespace Visits

variable {es es' : List Expr}

theorem bind {w : Walk α} {f : α → Walk β} (hw : w.Visits name env es)
    (hf : ∀ a, (f a).Visits name env es') : (w >>= f).Visits name env (es ++ es') where
  still := hw.still.bind fun a => (hf a).still
  plain := hw.plain.bind fun a => (hf a).plain
  selfCall := (hw.selfCall.bind fun a => (hf a).selfCall).congr Expr.someCalls_append.symm

theorem reporting {w : Walk α} (hw : w.Reporting) : w.Visits name env [] where
  still env s fs a s' h := (hw env s fs a s' h).1
  plain env s fs a s' h finding hmem :=
    Finding.plain_of_diagnostic ((hw env s fs a s' h).2 finding hmem)
  selfCall := (hw.detects rfl).congr (iff_of_false id Expr.someCalls_nil)

theorem congr {w : Walk α} (hw : w.Visits name env es)
    (h : Expr.SomeCalls name es ↔ Expr.SomeCalls name es') : w.Visits name env es' :=
  ⟨hw.still, hw.plain, hw.selfCall.congr h⟩

theorem cons {w : Walk α} (hw : w.Visits name env es) {e : Expr}
    (h : e.calls name = false) : w.Visits name env (e :: es) := by
  refine hw.congr (Iff.symm ?_)
  rw [Expr.someCalls_cons, h, or_iff_right Bool.false_ne_true]

theorem read {g : Env → ScopeStack → α} :
    Visits name env (fun env s => ⟨s, [], .ok (g env s)⟩) [] :=
  reporting .read

theorem fail (e : CheckError) : (fail e : Walk α).Visits name env es :=
  ⟨still_fail e, finds_fail e, .fail e⟩

theorem andThen {w : Walk α} {f : α → Walk β} (hw : w.Visits name env es)
    (hf : ∀ a, (f a).Visits name env []) : (w >>= f).Visits name env es :=
  List.append_nil es ▸ hw.bind hf

theorem after {w : Walk α} {f : α → Walk β} (hw : w.Reporting)
    (hf : ∀ a, (f a).Visits name env es) : (w >>= f).Visits name env es :=
  (reporting hw).bind hf

theorem shows {w : Walk α} (hw : w.Visits name env (items.flatMap Item.expressions))
    (hitems : ∀ item ∈ items, ∃ e, item = .expr e) : w.Shows name env P items P := by
  intro seen s fs a s' hP h
  obtain ⟨hshown, hkeys⟩ :=
    Shown.of_plain hitems (hw.plain env s fs a s' h) (hw.selfCall s fs a s' h)
  rw [hkeys, List.append_nil, hw.still env s fs a s' h]
  exact ⟨hshown, hP⟩

theorem shows_nothing {w : Walk α} (hw : w.Visits name env []) : w.Shows name env P [] P := by
  have hitems : w.Visits name env (([] : List Item).flatMap Item.expressions) := hw
  exact hitems.shows (by simp)

end Visits

namespace Shows

theorem after {w : Walk α} {f : α → Walk β} (hw : w.Reporting)
    (hf : ∀ a, (f a).Shows name env P items Q) : (w >>= f).Shows name env P items Q :=
  (Visits.reporting hw).shows_nothing.bind hf

theorem after_reports {w : Walk α} {f : α → Walk β} {ds : List Diagnostic} {a : α}
    (hw : w.Reports ds a) (hf : (f a).Shows name env P items Q) :
    (w >>= f).Shows name env P items Q := by
  intro seen s fs b s' hP h
  obtain ⟨fs₁, _, _, fs₂, h₁, h₂, rfl⟩ := gives_bind.mp h
  obtain ⟨rfl, rfl, hall⟩ := hw.eq_of_gives h₁
  obtain ⟨hshown, hQ⟩ := hf seen _ fs₂ b s' hP h₂
  rw [← List.append_nil seen] at hshown
  exact ⟨(Shown.of_violations hall).append hshown, hQ⟩

theorem read_bind {g : Env → ScopeStack → α} {f : α → Walk β}
    (hf : ∀ s, (f (g env s)).Shows name env P items Q) :
    Shows name env (Walk.bind (fun env s => ⟨s, [], .ok (g env s)⟩) f) P items Q := by
  intro seen s fs b s' hP h
  obtain ⟨_, _, _, fs', hread, h, rfl⟩ := gives_bind.mp h
  obtain ⟨rfl, rfl, rfl⟩ := gives_read.mp hread
  exact hf s seen s fs' b s' hP h

theorem discard {w : Walk α} (hw : w.Shows name env P items Q) :
    (w >>= fun _ => pure ()).Shows name env P items Q :=
  List.append_nil items ▸ hw.bind fun _ => Visits.read.shows_nothing

end Shows

end Walk

/-! ## Expressions -/

/-- The walk is in the function of the given name, which can be called. -/
structure Env.Inside (env : Env) (name : String) : Prop where
  caller : ∃ type, env.caller = some ⟨name, type⟩
  callee : env.callee? name ≠ none

namespace Checking

open Walk

variable {name : String} {env : Env}

theorem reporting_checkArguments (func : String) (loc : Location) (index : Nat)
    (declared actual : List Ty) : (checkArguments func loc index declared actual).Reporting := by
  fun_induction checkArguments func loc index declared actual with
  | case1 index τ declared σ actual ih => exact (Reporting.reportIf _ _ _).bind fun _ => ih
  | case2 => exact .pure ()

theorem reporting_callType (func : String) (loc : Location) (σs : List Ty)
    (callee : Option Signature) : (callType func loc σs callee).Reporting := by
  cases callee with
  | none => exact .pure _
  | some sig =>
    dsimp only [callType]
    split
    · exact (reporting_checkArguments _ _ _ _ _).bind fun _ => .pure _
    · exact (Reporting.report _ _).bind fun _ => .pure _

theorem checkCallee_visits (henv : env.Inside name) (func : String) (loc : Location)
    (args : List Expr) : (checkCallee func loc).Visits name env [.call loc func args] where
  still := closed_checkCallee closed_still func loc
  plain :=
    closed_checkCallee (closed_finds (fun _ _ _ _ => ⟨rfl, rfl, nofun⟩) ⟨rfl, rfl, nofun⟩) func loc
  selfCall := by
    obtain ⟨type, hcaller⟩ := henv.caller
    have hcalls : Expr.SomeCalls name [.call loc func args] ↔ func = name := by
      rw [Expr.someCalls_cons, or_iff_left Expr.someCalls_nil]
      exact beq_iff_eq
    refine Detects.congr ?_ hcalls.symm
    unfold checkCallee
    refine Detects.read_bind (g := fun env _ => env.callee? func) fun _ => ?_
    cases hcallee : env.callee? func with
    | none =>
      refine (((Reporting.report _ _).bind fun _ => .pure _).detects rfl).congr ?_
      exact iff_of_false id fun hname => henv.callee (hname ▸ hcallee)
    | some sig =>
      refine ((Reporting.reportIf _ _ _).detects rfl).after fun _ => ?_
      refine Detects.read_bind (g := fun env _ => env.caller) fun _ => ?_
      rw [hcaller]
      by_cases hname : func = name
      · subst hname
        simp only [Option.any_some, beq_self_eq_true, if_true]
        exact ((Detects.find (by simp)).bind fun _ => .read).congr (or_iff_left id)
      · have hother : (name == func) = false := beq_false_of_ne (Ne.symm hname)
        simp only [Option.any_some, hother, Bool.false_eq_true, if_false]
        exact Detects.congr .read (iff_of_false id hname)

theorem checkAssign_visits (target : String) (loc : Location) {value : Option (Walk Ty)}
    {es : List Expr} (hnone : value = none → es = [])
    (hsome : ∀ w, value = some w → w.Visits name env es) :
    (checkAssign target loc value).Visits name env es := by
  refine .after .read fun symbol => ?_
  cases symbol with
  | none =>
    refine .after (.report _ _) fun _ => ?_
    cases value with
    | none =>
      rw [hnone rfl]
      exact .read
    | some w => exact (hsome w rfl).andThen fun _ => .read
  | some symbol =>
    refine .after (.reportIf _ _ _) fun _ => ?_
    cases value with
    | none =>
      rw [hnone rfl]
      exact .read
    | some w => exact (hsome w rfl).andThen fun _ => .after (.reportIf _ _ _) fun _ => .read

mutual

theorem checkExpr_visits (henv : env.Inside name) :
    ∀ e : Expr, (checkExpr e).Visits name env e.parts
  | .int _ _ => Visits.cons .read rfl
  | .float _ _ => Visits.cons .read rfl
  | .string _ _ => Visits.cons .read rfl
  | .name loc ident => by
    refine .cons (.after .read fun symbol => ?_) rfl
    cases symbol with
    | none => exact .after (.report _ _) fun _ => .read
    | some symbol => exact .read
  | .paren _ value => (checkExpr_visits henv value).cons rfl
  | .not _ operand => ((checkExpr_visits henv operand).andThen fun _ => .read).cons rfl
  | .binary _ op left right => by
    refine .cons ((checkExpr_visits henv left).bind fun _ =>
      (checkExpr_visits henv right).andThen fun _ => ?_) rfl
    split
    · exact .read
    · exact .fail _
  | .assign loc target none => by
    have hassign : (checkAssign target loc none).Visits name env [] :=
      checkAssign_visits target loc (fun _ => rfl) nofun
    exact hassign.cons rfl
  | .assign loc target (some value) => by
    have hassign : (checkAssign target loc (some (checkExpr value))).Visits name env value.parts :=
      checkAssign_visits target loc nofun fun _ hw =>
        Option.some.inj hw ▸ checkExpr_visits henv value
    exact hassign.cons rfl
  | .call loc func args =>
    (checkCallee_visits henv func loc args).bind fun _ =>
      (checkExprs_visits henv args).andThen fun _ => .reporting (reporting_callType _ _ _ _)
  | .unsupported => .fail _

theorem checkExprs_visits (henv : env.Inside name) :
    ∀ es : List Expr, (checkExprs es).Visits name env (Expr.allParts es)
  | [] => .read
  | e :: es =>
    (checkExpr_visits henv e).bind fun _ => (checkExprs_visits henv es).andThen fun _ => .read

end

end Checking

end Sema
