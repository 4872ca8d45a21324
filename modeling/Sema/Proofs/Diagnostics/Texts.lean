import Sema.Proofs.Diagnostics.Sink
import Sema.Proofs.Syntax.Renaming

/-!
# What written forms tell apart

The written form of a problem of the parser shows all of it (`Diagnostic.eq_of_render_eq`), and
that of a violation shows its line and its message (`Violation.of_render_located_eq`). The message
shows the violation, if the names in it have no quotes (`Violation.eq_of_message_eq`).

A text is read up to a character that the part before it does not have (`append_inj_of_not_mem`).
-/

namespace Sema

/-- Two texts are the same up to the first `c`, and from there on. -/
theorem append_inj_of_not_mem {c : Char} {a a' t t' : String} (ha : c ∉ a.toList)
    (ha' : c ∉ a'.toList) (ht : t.toList.head? = some c) (ht' : t'.toList.head? = some c)
    (h : a ++ t = a' ++ t') : a = a' ∧ t = t' := by
  have hlists : a.toList ++ t.toList = a'.toList ++ t'.toList := by
    rw [← String.toList_append, ← String.toList_append, h]
  rw [← String.toList_inj, ← @String.toList_inj t]
  generalize a.toList = l, a'.toList = l' at ha ha' hlists ⊢
  induction l generalizing l' with
  | nil =>
    cases l' with
    | nil => exact ⟨rfl, hlists⟩
    | cons d l' =>
      rw [List.nil_append] at hlists
      rw [hlists, List.cons_append, List.head?_cons, Option.some.injEq] at ht
      exact absurd ht fun hd => ha' (hd ▸ List.mem_cons_self)
  | cons d l ih =>
    cases l' with
    | nil =>
      rw [List.nil_append] at hlists
      rw [← hlists, List.cons_append, List.head?_cons, Option.some.injEq] at ht'
      exact absurd ht' fun hd => ha (hd ▸ List.mem_cons_self)
    | cons d' l' =>
      obtain ⟨rfl, hrest⟩ := List.cons.inj hlists
      obtain ⟨rfl, hts⟩ := ih l' (fun hc => ha (List.mem_cons_of_mem _ hc))
        (fun hc => ha' (List.mem_cons_of_mem _ hc)) hrest
      exact ⟨rfl, hts⟩

theorem toString_text (s : String) : toString s = s := rfl

/-! ## Numbers and types -/

theorem not_mem_toString_nat {c : Char} (hc : c.isDigit = false) (n : Nat) :
    c ∉ (toString n).toList := by
  rw [Nat.toString_eq_ofList_toDigits, String.toList_ofList]
  intro hmem
  rw [Nat.isDigit_of_mem_toDigits (by decide) (by decide) hmem] at hc
  cases hc

theorem toString_int_of_nonneg {n : Int} (h : 0 ≤ n) : toString n = toString n.toNat := by
  rw [Int.toString_eq_repr, Int.repr_eq_if, if_pos h, Nat.toString_eq_repr]

theorem toString_int_of_neg {n : Int} (h : ¬0 ≤ n) : toString n = "-" ++ toString (-n).toNat := by
  rw [Int.toString_eq_repr, Int.repr_eq_if, if_neg h, Nat.toString_eq_repr]

theorem not_mem_toString_int {c : Char} (hc : c.isDigit = false) (hminus : c ≠ '-') (n : Int) :
    c ∉ (toString n).toList := by
  by_cases hn : 0 ≤ n
  · rw [toString_int_of_nonneg hn]
    exact not_mem_toString_nat hc _
  · rw [toString_int_of_neg hn, String.toList_append, List.mem_append, not_or]
    exact ⟨by simpa using hminus, not_mem_toString_nat hc _⟩

theorem toString_nat_inj {m n : Nat} (h : toString m = toString n) : m = n := by
  rw [Nat.toString_eq_ofList_toDigits, Nat.toString_eq_ofList_toDigits, String.ofList_inj] at h
  rw [← Nat.ofDigitChars_ten_toDigits (n := m), h, Nat.ofDigitChars_ten_toDigits]

theorem toString_int_inj {m n : Int} (h : toString m = toString n) : m = n := by
  have hminus : ∀ k l : Nat, toString k ≠ "-" ++ toString l := by
    intro k l hkl
    refine not_mem_toString_nat (c := '-') (by decide) k ?_
    rw [hkl, String.toList_append]
    exact List.mem_append_left _ (by decide)
  by_cases hm : 0 ≤ m
  · by_cases hn : 0 ≤ n
    · rw [toString_int_of_nonneg hm, toString_int_of_nonneg hn] at h
      have := toString_nat_inj h
      omega
    · rw [toString_int_of_nonneg hm, toString_int_of_neg hn] at h
      exact absurd h (hminus _ _)
  · by_cases hn : 0 ≤ n
    · rw [toString_int_of_neg hm, toString_int_of_nonneg hn] at h
      exact absurd h.symm (hminus _ _)
    · rw [toString_int_of_neg hm, toString_int_of_neg hn, String.append_right_inj] at h
      have := toString_nat_inj h
      omega

theorem Ty.name_inj {σ τ : Ty} (h : σ.name = τ.name) : σ = τ := by
  revert h
  cases σ <;> cases τ <;> decide

theorem Ty.not_mem_name {c : Char} (hc : c.isAlpha = false) (τ : Ty) : c ∉ τ.name.toList := by
  have hall : τ.name.toList.all Char.isAlpha = true := by cases τ <;> decide
  intro hmem
  rw [List.all_eq_true.mp hall c hmem] at hc
  cases hc

/-! ## Diagnostics -/

namespace Diagnostic

theorem not_mem_coordinate {c : Char} (hc : c.isAlphanum = false) (hminus : c ≠ '-')
    (n : Option Int) : c ∉ (coordinate n).toList := by
  rw [Char.isAlphanum, Bool.or_eq_false_iff] at hc
  cases n with
  | some n => exact not_mem_toString_int hc.2 hminus n
  | none =>
    have hall : (coordinate none).toList.all Char.isAlpha = true := by decide
    intro hmem
    rw [List.all_eq_true.mp hall c hmem] at hc
    cases hc.1

theorem coordinate_inj {m n : Option Int} (h : coordinate m = coordinate n) : m = n := by
  have hnone : ∀ k : Int, toString k ≠ "None" := by
    intro k hk
    refine not_mem_toString_int (c := 'N') (by decide) (by decide) k ?_
    rw [hk]
    decide
  cases m with
  | none =>
    cases n with
    | none => rfl
    | some n => exact absurd h.symm (hnone n)
  | some m =>
    cases n with
    | none => exact absurd h (hnone m)
    | some n => rw [toString_int_inj h]

def opening : Code → String
  | .lexicalError => "Le"
  | .syntaxError => "Sy"
  | _ => "Se"

theorem code_eq_of_opening_eq {code code' : Code} (hphase : code.phase = .parser)
    (h : opening code = opening code') : code' = code := by
  revert hphase h
  cases code <;> cases code' <;> decide

theorem take_render (d : Diagnostic) : d.render.toList.take 2 = (opening d.code).toList := by
  obtain ⟨code, message, line, column⟩ := d
  cases code <;> cases line <;> simp [render, opening, toString_text]

theorem opening_eq_of_render_eq {d d' : Diagnostic} (h : d.render = d'.render) :
    opening d.code = opening d'.code := by
  rw [← String.toList_inj, ← take_render, h, take_render]

theorem tail_inj {line line' column column' : Option Int} {message message' : String}
    (h : coordinate line ++ (":" ++ (coordinate column ++ (" - " ++ message))) =
      coordinate line' ++ (":" ++ (coordinate column' ++ (" - " ++ message')))) :
    line = line' ∧ column = column' ∧ message = message' := by
  obtain ⟨hline, h⟩ := append_inj_of_not_mem (c := ':')
    (not_mem_coordinate (by decide) (by decide) _) (not_mem_coordinate (by decide) (by decide) _)
    (by simp) (by simp) h
  rw [String.append_right_inj] at h
  obtain ⟨hcolumn, h⟩ := append_inj_of_not_mem (c := ' ')
    (not_mem_coordinate (by decide) (by decide) _) (not_mem_coordinate (by decide) (by decide) _)
    (by simp) (by simp) h
  exact ⟨coordinate_inj hline, coordinate_inj hcolumn, (String.append_right_inj _).mp h⟩

/-- Problems of the parser with the same written form are the same. -/
theorem eq_of_render_eq {d d' : Diagnostic} (hd : d.phase = .parser) (h : d.render = d'.render) :
    d = d' := by
  have hcode := code_eq_of_opening_eq hd (opening_eq_of_render_eq h)
  obtain ⟨code, message, line, column⟩ := d
  obtain ⟨_, message', line', column'⟩ := d'
  cases hcode
  cases code with
  | lexicalError =>
    simp only [render, toString_text, String.append_assoc, String.append_right_inj] at h
    obtain ⟨rfl, rfl, rfl⟩ := tail_inj h
    rfl
  | syntaxError =>
    simp only [render, toString_text, String.append_assoc, String.append_right_inj] at h
    obtain ⟨rfl, rfl, rfl⟩ := tail_inj h
    rfl
  | _ => cases hd

end Diagnostic

/-! ## Violations -/

namespace Violation

/-- The written form of a violation at a place shows its line and its message. -/
theorem of_render_located_eq {v v' : Violation} {loc loc' : Location}
    (h : (v.located loc).render = (v'.located loc').render) :
    loc.line = loc'.line ∧ v.message = v'.message := by
  simp only [render_located, String.append_assoc, String.append_right_inj] at h
  obtain ⟨hline, h⟩ := append_inj_of_not_mem (c := ':')
    (not_mem_toString_int (by decide) (by decide) _)
    (not_mem_toString_int (by decide) (by decide) _) (by simp) (by simp) h
  exact ⟨toString_int_inj hline, (String.append_right_inj _).mp h⟩

def opening : Violation → String
  | undefinedType _ => "Typ"
  | duplicateFunction _ | missingReturn _ _ | mainCall => "Fun"
  | duplicateParameter _ _ => "Par"
  | duplicateGlobal _ => "Glo"
  | duplicateLocal _ => "Loc"
  | missingMain => "No "
  | severalMains _ => "'ma"
  | badInitializer _ _ _ => "Inc"
  | badReturn _ _ _ => "Inv"
  | badAssignment _ _ _ => "Can"
  | badArgument _ _ _ _ => "Arg"
  | undeclaredVariable _ => "Var"
  | undefinedFunction _ => "Cal"
  | constAssignment _ => "Ill"
  | arity _ _ _ => "Wro"

theorem take_message (v : Violation) : v.message.toList.take 3 = v.opening.toList := by
  unfold message
  cases v <;> simp [opening, toString_text, Ty.Undefined.message, mainName]

theorem opening_eq_of_message_eq {v v' : Violation} (h : v.message = v'.message) :
    v.opening = v'.opening := by
  rw [← String.toList_inj, ← take_message, h, take_message]

/-- How the message of a violation ends, of those that begin alike. -/
def closing : Violation → String
  | duplicateFunction _ => "ned"
  | missingReturn _ _ => "lue"
  | mainCall => "led"
  | _ => ""

theorem closing_suffix (v : Violation) : v.closing.toList <:+ v.message.toList := by
  unfold message
  cases v with
  | duplicateFunction name =>
    have hend : "ned".toList <:+ "' is already defined".toList := by decide
    rw [String.toList_append]
    exact hend.trans (List.suffix_append _ _)
  | missingReturn func type =>
    have hend : "lue".toList <:+ ") does not return a value".toList := by decide
    rw [String.toList_append]
    exact hend.trans (List.suffix_append _ _)
  | mainCall => exact ⟨"Function 'main' cannot be cal".toList, by decide⟩
  | _ => exact List.nil_suffix

theorem length_closing (v : Violation) :
    v.closing.toList.length = if v.opening = "Fun" then 3 else 0 := by
  cases v <;> simp [closing, opening]

theorem closing_eq_of_message_eq {v v' : Violation} (h : v.message = v'.message) :
    v.closing = v'.closing := by
  have hlength : v.closing.toList.length = v'.closing.toList.length := by
    rw [length_closing, length_closing, opening_eq_of_message_eq h]
  have hsuffix : v.closing.toList <:+ v'.closing.toList :=
    List.suffix_of_suffix_length_le (h ▸ v.closing_suffix) v'.closing_suffix
      (Nat.le_of_eq hlength)
  exact String.toList_inj.mp (hsuffix.eq_of_length hlength)

theorem code_eq_of_message_eq {v v' : Violation} (h : v.message = v'.message) :
    v.code = v'.code := by
  have hopening := opening_eq_of_message_eq h
  have hclosing := closing_eq_of_message_eq h
  clear h
  cases v <;> cases v' <;> first
    | rfl
    | simp [opening, closing] at hopening hclosing

theorem code_of_message_eq_missingReturn {v : Violation} {func : String} {type : Ty}
    (h : v.message = (missingReturn func type).message) : v.code = .missingReturn :=
  code_eq_of_message_eq h

/-! ### Names in messages -/

/-- The names that the message of a violation shows between quotes. -/
def identifiers : Violation → List Identifier
  | undefinedType _ | missingMain | severalMains _ | mainCall => []
  | duplicateParameter param func => [.var param, .func func]
  | duplicateGlobal name | duplicateLocal name | badInitializer name _ _ | badAssignment name _ _
  | undeclaredVariable name | constAssignment name => [.var name]
  | duplicateFunction name | missingReturn name _ | badReturn name _ _ | badArgument _ name _ _
  | undefinedFunction name | arity name _ _ => [.func name]

end Violation

theorem QuoteFree.append_inj {name name' rest rest' : String} (hname : QuoteFree name)
    (hname' : QuoteFree name') (hrest : rest.toList.head? = some '\'')
    (hrest' : rest'.toList.head? = some '\'') (h : name ++ rest = name' ++ rest') :
    name = name' ∧ rest = rest' :=
  append_inj_of_not_mem hname hname' hrest hrest' h

theorem QuoteFree.quoted_inj {name name' sep rest rest' : String} (hname : QuoteFree name)
    (hname' : QuoteFree name') (hsep : sep.toList.head? = some '\'')
    (h : name ++ (sep ++ rest) = name' ++ (sep ++ rest')) : name = name' ∧ rest = rest' := by
  have hhead : ∀ rest : String, (sep ++ rest).toList.head? = some '\'' := by
    intro rest
    rw [String.toList_append, List.head?_append, hsep, Option.some_or]
  obtain ⟨hsame, h⟩ := hname.append_inj hname' (hhead rest) (hhead rest') h
  exact ⟨hsame, (String.append_right_inj sep).mp h⟩

namespace Violation

theorem types_inj {σ σ' τ τ' : Ty}
    (h : σ.name ++ (", got " ++ τ.name) = σ'.name ++ (", got " ++ τ'.name)) : σ = σ' ∧ τ = τ' := by
  obtain ⟨hσ, h⟩ := append_inj_of_not_mem (c := ',') (Ty.not_mem_name (by decide) σ)
    (Ty.not_mem_name (by decide) σ') (by simp) (by simp) h
  exact ⟨Ty.name_inj hσ, Ty.name_inj ((String.append_right_inj _).mp h)⟩

theorem functionMessages_ne {name func : String} (hname : QuoteFree name) (hfunc : QuoteFree func)
    (type : Ty) :
    (duplicateFunction name).message ≠ (missingReturn func type).message ∧
      (duplicateFunction name).message ≠ mainCall.message ∧
      (missingReturn func type).message ≠ mainCall.message := by
  have hmain : QuoteFree mainName := by simp [QuoteFree, mainName]
  unfold message
  simp only [toString_text, String.append_assoc, ne_eq, String.append_right_inj]
  refine ⟨fun h => ?_, fun h => ?_, fun h => ?_⟩
  · obtain ⟨-, h⟩ := hname.append_inj hfunc rfl (by simp) h
    have hchar := congrArg (fun text : String => text.toList[2]?) h
    simp at hchar
  · obtain ⟨-, h⟩ := hname.append_inj hmain rfl rfl h
    exact absurd h (by decide)
  · obtain ⟨-, h⟩ := hfunc.append_inj hmain (by simp) rfl h
    have hchar := congrArg (fun text : String => text.toList[2]?) h
    simp at hchar

/-- The message shows the violation, if the names in it have no quotes. -/
theorem eq_of_message_eq {v v' : Violation} (hv : ∀ i ∈ v.identifiers, QuoteFree i.text)
    (hv' : ∀ i ∈ v'.identifiers, QuoteFree i.text) (h : v.message = v'.message) : v = v' := by
  have hopening := opening_eq_of_message_eq h
  cases v with
  | undefinedType e =>
    cases v' with
    | undefinedType e' =>
      have h : e.message = e'.message := h
      simp only [Ty.Undefined.message, toString_text, String.append_left_inj,
        String.append_right_inj] at h
      rw [show e = e' from congrArg Ty.Undefined.mk h]
    | _ => simp [opening] at hopening
  | duplicateFunction name =>
    have hname : QuoteFree name := hv (.func name) (.head _)
    cases v' with
    | duplicateFunction name' =>
      unfold message at h
      simpa [toString_text] using h
    | missingReturn func type =>
      exact absurd h (functionMessages_ne hname (hv' (.func func) (.head _)) type).1
    | mainCall => exact absurd h (functionMessages_ne hname hname .int).2.1
    | _ => simp [opening] at hopening
  | missingReturn func type =>
    have hfunc : QuoteFree func := hv (.func func) (.head _)
    cases v' with
    | duplicateFunction name =>
      exact absurd h.symm (functionMessages_ne (hv' (.func name) (.head _)) hfunc type).1
    | missingReturn func' type' =>
      have hfunc' : QuoteFree func' := hv' (.func func') (.head _)
      unfold message at h
      simp only [toString_text, String.append_assoc, String.append_right_inj] at h
      obtain ⟨rfl, htype⟩ := hfunc.quoted_inj hfunc' rfl h
      rw [Ty.name_inj ((String.append_left_inj _).mp htype)]
    | mainCall => exact absurd h (functionMessages_ne hfunc hfunc type).2.2
    | _ => simp [opening] at hopening
  | mainCall =>
    cases v' with
    | duplicateFunction name =>
      have hname : QuoteFree name := hv' (.func name) (.head _)
      exact absurd h.symm (functionMessages_ne hname hname .int).2.1
    | missingReturn func type =>
      have hfunc : QuoteFree func := hv' (.func func) (.head _)
      exact absurd h.symm (functionMessages_ne hfunc hfunc type).2.2
    | mainCall => rfl
    | _ => simp [opening] at hopening
  | duplicateParameter param func =>
    cases v' with
    | duplicateParameter param' func' =>
      have hparam : QuoteFree param := hv (.var param) (.head _)
      have hparam' : QuoteFree param' := hv' (.var param') (.head _)
      unfold message at h
      simp only [toString_text, String.append_assoc, String.append_right_inj] at h
      obtain ⟨rfl, hfunc⟩ := hparam.quoted_inj hparam' rfl h
      rw [(String.append_left_inj _).mp hfunc]
    | _ => simp [opening] at hopening
  | missingMain =>
    cases v' with
    | missingMain => rfl
    | _ => simp [opening] at hopening
  | severalMains count =>
    cases v' with
    | severalMains count' =>
      unfold message at h
      simp only [toString_text, String.append_left_inj, String.append_right_inj] at h
      rw [toString_nat_inj h]
    | _ => simp [opening] at hopening
  | badInitializer name declared actual =>
    cases v' with
    | badInitializer name' declared' actual' =>
      have hname : QuoteFree name := hv (.var name) (.head _)
      have hname' : QuoteFree name' := hv' (.var name') (.head _)
      unfold message at h
      simp only [toString_text, String.append_assoc, String.append_right_inj] at h
      obtain ⟨rfl, htypes⟩ := hname.quoted_inj hname' rfl h
      obtain ⟨rfl, rfl⟩ := types_inj htypes
      rfl
    | _ => simp [opening] at hopening
  | badReturn func declared actual =>
    cases v' with
    | badReturn func' declared' actual' =>
      have hfunc : QuoteFree func := hv (.func func) (.head _)
      have hfunc' : QuoteFree func' := hv' (.func func') (.head _)
      unfold message at h
      simp only [toString_text, String.append_assoc, String.append_right_inj] at h
      obtain ⟨rfl, htypes⟩ := hfunc.quoted_inj hfunc' rfl h
      obtain ⟨rfl, rfl⟩ := types_inj htypes
      rfl
    | _ => simp [opening] at hopening
  | badAssignment target declared actual =>
    cases v' with
    | badAssignment target' declared' actual' =>
      have htarget : QuoteFree target := hv (.var target) (.head _)
      have htarget' : QuoteFree target' := hv' (.var target') (.head _)
      unfold message at h
      simp only [toString_text, String.append_assoc, String.append_right_inj] at h
      obtain ⟨hactual, h⟩ := append_inj_of_not_mem (c := ' ') (Ty.not_mem_name (by decide) actual)
        (Ty.not_mem_name (by decide) actual') (by simp) (by simp) h
      obtain ⟨rfl, hdeclared⟩ := htarget.quoted_inj htarget' rfl ((String.append_right_inj _).mp h)
      rw [Ty.name_inj hactual, Ty.name_inj hdeclared]
    | _ => simp [opening] at hopening
  | badArgument index func declared actual =>
    cases v' with
    | badArgument index' func' declared' actual' =>
      have hfunc : QuoteFree func := hv (.func func) (.head _)
      have hfunc' : QuoteFree func' := hv' (.func func') (.head _)
      unfold message at h
      simp only [toString_text, String.append_assoc, String.append_right_inj] at h
      obtain ⟨hindex, h⟩ := append_inj_of_not_mem (c := ' ') (not_mem_toString_nat (by decide) _)
        (not_mem_toString_nat (by decide) _) (by simp) (by simp) h
      obtain ⟨rfl, htypes⟩ := hfunc.quoted_inj hfunc' rfl ((String.append_right_inj _).mp h)
      obtain ⟨rfl, rfl⟩ := types_inj htypes
      rw [toString_nat_inj hindex]
    | _ => simp [opening] at hopening
  | arity func declared actual =>
    cases v' with
    | arity func' declared' actual' =>
      have hfunc : QuoteFree func := hv (.func func) (.head _)
      have hfunc' : QuoteFree func' := hv' (.func func') (.head _)
      unfold message at h
      simp only [toString_text, String.append_assoc, String.append_right_inj] at h
      obtain ⟨rfl, hcounts⟩ := hfunc.quoted_inj hfunc' rfl h
      obtain ⟨hdeclared, hactual⟩ := append_inj_of_not_mem (c := ',')
        (not_mem_toString_nat (by decide) _) (not_mem_toString_nat (by decide) _) (by simp)
        (by simp) hcounts
      rw [toString_nat_inj hdeclared, toString_nat_inj ((String.append_right_inj _).mp hactual)]
    | _ => simp [opening] at hopening
  | duplicateGlobal name | duplicateLocal name | undeclaredVariable name | undefinedFunction name
  | constAssignment name =>
    cases v' <;> first
      | simp [opening] at hopening; done
      | unfold message at h; simpa [toString_text] using h

end Violation

end Sema
