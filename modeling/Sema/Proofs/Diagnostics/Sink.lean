import Sema.Checking.Violation
import Sema.Diagnostics.Sink
import Sema.Proofs.Data.Firsts

/-!
# What a sink keeps

Of the diagnostics that are added to a sink, it keeps those whose written form is new
(`Sink.items_extend`). So the written forms of what is kept are those of what was added
(`Sink.mem_texts_iff`), and a diagnostic whose written form no other has is kept itself.
-/

namespace Sema

namespace Sink

/-- Of the diagnostics of a list, those are kept whose written form is new. -/
theorem items_extend (s : Sink) (ds : List Diagnostic) :
    (s.extend ds).items = s.items ++ firsts Diagnostic.render s.seen ds := by
  induction ds generalizing s with
  | nil => simp [firsts]
  | cons d ds ih =>
    rw [extend_cons, ih]
    by_cases h : d.render ∈ s.seen
    · rw [add_of_mem h, firsts_cons_of_mem h]
    · rw [add_of_not_mem h, firsts_cons_of_not_mem h, List.append_assoc, List.singleton_append]

theorem items_extend_empty (ds : List Diagnostic) :
    (empty.extend ds).items = firsts Diagnostic.render [] ds :=
  items_extend empty ds

theorem mem_of_mem_items {ds : List Diagnostic} {d : Diagnostic}
    (h : d ∈ (empty.extend ds).items) : d ∈ ds := by
  rw [items_extend_empty] at h
  exact sublist_firsts.subset h

/-- The written forms of what is kept are those of what was added. -/
theorem mem_texts_iff {ds : List Diagnostic} {text : String} :
    text ∈ (empty.extend ds).items.map Diagnostic.render ↔ text ∈ ds.map Diagnostic.render := by
  rw [items_extend_empty, map_firsts_eq_eraseDups, List.mem_eraseDups]

theorem mem_items_of_render_ne {ds : List Diagnostic} {d : Diagnostic} (h : d ∈ ds)
    (hd : ∀ d' ∈ ds, d'.render = d.render → d' = d) : d ∈ (empty.extend ds).items := by
  have htext : d.render ∈ (empty.extend ds).items.map Diagnostic.render :=
    mem_texts_iff.mpr (List.mem_map_of_mem h)
  obtain ⟨d', hd', hrender⟩ := List.mem_map.mp htext
  rw [← hd d' (mem_of_mem_items hd') hrender]
  exact hd'

theorem mem_seen_extend {s : Sink} {ds : List Diagnostic} {text : String} :
    text ∈ (s.extend ds).seen ↔ text ∈ s.seen ∨ text ∈ ds.map Diagnostic.render := by
  induction ds generalizing s with
  | nil => simp
  | cons d ds ih =>
    rw [extend_cons, ih, List.map_cons, List.mem_cons]
    by_cases h : d.render ∈ s.seen
    · have hseen : text = d.render → text ∈ s.seen := fun htext => htext ▸ h
      rw [add_of_mem h, ← or_assoc, or_iff_left_of_imp hseen]
    · rw [add_of_not_mem h, List.mem_cons, or_comm (a := text = _), or_assoc]

theorem extend_of_mem_seen {s : Sink} {ds : List Diagnostic}
    (h : ∀ d ∈ ds, d.render ∈ s.seen) : s.extend ds = s := by
  induction ds with
  | nil => rfl
  | cons d ds ih =>
    rw [extend_cons, add_of_mem (h d (.head _))]
    exact ih fun d hd => h d (.tail _ hd)

end Sink

/-! ## Written forms of violations -/

namespace Violation

theorem render_located (v : Violation) (loc : Location) :
    (v.located loc).render =
      "Semantic error at line " ++ toString loc.line ++ ": " ++ v.message := by
  cases v <;> rfl

theorem render_global (v : Violation) : v.global.render = "Semantic error: " ++ v.message := by
  cases v <;> rfl

theorem render_located_ne (v v' : Violation) (loc : Location) :
    (v.located loc).render ≠ v'.global.render := by
  rw [render_located, render_global]
  intro h
  have hchar := congrArg (fun text : String => text.toList[14]?) h
  simp at hchar

end Violation

end Sema
