/-!
# First elements by key

The elements of a list whose key no element before them has, in order (`firsts`). No key comes twice
among them (`nodup_map_firsts`), every key of the list comes once (`map_firsts_eq_eraseDups`), and
the first element of a key is the one that a search for the key finds (`find?_firsts`). The other
elements repeat a key (`repeats`).
-/

namespace Sema

variable {α β κ : Type} [DecidableEq κ] {key : α → κ} {seen seen' : List κ} {l m : List α} {a : α}
  {k : κ}

/-- The elements whose key does not come before them; `seen` holds keys from before the list. -/
def firsts (key : α → κ) : List κ → List α → List α
  | _, [] => []
  | seen, a :: l => if key a ∈ seen then firsts key seen l else a :: firsts key (key a :: seen) l

theorem firsts_cons_of_mem (h : key a ∈ seen) : firsts key seen (a :: l) = firsts key seen l := by
  rw [firsts, if_pos h]

theorem firsts_cons_of_not_mem (h : key a ∉ seen) :
    firsts key seen (a :: l) = a :: firsts key (key a :: seen) l := by
  rw [firsts, if_neg h]

theorem firsts_congr (h : ∀ k, k ∈ seen ↔ k ∈ seen') : firsts key seen l = firsts key seen' l := by
  induction l generalizing seen seen' with
  | nil => rfl
  | cons a l ih =>
    by_cases ha : key a ∈ seen
    · rw [firsts_cons_of_mem ha, firsts_cons_of_mem ((h _).mp ha), ih h]
    · rw [firsts_cons_of_not_mem ha, firsts_cons_of_not_mem (mt (h _).mpr ha)]
      exact congrArg _ (ih fun k => by simp [h])

theorem firsts_append :
    firsts key seen (l ++ m) = firsts key seen l ++ firsts key (l.map key ++ seen) m := by
  induction l generalizing seen with
  | nil => rfl
  | cons a l ih =>
    by_cases ha : key a ∈ seen
    · rw [List.cons_append, firsts_cons_of_mem ha, firsts_cons_of_mem ha, ih]
      refine congrArg _ (firsts_congr fun k => ?_)
      simp only [List.map_cons, List.cons_append, List.mem_cons, List.mem_append]
      grind
    · rw [List.cons_append, firsts_cons_of_not_mem ha, firsts_cons_of_not_mem ha, ih]
      refine congrArg (a :: firsts key (key a :: seen) l ++ ·) (firsts_congr fun k => ?_)
      simp only [List.map_cons, List.cons_append, List.mem_cons, List.mem_append]
      grind

theorem map_firsts (key : α → κ) (g : β → α) (seen : List κ) (l : List β) :
    (firsts (fun b => key (g b)) seen l).map g = firsts key seen (l.map g) := by
  induction l generalizing seen with
  | nil => rfl
  | cons b l ih =>
    rw [List.map_cons, firsts, firsts]
    by_cases hb : key (g b) ∈ seen
    · rw [if_pos hb, if_pos hb, ih]
    · rw [if_neg hb, if_neg hb, List.map_cons, ih]

/-- Keys that tell the same elements apart single out the same first ones; `before` holds elements
from before the list. -/
theorem firsts_congr_key {κ' : Type} [DecidableEq κ'] {key' : α → κ'} (before : List α)
    (h : ∀ a ∈ before ++ l, ∀ b ∈ before ++ l, key a = key b ↔ key' a = key' b) :
    firsts key (before.map key) l = firsts key' (before.map key') l := by
  induction l generalizing before with
  | nil => rfl
  | cons a l ih =>
    have hseen : key a ∈ before.map key ↔ key' a ∈ before.map key' := by
      simp only [List.mem_map]
      refine exists_congr fun b => and_congr_right fun hb => ?_
      exact h b (List.mem_append_left _ hb) a (by simp)
    by_cases ha : key a ∈ before.map key
    · rw [firsts_cons_of_mem ha, firsts_cons_of_mem (hseen.mp ha)]
      exact ih before fun b hb c hc => h b (by grind) c (by grind)
    · rw [firsts_cons_of_not_mem ha, firsts_cons_of_not_mem (mt hseen.mpr ha)]
      exact congrArg (a :: ·) (ih (a :: before) fun b hb c hc => h b (by grind) c (by grind))

theorem firsts_firsts : firsts key seen (firsts key seen l) = firsts key seen l := by
  induction l generalizing seen with
  | nil => rfl
  | cons a l ih =>
    by_cases ha : key a ∈ seen
    · rw [firsts_cons_of_mem ha, ih]
    · rw [firsts_cons_of_not_mem ha, firsts_cons_of_not_mem ha, ih]

theorem sublist_firsts : (firsts key seen l).Sublist l := by
  induction l generalizing seen with
  | nil => exact .slnil
  | cons a l ih =>
    by_cases ha : key a ∈ seen
    · rw [firsts_cons_of_mem ha]
      exact ih.cons a
    · rw [firsts_cons_of_not_mem ha]
      exact ih.cons_cons a

theorem key_not_mem_of_mem_firsts (h : a ∈ firsts key seen l) : key a ∉ seen := by
  induction l generalizing seen with
  | nil => cases h
  | cons b l ih =>
    by_cases hb : key b ∈ seen
    · rw [firsts_cons_of_mem hb] at h
      exact ih h
    · rw [firsts_cons_of_not_mem hb] at h
      rcases List.mem_cons.mp h with rfl | h
      · exact hb
      · exact fun ha => ih h (List.mem_cons_of_mem _ ha)

theorem nodup_map_firsts : ((firsts key seen l).map key).Nodup := by
  induction l generalizing seen with
  | nil => exact List.nodup_nil
  | cons a l ih =>
    by_cases ha : key a ∈ seen
    · rw [firsts_cons_of_mem ha]
      exact ih
    · rw [firsts_cons_of_not_mem ha, List.map_cons, List.nodup_cons]
      refine ⟨fun hmem => ?_, ih⟩
      obtain ⟨b, hb, hkey⟩ := List.mem_map.mp hmem
      exact key_not_mem_of_mem_firsts hb (by simp [hkey])

theorem firsts_of_nodup (h : (l.map key).Nodup) (hseen : ∀ a ∈ l, key a ∉ seen) :
    firsts key seen l = l := by
  induction l generalizing seen with
  | nil => rfl
  | cons a l ih =>
    rw [List.map_cons, List.nodup_cons] at h
    rw [firsts_cons_of_not_mem (hseen a List.mem_cons_self)]
    refine congrArg (a :: ·) (ih h.2 fun b hb hmem => ?_)
    rcases List.mem_cons.mp hmem with hkey | hmem
    · exact h.1 (List.mem_map.mpr ⟨b, hb, hkey⟩)
    · exact hseen b (List.mem_cons_of_mem _ hb) hmem

theorem filter_firsts {P : α → Bool}
    (hP : ∀ a ∈ l, ∀ b ∈ l, key a = key b → P a = P b)
    (hseen : ∀ a ∈ l, P a = true → (key a ∈ seen ↔ key a ∈ seen')) :
    (firsts key seen l).filter P = firsts key seen' (l.filter P) := by
  induction l generalizing seen seen' with
  | nil => rfl
  | cons a l ih =>
    have hP' : ∀ a ∈ l, ∀ b ∈ l, key a = key b → P a = P b := fun a ha b hb =>
      hP a (List.mem_cons_of_mem _ ha) b (List.mem_cons_of_mem _ hb)
    have hkept : ∀ b ∈ l, P b = true → P a = false → key b ≠ key a := by
      intro b hb hPb hPa hkey
      rw [hP b (List.mem_cons_of_mem _ hb) a List.mem_cons_self hkey, hPa] at hPb
      cases hPb
    by_cases hPa : P a = true
    · rw [List.filter_cons_of_pos hPa]
      by_cases ha : key a ∈ seen
      · rw [firsts_cons_of_mem ha, firsts_cons_of_mem ((hseen a List.mem_cons_self hPa).mp ha)]
        exact ih hP' fun b hb => hseen b (List.mem_cons_of_mem _ hb)
      · rw [firsts_cons_of_not_mem ha,
          firsts_cons_of_not_mem (mt (hseen a List.mem_cons_self hPa).mpr ha),
          List.filter_cons_of_pos hPa]
        refine congrArg (a :: ·) (ih hP' fun b hb hPb => ?_)
        rw [List.mem_cons, List.mem_cons, hseen b (List.mem_cons_of_mem _ hb) hPb]
    · rw [List.filter_cons_of_neg hPa]
      rw [Bool.not_eq_true] at hPa
      by_cases ha : key a ∈ seen
      · rw [firsts_cons_of_mem ha]
        exact ih hP' fun b hb => hseen b (List.mem_cons_of_mem _ hb)
      · rw [firsts_cons_of_not_mem ha, List.filter_cons_of_neg (by simp [hPa])]
        refine ih hP' fun b hb hPb => ?_
        rw [List.mem_cons, or_iff_right (hkept b hb hPb hPa)]
        exact hseen b (List.mem_cons_of_mem _ hb) hPb

theorem firsts_id_eq_eraseDups (seen ks : List κ) :
    firsts id seen ks = (ks.filter fun k => k ∉ seen).eraseDups := by
  induction ks generalizing seen with
  | nil => rfl
  | cons k ks ih =>
    by_cases hk : k ∈ seen
    · rw [firsts_cons_of_mem hk, ih, List.filter_cons_of_neg (by simpa using hk)]
    · rw [firsts_cons_of_not_mem hk, ih, List.filter_cons_of_pos (by simpa using hk),
        List.eraseDups_cons, List.filter_filter]
      congr 2
      refine List.filter_congr fun k' _ => ?_
      by_cases hk' : k' = k <;> simp [hk']

theorem key_mem_map_firsts (ha : a ∈ l) (h : key a ∉ seen) :
    key a ∈ (firsts key seen l).map key := by
  rw [show (firsts key seen l).map key = _ from map_firsts id key seen l, firsts_id_eq_eraseDups,
    List.mem_eraseDups, List.mem_filter]
  exact ⟨List.mem_map_of_mem ha, by simpa using h⟩

/-- Every key of the list comes once, where it comes first. -/
theorem map_firsts_eq_eraseDups : (firsts key [] l).map key = (l.map key).eraseDups := by
  have h := map_firsts id key [] l
  rw [firsts_id_eq_eraseDups, List.filter_eq_self.mpr (by simp)] at h
  exact h

/-- The first element of a key is the one that a search for the key finds. -/
theorem find?_firsts (h : k ∉ seen) :
    (firsts key seen l).find? (key · == k) = l.find? (key · == k) := by
  induction l generalizing seen with
  | nil => rfl
  | cons a l ih =>
    by_cases ha : key a ∈ seen
    · have hne : key a ≠ k := fun hk => h (hk ▸ ha)
      rw [firsts_cons_of_mem ha, ih h, List.find?_cons_of_neg (by simpa using hne)]
    · rw [firsts_cons_of_not_mem ha]
      by_cases hk : key a = k
      · rw [List.find?_cons_of_pos (by simpa using hk), List.find?_cons_of_pos (by simpa using hk)]
      · rw [List.find?_cons_of_neg (by simpa using hk), List.find?_cons_of_neg (by simpa using hk)]
        exact ih (by simp [h, Ne.symm hk])

theorem lookup_map_eq_find? (key : α → κ) (g : α → β) (l : List α) (k : κ) :
    (l.map fun a => (key a, g a)).lookup k = (l.find? (key · == k)).map g := by
  induction l with
  | nil => rfl
  | cons a l ih =>
    rw [List.map_cons, List.lookup_cons]
    by_cases hk : key a = k
    · simp [hk]
    · rw [beq_false_of_ne (Ne.symm hk), List.find?_cons_of_neg (by simpa using hk)]
      exact ih

/-! ## Repetitions -/

/-- The elements whose key comes before them; `seen` holds keys from before the list. -/
def repeats (key : α → κ) : List κ → List α → List α
  | _, [] => []
  | seen, a :: l => (if key a ∈ seen then [a] else []) ++ repeats key (key a :: seen) l

theorem repeats_cons_of_mem (h : key a ∈ seen) :
    repeats key seen (a :: l) = a :: repeats key (key a :: seen) l := by
  rw [repeats, if_pos h, List.singleton_append]

theorem repeats_cons_of_not_mem (h : key a ∉ seen) :
    repeats key seen (a :: l) = repeats key (key a :: seen) l := by
  rw [repeats, if_neg h, List.nil_append]

theorem sublist_repeats : (repeats key seen l).Sublist l := by
  induction l generalizing seen with
  | nil => exact .slnil
  | cons a l ih =>
    by_cases ha : key a ∈ seen
    · rw [repeats_cons_of_mem ha]
      exact ih.cons_cons a
    · rw [repeats_cons_of_not_mem ha]
      exact ih.cons a

theorem mem_repeats_of_key_mem (h : key a ∈ seen) : a ∈ repeats key seen l ↔ a ∈ l := by
  induction l generalizing seen with
  | nil => simp [repeats]
  | cons b l ih =>
    have ih := ih (List.mem_cons_of_mem (key b) h)
    by_cases hb : key b ∈ seen
    · rw [repeats_cons_of_mem hb, List.mem_cons, List.mem_cons, ih]
    · have hne : a ≠ b := fun hab => hb (hab ▸ h)
      rw [repeats_cons_of_not_mem hb, ih, List.mem_cons, or_iff_right hne]

theorem mem_repeats_iff (h : key a ∉ seen) :
    a ∈ repeats key seen l ↔ a ∈ (l.filter (key · == key a)).tail := by
  induction l generalizing seen with
  | nil => simp [repeats]
  | cons b l ih =>
    by_cases hkey : key b = key a
    · have hb : key b ∉ seen := hkey ▸ h
      have hmem : key a ∈ key b :: seen := List.mem_cons.mpr (.inl hkey.symm)
      rw [repeats_cons_of_not_mem hb, mem_repeats_of_key_mem hmem,
        List.filter_cons_of_pos (by simpa using hkey), List.tail_cons, List.mem_filter,
        beq_self_eq_true, and_iff_left rfl]
    · have hseen : key a ∉ key b :: seen := by simp [h, Ne.symm hkey]
      have hab : a ≠ b := fun hab => hkey (congrArg key hab.symm)
      rw [List.filter_cons_of_neg (by simpa using hkey), ← ih hseen, repeats, List.mem_append]
      refine or_iff_right fun hmem => ?_
      split at hmem
      · exact hab (List.mem_singleton.mp hmem)
      · cases hmem

theorem repeats_firsts : repeats key seen (firsts key seen l) = [] := by
  induction l generalizing seen with
  | nil => rfl
  | cons a l ih =>
    by_cases ha : key a ∈ seen
    · rw [firsts_cons_of_mem ha, ih]
    · rw [firsts_cons_of_not_mem ha, repeats_cons_of_not_mem ha, ih]

end Sema
