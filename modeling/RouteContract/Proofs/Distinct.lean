import Mathlib

/-!
# Lists in which nothing is repeated

`List.eraseDups` keeps the first of each element. A loop that adds what is not there yet comes to
the same (`foldl_eq_eraseDups`), and a loop in which nothing that was done is done again may go over
the shorter list (`foldl_eraseDups`).
-/

namespace RouteContract

/-- A list without repetitions is left. -/
theorem nodup_eraseDups {α : Type} [BEq α] [LawfulBEq α] (l : List α) : l.eraseDups.Nodup := by
  induction hn : l.length using Nat.strong_induction_on generalizing l with
  | _ n ih =>
    cases l with
    | nil => simp
    | cons a l =>
      have hlt : (l.filter fun b => !b == a).length < n := by
        have := List.length_filter_le (fun b => !b == a) l
        rw [List.length_cons] at hn
        omega
      rw [List.eraseDups_cons, List.nodup_cons]
      refine ⟨fun ha => ?_, ih _ hlt _ rfl⟩
      rw [List.mem_eraseDups, List.mem_filter] at ha
      simp at ha

section

variable {α : Type} [BEq α] [LawfulBEq α]

theorem eraseDups_concat (l : List α) (a : α) :
    (l ++ [a]).eraseDups = if a ∈ l then l.eraseDups else l.eraseDups ++ [a] := by
  rw [List.eraseDups_append]
  by_cases h : a ∈ l <;> simp [List.removeAll, List.eraseDups_cons, h]

/-- Adding what is not there yet, one by one, keeps the first of each element. -/
theorem foldl_eq_eraseDups {add : List α → α → List α} {l : List α}
    (h : ∀ a ∈ l, ∀ before, add before a = if a ∈ before then before else before ++ [a]) :
    l.foldl add [] = l.eraseDups := by
  induction l using List.reverseRecOn with
  | nil => rfl
  | append_singleton l a ih =>
    rw [List.foldl_append, ih fun b hb => h b (List.mem_append_left _ hb), List.foldl_cons,
      List.foldl_nil, h a (by simp), eraseDups_concat]
    simp only [List.mem_eraseDups]

/-- A loop in which nothing that was done is done again may leave out what is repeated. -/
theorem foldl_eraseDups {σ : Type} {f : σ → α → σ} {I : σ → Prop}
    {D : α → σ → Prop} (hI : ∀ s a, I s → I (f s a)) (hdone : ∀ s a, I s → D a (f s a))
    (hkeep : ∀ s a b, D a s → D a (f s b)) (hidle : ∀ s a, D a s → f s a = s)
    (l : List α) {s : σ} (hs : I s) : l.eraseDups.foldl f s = l.foldl f s := by
  have hfilter : ∀ (a : α) (l : List α) (s : σ), D a s →
      (l.filter fun b => !b == a).foldl f s = l.foldl f s := by
    intro a l
    induction l with
    | nil => exact fun _ _ => rfl
    | cons b l ih =>
      intro s hs
      by_cases hb : b = a
      · subst hb
        rw [List.filter_cons_of_neg (by simp), List.foldl_cons, hidle s b hs, ih s hs]
      · rw [List.filter_cons_of_pos (by simpa using hb), List.foldl_cons, List.foldl_cons,
          ih _ (hkeep s a b hs)]
  induction hn : l.length using Nat.strong_induction_on generalizing l s with
  | _ n ih =>
    cases l with
    | nil => simp
    | cons a l =>
      have hlt : (l.filter fun b => !b == a).length < n := by
        have := List.length_filter_le (fun b => !b == a) l
        rw [List.length_cons] at hn
        omega
      rw [List.eraseDups_cons, List.foldl_cons, List.foldl_cons, ih _ hlt _ (hI s a hs) rfl,
        hfilter a l _ (hdone s a hs)]

end

end RouteContract
