import Mathlib
import RouteContract.Proofs.Distinct

/-!
# Placing by name

What is placed into a list takes the place of the first one of its name, else it stands at the end.
When a row is placed so, one after the other, each name is listed once, in the order of first
occurrence, and what is found under a name is the last of that name in the row (`LastWins`).
-/

namespace RouteContract.Types

variable {α : Type} {name : α → String} {given symbols : List α} {a : α}

/-- Put something in the place of the first one of its name, else at the end. -/
def place (name : α → String) (a : α) : List α → List α
  | [] => [a]
  | old :: rest => if name old = name a then a :: rest else old :: place name a rest

theorem mem_of_mem_place {r : α} {l : List α} (h : r ∈ place name a l) : r = a ∨ r ∈ l := by
  induction l with
  | nil => exact Or.inl (List.mem_singleton.1 h)
  | cons old rest ih =>
    rw [place] at h
    split at h
    · exact (List.mem_cons.1 h).imp_right (List.mem_cons_of_mem _)
    · rcases List.mem_cons.1 h with rfl | h
      · exact Or.inr List.mem_cons_self
      · exact (ih h).imp_right (List.mem_cons_of_mem _)

theorem map_place (name : α → String) (a : α) (l : List α) :
    (place name a l).map name =
      if name a ∈ l.map name then l.map name else l.map name ++ [name a] := by
  induction l with
  | nil => simp [place]
  | cons old rest ih =>
    rw [place]
    by_cases hname : name old = name a
    · simp [hname]
    · have hfirst : name a ≠ name old := Ne.symm hname
      rw [if_neg hname, List.map_cons, ih, List.map_cons]
      by_cases ha : name a ∈ rest.map name
      · rw [if_pos ha, if_pos (List.mem_cons_of_mem _ ha)]
      · rw [if_neg ha, if_neg (List.not_mem_cons_of_ne_of_not_mem hfirst ha), List.cons_append]

/-- Under its name what was placed is found, and under other names what was found before. -/
theorem find?_place (name : α → String) (a : α) (l : List α) (n : String) :
    (place name a l).find? (name · = n) =
      if name a = n then some a else l.find? (name · = n) := by
  induction l with
  | nil =>
    by_cases hn : name a = n <;> simp [place, hn]
  | cons old rest ih =>
    rw [place]
    by_cases hname : name old = name a
    · rw [if_pos hname, List.find?_cons, List.find?_cons, hname]
      by_cases hn : name a = n <;> simp [hn]
    · rw [if_neg hname, List.find?_cons, ih, List.find?_cons]
      by_cases hold : name old = n
      · have hne : name a ≠ n := fun h => hname (hold.trans h.symm)
        simp [hold, hne]
      · simp [hold]

/-- A row was placed by name: each name is listed once, in the order of first occurrence, and the
last of the row is found under it. -/
structure LastWins (name : α → String) (given symbols : List α) : Prop where
  mem : ∀ s ∈ symbols, s ∈ given
  names : symbols.map name = (given.map name).eraseDups
  found : ∀ n, symbols.find? (name · = n) = given.reverse.find? (name · = n)

theorem lastWins_nil : LastWins name [] [] :=
  ⟨fun _ h => absurd h List.not_mem_nil, by simp, fun _ => rfl⟩

theorem LastWins.place (h : LastWins name given symbols) (a : α) :
    LastWins name (given ++ [a]) (place name a symbols) where
  mem s hs := by
    rcases mem_of_mem_place hs with rfl | hs
    · simp
    · exact List.mem_append_left _ (h.mem s hs)
  names := by
    rw [map_place, List.map_append, List.map_singleton, eraseDups_concat, h.names]
    simp only [List.mem_eraseDups]
  found n := by
    rw [find?_place, h.found, List.reverse_append, List.reverse_singleton, List.singleton_append,
      List.find?_cons]
    by_cases hn : name a = n <;> simp [hn]

theorem LastWins.foldl_place (h : LastWins name given symbols) (more : List α) :
    LastWins name (given ++ more) (more.foldl (fun l a => Types.place name a l) symbols) := by
  induction more generalizing given symbols with
  | nil => rwa [List.append_nil]
  | cons a more ih =>
    rw [List.append_cons]
    exact ih (h.place a)

/-- Only the names of the row matter. -/
theorem LastWins.congr {name' : α → String} (h : LastWins name given symbols)
    (heq : ∀ s ∈ given, name' s = name s) : LastWins name' given symbols where
  mem := h.mem
  names := by
    rw [List.map_congr_left fun s hs => heq s (h.mem s hs), List.map_congr_left heq, h.names]
  found n := by
    have same : ∀ l : List α, (∀ s ∈ l, s ∈ given) →
        l.find? (name' · = n) = l.find? (name · = n) := fun l hl =>
      List.find?_congr fun s hs => by rw [heq s (hl s hs)]
    rw [same _ h.mem, same _ fun s hs => List.mem_reverse.1 hs, h.found]

end RouteContract.Types
